import Spellbook.Proofs.Evaluation.Logic

/-! The rules of the logic: what abides by it if its parts do, and the steps that do not evaluate
anything. -/
namespace Spellbook

namespace Eval

variable {α : Type} {act : Op α} {m : Machine}

theorem operate_of_ok {a : α} {s : Store} (h : act m.store = .ok a s) :
    operate act m = .ok (.ok a) { m with store := s } := by rw [operate, h]

theorem operate_of_error {e : Fault} {s : Store} (h : act m.store = .error e s) :
    operate act m = .ok (.error e) { m with store := s } := by rw [operate, h]

end Eval

namespace Abides

open Bearing Estate

variable {ι α β γ : Type} [Bearing α] [Bearing β] {L : Logic ι} {m m' : Machine} {w : World}

/-- An action that is the same for all members. -/
theorem const {act : Eval α} (h : L.Allows m (act m)) : Abides L (fun _ => act) m :=
  .inr ⟨act m, .of_forall fun _ => rfl, h⟩

theorem allows {act : Eval α} (h : Abides L (fun _ => act) m) : L.Allows m (act m) := by
  rcases h with ⟨alarm, _, m₁, m₂, h₁, h₂, hne⟩ | ⟨r, hr, hallows⟩
  · cases h₁.symm.trans h₂
    exact absurd rfl hne
  · have := L.proper
    obtain ⟨_, rfl⟩ := hr.exists
    exact hallows

/-- Unless there are two who may raise an alarm, none is raised. -/
theorem agreed {x : ι → Eval α} (hx : Abides L x m) (h : ∀ alarm ∈ L.alarm, alarm.1 = alarm.2) :
    ∃ r, (∀ᶠ i in L.family, x i m = r) ∧ L.Allows m r := by
  rcases hx with ⟨alarm, ha, m₁, m₂, h₁, h₂, hne⟩ | hr
  · rw [h alarm ha, h₂] at h₁
    cases h₁
    exact absurd rfl hne
  · exact hr

/-- A first step may be taken before. -/
theorem step {x y : ι → Eval α} (h : ∀ i, x i m = y i m') (hg : L.Goes m m')
    (hy : Abides L y m') : Abides L x m := by
  rcases hy with ⟨alarm, ha, hy⟩ | ⟨r, hr, hallows⟩
  · exact .inl ⟨alarm, ha, hy.step h⟩
  · refine .inr ⟨r, ?_, hallows.earlier hg⟩
    filter_upwards [hr] with i hr
    rw [h, hr]

theorem of_eq {x y : ι → Eval α} (hm : L.Leads m.store m.store) (h : ∀ i, x i m = y i m)
    (hy : Abides L y m) : Abides L x m :=
  step h (Logic.goes_refl hm) hy

theorem of_eventually {x y : ι → Eval α} (h : ∀ᶠ i in L.family, x i = y i) (hy : Abides L y m) :
    Abides L x m := by
  rcases hy with ⟨alarm, ha, hy⟩ | ⟨r, hr, hallows⟩
  · rw [L.heard alarm ha, Filter.eventually_top] at h
    exact .inl ⟨alarm, ha, hy.step fun i => congrFun (h i) m⟩
  · refine .inr ⟨r, ?_, hallows⟩
    filter_upwards [h, hr] with i h hr
    rw [h, hr]

/-- What comes after may rely on what came before. -/
theorem follow {x : ι → Eval α} {k : ι → α → Eval β} (hx : Abides L x m)
    (hk : ∀ a m', (∀ᶠ i in L.family, x i m = .ok a m') → L.Goes m m' → L.Knows m'.store a →
      Abides L (fun i => k i a) m') :
    Abides L (fun i => x i >>= k i) m := by
  rcases hx with ⟨alarm, ha, hx⟩ | ⟨r, hr, hallows⟩
  · exact .inl ⟨alarm, ha, hx.bind k⟩
  · cases r with
    | error e m' =>
      refine .inr ⟨.error e m', ?_, hallows.stopped hallows.goes rfl⟩
      filter_upwards [hr] with i hr
      simp only [Bind.bind, EStateM.bind, hr]
    | ok a m' =>
      have hgoes : L.Goes m m' := hallows.goes
      rcases hk a m' hr hgoes (hallows.result a m' rfl) with ⟨alarm, ha, hnext⟩ | ⟨r, hr', hnext⟩
      · rw [L.heard alarm ha, Filter.eventually_top] at hr
        refine .inl ⟨alarm, ha, hnext.step fun i => ?_⟩
        simp only [Bind.bind, EStateM.bind, hr]
      · refine .inr ⟨r, ?_, hnext.earlier hgoes⟩
        filter_upwards [hr, hr'] with i hr hr'
        simp only [Bind.bind, EStateM.bind, hr, hr']

theorem bind {x : ι → Eval α} {k : ι → α → Eval β} (hx : Abides L x m)
    (hk : ∀ a m', L.Goes m m' → L.Knows m'.store a → Abides L (fun i => k i a) m') :
    Abides L (fun i => x i >>= k i) m :=
  hx.follow fun a m' _ => hk a m'

/-- After an action that is the same for all members, it is known what it has given. -/
theorem after {act : Eval α} {k : ι → α → Eval β} (hx : Abides L (fun _ => act) m)
    (hk : ∀ a m', act m = .ok a m' → L.Goes m m' → L.Knows m'.store a →
      Abides L (fun i => k i a) m') :
    Abides L (fun i => act >>= k i) m := by
  refine hx.follow fun a m' hr => hk a m' ?_
  have := L.proper
  exact hr.exists.choose_spec

/-- What comes after something that has no result does not matter. -/
theorem fails {act : Eval α} {k : ι → α → Eval β} (hx : Abides L (fun _ => act) m)
    (h : ∀ a m', act m ≠ .ok a m') : Abides L (fun i => act >>= k i) m :=
  hx.after fun a m' hok => absurd hok (h a m')

theorem look (f : Machine → γ) {k : ι → γ → Eval β} (h : Abides L (fun i => k i (f m)) m) :
    Abides L (fun i => Eval.look f >>= k i) m := h

theorem view (f : ι → Store → γ) {k : ι → γ → Eval β}
    (h : Abides L (fun i => k i (f i m.store)) m) :
    Abides L (fun i => Eval.view (f i) >>= k i) m := h

theorem pure {a : α} (hm : L.Leads m.store m.store) (ha : L.Knows m.store a) :
    Abides L (fun _ => (Pure.pure a : Eval α)) m :=
  const (.ok (Logic.goes_refl hm) ha)

theorem throw {f : Ref .failure} (hm : L.Leads m.store m.store) (hf : L.Knows m.store f) :
    Abides L (fun _ => (MonadExcept.throw (.raised f) : Eval α)) m :=
  const (.error (Logic.goes_refl hm) hf)

theorem spent (he : ¬ L.ends) (hm : L.Leads m.store m.store) :
    Abides L (fun _ => (MonadExcept.throw .outOfFuel : Eval α)) m :=
  const (.spent (Logic.goes_refl hm) he)

theorem map {x : ι → Eval α} {f : α → β} (hx : Abides L x m)
    (hf : ∀ a (m' : Machine), L.Knows m'.store a → L.Knows m'.store (f a)) :
    Abides L (fun i => x i >>= fun a => Pure.pure (f a)) m :=
  hx.bind fun a m' h ha => .pure h.orderly (hf a m' ha)

theorem seen {f : Store → α} (hm : L.Leads m.store m.store) (hf : L.Knows m.store (f m.store)) :
    Abides L (fun _ => Eval.view f) m :=
  const (.ok (Logic.goes_refl hm) hf)

theorem write (text : String) (hm : L.Leads m.store m.store) :
    Abides L (fun _ => Eval.write text) m :=
  const (.ok ⟨⟨⟨rfl, rfl, rfl, rfl, List.suffix_rfl⟩, id⟩, hm⟩ (knows_nothing rfl))

theorem create {make : Store → α × Store}
    (h : L.Leads m.store (make m.store).2 ∧ L.Knows (make m.store).2 (make m.store).1) :
    Abides L (fun _ => Eval.create make) m :=
  const (.ok (Logic.goes_store h.1) h.2)

theorem created {make : Store → γ × Store} {k : ι → γ → Eval β}
    (h : L.Leads m.store (make m.store).2)
    (hk : Abides L (fun i => k i (make m.store).1) { m with store := (make m.store).2 }) :
    Abides L (fun i => Eval.create make >>= k i) m :=
  step (y := fun i => k i (make m.store).1) (fun _ => rfl) (Logic.goes_store h) hk

theorem change {f : Store → Store} (h : L.Leads m.store (f m.store)) :
    Abides L (fun _ => Eval.change f) m :=
  const (.ok (Logic.goes_store h) (knows_nothing rfl))

theorem modified {f : Machine → Machine} {k : ι → Unit → Eval β} (hf : L.Goes m (f m))
    (h : Abides L (fun i => k i ()) (f m)) :
    Abides L (fun i => (modify f : Eval Unit) >>= k i) m :=
  step (y := fun i => k i ()) (fun _ => rfl) hf h

theorem caught {x : ι → Eval α} (hx : Abides L x m) :
    Abides L (fun i => Eval.caught (x i)) m := by
  rcases hx with ⟨alarm, ha, hx⟩ | ⟨r, hr, hallows⟩
  · exact .inl ⟨alarm, ha, hx.caught⟩
  · cases r with
    | ok a m' =>
      refine .inr ⟨.ok (.ok a) m', ?_, .ok hallows.goes (hallows.result a m' rfl)⟩
      filter_upwards [hr] with i hr
      simp only [Eval.caught, hr]
    | error e m' =>
      cases e with
      | raised f =>
        refine .inr ⟨.ok (.error f) m', ?_, .ok hallows.goes (hallows.raised f m' rfl)⟩
        filter_upwards [hr] with i hr
        simp only [Eval.caught, hr]
      | outOfFuel =>
        refine .inr ⟨.error .outOfFuel m', ?_, hallows.stopped hallows.goes rfl⟩
        filter_upwards [hr] with i hr
        simp only [Eval.caught, hr]

/-- A bracket whose second change undoes the first, and which leaves the store and the output to
what it encloses. -/
theorem bracket {σ : Type} {save : Machine → σ} {enter : Machine → Machine}
    {leave : σ → Machine → Machine} {x : ι → Eval α} (hx : Abides L x (enter m))
    (he : L.Leads m.store (enter m).store)
    (hk : ∀ m', (enter m).Stays m' → m.Stays (leave (save m) m'))
    (hs : ∀ m', (leave (save m) m').store = m'.store)
    (ho : ∀ m', (leave (save m) m').output = m'.output) :
    Abides L (fun i => Eval.bracket save enter leave (x i)) m := by
  rcases hx with ⟨alarm, ha, hx⟩ | ⟨r, hr, hallows⟩
  · exact .inl ⟨alarm, ha, hx.bracket ho⟩
  · have hleave : L.Goes m (leave (save m) (endState r)) := by
      refine ⟨hk _ hallows.goes.stays, ?_⟩
      rw [hs]
      exact L.trans he hallows.goes.leads
    cases r with
    | ok a m' =>
      refine .inr ⟨.ok a (leave (save m) m'), ?_, .ok hleave ?_⟩
      · filter_upwards [hr] with i hr
        simp only [Eval.bracket, hr]
      · rw [hs]
        exact hallows.result a m' rfl
    | error e m' =>
      refine .inr ⟨.error e (leave (save m) m'), ?_, hallows.stopped hleave (hs m')⟩
      filter_upwards [hr] with i hr
      simp only [Eval.bracket, hr]

section Brackets

variable {x : ι → Eval α} (hm : L.Leads m.store m.store)

include hm

theorem inScope {scope : Ref .scope} (hx : Abides L x { m with scope := scope }) :
    Abides L (fun i => Eval.inScope scope (x i)) m :=
  bracket hx hm (fun _ h => ⟨⟨rfl, h.frames, h.owner, h.file, h.imported⟩, h.distinct⟩)
    (fun _ => rfl) fun _ => rfl

theorem ownedBy {owner : Option (Ref .grimoire)} (hx : Abides L x { m with owner := owner }) :
    Abides L (fun i => Eval.ownedBy owner (x i)) m :=
  bracket hx hm (fun _ h => ⟨⟨h.scope, h.frames, rfl, h.file, h.imported⟩, h.distinct⟩)
    (fun _ => rfl) fun _ => rfl

theorem inFile {file : String} (hx : Abides L x { m with file := some file }) :
    Abides L (fun i => Eval.inFile file (x i)) m :=
  bracket hx hm (fun _ h => ⟨⟨h.scope, h.frames, h.owner, rfl, h.imported⟩, h.distinct⟩)
    (fun _ => rfl) fun _ => rfl

/-- The frame on top is the one that the call has put there, as its body has put back all of its
own. -/
theorem inCall {frame : Frame} (hx : Abides L x { m with frames := frame :: m.frames }) :
    Abides L (fun i => Eval.inCall frame (x i)) m := by
  refine bracket hx hm (fun m' h => ?_) (fun _ => rfl) fun _ => rfl
  have hframes : m'.frames.tail = m.frames := by simp only [h.frames, List.tail_cons]
  exact ⟨⟨h.scope, hframes, h.owner, h.file, h.imported⟩, h.distinct⟩

end Brackets

theorem operate {act : Op α} (ha : act.Abides L.toEstate m.store) :
    Abides L (fun _ => Eval.operate act) m := by
  have hleads := ha.leads
  have hresult := ha.result
  apply const
  cases hr : act m.store with
  | ok a s =>
    rw [hr] at hleads
    rw [Eval.operate_of_ok hr]
    exact .ok (Logic.goes_store hleads) (hresult a s hr)
  | error e s =>
    rw [hr] at hleads
    rw [Eval.operate_of_error hr]
    exact .ok (Logic.goes_store hleads) (knows_nothing rfl)

theorem resume {r : Except (Ref .failure) α} (hm : L.Leads m.store m.store)
    (hr : L.Knows m.store r) : Abides L (fun _ => Eval.resume r) m := by
  cases r with
  | ok a => exact .pure hm hr
  | error f => exact .throw hm hr

/-! Failures -/

theorem raised {f : Failure} (h : L.Leads m.store (m.store.newFailure f).2 ∧
    L.holds (m.store.newFailure f).2 (.value (.caught (m.store.newFailure f).1))) :
    Abides L (fun _ => (Eval.raise f : Eval α)) m :=
  const (.error (Logic.goes_store h.1) (knows_value (v := .caught _) |>.2 h.2))

theorem raise {f : Failure} (hm : L.Suits m) (hf : m.Says L.place f)
    (hi : L.Knows m.store f) : Abides L (fun _ => (Eval.raise f : Eval α)) m :=
  raised (L.raise hm.orderly hm.fits hf hi)

theorem fail {pos : Pos} (fault : Fault) (hm : L.Suits m) (hp : L.place (m.located pos)) :
    Abides L (fun _ => (Eval.fail w pos fault : Eval α)) m :=
  .look _ (.look _ (.raise hm (.traced _ _ _ _ hp nofun) (knows_nothing rfl)))

theorem located {pos : Pos} {r : Except Fault α} (hm : L.Suits m) (hp : L.place (m.located pos))
    (hr : L.Knows m.store r) : Abides L (fun _ => Eval.located w pos r) m := by
  cases r with
  | ok a => exact .pure hm.orderly hr
  | error fault => exact .fail fault hm hp

theorem operateAt {pos : Pos} {act : Op α} (hm : L.Suits m) (hp : L.place (m.located pos))
    (ha : act.Abides L.toEstate m.store) : Abides L (fun _ => Eval.operateAt w pos act) m :=
  (operate ha).bind fun _ _ h hr => .located (h.suits hm) (h.place hp) hr

end Abides

end Spellbook
