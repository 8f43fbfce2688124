import Spellbook.Proofs.Evaluation.Expressions

/-! The rules for statements abide by a logic if the parts do that they evaluate, the spells that they
start and the modules that they run. -/
namespace Spellbook

open Bearing Estate

theorem Code.pos_mem_places {s : Stmt} {e : Expr} (he : e ∈ s.trees) :
    e.pos ∈ (Code.stmt s).places :=
  List.mem_append_right _ (List.mem_flatMap.2 ⟨e, he, e.pos_mem_places⟩)

namespace Abides

variable {ι : Type} {L : Logic ι} {w : World} {E : ι → Evaluator} {G : Ground L} {m : Machine}

/-! Assignments -/

theorem assignTarget {target : Target} {v : Value} (he : ∀ e ∈ target.exprs, G.Takes E e)
    (hm : G.here m) (hp : L.place (m.located target.toExpr.pos)) (hv : L.Knows m.store v)
    (hb : ∀ name ∈ target.names, L.Frees m name) :
    Abides L (fun i => (E i).assign w target v) m := by
  have hadmits := G.admits hm
  cases target with
  | tuple pos names =>
    exact .assignParts hadmits hp hv fun id hid => hb _ (List.mem_map_of_mem hid)
  | place p =>
    cases p with
    | name id => exact .assign hadmits hv (hb _ List.mem_cons_self v)
    | attr object id =>
      refine (he object List.mem_cons_self hm).bind fun o _ h ho => ?_
      exact .setAttr (h.admits hadmits) (h.place hp) ho (hv.later h.leads)
    | index pos object i =>
      have hindex := he i (List.mem_cons_of_mem _ List.mem_cons_self)
      refine (he object List.mem_cons_self hm).bind fun o m₁ h₁ ho => ?_
      refine (hindex (G.later hm h₁)).bind fun i _ h₂ hi => ?_
      have h := h₁.trans h₂
      exact .operateAt (h.suits hadmits.toSuits) (h.place hp)
        (.setIndex h.orderly (ho.later h₂.leads) hi (hv.later h.leads))

theorem update {place : Place} (op : Update) {pos : Pos} {v : Value}
    (he : ∀ e ∈ place.exprs, G.Takes E e) (hm : G.here m) (hpos : L.place (m.located pos))
    (hp : L.place (m.located place.toExpr.pos)) (hv : L.Knows m.store v)
    (hb : ∀ name ∈ place.names, L.Frees m name)
    (hw : ∀ object id, place = .attr object id →
      ∀ o m', (∀ᶠ i in L.family, (E i).expr object m = .ok o m') → L.Wraps m' o) :
    Abides L (fun i => (E i).update w place op pos v) m := by
  have hadmits := G.admits hm
  cases place with
  | name id =>
    refine (lookup hadmits hp).bind fun old m₁ h₁ hold => ?_
    refine (operateAt (h₁.suits hadmits.toSuits) (h₁.place hpos)
      (.operator h₁.orderly _ hold (hv.later h₁.leads))).bind fun new m₂ h₂ hnew => ?_
    have h := h₁.trans h₂
    exact .assign (h.admits hadmits) hnew (hadmits.frees h (hb _ List.mem_cons_self) new)
  | attr object id =>
    refine (he object List.mem_cons_self hm).follow fun o m₁ hok h₁ ho => ?_
    refine (attr (h₁.admits hadmits) (h₁.place hp) ho (hw object id rfl o m₁ hok)).bind
      fun old m₂ h₂ hold => ?_
    have h₁₂ := h₁.trans h₂
    refine (operateAt (h₁₂.suits hadmits.toSuits) (h₁₂.place hpos)
      (.operator h₂.orderly _ hold (hv.later h₁₂.leads))).bind fun new m₃ h₃ hnew => ?_
    have h := h₁₂.trans h₃
    exact .setAttr (h.admits hadmits) (h.place hp) ((ho.later h₂.leads).later h₃.leads) hnew
  | index bracket object i =>
    have hindex := he i (List.mem_cons_of_mem _ List.mem_cons_self)
    refine (he object List.mem_cons_self hm).bind fun o m₁ h₁ ho => ?_
    refine (hindex (G.later hm h₁)).bind fun i m₂ h₂ hi => ?_
    have ho₂ := ho.later h₂.leads
    have h₁₂ := h₁.trans h₂
    refine (operateAt (h₁₂.suits hadmits.toSuits) (h₁₂.place hp) (.index h₂.orderly i ho₂)).bind
      fun old m₃ h₃ hold => ?_
    have h₁₃ := h₁₂.trans h₃
    refine (operateAt (h₁₃.suits hadmits.toSuits) (h₁₃.place hpos)
      (.operator h₃.orderly _ hold (hv.later h₁₃.leads))).bind fun new m₄ h₄ hnew => ?_
    have h := h₁₃.trans h₄
    exact .operateAt (h.suits hadmits.toSuits) (h.place hp) (.setIndex h₄.orderly
      ((ho₂.later h₃.leads).later h₄.leads) ((hi.later h₃.leads).later h₄.leads) hnew)

/-! Attempts -/

theorem handles {h : Ensnare} (he : ∀ e ∈ h.condition, G.Takes E e) (failure : Ref .failure)
    (hm : G.here m) : Abides L (fun i => (E i).handles h failure) m := by
  have ho := (G.admits hm).orderly
  unfold Evaluator.handles
  split
  · exact .pure ho (knows_nothing rfl)
  · rename_i condition hcondition
    refine (catchAll? h ho).bind fun name m₁ h₁ _ => ?_
    split
    · exact .pure h₁.orderly (knows_nothing rfl)
    · refine (he condition hcondition (G.later hm h₁)).bind fun v _ h₂ _ => ?_
      exact .seen h₂.orderly (knows_nothing rfl)

theorem handle {h : Ensnare} {failure : Ref .failure} (hs : ∀ s ∈ h.body, G.Does E s)
    (hm : G.here m) (hf : L.Knows m.store failure)
    (hb : ∀ name ∈ h.names, L.binds m.store m.scope name (.caught failure)) :
    Abides L (fun i => (E i).handle h failure) m :=
  have hprepared := prepared (G.admits hm) hf hb
  .step (fun i => Evaluator.handle_eq (E i) h failure m) hprepared
    (.block hs (G.later hm hprepared))

theorem dispatch {handlers : List Ensnare} {failure : Ref .failure}
    (he : ∀ e ∈ handlers.filterMap (·.condition), G.Takes E e)
    (hs : ∀ s ∈ handlers.flatMap (·.body), G.Does E s) (hm : G.here m)
    (hf : L.Knows m.store failure)
    (hb : ∀ name ∈ handlers.flatMap Ensnare.names,
      L.binds m.store m.scope name (.caught failure)) :
    Abides L (fun i => (E i).dispatch failure handlers) m := by
  induction handlers generalizing m with
  | nil => exact .throw (G.admits hm).orderly hf
  | cons h rest ih =>
    have hcondition : ∀ e ∈ h.condition, G.Takes E e :=
      fun e hc => he e (List.mem_filterMap.2 ⟨h, List.mem_cons_self, hc⟩)
    have hrest : ∀ e ∈ rest.filterMap (·.condition), G.Takes E e := by
      intro e hc
      obtain ⟨h', hmem, hc⟩ := List.mem_filterMap.1 hc
      exact he e (List.mem_filterMap.2 ⟨h', List.mem_cons_of_mem _ hmem, hc⟩)
    simp only [List.flatMap_cons, List.forall_mem_append] at hs hb
    refine (handles hcondition failure hm).bind fun b m₁ h₁ _ => ?_
    have hadmits := G.admits hm
    cases b with
    | true =>
      exact .handle hs.1 (G.later hm h₁) (hf.later h₁.leads)
        fun name hname => hadmits.binds h₁ (hb.1 name hname)
    | false =>
      exact ih hrest hs.2 (G.later hm h₁) (hf.later h₁.leads)
        fun name hname => hadmits.binds h₁ (hb.2 name hname)

theorem settle {resolve : Option (List Stmt)} {outcome : Except (Ref .failure) Flow}
    (hs : ∀ s ∈ resolve.getD [], G.Does E s) (hm : G.here m) (ho : L.Knows m.store outcome) :
    Abides L (fun i => (E i).settle resolve outcome) m := by
  cases resolve with
  | none => exact .resume (G.admits hm).orderly ho
  | some body =>
    refine (block hs hm).bind fun flow m₁ h₁ hflow => ?_
    cases flow with
    | value v => exact .resume h₁.orderly (ho.later h₁.leads)
    | give v => exact .pure h₁.orderly hflow
    | stop => exact .pure h₁.orderly hflow
    | skip => exact .pure h₁.orderly hflow

theorem attempt {body : List Stmt} {handlers : List Ensnare} {resolve : Option (List Stmt)}
    (he : ∀ e ∈ handlers.filterMap (·.condition), G.Takes E e)
    (hs : ∀ s ∈ body ++ handlers.flatMap (·.body) ++ resolve.getD [], G.Does E s) (hm : G.here m)
    (hb : ∀ name ∈ handlers.flatMap Ensnare.names, ∀ failure,
      L.binds m.store m.scope name (.caught failure)) :
    Abides L (fun i => (E i).attempt body handlers resolve) m := by
  simp only [List.forall_mem_append] at hs
  obtain ⟨⟨hbody, hhandlers⟩, hresolve⟩ := hs
  refine (caught (block hbody hm)).bind fun result m₁ h₁ hresult => ?_
  have hm₁ := G.later hm h₁
  cases result with
  | ok flow => exact .pure h₁.orderly hresult
  | error failure =>
    have hdispatch := dispatch he hhandlers hm₁ hresult fun name hname =>
      (G.admits hm).binds h₁ (hb name hname failure)
    refine (caught hdispatch).bind fun outcome m₂ h₂ houtcome => ?_
    exact .settle hresolve (G.later hm₁ h₂) houtcome

/-! Branches and loops -/

theorem branch {otherwise : Option (List Stmt)} {branches : List (Expr × List Stmt)}
    (he : ∀ e ∈ branches.map (·.1), G.Takes E e)
    (hs : ∀ s ∈ branches.flatMap (·.2) ++ otherwise.getD [], G.Does E s) (hm : G.here m) :
    Abides L (fun i => (E i).branch otherwise branches) m := by
  induction branches generalizing m with
  | nil => exact .block? hs hm
  | cons entry rest ih =>
    obtain ⟨condition, body⟩ := entry
    obtain ⟨hcondition, hrest⟩ := List.forall_mem_cons.1 he
    simp only [List.flatMap_cons, List.forall_mem_append] at hs
    refine (test hcondition hm).bind fun b m₁ h₁ _ => ?_
    cases b with
    | true => exact .block hs.1.1 (G.later hm h₁)
    | false => exact ih hrest (List.forall_mem_append.2 ⟨hs.1.2, hs.2⟩) (G.later hm h₁)

theorem select (subject : Value) {default : Option (List Stmt)}
    {branches : List (Expr × List Stmt)} (he : ∀ e ∈ branches.map (·.1), G.Takes E e)
    (hs : ∀ s ∈ branches.flatMap (·.2) ++ default.getD [], G.Does E s) (hm : G.here m) :
    Abides L (fun i => (E i).select subject default branches) m := by
  induction branches generalizing m with
  | nil => exact .block? hs hm
  | cons entry rest ih =>
    obtain ⟨candidate, body⟩ := entry
    obtain ⟨hcandidate, hrest⟩ := List.forall_mem_cons.1 he
    simp only [List.flatMap_cons, List.forall_mem_append] at hs
    refine (hcandidate hm).bind fun v m₁ h₁ _ => .view _ ?_
    split
    · exact .block hs.1.1 (G.later hm h₁)
    · exact ih hrest (List.forall_mem_append.2 ⟨hs.1.2, hs.2⟩) (G.later hm h₁)

theorem turn {condition : Expr} {body : List Stmt} (hends : ¬ L.ends)
    (he : G.Takes E condition) (hs : ∀ s ∈ body, G.Does E s) (turns : Nat) (hm : G.here m) :
    Abides L (fun i => (E i).turn condition body turns) m := by
  induction turns generalizing m with
  | zero => exact .spent hends (G.admits hm).orderly
  | succ turns ih =>
    refine (test he hm).bind fun b m₁ h₁ _ => ?_
    have hm₁ := G.later hm h₁
    cases b with
    | false => exact .pure h₁.orderly (knows_plain rfl)
    | true =>
      refine (block hs hm₁).bind fun flow m₂ h₂ hflow => ?_
      cases flow with
      | value v => exact ih (G.later hm₁ h₂)
      | skip => exact ih (G.later hm₁ h₂)
      | stop => exact .pure h₂.orderly (knows_plain rfl)
      | give v => exact .pure h₂.orderly hflow

theorem turnOver {pattern : Pattern} {body : List Stmt} {otherwise : Option (List Stmt)}
    {values : List Value} (hs : ∀ s ∈ body ++ otherwise.getD [], G.Does E s) (hm : G.here m)
    (hp : L.place (m.located pattern.toTarget.toExpr.pos)) (hv : L.Knows m.store values)
    (hb : ∀ name ∈ pattern.toTarget.names, L.Frees m name) :
    Abides L (fun i => (E i).turnOver w pattern body otherwise values) m := by
  obtain ⟨hbody, hotherwise⟩ := List.forall_mem_append.1 hs
  induction values generalizing m with
  | nil => exact .block? hotherwise hm
  | cons v rest ih =>
    obtain ⟨hfirst, hrest⟩ := knows_cons.1 hv
    have hadmits := G.admits hm
    refine (assignPattern hadmits hp hfirst hb).bind fun _ m₁ h₁ _ => ?_
    refine (block hbody (G.later hm h₁)).bind fun flow m₂ h₂ hflow => ?_
    have h₁₂ := h₁.trans h₂
    have hnext := ih (G.later hm h₁₂) (h₁₂.place hp) (hrest.later h₁₂.leads) fun name hname =>
      hadmits.frees h₁₂ (hb name hname)
    cases flow with
    | value v => exact hnext
    | skip => exact hnext
    | stop => exact .pure h₂.orderly (knows_plain rfl)
    | give v => exact .pure h₂.orderly hflow

theorem iterate {pattern : Pattern} {iterable : Expr} {body : List Stmt}
    {otherwise : Option (List Stmt)} (he : G.Takes E iterable)
    (hs : ∀ s ∈ body ++ otherwise.getD [], G.Does E s) (hm : G.here m)
    (hp : L.place (m.located pattern.toTarget.toExpr.pos))
    (hpos : L.place (m.located iterable.pos))
    (hb : ∀ name ∈ pattern.toTarget.names, L.Frees m name) :
    Abides L (fun i => (E i).iterate w pattern iterable body otherwise) m := by
  have hadmits := G.admits hm
  refine (he hm).bind fun v m₁ h₁ hv => .view _ ?_
  split
  · rename_i elements helements
    exact .turnOver hs (G.later hm h₁) (h₁.place hp) (elements? h₁.orderly hv helements).toList
      fun name hname => hadmits.frees h₁ (hb name hname)
  · exact .fail _ (h₁.suits hadmits.toSuits) (h₁.place hpos)

/-! Programs -/

theorem program {p : Program} (hs : ∀ s ∈ p.statements, G.Does E s) (runMain : Bool)
    (hm : G.here m) : Abides L (fun i => (E i).program p runMain) m := by
  have hpart : ∀ (q : Stmt → Bool), ∀ s ∈ p.statements.filter q, G.Does E s :=
    fun q s h => hs s (List.mem_filter.1 h).1
  unfold Evaluator.program
  split
  · refine (block (hpart _) hm).bind fun flow m₁ h₁ hflow => ?_
    cases flow with
    | value v =>
      cases runMain with
      | true => exact .block (hpart _) (G.later hm h₁)
      | false => exact .pure h₁.orderly (knows_plain rfl)
    | give v => exact .pure h₁.orderly hflow
    | stop => exact .pure h₁.orderly hflow
    | skip => exact .pure h₁.orderly hflow
  · exact .block hs hm

/-- A stray signal that ends a program has no place. -/
theorem run {p : Program} {scope : Ref .scope} (hs : ∀ s ∈ p.statements, G.Does E s)
    (ho : L.Leads m.store m.store) (hm : G.here { m with scope := scope })
    (hstray : ∀ m', L.Goes m m' → Abides L
      (fun _ => (Eval.raise (.plain Fault.strayControl.message) : Eval Value)) m') :
    Abides L (fun i => (E i).run p scope) m := by
  refine bind (inScope ho (program hs true hm)) fun flow m' h hflow => ?_
  cases flow with
  | value v => exact .pure h.orderly hflow
  | give v => exact .pure h.orderly hflow
  | stop => exact hstray m' h
  | skip => exact hstray m' h

section Statements

variable {c : Code} (S : Site L w E c)

include S

/-! Imports -/

/-- A module has a scope of its own inside the one that it is imported from, so what it binds may be
bound there too. -/
theorem runModule {β : Type} [Bearing β] {k : ι → Ref .scope → Eval β} {pos : Pos} (name : String)
    {path : Path} {p : Program} (hm : S.here m) (hp : pos ∈ c.places)
    (hnew : path.isAmong m.imported = false)
    (hload : Abides L (fun i => (E i).program p false) (m.entering path))
    (hk : ∀ scope m', L.Goes m m' → L.Knows m'.store scope →
      (∀ entry ∈ (m'.store.scopes.scope scope).vars,
        L.binds m'.store m'.scope entry.1 entry.2) →
      Abides L (fun i => k i scope) m') :
    Abides L (fun i => (E i).runModule w pos name path p >>= k i) m := by
  simp only [Evaluator.runModule, bind_assoc]
  have hadmits := S.admits hm
  have hscope := knows_scope.1 hadmits.scope
  obtain ⟨hopened, hfresh⟩ := L.opened hadmits.orderly hscope
  have ho := L.settled hopened
  have hmarked : L.Goes m { m with
      store := m.store.opened m.scope, imported := path :: m.imported } :=
    ⟨⟨⟨rfl, rfl, rfl, rfl, List.suffix_cons _ _⟩, fun h => h.cons hnew⟩, hopened⟩
  have hfirst : L.Goes { m with store := m.store.opened m.scope } { m with
      store := m.store.opened m.scope, imported := path :: m.imported } :=
    ⟨⟨⟨rfl, rfl, rfl, rfl, List.suffix_cons _ _⟩, fun h => h.cons hnew⟩, ho⟩
  refine .look _ (.created hopened (.modified hfirst ?_))
  refine bind (caught (inFile ho (inScope ho (ownedBy ho hload)))) fun result m₁ h₁ hresult => ?_
  have hgoes := hmarked.trans h₁
  cases result with
  | ok flow =>
    refine hk m.store.fresh m₁ hgoes (knows_scope.2 (L.later hfresh h₁.leads)) fun entry he => ?_
    rw [hgoes.stays.scope]
    exact L.exports hadmits.orderly hscope h₁.leads he
  | error failure =>
    have hcause : L.Knows m₁.store (some (m₁.store.failure failure)) :=
      (thrown h₁.orderly hresult).some
    simp only [bind_assoc]
    refine .view _ (.fails (.loadFailure (hgoes.admits hadmits) _ _
      (hgoes.place (S.place hm _ hp)) (fun f hf => .inr ⟨failure, (Option.some.inj hf).symm⟩)
      hcause) fun _ _ h => by cases h)

theorem load {pos : Pos} {name : String} {binder : Option Ident}
    (hc : c = .stmt (.load pos name binder)) (hm : S.here m) :
    Abides L (fun i => (E i).load w pos name binder) m := by
  have hadmits := S.admits hm
  have hp : pos ∈ c.places := hc ▸ List.mem_append_left _ List.mem_cons_self
  have hplace := S.place hm _ hp
  have hfrees : ∀ id ∈ binder, L.Frees m id.name := fun id hid =>
    S.frees hm _ (hc ▸ List.mem_map_of_mem (Option.mem_toList.2 hid))
  refine .look _ ?_
  split
  · exact .pure hadmits.orderly (knows_nothing rfl)
  · rename_i hnew
    have hnew := Bool.eq_false_iff.2 hnew
    unfold Evaluator.loadModule
    split
    · refine .fails (.loadFailure hadmits _ _ hplace (fun f hf => ?_) (knows_nothing rfl))
        fun _ _ h => by cases h
      exact .inl ⟨_, (Option.some.inj hf).symm⟩
    · rename_i source hread
      dsimp only
      split
      · rename_i hnone
        refine runModule S name hm hp hnew (S.entering hm hc hnew hread hnone)
          fun scope m' h hs hvars => ?_
        exact .bindImport (h.admits hadmits) name _ (h.place hplace) hs
          (fun id hid => hadmits.frees h (hfrees id hid)) hvars
      · exact .fails (.loadReport hadmits _ _ _ _ hplace) fun _ _ h => by cases h

/-! Resources -/

theorem close {resource : Value} (hm : S.here m) (hr : L.Knows m.store resource) :
    Abides L (fun i => (E i).close resource) m := by
  have ho := (S.admits hm).orderly
  unfold Evaluator.close
  split
  · rename_i r
    have hr : L.Knows m.store r := hr
    refine .view _ ?_
    split
    · rename_i decl owner hfound
      have howner := lineage ho (object ho hr) (m.store.mem_lineage_of_findMethod? hfound)
      obtain ⟨hspell, hcloser⟩ := L.ofGrimoire ho hfound
      have hreceives := L.ofObject ho (knows_value (v := .object r).1 hr) hfound
      refine (invokeMethod S (S.close hm) hr howner knows_nil hreceives hspell
        fun _ => hcloser rfl).bind fun result _ h _ => ?_
      cases result with
      | ok v => exact .pure h.orderly (knows_nothing rfl)
      | error fault => exact .pure h.orderly (knows_nothing rfl)
    · exact .pure ho (knows_nothing rfl)
  · exact .pure ho (knows_nothing rfl)

theorem use {pos : Pos} {resource : Expr} {binder : Option Ident} {body : List Stmt}
    (hp : pos ∈ c.places) (he : S.Takes E resource) (hs : ∀ s ∈ body, S.Does E s)
    (hb : ∀ id ∈ binder, id.name ∈ c.frees) (hm : S.here m) :
    Abides L (fun i => (E i).use w pos resource binder body) m := by
  refine (he hm).bind fun v m₁ h₁ hv => .look _ ?_
  have hm₁ := S.later hm h₁
  have hscope := knows_scope.1 (S.admits hm₁).scope
  obtain ⟨hopened, _⟩ := L.opened h₁.orderly hscope
  have hinner := S.nested hm₁
  have hv₂ := hv.later hopened
  refine .created hopened ((caught (.inScope (L.settled hopened) ?_)).bind
    fun outcome m₃ h₃ houtcome => ?_)
  · cases binder with
    | none => exact .block hs hinner
    | some id =>
      have hname := L.inward h₁.orderly hscope (S.frees hm₁ _ (hb id rfl) v)
      refine bind (.define (S.admits hinner) hv₂ hname) fun _ _ h _ => ?_
      exact .block hs (S.later hinner h)
  have h₁₃ := (Logic.goes_store hopened).trans h₃
  have hm₃ := S.later hm₁ h₁₃
  refine (caught (close S hm₃ (hv₂.later h₃.leads))).bind fun closed m₄ h₄ hclosed => ?_
  have hfirst := houtcome.later h₄.leads
  have hm₄ := S.later hm₃ h₄
  split
  · exact .throw h₄.orderly hfirst
  · exact .throw h₄.orderly hclosed
  · exact .fail _ (S.admits hm₄).toSuits (S.place hm₄ _ hp)
  · exact .pure h₄.orderly hfirst

end Statements

/-! Statements -/

theorem evalStmt {s : Stmt} (S : Site L w E (.stmt s)) (hm : S.At m) :
    Abides L (fun i => (E i).evalStmt w s) m := by
  have here := hm.here
  have hadmits := S.admits here
  have ho := hadmits.orderly
  have hplaces : ∀ pos ∈ s.places, pos ∈ (Code.stmt s).places :=
    fun pos h => List.mem_append_left _ h
  have htrees : ∀ e ∈ s.trees, L.place (m.located e.pos) :=
    fun e h => S.place here _ (Code.pos_mem_places h)
  have hfrees := S.frees here
  have hdone : ∀ (m' : Machine), L.Knows m'.store Evaluator.done := fun _ => knows_plain rfl
  have hexpr := S.expr
  have hstmt := S.stmt
  cases s with
  | expr e => exact .map (hexpr e List.mem_cons_self here) fun _ _ h => h
  | assign target pos value =>
    refine (hexpr value List.mem_cons_self here).bind fun v m' h hv => ?_
    have hassign := assignTarget (w := w) (fun e he => hexpr e (List.mem_cons_of_mem _ he))
      (S.later here h) (h.place (htrees _ List.mem_cons_self)) hv
      fun name hname => hadmits.frees h (hfrees name hname)
    exact .map hassign fun _ m' _ => hdone m'
  | update place op pos value =>
    refine (hexpr value List.mem_cons_self here).follow fun v m' hok h hv => ?_
    have hpos := h.place (S.place here _ (hplaces pos List.mem_cons_self))
    refine .map (.update op (fun e he => hexpr e (List.mem_cons_of_mem _ he)) (S.later here h) hpos
      (h.place (htrees _ List.mem_cons_self)) hv
      (fun name hname => hadmits.frees h (hfrees name hname)) ?_) fun _ m' _ => hdone m'
    rintro object id rfl o m'' hobject
    refine hm.wraps [v, o] m'' ?_ o rfl
    filter_upwards [hok, hobject] with i hok hobject
    exact Evaluator.exprs_cons_ok hok (Evaluator.exprs_cons_ok hobject rfl)
  | give pos value =>
    cases value with
    | none => exact .pure ho (knows_plain rfl)
    | some e => exact .map (hexpr e List.mem_cons_self here) fun _ _ h => h
  | cond pos condition body branches otherwise => exact .branch hexpr hstmt here
  | loop pos condition body =>
    obtain ⟨hends, turns, hturns⟩ := S.turns _ rfl rfl
    refine .of_eventually ?_ (.turn hends (hexpr condition List.mem_cons_self) hstmt turns here)
    filter_upwards [hturns] with i h
    simp only [Evaluator.evalStmt, Code.stmts, Stmt.blocks, h]
  | each pos pattern iterable body otherwise =>
    exact .iterate (hexpr iterable List.mem_cons_self) hstmt here
      (htrees _ List.mem_cons_self) (htrees iterable (List.mem_cons_of_mem _ List.mem_cons_self))
      hfrees
  | spell decl =>
    exact .map (.declareSpell hadmits (S.spells decl List.mem_cons_self).1
      (hfrees _ List.mem_cons_self)) fun _ m' _ => hdone m'
  | grimoire decl =>
    have hparent : ∀ id ∈ decl.parent, L.place (m.located id.pos) := fun id h =>
      S.place here _ (hplaces _ (List.mem_append_left _
        (List.mem_map.2 ⟨id, Option.mem_toList.2 h, rfl⟩)))
    refine .map (.declareGrimoire hadmits hparent (hm.declares decl rfl) (fun f h => ?_)
      (fun f h => ?_) (hfrees _ List.mem_cons_self)) fun _ m' _ => hdone m'
    · exact (S.spells f (List.mem_append_left _ (Option.mem_toList.2 h))).1
    · exact S.spells f (List.mem_append_right _ h)
  | load pos name binder => exact .map (.load S rfl here) fun _ m' _ => hdone m'
  | choose pos subject branches default =>
    refine (hexpr subject List.mem_cons_self here).bind fun v m' h _ => ?_
    exact .select v (fun e he => hexpr e (List.mem_cons_of_mem _ he)) hstmt (S.later here h)
  | attempt pos body handlers resolve => exact .attempt hexpr hstmt here (S.catches here)
  | raise pos value =>
    refine (hexpr value List.mem_cons_self here).bind fun v m' h hv => ?_
    exact .raiseValue (h.admits hadmits)
      (h.place (S.place here _ (hplaces pos List.mem_cons_self))) hv
  | stop pos => exact .pure ho (knows_nothing rfl)
  | skip pos => exact .pure ho (knows_nothing rfl)
  | ignore pos => exact .pure ho (hdone m)
  | global pos names =>
    exact .look _ (.map (.declareGlobals hadmits names hadmits.scope) fun _ m' _ => hdone m')
  | within pos resource binder body =>
    refine .use S (hplaces pos List.mem_cons_self) (hexpr resource List.mem_cons_self) hstmt
      (fun id hid => ?_) here
    exact List.mem_map_of_mem (Option.mem_toList.2 hid)
  | main pos body => exact .block hstmt here

end Abides

end Spellbook
