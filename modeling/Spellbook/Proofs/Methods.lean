import Spellbook.Proofs.Regime.Steps
import Spellbook.Proofs.Regime.Throughout
import Spellbook.Proofs.Instances

/-! Methods and their receivers. `self` and `super` are names like others, which a method finds bound
around it. They belong together as long as code does not bind them where `super` means something, nor
declares a grimoire without a parent there. -/
namespace Spellbook

open Region Refers

namespace Store

/-- The value is an object of the grimoire, or of one that inherits from it. -/
def Descends (s : Store) (v : Value) (g : Ref .grimoire) : Prop :=
  ∃ o, v = .object o ∧ g ∈ s.lineage (s.object o).grimoire

/-- Where `super` means something, a scope binds it along with `self`, as the methods of a grimoire
with a parent do, or neither of them. -/
inductive Paired (s : Store) (r : Ref .scope) : Prop where
  | apart : s.scopes.get? r "super" = none → Paired s r
  | between : s.scopes.getLocal? r "self" = none → s.scopes.getLocal? r "super" = none → Paired s r
  | method {g p : Ref .grimoire} {v : Value} : (s.grimoire g).parent = some p →
      s.scopes.getLocal? r "super" = some (.grimoire p) → s.scopes.getLocal? r "self" = some v →
      s.Descends v g → Paired s r

/-- Names that may be bound in a scope. -/
def MayBind (s : Store) (r : Ref .scope) (name : String) : Prop :=
  name ≠ "super" ∧ (name = "self" → s.scopes.get? r "super" = none)

/-- In the scope a method of the grimoire may be running. -/
structure Serves (s : Store) (r : Ref .scope) (g : Ref .grimoire) : Prop where
  there : whole.Holds s g
  orphan : (s.grimoire g).parent = none → s.scopes.get? r "super" = none
  heir : ∀ p, (s.grimoire g).parent = some p → s.scopes.get? r "super" = some (.grimoire p) ∧
    ∃ v, s.scopes.get? r "self" = some v ∧ s.Descends v g

/-- Method values have receivers that they belong to, and the same will be true of those to come. -/
structure Faithful (s : Store) : Prop where
  methods : ∀ r f, s.method? r = some f → s.Descends f.receiver f.owner
  scopes : ∀ r, whole.Holds s r → s.Paired r
  orphans : ∀ g, whole.Holds s g → (s.grimoire g).parent = none →
    s.scopes.get? (s.grimoire g).scope "super" = none
  elders : ∀ g p, whole.Holds s g → (s.grimoire g).parent = some p → p.index < g.index
  enclosing : ∀ r p, whole.Holds s r → (s.scopes.scope r).parent = some p → p.index < r.index

variable {s : Store} {v : Value} {g : Ref .grimoire} {r d : Ref .scope}

theorem Descends.owner (hd : s.Descends v g) (hs : whole.Closed s) (hv : whole.Holds s v) :
    whole.Holds s g := by
  obtain ⟨o, rfl, hg⟩ := hd
  exact hs.lineage (hs.object hv).1 hg

theorem Faithful.method (hf : s.Faithful) (hs : whole.Closed s) (hr : whole.Holds s r)
    (h : s.scopes.definer? r "super" = some d) : ∃ g p v, (s.grimoire g).parent = some p ∧
      s.scopes.getLocal? d "super" = some (.grimoire p) ∧ s.scopes.getLocal? d "self" = some v ∧
        s.Descends v g := by
  obtain ⟨u, hu⟩ := Option.isSome_iff_exists.1 (Forest.isSome_of_definer? h).1
  cases hf.scopes d (hs.definer? hr h) with
  | apart hnone => exact absurd ((Forest.get?_of_getLocal? hu).symm.trans hnone) (by simp)
  | between _ hnone => exact absurd (hu.symm.trans hnone) (by simp)
  | method hp hsuper hself hd => exact ⟨_, _, _, hp, hsuper, hself, hd⟩

theorem Faithful.definer?_self (hf : s.Faithful) (hs : whole.Closed s) (hr : whole.Holds s r)
    (h : s.scopes.definer? r "super" = some d) : s.scopes.definer? r "self" = some d := by
  fun_induction s.scopes.definer? r "super" with
  | case1 r hlocal =>
    obtain ⟨_, _, v, _, _, hself, _⟩ := hf.method hs hr (Forest.definer?_of_getLocal? hlocal)
    rw [← h, Forest.definer?_of_getLocal? (by rw [hself]; rfl)]
  | case2 r hlocal p hp hlt ih =>
    have hnone := Option.not_isSome_iff_eq_none.1 hlocal
    cases hf.scopes r hr with
    | apart hmeans =>
      rw [Forest.get?_of_parent hnone hp hlt, Forest.get?_eq_none_iff, h] at hmeans
      cases hmeans
    | between hself _ => rw [Forest.definer?_of_parent hself hp hlt, ih (hs.parent hr hp) h]
    | method _ hsuper _ _ => exact absurd (hsuper.symm.trans hnone) (by simp)
  | case3 => cases h
  | case4 => cases h

theorem Faithful.means (hf : s.Faithful) (hs : whole.Closed s) (hr : whole.Holds s r) {u : Value}
    (h : s.scopes.get? r "super" = some u) : ∃ g p v, (s.grimoire g).parent = some p ∧
      u = .grimoire p ∧ s.scopes.get? r "self" = some v ∧ s.Descends v g := by
  obtain ⟨d, hd, hu⟩ := Option.bind_eq_some_iff.1 h
  obtain ⟨g, p, v, hp, hsuper, hself, hdescends⟩ := hf.method hs hr hd
  refine ⟨g, p, v, hp, Option.some.inj (hu.symm.trans hsuper), ?_, hdescends⟩
  rw [Forest.get?, hf.definer?_self hs hr hd]
  exact hself

end Store

def Rules.faithful : Rules where
  binds := Store.MayBind
  declares s r decl := decl.parent = none → s.scopes.get? r "super" = none
  stands _ _ := True
  store := Store.Faithful
  here s r owner := ∀ g, owner = some g → s.Serves r g
  receives s v g _ := s.Descends v g

namespace Rules.Step

variable {s s' : Store} {v : Value} {g : Ref .grimoire} {r : Ref .scope}

theorem descends {R : Rules} (h : R.Step s s') (hs : whole.Closed s) (hv : whole.Holds s v)
    (hd : s.Descends v g) : s'.Descends v g := by
  obtain ⟨o, rfl, hg⟩ := hd
  refine ⟨o, rfl, ?_⟩
  have hobject := holds_whole.1 (hs.object hv).1
  rw [h.object_grimoire hv, Store.lineage_congr fun a ha =>
    h.grimoire_eq (holds_whole.2 (Nat.lt_of_le_of_lt ha hobject))]
  exact hg

variable (h : Rules.faithful.Step s s') (hr : whole.Holds s r)

include h hr

theorem getLocal?_super :
    s'.scopes.getLocal? r "super" = s.scopes.getLocal? r "super" :=
  h.getLocal? hr fun hb => hb.1 rfl

theorem getLocal?_self (hmeans : s.scopes.get? r "super" ≠ none) :
    s'.scopes.getLocal? r "self" = s.scopes.getLocal? r "self" :=
  h.getLocal? hr fun hb => hmeans (hb.2 rfl)

theorem get?_super : s'.scopes.get? r "super" = s.scopes.get? r "super" := by
  refine Forest.get?_congr fun q hq => ?_
  have hq' : whole.Holds s q := holds_whole.2 (Nat.lt_of_le_of_lt hq (holds_whole.1 hr))
  exact ⟨h.getLocal?_super hq', h.parent hq'⟩

theorem get?_self (hs : Rules.faithful.Orderly s) (hs' : Rules.faithful.Orderly s')
    (hr' : whole.Holds s' r) (hmeans : s.scopes.get? r "super" ≠ none) :
    s'.scopes.get? r "self" = s.scopes.get? r "self" := by
  obtain ⟨u, hu⟩ := Option.ne_none_iff_exists'.1 hmeans
  obtain ⟨d, hd, hlocal⟩ := Option.bind_eq_some_iff.1 hu
  have hd' : s'.scopes.definer? r "super" = some d := by
    rw [← hd]
    refine Forest.definer?_congr fun q hq => ?_
    have hq' : whole.Holds s q := holds_whole.2 (Nat.lt_of_le_of_lt hq (holds_whole.1 hr))
    exact ⟨by rw [h.getLocal?_super hq'], h.parent hq'⟩
  rw [Forest.get?, Forest.get?, hs.store.definer?_self hs.closed hr hd,
    hs'.store.definer?_self hs'.closed hr' hd']
  refine h.getLocal?_self (hs.closed.definer? hr hd) ?_
  rw [Forest.get?_of_getLocal? hlocal]
  exact Option.some_ne_none u

end Rules.Step

namespace Store

variable {s : Store} {v : Value} {g : Ref .grimoire} {r : Ref .scope}

theorem get?_opened (hr : whole.Holds s r) (name : String) :
    (s.opened r).scopes.get? s.fresh name = s.scopes.get? r name :=
  Forest.get?_new (holds_whole.1 hr)

theorem super_entered_orphan (hs : whole.Closed s) (hg : whole.Holds s g)
    (hp : (s.grimoire g).parent = none) :
    (s.entered v g).scopes.get? s.fresh "super" =
      s.scopes.get? (s.grimoire g).scope "super" := by
  have hscope := holds_whole.1 (hs.grimoire hg).1
  rw [Forest.get?_of_parent (by rw [super_entered, hp]; rfl) (s.parent_entered v g) hscope]
  refine Forest.get?_congr fun q hq => ?_
  have hq' : whole.Holds s q := holds_whole.2 (Nat.lt_of_le_of_lt hq hscope)
  rw [Forest.getLocal?, Forest.getLocal?, scope_entered hq']
  exact ⟨rfl, rfl⟩

end Store

namespace Rules.Step

variable {s s' : Store} (h : Rules.faithful.Step s s') (hs : Rules.faithful.Orderly s)

include h hs

theorem paired {r : Ref .scope} (hr : whole.Holds s' r) : s'.Paired r := by
  rcases h.scopes hr with hr | ⟨rfl, ⟨p, hp, rfl⟩ | ⟨v, g, _, hv, hg, hd, rfl⟩⟩
  · cases hs.store.scopes r hr with
    | apart hmeans => exact .apart ((h.get?_super hr).trans hmeans)
    | between hself hsuper =>
      by_cases hmeans : s.scopes.get? r "super" = none
      · exact .apart ((h.get?_super hr).trans hmeans)
      · exact .between ((h.getLocal?_self hr hmeans).trans hself)
          ((h.getLocal?_super hr).trans hsuper)
    | @method g p v hp hsuper hself hd =>
      have hv := hs.closed.getLocal? hr hself
      have hmeans : s.scopes.get? r "super" ≠ none := by
        rw [Forest.get?_of_getLocal? hsuper]
        exact Option.some_ne_none _
      refine .method (g := g) ?_ ((h.getLocal?_super hr).trans hsuper)
        ((h.getLocal?_self hr hmeans).trans hself) (h.descends hs.closed hv hd)
      rw [h.grimoire_eq (hd.owner hs.closed hv)]
      exact hp
  · exact .between (Forest.getLocal?_new p) (Forest.getLocal?_new p)
  · cases hp : (s.grimoire g).parent with
    | none =>
      refine .apart ?_
      rw [Store.super_entered_orphan hs.closed hg hp]
      exact hs.store.orphans g hg hp
    | some p =>
      refine .method (g := g) (p := p) ?_ ?_ (s.self_entered v g) (h.descends hs.closed hv hd)
      · rw [h.grimoire_eq hg]
        exact hp
      · rw [s.super_entered v g, hp]
        rfl

theorem faithful : s'.Faithful where
  methods r f hf := by
    rcases h.methods hf with hf | ⟨hf, hd⟩
    · have hr : whole.Holds s r := holds_whole.2 (Array.getElem?_eq_some_iff.1 hf).1
      exact h.descends hs.closed (hs.closed.method? hr hf).2 (hs.store.methods r f hf)
    · exact h.descends hs.closed (holds_method.1 hf).2 hd
  scopes _ hr := h.paired hs hr
  orphans g hg hp := by
    rcases h.grimoires hg with hg | ⟨decl, _, hnew, hnone, hdeclares⟩
    · rw [h.grimoire_eq hg] at hp ⊢
      rw [h.get?_super (hs.closed.grimoire hg).1]
      exact hs.store.orphans g hg hp
    · rw [h.get?_super (holds_grimoire.1 hnew).1]
      exact hdeclares (hnone hp)
  elders g p hg hp := by
    by_cases hold : whole.Holds s g
    · rw [h.grimoire_eq hold] at hp
      exact hs.store.elders g p hold hp
    · rcases h.grimoires hg with hg | ⟨decl, _, hnew, _, _⟩
      · exact absurd hg hold
      · have hparent := holds_whole.1 (holds_option.1 (holds_grimoire.1 hnew).2 p hp)
        exact Nat.lt_of_lt_of_le hparent (Nat.le_of_not_lt fun hlt => hold (holds_whole.2 hlt))
  enclosing r p hr hp := by
    rcases h.scopes hr with hr | ⟨rfl, ⟨q, hq, rfl⟩ | ⟨v, g, _, _, hg, _, rfl⟩⟩
    · rw [h.parent hr] at hp
      exact hs.store.enclosing r p hr hp
    · rw [Store.scope_fresh] at hp
      cases hp
      exact holds_whole.1 hq
    · rw [Store.parent_entered] at hp
      cases hp
      exact holds_whole.1 (hs.closed.grimoire hg).1

theorem serves {r : Ref .scope} {g : Ref .grimoire} (hl : whole.Leads s s') (hr : whole.Holds s r)
    (hserves : s.Serves r g) : s'.Serves r g where
  there := hserves.there.later hl
  orphan hp := by
    rw [h.grimoire_eq hserves.there] at hp
    exact (h.get?_super hr).trans (hserves.orphan hp)
  heir p hp := by
    rw [h.grimoire_eq hserves.there] at hp
    obtain ⟨hsuper, v, hself, hd⟩ := hserves.heir p hp
    have hmeans : s.scopes.get? r "super" ≠ none := by
      rw [hsuper]
      exact Option.some_ne_none _
    refine ⟨(h.get?_super hr).trans hsuper, v, ?_, h.descends hs.closed (hs.closed.get? hr hself) hd⟩
    rw [h.get?_self hr hs ⟨hl.closed, h.faithful hs⟩ (hr.later hl) hmeans]
    exact hself

end Rules.Step

namespace Store

variable {s : Store} {v : Value} {g : Ref .grimoire} {r q : Ref .scope}

theorem Descends.inherited {p a : Ref .grimoire} (hd : s.Descends v g)
    (hp : (s.grimoire g).parent = some p) (hlt : p.index < g.index) (ha : a ∈ s.lineage p) :
    s.Descends v a := by
  obtain ⟨o, rfl, hg⟩ := hd
  exact ⟨o, rfl, lineage_trans hg (mem_lineage_of_parent hp hlt ha)⟩

theorem Serves.congr (h : s.Serves r g)
    (hq : ∀ name, s.scopes.get? q name = s.scopes.get? r name) : s.Serves q g where
  there := h.there
  orphan hp := (hq "super").trans (h.orphan hp)
  heir p hp := by
    obtain ⟨hsuper, v, hself, hd⟩ := h.heir p hp
    exact ⟨(hq "super").trans hsuper, v, (hq "self").trans hself, hd⟩

theorem Faithful.outward (hf : s.Faithful) (hr : whole.Holds s r)
    (hq : (s.scopes.scope r).parent = some q) (hnone : s.scopes.get? r "super" = none) :
    s.scopes.get? q "super" = none := by
  cases hlocal : s.scopes.getLocal? r "super" with
  | some u => exact absurd ((Forest.get?_of_getLocal? hlocal).symm.trans hnone) (by simp)
  | none => rw [← Forest.get?_of_parent hlocal hq (hf.enclosing r q hr hq), hnone]

end Store

namespace Rules.Orderly

variable {s : Store} (hs : Rules.faithful.Orderly s)

include hs

theorem serves_nested {r : Ref .scope} {g : Ref .grimoire} (hr : whole.Holds s r)
    (h : s.Serves r g) : (s.opened r).Serves s.fresh g := by
  have hstep : Rules.faithful.Step s (s.opened r) := .opened hr
  refine (hstep.serves hs (hs.closed.openScope hr).1 hr h).congr fun name => ?_
  rw [Store.get?_opened hr]
  exact (Forest.get?_push r (holds_whole.1 hr)).symm

theorem serves_entered (decl : SpellDecl) {v : Value} {g : Ref .grimoire} (hv : whole.Holds s v)
    (hg : whole.Holds s g) (hd : s.Descends v g) : (s.entered v g).Serves s.fresh g := by
  have hstep : Rules.faithful.Step s (s.entered v g) := .entered decl hv hg hd
  refine ⟨hg.later (hs.closed.entered hv hg).1, fun hp => ?_, fun p hp => ?_⟩
  · rw [hstep.grimoire_eq hg] at hp
    rw [Store.super_entered_orphan hs.closed hg hp]
    exact hs.store.orphans g hg hp
  · rw [hstep.grimoire_eq hg] at hp
    refine ⟨Forest.get?_of_getLocal? ?_, v, Forest.get?_of_getLocal? (s.self_entered v g),
      hstep.descends hs.closed hv hd⟩
    rw [s.super_entered v g, hp]
    rfl

end Rules.Orderly

def Regime.faithful : Regime where
  toRules := .faithful
  step hs hl h :=
    { store := h.faithful hs
      binds := fun r name hr hb => ⟨hb.1, fun hname => (h.get?_super hr).trans (hb.2 hname)⟩
      here := fun r owner hr hh g hg => h.serves hs hl hr (hh g hg)
      receives := fun v g _ hv _ hd => h.descends hs.closed hv hd }
  nested hs hr hh g hg := hs.serves_nested hr (hh g hg)
  entered {_ _ _ decl} hs hv hg hd g' hg' :=
    Option.some.inj hg' ▸ hs.serves_entered decl hv hg hd
  outside := nofun
  inward hs hr hb := ⟨hb.1, fun hname => (Store.get?_opened hr _).trans (hb.2 hname)⟩
  outward hs hr hp hb := ⟨hb.1, fun hname => hs.store.outward hr hp (hb.2 hname)⟩
  ofMethod hs hf := hs.store.methods _ _ hf
  ofObject hs hr hg _ := ⟨_, rfl, hg⟩
  ofSuper hs hr hsuper hself ha _ := by
    obtain ⟨g, p, v, hp, hu, hfound, hd⟩ := hs.store.means hs.closed hr hsuper
    cases hu
    obtain rfl := Option.some.inj (hself.symm.trans hfound)
    have hg := hd.owner hs.closed (hs.closed.get? hr hself)
    exact hd.inherited hp (hs.store.elders g _ hg hp) ha

theorem Store.faithful_initial : Store.initial.Faithful := by
  have hscope : ∀ r : Ref .scope, whole.Holds Store.initial r → r = Forest.outermost := by
    intro r hr
    obtain ⟨i⟩ := r
    exact congrArg Ref.mk (Nat.lt_one_iff.1 (holds_whole.1 hr))
  refine ⟨fun r f hf => ?_, fun r hr => ?_, fun g hg => ?_, fun g p hg => ?_, fun r p hr hp => ?_⟩
  · cases hf
  · obtain rfl := hscope r hr
    exact .apart (by decide +kernel)
  · exact absurd (holds_whole.1 hg) (Nat.not_lt_zero _)
  · exact absurd (holds_whole.1 hg) (Nat.not_lt_zero _)
  · obtain rfl := hscope r hr
    cases hp

/-! What `super` gives -/

def Store.MethodsBelong (s : Store) : Prop :=
  ∀ r f, s.method? r = some f →
    ∃ o, f.receiver = .object o ∧ s.InUse o.address ∧ f.owner ∈ s.lineage (s.object o).grimoire

/-- A method of the grimoire finds methods from its parent on, and binds them to an object that it
belongs to itself. If the grimoire has no parent it finds none. -/
structure FindsSuper (w : World) (pos : Pos) (id : Ident) (g : Ref .grimoire) (m : Machine) :
    Prop where
  orphan : (m.store.grimoire g).parent = none → ∀ fuel,
    (evaluator w (fuel + 1)).expr (.super pos id) m = Eval.fail w pos .noParent m
  heir : ∀ p, (m.store.grimoire g).parent = some p →
    ∃ o, m.store.scopes.get? m.scope "self" = some (.object o) ∧ m.store.InUse o.address ∧
      g ∈ m.store.lineage (m.store.object o).grimoire ∧ ∀ fuel,
        (∀ found, m.store.findMethod? p id.name = some found →
          (evaluator w (fuel + 1)).expr (.super pos id) m = Eval.bound w (.object o) id found m) ∧
        (m.store.findMethod? p id.name = none →
          (evaluator w (fuel + 1)).expr (.super pos id) m =
            Eval.fail w id.pos (.noMethod id.name (m.store.grimoire p).name) m)

theorem Rules.Orderly.methodsBelong {s : Store} (hs : Rules.faithful.Orderly s) :
    s.MethodsBelong := by
  intro r f hf
  obtain ⟨o, ho, hd⟩ := hs.store.methods r f hf
  have hr : whole.Holds s r := holds_whole.2 (Array.getElem?_eq_some_iff.1 hf).1
  have hreceiver := (hs.closed.method? hr hf).2
  rw [ho] at hreceiver
  exact ⟨o, ho, holds_whole.1 (show whole.Holds s o from hreceiver), hd⟩

theorem Store.Serves.findsSuper {m : Machine} {g : Ref .grimoire}
    (h : m.store.Serves m.scope g) (hm : Regime.faithful.Admits m) (w : World) (pos : Pos)
    (id : Ident) :
    FindsSuper w pos id g m where
  orphan hp fuel := by
    have hsuper := h.orphan hp
    change Eval.parentMethod w pos id m = _
    simp only [Eval.parentMethod, Eval.get?, Eval.look, Bind.bind, EStateM.bind, hsuper]
  heir p hp := by
    obtain ⟨hsuper, v, hself, o, rfl, hg⟩ := h.heir p hp
    have ho : whole.Holds m.store o := hm.orderly.closed.get? hm.scope hself
    refine ⟨o, hself, holds_whole.1 ho, hg, fun fuel => ⟨fun found hfound => ?_, fun hnone => ?_⟩⟩
    · change Eval.parentMethod w pos id m = _
      simp only [Eval.parentMethod, Eval.get?, Eval.look, Eval.view, Bind.bind, EStateM.bind,
        hsuper, hself, hfound]
    · change Eval.parentMethod w pos id m = _
      simp only [Eval.parentMethod, Eval.get?, Eval.look, Eval.view, Bind.bind, EStateM.bind,
        hsuper, hself, hnone]

def Code.isOrphan : Code → Bool
  | .stmt (.grimoire decl) => decl.parent.isNone
  | _ => false

/-- Where `super` means something the code does not bind `self`, nor does it declare a grimoire
without a parent. It binds `super` nowhere. -/
def LeavesSuper (_ : World) (c : Code) (m : Machine) : Prop :=
  "super" ∉ c.binds ∧
    ("self" ∈ c.binds ∨ c.isOrphan = true → m.store.scopes.get? m.scope "super" = none)

instance (w : World) (c : Code) (m : Machine) : Decidable (LeavesSuper w c m) :=
  inferInstanceAs (Decidable (_ ∧ (_ → _)))

theorem LeavesSuper.permits {w : World} {c : Code} {m : Machine} (h : LeavesSuper w c m) :
    Rules.faithful.Permits w c m where
  binds name hname := by
    refine ⟨?_, ?_⟩
    · rintro rfl
      exact h.1 hname
    · rintro rfl
      exact h.2 (.inl hname)
  declares decl hc hp := by
    subst hc
    exact h.2 (.inr (by rw [Code.isOrphan, hp]; rfl))
  wraps _ _ _ _ _ _ _ _ _ := trivial

/-- Method values belong to objects of their grimoires, between the runs of a session and in the
course of them, and `super` is the parent of the grimoire whose method is running, if it has one. So
it is as long as code leaves `self` and `super` alone. -/
theorem methods_belong {s : Session} (hs : s.Under LeavesSuper) (source : String)
    (scope : Ref .scope) (hscope : s.machine.store.InUse scope.address) :
    s.machine.store.MethodsBelong ∧
      ∀ fuel, Throughout s.world fuel (parse source).program scope s.ready (LeavesSuper s.world) →
        (Throughout s.world fuel (parse source).program scope s.ready fun c m =>
          m.store.MethodsBelong ∧ ∀ pos id g, c = .expr (.super pos id) → m.owner = some g →
            FindsSuper s.world pos id g m) ∧
        (endState (runProgram s.world fuel (parse source).program scope
          s.ready)).store.MethodsBelong := by
  have hin : s.InRegime .faithful :=
    hs.inRegime Store.faithful_initial fun w c m _ h => h.permits
  refine ⟨hin.orderly.methodsBelong, fun fuel hrun => ?_⟩
  obtain ⟨hduring, hgoes⟩ := Regime.faithful.throughout (fun c m _ h => h.permits)
    (hin.admits (holds_whole.2 hscope)) hrun
  refine ⟨hduring.imp fun c m h => ⟨h.1.orderly.methodsBelong, fun pos id g _ hg => ?_⟩,
    hgoes.orderly.methodsBelong⟩
  exact (h.1.here g hg).findsSuper h.1 s.world pos id

def calling : Session :=
  ((Session.start .bare none).runText ("grim A:\n    spell foo():\n        return 1\n" ++
    "grim B(A):\n    init():\n        self.x = super.foo()\nB()\n") Forest.outermost).2

theorem calling_under : calling.Under LeavesSuper := by
  refine Session.under_having _ ?_
  exact throughout_of_sentry (P := LeavesSuper _) Store.outermost_initial (by decide +kernel)

theorem calling_next : calling.machine.store.methods.size = 1 ∧
    endsEarly ((watched calling.world (sentry (LeavesSuper calling.world) "") fuelLimit).run
      (parse "B()\n").program Forest.outermost calling.ready) = false := by
  decide +kernel

/-- The method that was found belongs to the object, and so does that of the next. -/
theorem methods_belong_calling :
    calling.machine.store.methods.size = 1 ∧ calling.machine.store.MethodsBelong ∧
      (endState (runProgram calling.world fuelLimit (parse "B()\n").program
        Forest.outermost calling.ready)).store.MethodsBelong := by
  obtain ⟨hsize, hsentry⟩ := calling_next
  have hscope := calling_under.inUse_outermost
  obtain ⟨hbefore, hrun⟩ := methods_belong calling_under "B()\n" Forest.outermost hscope
  exact ⟨hsize, hbefore, (hrun fuelLimit (Session.throughout_of_sentry hscope hsentry)).2⟩

def straying : Session :=
  ((Session.start .bare none).runText ("grim A:\n    spell foo():\n        return 1\n" ++
    "grim H(A):\n    init():\n        grim G:\n            spell go():\n" ++
    "                return super.foo()\n        print(G().go())\nH()\n") Forest.outermost).2

theorem not_methods_belong :
    ¬ ∀ s : Session, s.Under (fun _ _ _ => True) → s.machine.store.MethodsBelong := by
  intro h
  have hbelong := h straying (Session.under_free _)
  have hcheck : (straying.machine.store.method? ⟨1⟩).any (fun f => f.receiver = .object ⟨1⟩ ∧
      f.owner ∉ straying.machine.store.lineage (straying.machine.store.object ⟨1⟩).grimoire) =
        true := by
    decide +kernel
  obtain ⟨f, hf, hstray⟩ := (Option.any_eq_true _ _).1 hcheck
  obtain ⟨hreceiver, howner⟩ := of_decide_eq_true hstray
  obtain ⟨o, ho, _, hmem⟩ := hbelong ⟨1⟩ f hf
  cases ho.symm.trans hreceiver
  exact howner hmem

end Spellbook
