import Spellbook.Proofs.Reach.Confined

/-! Regimes: what is asked of grimoires, objects, methods and scopes in the course of a run. All that
evaluation does to them is one of a few steps, so a regime that every step keeps is kept by every
run. -/
namespace Spellbook

open Region Refers

/-- The region of everything that is in use. -/
def Region.whole : Region := ⟨fun _ => False, fun _ => 0⟩

theorem Region.holds_whole {s : Store} {κ : Cell} {r : Ref κ} :
    whole.Holds s r ↔ s.InUse r.address := by
  rw [holds_ref]
  exact ⟨fun h => h.elim False.elim And.right, fun h => .inr ⟨Nat.zero_le _, h⟩⟩

namespace Store

/-- A grimoire itself declares the spell. -/
def Owns (s : Store) (g : Ref .grimoire) (decl : SpellDecl) : Prop :=
  (s.grimoire g).init = some decl ∨ ∃ name, (s.grimoire g).methods.get? name = some decl

/-- Two stores have the same grimoires and methods, objects of the same grimoires, and scopes that
bind the same. No name is taken back that was declared global. -/
structure Alike (s s' : Store) : Prop where
  grimoires : s'.grimoires = s.grimoires
  methods : s'.methods = s.methods
  objects : s'.objects.map (·.grimoire) = s.objects.map (·.grimoire)
  scopes : s'.scopes.scopes.map (fun c => (c.parent, c.vars)) =
    s.scopes.scopes.map (fun c => (c.parent, c.vars))
  globals : ∀ r name, s.scopes.isGlobal r name = true → s'.scopes.isGlobal r name = true

end Store

/-- The grimoire has what is declared, whatever its parent and scope are. -/
structure GrimoireDecl.Makes (decl : GrimoireDecl) (g : Grimoire) : Prop where
  name : g.name = decl.name.name
  init : g.init = decl.init
  methods : g.methods = decl.table
  arcane : g.arcane = decl.arcane

structure Rules where
  /-- The names that code may bind in a scope. -/
  binds : Store → Ref .scope → String → Prop
  /-- The grimoires that may be declared in a scope. -/
  declares : Store → Ref .scope → GrimoireDecl → Prop
  /-- The grimoires of which an object may be made to stand in for a value. -/
  stands : Store → Ref .grimoire → Prop
  store : Store → Prop
  /-- The scopes that code may be evaluated in while a method of a grimoire is running, or none. -/
  here : Store → Ref .scope → Option (Ref .grimoire) → Prop
  /-- The receivers of a method that a grimoire declares. -/
  receives : Store → Value → Ref .grimoire → SpellDecl → Prop

namespace Rules

/-- What evaluation may do to grimoires, objects, methods and scopes. -/
inductive Step (R : Rules) (s : Store) : Store → Prop where
  | alike {s' : Store} : s.Alike s' → Step R s s'
  | grimoire {decl : GrimoireDecl} {parent : Option (Ref .grimoire)} {scope : Ref .scope} :
      whole.Holds s parent → whole.Holds s scope →
      (parent = none → decl.parent = none) → R.declares s scope decl →
      Step R s (s.newGrimoire ⟨decl.name.name, parent, decl.init, decl.table, scope, decl.arcane⟩).2
  | object {o : Object} : whole.Holds s o →
      Evaluator.abstractFault? s o.grimoire = none ∨ R.stands s o.grimoire →
      Step R s (s.newObject o).2
  | method {f : Method} : whole.Holds s f → R.receives s f.receiver f.owner f.decl →
      Step R s (s.newMethod f).2
  | bound {r : Ref .scope} {name : String} (v : Value) : whole.Holds s r → R.binds s r name →
      Step R s { s with scopes := s.scopes.define r name v }
  | opened {parent : Ref .scope} : whole.Holds s parent → Step R s (s.opened parent)
  | entered {v : Value} {g : Ref .grimoire} (decl : SpellDecl) : whole.Holds s v →
      whole.Holds s g → R.receives s v g decl → Step R s (s.entered v g)

/-- The store is in order, and nothing in it refers to what is not there. -/
structure Orderly (R : Rules) (s : Store) : Prop where
  closed : whole.Closed s
  store : R.store s

/-- What was as it should be still is. -/
structure Upkeep (R : Rules) (s s' : Store) : Prop where
  store : R.store s'
  binds : ∀ r name, whole.Holds s r → R.binds s r name → R.binds s' r name
  here : ∀ r owner, whole.Holds s r → R.here s r owner → R.here s' r owner
  receives : ∀ v g decl, whole.Holds s v → whole.Holds s g → R.receives s v g decl →
    R.receives s' v g decl

/-- All that a scope itself binds is what code may bind there. -/
def Plain (R : Rules) (s : Store) (r : Ref .scope) : Prop :=
  ∀ entry ∈ (s.scopes.scope r).vars, R.binds s r entry.1

/-- If a grimoire has the name of a value's type, an object of it may stand in for the value. -/
def Wraps (R : Rules) (m : Machine) (v : Value) : Prop :=
  v.standsAlone = true →
    ∀ g, m.store.scopes.get? m.scope (m.store.kind v) = some (.grimoire g) → R.stands m.store g

end Rules

structure Regime extends Rules where
  step : ∀ {s s'}, toRules.Orderly s → whole.Leads s s' → toRules.Step s s' → toRules.Upkeep s s'
  nested : ∀ {s r owner}, toRules.Orderly s → whole.Holds s r → here s r owner →
    here (s.opened r) s.fresh owner
  entered : ∀ {s v g decl}, toRules.Orderly s → whole.Holds s v → whole.Holds s g →
    receives s v g decl → here (s.entered v g) s.fresh (some g)
  /-- Where no method is running, all code may be evaluated. -/
  outside : ∀ {s r}, here s r none
  inward : ∀ {s r name}, toRules.Orderly s → whole.Holds s r → binds s r name →
    binds (s.opened r) s.fresh name
  outward : ∀ {s r p name}, toRules.Orderly s → whole.Holds s r →
    (s.scopes.scope r).parent = some p → binds s r name → binds s p name
  ofMethod : ∀ {s r f}, toRules.Orderly s → s.method? r = some f →
    receives s f.receiver f.owner f.decl
  ofObject : ∀ {s r g decl}, toRules.Orderly s → whole.Holds s r →
    g ∈ s.lineage (s.object r).grimoire → s.Owns g decl → receives s (.object r) g decl
  ofSuper : ∀ {s r p v g decl}, toRules.Orderly s → whole.Holds s r →
    s.scopes.get? r "super" = some (.grimoire p) → s.scopes.get? r "self" = some v →
    g ∈ s.lineage p → s.Owns g decl → receives s v g decl

section OfStore

variable {declares : Store → Ref .scope → GrimoireDecl → Prop} {stands : Store → Ref .grimoire → Prop}
  {P : Store → Prop}

variable (declares stands P) in
/-- Rules that say nothing of single scopes and receivers. -/
def Rules.ofStore : Rules where
  binds _ _ _ := True
  declares := declares
  stands := stands
  store := P
  here _ _ _ := True
  receives _ _ _ _ := True

def Regime.ofStore (h : ∀ {s s'}, (Rules.ofStore declares stands P).Orderly s →
    (Rules.ofStore declares stands P).Step s s' → P s') : Regime where
  toRules := .ofStore declares stands P
  step hs _ hstep := ⟨h hs hstep, fun _ _ _ _ => trivial, fun _ _ _ _ => trivial,
    fun _ _ _ _ _ _ => trivial⟩
  nested _ _ _ := trivial
  entered _ _ _ _ := trivial
  outside := trivial
  inward _ _ _ := trivial
  outward _ _ _ _ := trivial
  ofMethod _ _ := trivial
  ofObject _ _ _ _ := trivial
  ofSuper _ _ _ _ _ _ := trivial

end OfStore

namespace Regime

/-- What may become of a store. -/
structure Leads (R : Regime) (s s' : Store) : Prop extends R.Upkeep s s' where
  grows : whole.Leads s s'
  grimoire : ∀ g, whole.Holds s g → s'.grimoire g = s.grimoire g
  parent : ∀ r, whole.Holds s r → (s'.scopes.scope r).parent = (s.scopes.scope r).parent
  plain : ∀ r, whole.Holds s r → R.Plain s r → R.Plain s' r

structure Goes (R : Regime) (m m' : Machine) : Prop where
  keeps : m.Keeps m'
  leads : R.Leads m.store m'.store

/-- The machine is in order, and code may be evaluated in it. -/
structure Admits (R : Regime) (m : Machine) : Prop where
  orderly : R.Orderly m.store
  scope : whole.Holds m.store m.scope
  here : R.here m.store m.scope m.owner

variable {R : Regime} {s s' s'' : Store} {m m' m'' : Machine}

theorem Leads.orderly (h : R.Leads s s') : R.Orderly s' := ⟨h.grows.closed, h.store⟩

theorem Leads.trans (h : R.Leads s s') (h' : R.Leads s' s'') : R.Leads s s'' where
  store := h'.store
  binds r name hr hb := h'.binds r name (hr.later h.grows) (h.binds r name hr hb)
  here r owner hr hh := h'.here r owner (hr.later h.grows) (h.here r owner hr hh)
  receives v g decl hv hg hr :=
    h'.receives v g decl (hv.later h.grows) (hg.later h.grows) (h.receives v g decl hv hg hr)
  grows := h.grows.trans h'.grows
  grimoire g hg := (h'.grimoire g (hg.later h.grows)).trans (h.grimoire g hg)
  parent r hr := (h'.parent r (hr.later h.grows)).trans (h.parent r hr)
  plain r hr hp := h'.plain r (hr.later h.grows) (h.plain r hr hp)

theorem Goes.orderly (h : R.Goes m m') : R.Orderly m'.store := h.leads.orderly

theorem Goes.grows (h : R.Goes m m') : whole.Leads m.store m'.store := h.leads.grows

theorem Admits.later (hm : R.Admits m) (h : R.Goes m m') : R.Admits m' where
  orderly := h.orderly
  scope := h.keeps.scope ▸ hm.scope.later h.grows
  here := by
    rw [h.keeps.scope, h.keeps.owner]
    exact h.leads.here _ _ hm.scope hm.here

theorem Admits.binds_later (hm : R.Admits m) (h : R.Goes m m') {name : String}
    (hb : R.binds m.store m.scope name) : R.binds m'.store m'.scope name :=
  h.keeps.scope ▸ h.leads.binds _ _ hm.scope hb

end Regime

/-! Stores that differ in a step -/

namespace Store

variable {s s' : Store}

theorem lineage_congr {r : Ref .grimoire}
    (h : ∀ g : Ref .grimoire, g.index ≤ r.index → s'.grimoire g = s.grimoire g) :
    s'.lineage r = s.lineage r := by
  obtain ⟨i⟩ := r
  induction i using Nat.strongRecOn with
  | _ i ih =>
    rw [lineage, lineage, h ⟨i⟩ (Nat.le_refl i)]
    split
    · rename_i p _
      split
      · rename_i hp
        rw [ih p.index hp fun g hg => h g (Nat.le_trans hg (Nat.le_of_lt hp))]
      · rfl
    · rfl

theorem le_of_mem_lineage {r g : Ref .grimoire} (h : g ∈ s.lineage r) : g.index ≤ r.index := by
  obtain ⟨i⟩ := r
  induction i using Nat.strongRecOn with
  | _ i ih =>
    rw [lineage] at h
    rcases List.mem_cons.1 h with rfl | h
    · exact Nat.le_refl _
    · split at h
      · rename_i p _
        split at h
        · rename_i hp
          exact Nat.le_trans (ih p.index hp h) (Nat.le_of_lt hp)
        · cases h
      · cases h

theorem owns_of_ownMethod? {g : Ref .grimoire} {name : String} {decl : SpellDecl}
    (h : s.ownMethod? g name = some decl) : s.Owns g decl := by
  unfold ownMethod? at h
  split at h
  · rename_i found hfound
    exact .inr ⟨name, hfound.trans h⟩
  · split at h
    · exact .inl h
    · cases h

theorem owns_of_findMethod? {r g : Ref .grimoire} {name : String} {decl : SpellDecl}
    (h : s.findMethod? r name = some (decl, g)) : s.Owns g decl := by
  obtain ⟨a, _, ha⟩ := List.exists_of_findSome?_eq_some h
  obtain ⟨found, hfound, heq⟩ := Option.map_eq_some_iff.1 ha
  cases heq
  exact owns_of_ownMethod? hfound

theorem owns_of_findInit? {r g : Ref .grimoire} {decl : SpellDecl}
    (h : s.findInit? r = some (decl, g)) : s.Owns g decl := by
  obtain ⟨a, _, ha⟩ := List.exists_of_findSome?_eq_some h
  obtain ⟨found, hfound, heq⟩ := Option.map_eq_some_iff.1 ha
  cases heq
  exact .inl hfound

end Store

theorem map_modify_of_eq {α β : Type} (xs : Array α) (i : Nat) (f : α → α) {look : α → β}
    (h : ∀ x, look (f x) = look x) : (xs.modify i f).map look = xs.map look := by
  refine Array.ext_getElem? fun j => ?_
  simp only [Array.getElem?_map, Array.getElem?_modify]
  split
  · simp only [Option.map_map, Function.comp_def, h]
  · rfl

namespace Store.Alike

variable {s s' s'' : Store}

theorem of_eq (hg : s'.grimoires = s.grimoires) (hm : s'.methods = s.methods)
    (ho : s'.objects = s.objects) (hs : s'.scopes = s.scopes) : s.Alike s' :=
  ⟨hg, hm, by rw [ho], by rw [hs], fun r name h => by rw [hs, h]⟩

theorem refl (s : Store) : s.Alike s := .of_eq rfl rfl rfl rfl

theorem grimoire (h : s.Alike s') (r : Ref .grimoire) : s'.grimoire r = s.grimoire r := by
  rw [Store.grimoire, Store.grimoire, h.grimoires]

theorem object (h : s.Alike s') (r : Ref .object) :
    (s'.object r).grimoire = (s.object r).grimoire := by
  have hr := congrArg (·[r.index]?) h.objects
  simp only [Array.getElem?_map] at hr
  simp only [Store.object, Array.getD_eq_getD_getElem?]
  cases hs : s.objects[r.index]? with
  | none =>
    rw [hs, Option.map_none, Option.map_eq_none_iff] at hr
    rw [hr]
  | some o =>
    rw [hs] at hr
    obtain ⟨o', ho', hsame⟩ := Option.map_eq_some_iff.1 hr
    rw [ho']
    exact hsame

theorem scope (h : s.Alike s') (r : Ref .scope) :
    (s'.scopes.scope r).parent = (s.scopes.scope r).parent ∧
      (s'.scopes.scope r).vars = (s.scopes.scope r).vars := by
  have hr := congrArg (·[r.index]?) h.scopes
  simp only [Array.getElem?_map] at hr
  simp only [Forest.scope, Array.getD_eq_getD_getElem?]
  cases hs : s.scopes.scopes[r.index]? with
  | none =>
    rw [hs, Option.map_none, Option.map_eq_none_iff] at hr
    rw [hr]
    exact ⟨rfl, rfl⟩
  | some c =>
    rw [hs] at hr
    obtain ⟨c', hc', hsame⟩ := Option.map_eq_some_iff.1 hr
    rw [hc']
    exact ⟨congrArg Prod.fst hsame, congrArg Prod.snd hsame⟩

theorem getLocal? (h : s.Alike s') (r : Ref .scope) (name : String) :
    s'.scopes.getLocal? r name = s.scopes.getLocal? r name := by
  rw [Forest.getLocal?, Forest.getLocal?, (h.scope r).2]

theorem setField (s : Store) (r : Ref .object) (name : String) (v : Value) :
    s.Alike (s.setField r name v) where
  grimoires := rfl
  methods := rfl
  objects := map_modify_of_eq s.objects r.index
    (fun o => { o with fields := o.fields.set name v }) fun _ => rfl
  scopes := rfl
  globals _ _ h := h

theorem declareGlobal (s : Store) (r : Ref .scope) (name : String) :
    s.Alike { s with scopes := s.scopes.declareGlobal r name } where
  grimoires := rfl
  methods := rfl
  objects := rfl
  scopes := by
    refine map_modify_of_eq s.scopes.scopes r.index
      (fun c => if c.globals.contains name then c else { c with globals := name :: c.globals })
      fun c => ?_
    split <;> rfl
  globals q other h := by simp [h]

end Store.Alike

namespace Store

variable {s : Store} {v : Value} {g : Ref .grimoire}

theorem ne_fresh {r : Ref .scope} (hr : whole.Holds s r) : r ≠ s.fresh := by
  rintro rfl
  exact Nat.lt_irrefl _ (holds_whole.1 hr)

theorem scope_received {r q : Ref .scope} (h : q ≠ r) :
    (s.received r v g).scopes.scope q = s.scopes.scope q := by
  unfold received
  cases (s.grimoire g).parent with
  | none => simp only [Option.elim_none, Forest.define, Forest.scope_modify, h, false_and, if_false]
  | some p =>
    simp only [Option.elim_some, Forest.define, Forest.scope_modify, h, false_and, if_false]

theorem scope_opened {parent q : Ref .scope} (hq : whole.Holds s q) :
    (s.opened parent).scopes.scope q = s.scopes.scope q := by
  have hne : q.index ≠ s.scopes.scopes.size := Nat.ne_of_lt (holds_whole.1 hq)
  simp only [opened, Forest.scope_push, hne, if_false]

theorem scope_fresh (s : Store) (parent : Ref .scope) :
    (s.opened parent).scopes.scope s.fresh = ⟨some parent, [], []⟩ := by
  simp only [opened, fresh, Forest.scope_push, if_true]

theorem scope_entered {q : Ref .scope} (hq : whole.Holds s q) :
    (s.entered v g).scopes.scope q = s.scopes.scope q := by
  rw [entered, scope_received (ne_fresh hq), scope_opened hq]

end Store

theorem Rules.Step.vars {R : Rules} {s s' : Store} (h : R.Step s s') {r : Ref .scope}
    (hr : whole.Holds s r) {entry : String × Value} (he : entry ∈ (s'.scopes.scope r).vars) :
    entry ∈ (s.scopes.scope r).vars ∨ R.binds s r entry.1 := by
  cases h with
  | alike h => exact .inl ((h.scope r).2 ▸ he)
  | grimoire | object | method => exact .inl he
  | bound v hq hb =>
    simp only [Forest.define, Forest.scope_modify] at he
    split at he
    · rename_i hsame
      rcases Bindings.mem_set he with rfl | he
      · exact .inr (hsame.1 ▸ hb)
      · exact .inl he
    · exact .inl he
  | opened => exact .inl (Store.scope_opened hr ▸ he)
  | entered => exact .inl (Store.scope_entered hr ▸ he)

theorem Rules.Step.grimoire_eq {R : Rules} {s s' : Store} (h : R.Step s s') {g : Ref .grimoire}
    (hg : whole.Holds s g) : s'.grimoire g = s.grimoire g := by
  cases h with
  | alike h => exact h.grimoire g
  | grimoire =>
    have hlt : g.index < s.grimoires.size := holds_whole.1 hg
    simp only [Store.newGrimoire, Store.grimoire, Array.getD_eq_getD_getElem?,
      Array.getElem?_push_lt hlt, Array.getElem?_eq_getElem hlt]
  | object | method | bound | opened | entered => rfl

theorem Rules.Step.object_grimoire {R : Rules} {s s' : Store} (h : R.Step s s') {o : Ref .object}
    (ho : whole.Holds s o) : (s'.object o).grimoire = (s.object o).grimoire := by
  cases h with
  | alike h => exact h.object o
  | object =>
    have hlt : o.index < s.objects.size := holds_whole.1 ho
    simp only [Store.newObject, Store.object, Array.getD_eq_getD_getElem?,
      Array.getElem?_push_lt hlt, Array.getElem?_eq_getElem hlt]
  | grimoire | method | bound | opened | entered => rfl

theorem Rules.Step.objects {R : Rules} {s s' : Store} (h : R.Step s s') {o : Ref .object}
    (ho : whole.Holds s' o) : whole.Holds s o ∨ whole.Holds s (s'.object o).grimoire ∧
      (Evaluator.abstractFault? s (s'.object o).grimoire = none ∨
        R.stands s (s'.object o).grimoire) := by
  have hlt : o.index < s'.objects.size := holds_whole.1 ho
  cases h with
  | alike h =>
    have hsize := congrArg Array.size h.objects
    simp only [Array.size_map] at hsize
    rw [hsize] at hlt
    exact .inl (holds_whole.2 hlt)
  | @object new hnew hg =>
    rcases Nat.lt_succ_iff_lt_or_eq.1 (Array.size_push new ▸ hlt) with hold | heq
    · exact .inl (holds_whole.2 hold)
    · have hnew' : (s.newObject new).2.object o = new := by
        obtain ⟨i⟩ := o
        obtain rfl : i = s.objects.size := heq
        exact s.object_newObject new
      rw [hnew']
      exact .inr ⟨(holds_object.1 hnew).1, hg⟩
  | grimoire | method | bound | opened | entered => exact .inl (holds_whole.2 hlt)

theorem Rules.plain_fresh (R : Rules) (s : Store) (parent : Ref .scope) :
    R.Plain (s.opened parent) s.fresh := by
  intro entry he
  rw [s.scope_fresh parent] at he
  cases he

theorem Rules.Step.parent {R : Rules} {s s' : Store} (h : R.Step s s') {r : Ref .scope}
    (hr : whole.Holds s r) : (s'.scopes.scope r).parent = (s.scopes.scope r).parent := by
  cases h with
  | alike h => exact (h.scope r).1
  | grimoire | object | method => rfl
  | bound => simp
  | opened => rw [Store.scope_opened hr]
  | entered => rw [Store.scope_entered hr]

namespace Rules.Orderly

variable {R : Regime} {s s' : Store} (hs : R.Orderly s)

include hs

theorem leads (hl : whole.Leads s s') (h : R.Step s s') : R.Leads s s' where
  toUpkeep := R.step hs hl h
  grows := hl
  grimoire _ hg := h.grimoire_eq hg
  parent _ hr := h.parent hr
  plain r hr hp entry he :=
    (R.step hs hl h).binds r entry.1 hr ((h.vars hr he).elim (hp entry) id)

theorem refl : R.Leads s s := hs.leads hs.closed.refl (.alike (.refl s))

theorem alike (hl : whole.Leads s s') (h : s.Alike s') : R.Leads s s' := hs.leads hl (.alike h)

/-- What is made without a step that regimes look at. -/
theorem makes {i : Item} (h : whole.Leads s s' ∧ whole.Holds s' i)
    (heq : s' = { s' with
      grimoires := s.grimoires, methods := s.methods, objects := s.objects, scopes := s.scopes }) :
    R.Leads s s' ∧ whole.Holds s' i := by
  refine ⟨hs.alike h.1 ?_, h.2⟩
  rw [heq]
  exact .of_eq rfl rfl rfl rfl

theorem define {r : Ref .scope} {name : String} {v : Value} (hr : whole.Holds s r)
    (hv : whole.Holds s v) (hb : R.binds s r name) :
    R.Leads s { s with scopes := s.scopes.define r name v } :=
  hs.leads (hs.closed.define name hr hv) (.bound v hr hb)

theorem opened {parent : Ref .scope} (hp : whole.Holds s parent) :
    R.Leads s (s.opened parent) ∧ whole.Holds (s.opened parent) s.fresh :=
  have h := hs.closed.openScope hp
  ⟨hs.leads h.1 (.opened hp), h.2⟩

theorem binds_root {r : Ref .scope} {name : String} (hr : whole.Holds s r)
    (hb : R.binds s r name) : R.binds s (s.scopes.root r) name := by
  fun_induction s.scopes.root r with
  | case1 r p hp _ ih => exact ih (hs.closed.parent hr hp) (R.outward hs hr hp hb)
  | case2 => exact hb
  | case3 => exact hb

theorem binds_definer? {r d : Ref .scope} {name : String} (hr : whole.Holds s r)
    (hb : R.binds s r name) (h : s.scopes.definer? r name = some d) : R.binds s d name := by
  fun_induction s.scopes.definer? r name with
  | case1 => exact Option.some.inj h ▸ hb
  | case2 r _ p hp _ ih => exact ih (hs.closed.parent hr hp) (R.outward hs hr hp hb) h
  | case3 => cases h
  | case4 => cases h

theorem binds_home {r : Ref .scope} {name : String} (hr : whole.Holds s r)
    (hb : R.binds s r name) : R.binds s (s.scopes.home r name) name := by
  unfold Forest.home
  split
  · exact hs.binds_root hr hb
  · cases hd : s.scopes.definer? r name with
    | none => exact hb
    | some d => exact hs.binds_definer? hr hb hd

theorem newMethod {f : Method} (hf : whole.Holds s f) (hr : R.receives s f.receiver f.owner f.decl) :
    R.Leads s (s.newMethod f).2 ∧ whole.Holds (s.newMethod f).2 (s.newMethod f).1 :=
  have h := hs.closed.newMethod hf
  ⟨hs.leads h.1 (.method hf hr), h.2⟩

theorem newObject {o : Object} (ho : whole.Holds s o)
    (hg : Evaluator.abstractFault? s o.grimoire = none ∨ R.stands s o.grimoire) :
    R.Leads s (s.newObject o).2 ∧ whole.Holds (s.newObject o).2 (s.newObject o).1 :=
  have h := hs.closed.newObject ho
  ⟨hs.leads h.1 (.object ho hg), h.2⟩

theorem newGrimoire {decl : GrimoireDecl} {parent : Option (Ref .grimoire)} {scope : Ref .scope}
    (hp : whole.Holds s parent) (hc : whole.Holds s scope)
    (hnone : parent = none → decl.parent = none) (hd : R.declares s scope decl) :
    let new := s.newGrimoire ⟨decl.name.name, parent, decl.init, decl.table, scope, decl.arcane⟩
    R.Leads s new.2 ∧ whole.Holds new.2 new.1 :=
  have h := hs.closed.newGrimoire (g := ⟨decl.name.name, parent, decl.init, decl.table, scope,
    decl.arcane⟩) (holds_grimoire.2 ⟨hc, hp⟩)
  ⟨hs.leads h.1 (.grimoire hp hc hnone hd), h.2⟩

theorem entered {v : Value} {g : Ref .grimoire} {decl : SpellDecl} (hv : whole.Holds s v)
    (hg : whole.Holds s g) (hr : R.receives s v g decl) :
    R.Leads s (s.entered v g) ∧ whole.Holds (s.entered v g) s.fresh :=
  have h := hs.closed.entered hv hg
  ⟨hs.leads h.1 (.entered decl hv hg hr), h.2⟩

end Rules.Orderly

end Spellbook
