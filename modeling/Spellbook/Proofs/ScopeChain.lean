import Spellbook.Proofs.Scope

/-! Scope chains as nested maps: along the scopes that enclose one another, reading and writing
a name pick the same scope. -/
namespace Spellbook.Forest

variable {α : Type}

def plant (f : Forest α) : Ref .scope × Forest α :=
  (⟨f.scopes.size⟩, ⟨f.scopes.push ⟨none, [], []⟩⟩)

/-- The forests that the operations on scopes build. -/
inductive Grown : Forest α → Prop where
  | empty : Grown ⟨#[]⟩
  | plant {f} : Grown f → Grown f.plant.2
  | push {f} {p : Ref .scope} : Grown f → p.index < f.scopes.size → Grown (f.push p).2
  | define {f} (r : Ref .scope) (name : String) (v : α) : Grown f → Grown (f.define r name v)
  | assign {f g} {r : Ref .scope} {name : String} {v : α} :
    Grown f → f.assign? r name v = some g → Grown g
  | declareGlobal {f} (r : Ref .scope) (name : String) : Grown f → Grown (f.declareGlobal r name)

/-- The scopes from `r` outward, each enclosed by the next and the last one by none. -/
inductive Chain (f : Forest α) : Ref .scope → List (Ref .scope) → Prop where
  | root {r : Ref .scope} : (f.scope r).parent = none → Chain f r [r]
  | inside {r p : Ref .scope} {ps : List (Ref .scope)} :
    (f.scope r).parent = some p → Chain f p ps → Chain f r (r :: ps)

/-- `d` is the first scope of the chain of `r` that binds the name. -/
def Nearest (f : Forest α) (r : Ref .scope) (name : String) (d : Ref .scope) : Prop :=
  ∃ inner outer, f.Chain r (inner ++ d :: outer) ∧ (f.getLocal? d name).isSome = true ∧
    ∀ q ∈ inner, f.getLocal? q name = none

/-- `g` is `f` with `name` bound to `v` in scope `d`. -/
structure Rebound (f : Forest α) (d : Ref .scope) (name : String) (v : α) (g : Forest α) :
    Prop where
  size : g.scopes.size = f.scopes.size
  parent : ∀ q, (g.scope q).parent = (f.scope q).parent
  isGlobal : ∀ q other, g.isGlobal q other = f.isGlobal q other
  binding : g.getLocal? d name = some v
  elsewhere : ∀ q other, ¬ (q = d ∧ other = name) → g.getLocal? q other = f.getLocal? q other

variable {f g : Forest α} {r d p q : Ref .scope} {ps qs : List (Ref .scope)}
  {name other : String} {v w : α}

/-- Whatever encloses a scope is older. -/
def Layered (f : Forest α) : Prop :=
  ∀ r p, (f.scope r).parent = some p → p.index < r.index

theorem scope_plant (f : Forest α) (q : Ref .scope) :
    f.plant.2.scope q = if q.index = f.scopes.size then ⟨none, [], []⟩ else f.scope q := by
  simp only [plant, scope, Array.getD_eq_getD_getElem?, Array.getElem?_push]
  split <;> rfl

@[simp] theorem parent_declareGlobal (f : Forest α) (r q : Ref .scope) (name : String) :
    ((f.declareGlobal r name).scope q).parent = (f.scope q).parent := by
  simp only [declareGlobal, scope_modify]
  split
  · split <;> rfl
  · rfl

theorem eq_define_of_assign? (h : f.assign? r name v = some g) :
    ∃ d, f.definer? r name = some d ∧ g = f.define d name v := by
  obtain ⟨d, hd, hg⟩ := Option.map_eq_some_iff.1 h
  exact ⟨d, hd, hg.symm⟩

theorem Grown.layered (hf : Grown f) : f.Layered := by
  induction hf with
  | empty =>
    intro r p h
    simp [scope] at h
  | plant _ ih =>
    intro r p h
    rw [scope_plant] at h
    split at h
    · cases h
    · exact ih r p h
  | @push f p _ hp ih =>
    intro r q h
    rw [scope_push] at h
    split at h
    · obtain rfl : p = q := Option.some.inj h
      omega
    · exact ih r q h
  | define _ _ _ _ ih => simpa only [Layered, parent_define] using ih
  | assign _ hg ih =>
    obtain ⟨d, -, rfl⟩ := eq_define_of_assign? hg
    simpa only [Layered, parent_define] using ih
  | declareGlobal _ _ _ ih => simpa only [Layered, parent_declareGlobal] using ih

theorem Chain.unique (h : f.Chain r ps) (h' : f.Chain r qs) : ps = qs := by
  induction h generalizing qs with
  | root hr =>
    cases h' with
    | root => rfl
    | inside hp => simp [hr] at hp
  | inside hr _ ih =>
    cases h' with
    | root hp => simp [hr] at hp
    | inside hp hs =>
      have hsame := Option.some.inj (hr.symm.trans hp)
      subst hsame
      rw [ih hs]

namespace Layered

variable (hf : f.Layered)
include hf

theorem exists_chain (r : Ref .scope) : ∃ ps, f.Chain r ps := by
  obtain ⟨i⟩ := r
  induction i using Nat.strongRecOn with
  | _ i ih =>
    cases h : (f.scope ⟨i⟩).parent with
    | none => exact ⟨[⟨i⟩], .root h⟩
    | some p =>
      obtain ⟨ps, hps⟩ := ih p.index (hf _ p h)
      exact ⟨⟨i⟩ :: ps, .inside h hps⟩

theorem getLast?_chain (h : f.Chain r ps) : ps.getLast? = some (f.root r) := by
  induction h with
  | root hr =>
    rw [root, hr]
    rfl
  | @inside r p ps hr hps ih =>
    have hroot : f.root r = f.root p := by
      rw [root, hr]
      simp [hf r p hr]
    rw [List.getLast?_cons, ih, hroot]
    rfl

theorem parent_root (r : Ref .scope) : (f.scope (f.root r)).parent = none := by
  obtain ⟨ps, h⟩ := hf.exists_chain r
  induction h with
  | root hr =>
    rw [root, hr]
    exact hr
  | @inside r p ps hr hps ih =>
    rw [root, hr]
    simpa [hf r p hr] using ih

theorem definer?_eq_find? (h : f.Chain r ps) (name : String) :
    f.definer? r name = ps.find? fun q => (f.getLocal? q name).isSome := by
  induction h with
  | @root r hr =>
    rw [definer?, hr]
    cases hv : f.getLocal? r name <;> simp [hv]
  | @inside r p ps hr hps ih =>
    cases hv : f.getLocal? r name with
    | none => rw [definer?_of_parent hv hr (hf r p hr), ih, List.find?_cons_of_neg (by simp [hv])]
    | some v => rw [definer?_of_getLocal? (by simp [hv]), List.find?_cons_of_pos (by simp [hv])]

theorem nearest_iff : f.Nearest r name d ↔ f.definer? r name = some d := by
  obtain ⟨ps, h⟩ := hf.exists_chain r
  rw [hf.definer?_eq_find? h, List.find?_eq_some_iff_append]
  constructor
  · rintro ⟨inner, outer, hps, hd, hinner⟩
    refine ⟨hd, inner, outer, h.unique hps, fun q hq => ?_⟩
    simp [hinner q hq]
  · rintro ⟨hd, inner, outer, rfl, hinner⟩
    exact ⟨inner, outer, h, hd, fun q hq => by simpa using hinner q hq⟩

theorem get?_eq_some_iff :
    f.get? r name = some v ↔ ∃ d, f.Nearest r name d ∧ f.getLocal? d name = some v := by
  simp only [hf.nearest_iff, get?, Option.bind_eq_some_iff]

end Layered

theorem rebound_define (hr : r.index < f.scopes.size) (name : String) (v : α) :
    f.Rebound r name v (f.define r name v) where
  size := size_define f r name v
  parent q := parent_define f r q name v
  isGlobal q other := isGlobal_define f r q name other v
  binding := by simp [hr]
  elsewhere q other h := by
    rw [getLocal?_define, if_neg fun ⟨hq, _, hother⟩ => h ⟨hq, hother⟩]

theorem get?_define_bound (hd : f.definer? r name = some d) (t : Ref .scope) (other : String) :
    (f.define d name v).get? t other =
      if other = name ∧ f.definer? t name = some d then some v else f.get? t other := by
  obtain ⟨hbound, -⟩ := isSome_of_definer? hd
  have hsize := lt_size_of_getLocal? hbound
  by_cases hname : other = name
  · subst hname
    have hkeep := definer?_define_bound (r := t) (v := v) hbound
    by_cases ht : f.definer? t other = some d
    · simp [get?, hkeep, ht, hsize]
    · cases hq : f.definer? t other with
      | none => simp [get?, hkeep, hq]
      | some q =>
        have hne : q ≠ d := fun h => ht (h ▸ hq)
        simp [get?, hkeep, hq, hne]
  · simp [get?_define_ne d hname, hname]

theorem define_home (h : f.isGlobal r name = false) :
    f.define (f.home r name) name v = (f.assign? r name v).getD (f.define r name v) := by
  simp only [home, h, assign?]
  cases f.definer? r name <;> rfl

/-- The scopes around a scope are nested maps. -/
theorem scopes_nest (hf : f.Grown) (r : Ref .scope) (name : String) (v : α) :
    (∃ ps, f.Chain r ps ∧ (∀ qs, f.Chain r qs → qs = ps) ∧
      ps.getLast? = some (f.root r) ∧ (f.scope (f.root r)).parent = none) ∧
    (∀ w, f.get? r name = some w ↔
      ∃ d, f.Nearest r name d ∧ f.getLocal? d name = some w) ∧
    (f.assign? r name v = none ↔ f.get? r name = none) ∧
    (∀ g, f.assign? r name v = some g → ∃ d, f.Nearest r name d ∧ f.Rebound d name v g ∧
      ∀ t other, (other = name ∧ f.Nearest t name d → g.get? t other = some v) ∧
        (¬ (other = name ∧ f.Nearest t name d) → g.get? t other = f.get? t other)) ∧
    (r.index < f.scopes.size → f.Rebound r name v (f.define r name v)) := by
  have hlayered := hf.layered
  refine ⟨?_, fun w => hlayered.get?_eq_some_iff, ?_, ?_, fun hr => rebound_define hr name v⟩
  · obtain ⟨ps, hps⟩ := hlayered.exists_chain r
    exact ⟨ps, hps, fun qs hqs => hqs.unique hps, hlayered.getLast?_chain hps,
      hlayered.parent_root r⟩
  · rw [get?_eq_none_iff, assign?, Option.map_eq_none_iff]
  · intro g hg
    obtain ⟨d, hd, rfl⟩ := eq_define_of_assign? hg
    have hbound := (isSome_of_definer? hd).1
    refine ⟨d, hlayered.nearest_iff.2 hd, rebound_define (lt_size_of_getLocal? hbound) name v, ?_⟩
    intro t other
    rw [get?_define_bound hd, hlayered.nearest_iff]
    exact ⟨fun h => if_pos h, fun h => if_neg h⟩

/-- A name bound twice along one chain, and a third scope beside the inner one. -/
def shadowed : Forest Nat :=
  let f := ((Forest.mk #[]).plant.2.define ⟨0⟩ "x" 1).define ⟨0⟩ "y" 9
  let f := ((f.push ⟨0⟩).2.push ⟨0⟩).2.define ⟨1⟩ "x" 2
  (f.push ⟨1⟩).2

theorem grown_shadowed : shadowed.Grown := by
  refine .push (.define _ _ _ (.push (.push (.define _ _ _ (.define _ _ _ (.plant .empty))) ?_) ?_)) ?_
  all_goals decide

theorem scopes_nest_shadowed : shadowed.Grown ∧
    ∃ g, shadowed.assign? ⟨3⟩ "x" 5 = some g ∧ ∃ d, shadowed.Nearest ⟨3⟩ "x" d ∧
      shadowed.Rebound d "x" 5 g := by
  refine ⟨grown_shadowed, ?_⟩
  obtain ⟨g, hg⟩ : ∃ g, shadowed.assign? ⟨3⟩ "x" 5 = some g :=
    Option.isSome_iff_exists.1 (by decide +kernel)
  obtain ⟨d, hd, hrebound, -⟩ := (scopes_nest grown_shadowed ⟨3⟩ "x" 5).2.2.2.1 g hg
  exact ⟨g, hg, d, hd, hrebound⟩

end Spellbook.Forest
