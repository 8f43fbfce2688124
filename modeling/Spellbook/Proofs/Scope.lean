import Spellbook.Scope

/-! What binding a name and opening a scope do to the meaning of names. -/
namespace Spellbook

theorem Bindings.mem_of_get? {α : Type} {b : Bindings α} {name : String} {v : α}
    (h : b.get? name = some v) : (name, v) ∈ b := by
  fun_induction Bindings.get? b name with
  | case1 => cases h
  | case2 => cases h; exact List.mem_cons_self
  | case3 _ _ _ _ _ ih => exact List.mem_cons_of_mem _ (ih h)

theorem Bindings.mem_set {α : Type} {b : Bindings α} {name : String} {v : α} {entry : String × α}
    (h : entry ∈ b.set name v) : entry = (name, v) ∨ entry ∈ b := by
  fun_induction Bindings.set b name v <;> grind

theorem mem_of_mem_modify {α : Type} {xs : Array α} {i : Nat} {change : α → α} {x : α}
    (h : x ∈ xs.modify i change) : x ∈ xs ∨ ∃ old ∈ xs, x = change old := by
  obtain ⟨j, hj, rfl⟩ := Array.getElem_of_mem h
  rw [Array.getElem_modify]
  split
  · exact .inr ⟨_, Array.getElem_mem _, rfl⟩
  · exact .inl (Array.getElem_mem _)

namespace Forest

variable {α : Type} (f : Forest α)

@[simp] theorem size_define (r : Ref .scope) (name : String) (v : α) :
    (f.define r name v).scopes.size = f.scopes.size := by
  simp only [define, modify, Array.size_modify]

@[simp] theorem size_declareGlobal (r : Ref .scope) (name : String) :
    (f.declareGlobal r name).scopes.size = f.scopes.size := by
  simp only [declareGlobal, modify, Array.size_modify]

@[simp] theorem size_push (parent : Ref .scope) :
    (f.push parent).2.scopes.size = f.scopes.size + 1 := by
  simp only [push, Array.size_push]

theorem scope_modify (r q : Ref .scope) (change : Scope α → Scope α) :
    (f.modify r change).scope q =
      if q = r ∧ r.index < f.scopes.size then change (f.scope q) else f.scope q := by
  obtain ⟨i⟩ := r
  obtain ⟨j⟩ := q
  simp only [modify, scope, Array.getD_eq_getD_getElem?, Array.getElem?_modify, Ref.mk.injEq]
  by_cases hij : i = j
  · subst hij
    by_cases hi : i < f.scopes.size
    · simp [hi]
    · simp [hi]
  · have hji : ¬ j = i := fun h => hij h.symm
    simp [hij, hji]

@[simp] theorem getLocal?_define (r q : Ref .scope) (name other : String) (v : α) :
    (f.define r name v).getLocal? q other =
      if q = r ∧ r.index < f.scopes.size ∧ other = name then some v else f.getLocal? q other := by
  simp only [getLocal?, define, scope_modify]
  by_cases h : q = r ∧ r.index < f.scopes.size
  · simp [h, Bindings.get?_set]
  · have hn : ¬ (q = r ∧ r.index < f.scopes.size ∧ other = name) := fun hn => h ⟨hn.1, hn.2.1⟩
    simp [h, hn]

@[simp] theorem parent_define (r q : Ref .scope) (name : String) (v : α) :
    ((f.define r name v).scope q).parent = (f.scope q).parent := by
  simp only [define, scope_modify]
  split <;> rfl

@[simp] theorem isGlobal_define (r q : Ref .scope) (name other : String) (v : α) :
    (f.define r name v).isGlobal q other = f.isGlobal q other := by
  simp only [isGlobal, define, scope_modify]
  split <;> rfl

@[simp] theorem isGlobal_declareGlobal (r q : Ref .scope) (name other : String) :
    (f.declareGlobal r name).isGlobal q other =
      (decide (q = r ∧ r.index < f.scopes.size ∧ other = name) || f.isGlobal q other) := by
  simp only [isGlobal, declareGlobal, scope_modify]
  by_cases h : q = r ∧ r.index < f.scopes.size
  · obtain ⟨rfl, hlt⟩ := h
    by_cases hname : name ∈ (f.scope q).globals
    · by_cases hother : other = name <;> simp [hlt, hname, hother]
    · simp [hlt, hname]
  · have hn : ¬ (q = r ∧ r.index < f.scopes.size ∧ other = name) := fun hn => h ⟨hn.1, hn.2.1⟩
    simp [h, hn]

@[simp] theorem push_fst (parent : Ref .scope) : (f.push parent).1 = ⟨f.scopes.size⟩ := rfl

theorem scope_push (parent q : Ref .scope) :
    (f.push parent).2.scope q =
      if q.index = f.scopes.size then ⟨some parent, [], []⟩ else f.scope q := by
  simp only [push, scope, Array.getD_eq_getD_getElem?, Array.getElem?_push]
  split <;> rfl

variable {f} {g : Forest α} {r d : Ref .scope} {name other : String} {v : α}

theorem definer?_congr (h : ∀ q : Ref .scope, q.index ≤ r.index →
      (f.getLocal? q name).isSome = (g.getLocal? q name).isSome ∧
        (f.scope q).parent = (g.scope q).parent) :
    f.definer? r name = g.definer? r name := by
  obtain ⟨i⟩ := r
  induction i using Nat.strongRecOn with
  | _ i ih =>
    obtain ⟨hlocal, hparent⟩ := h ⟨i⟩ (Nat.le_refl i)
    rw [definer?, definer?, hlocal, hparent]
    split
    · rfl
    · split
      · rename_i p _
        split
        · rename_i hp
          exact ih p.index hp fun q hq => h q (Nat.le_trans hq (Nat.le_of_lt hp))
        · rfl
      · rfl

theorem definer?_of_getLocal? (h : (f.getLocal? r name).isSome = true) :
    f.definer? r name = some r := by
  rw [definer?, if_pos h]

theorem isSome_of_definer? (h : f.definer? r name = some d) :
    (f.getLocal? d name).isSome = true ∧ d.index ≤ r.index := by
  fun_induction f.definer? r name with
  | case1 r hr =>
    cases h
    exact ⟨hr, Nat.le_refl _⟩
  | case2 r hr p hp hlt ih =>
    obtain ⟨hd, hle⟩ := ih h
    exact ⟨hd, Nat.le_trans hle (Nat.le_of_lt hlt)⟩
  | case3 => cases h
  | case4 => cases h

theorem lt_size_of_getLocal? (h : (f.getLocal? r name).isSome = true) :
    r.index < f.scopes.size := by
  by_cases hr : r.index < f.scopes.size
  · exact hr
  · have hnone : f.scopes[r.index]? = none := Array.getElem?_eq_none (Nat.le_of_not_lt hr)
    simp [getLocal?, scope, Array.getD_eq_getD_getElem?, hnone, Bindings.get?] at h

theorem definer?_define_ne (q : Ref .scope) (hne : other ≠ name) :
    (f.define q name v).definer? r other = f.definer? r other :=
  definer?_congr fun q' _ => by simp [hne]

theorem definer?_define_bound (hd : (f.getLocal? d name).isSome = true) :
    (f.define d name v).definer? r name = f.definer? r name := by
  refine definer?_congr fun q _ => ⟨?_, parent_define f d q name v⟩
  rw [getLocal?_define]
  split
  · rename_i h
    rw [h.1, hd]
    rfl
  · rfl

theorem definer?_define_self (hr : r.index < f.scopes.size) :
    (f.define r name v).definer? r name = some r :=
  definer?_of_getLocal? (by simp [hr])

theorem get?_define_self (hr : r.index < f.scopes.size) :
    (f.define r name v).get? r name = some v := by
  simp [get?, definer?_define_self hr, hr]

theorem get?_define_ne (q : Ref .scope) (hne : other ≠ name) :
    (f.define q name v).get? r other = f.get? r other := by
  simp [get?, definer?_define_ne q hne, hne]

theorem get?_of_getLocal? (h : f.getLocal? r name = some v) : f.get? r name = some v := by
  rw [get?, definer?_of_getLocal? (by rw [h]; rfl)]
  exact h

theorem get?_eq_none_iff : f.get? r name = none ↔ f.definer? r name = none := by
  unfold get?
  cases hd : f.definer? r name with
  | none => exact ⟨fun _ => rfl, fun _ => rfl⟩
  | some d =>
    obtain ⟨v, hv⟩ := Option.isSome_iff_exists.1 (isSome_of_definer? hd).1
    rw [Option.bind_some, hv]
    exact iff_of_false (Option.some_ne_none v) (Option.some_ne_none d)

theorem get?_congr (h : ∀ q : Ref .scope, q.index ≤ r.index →
      f.getLocal? q name = g.getLocal? q name ∧ (f.scope q).parent = (g.scope q).parent) :
    f.get? r name = g.get? r name := by
  unfold get?
  rw [definer?_congr fun q hq => ⟨by rw [(h q hq).1], (h q hq).2⟩]
  cases hd : g.definer? r name with
  | none => rfl
  | some d => exact (h d (isSome_of_definer? hd).2).1

theorem definer?_of_parent {p : Ref .scope} (h : f.getLocal? r name = none)
    (hp : (f.scope r).parent = some p) (hlt : p.index < r.index) :
    f.definer? r name = f.definer? p name := by
  rw [definer?, h, hp]
  simp [hlt]

theorem get?_of_parent {p : Ref .scope} (h : f.getLocal? r name = none)
    (hp : (f.scope r).parent = some p) (hlt : p.index < r.index) :
    f.get? r name = f.get? p name := by
  rw [get?, get?, definer?_of_parent h hp hlt]

theorem getLocal?_push (parent q : Ref .scope) (hq : q.index ≠ f.scopes.size) :
    (f.push parent).2.getLocal? q name = f.getLocal? q name := by
  simp only [getLocal?, scope_push, if_neg hq]

theorem getLocal?_new (parent : Ref .scope) :
    (f.push parent).2.getLocal? (f.push parent).1 name = none := by
  simp [getLocal?, scope_push, Bindings.get?]

theorem isGlobal_new (parent : Ref .scope) :
    (f.push parent).2.isGlobal (f.push parent).1 name = false := by
  simp [isGlobal, scope_push]

theorem definer?_push (parent : Ref .scope) (hr : r.index < f.scopes.size) :
    (f.push parent).2.definer? r name = f.definer? r name := by
  refine definer?_congr fun q hq => ?_
  have hne : q.index ≠ f.scopes.size := Nat.ne_of_lt (Nat.lt_of_le_of_lt hq hr)
  exact ⟨by rw [getLocal?_push parent q hne], by rw [scope_push, if_neg hne]⟩

theorem definer?_new {parent : Ref .scope} (hp : parent.index < f.scopes.size) :
    (f.push parent).2.definer? (f.push parent).1 name = f.definer? parent name := by
  rw [definer?, getLocal?_new, scope_push]
  simp [hp, definer?_push parent hp]

theorem get?_push (parent : Ref .scope) (hr : r.index < f.scopes.size) :
    (f.push parent).2.get? r name = f.get? r name := by
  refine get?_congr fun q hq => ?_
  have hne : q.index ≠ f.scopes.size := Nat.ne_of_lt (Nat.lt_of_le_of_lt hq hr)
  exact ⟨getLocal?_push parent q hne, by rw [scope_push, if_neg hne]⟩

theorem get?_new {parent : Ref .scope} (hp : parent.index < f.scopes.size) :
    (f.push parent).2.get? (f.push parent).1 name = f.get? parent name := by
  rw [get?_of_parent (getLocal?_new parent) (by simp [scope_push]) hp, get?_push parent hp]

/-! What all names are bound to -/

variable (f) in
def AllBound (P : String → α → Prop) : Prop :=
  ∀ scope ∈ f.scopes, ∀ entry ∈ scope.vars, P entry.1 entry.2

theorem mem_modify {change : Scope α → Scope α} {scope : Scope α}
    (h : scope ∈ (f.modify r change).scopes) :
    scope ∈ f.scopes ∨ ∃ old ∈ f.scopes, scope = change old :=
  mem_of_mem_modify h

namespace AllBound

variable {P Q : String → α → Prop} (h : f.AllBound P)

include h

theorem imp (hpq : ∀ name v, P name v → Q name v) : f.AllBound Q :=
  fun scope hscope entry he => hpq _ _ (h scope hscope entry he)

theorem vars {entry : String × α} (he : entry ∈ (f.scope r).vars) : P entry.1 entry.2 := by
  rw [scope, Array.getD_eq_getD_getElem?] at he
  cases hr : f.scopes[r.index]? with
  | none =>
    rw [hr] at he
    cases he
  | some scope =>
    rw [hr] at he
    exact h scope (Array.mem_of_getElem? hr) _ he

theorem getLocal? (hv : f.getLocal? r name = some v) : P name v :=
  h.vars (Bindings.mem_of_get? hv)

theorem get? (hv : f.get? r name = some v) : P name v := by
  obtain ⟨d, _, hd⟩ := Option.bind_eq_some_iff.1 hv
  exact h.getLocal? hd

theorem define (r : Ref .scope) (hv : P name v) : (f.define r name v).AllBound P := by
  intro scope hscope entry he
  rcases mem_modify hscope with hscope | ⟨old, hold, rfl⟩
  · exact h scope hscope entry he
  · rcases Bindings.mem_set he with rfl | he
    · exact hv
    · exact h old hold entry he

theorem declareGlobal (r : Ref .scope) (name : String) : (f.declareGlobal r name).AllBound P := by
  intro scope hscope entry he
  rcases mem_modify hscope with hscope | ⟨old, hold, rfl⟩
  · exact h scope hscope entry he
  · refine h old hold entry ?_
    split at he
    · exact he
    · exact he

theorem push (parent : Ref .scope) : (f.push parent).2.AllBound P := by
  intro scope hscope entry he
  rcases Array.mem_push.1 hscope with hscope | rfl
  · exact h scope hscope entry he
  · cases he

end AllBound

end Forest

end Spellbook
