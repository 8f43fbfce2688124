import Spellbook.Proofs.Reach.Address
import Spellbook.Proofs.Scope
import Spellbook.Proofs.Value.Tables

/-! Estates: the values and scopes that may be got at in the course of a run, and what may become of
the store meanwhile. What is read from something in the estate belongs to it, and nothing else is
written. -/
namespace Spellbook

/-- The state that something ends in, with or without a result. -/
def endState {ε σ α : Type} : EStateM.Result ε σ α → σ
  | .ok _ s => s
  | .error _ s => s

/-- An error that was made and never raised. It has no place. -/
def Failure.IsUnraised (f : Failure) : Prop :=
  ∃ name message, f = .custom ⟨name, message, none, .unknown, []⟩

namespace Store

variable (s : Store) {r owner : Ref .grimoire} {decl : SpellDecl}

theorem mem_lineage_of_findMethod? {name : String} (h : s.findMethod? r name = some (decl, owner)) :
    owner ∈ s.lineage r := by
  obtain ⟨g, hg, hfound⟩ := List.exists_of_findSome?_eq_some h
  obtain ⟨_, _, heq⟩ := Option.map_eq_some_iff.1 hfound
  cases heq
  exact hg

theorem mem_lineage_of_findInit? (h : s.findInit? r = some (decl, owner)) :
    owner ∈ s.lineage r := by
  obtain ⟨g, hg, hfound⟩ := List.exists_of_findSome?_eq_some h
  obtain ⟨_, _, heq⟩ := Option.map_eq_some_iff.1 hfound
  cases heq
  exact hg

theorem object_newObject (o : Object) : (s.newObject o).2.object (s.newObject o).1 = o := by
  simp only [newObject, object, Array.getD_eq_getD_getElem?, Array.getElem?_push_size,
    Option.getD_some]

end Store

/-- What an evaluation may hold on to. -/
inductive Item where
  | value (v : Value)
  | scope (r : Ref .scope)

class Bearing (α : Type) where
  items : α → List Item

namespace Bearing

variable {α β : Type}

abbrev plain (α : Type) : Bearing α := ⟨fun _ => []⟩

instance : Bearing Unit := plain Unit

instance : Bearing Bool := plain Bool

instance : Bearing String := plain String

instance : Bearing Fault := plain Fault

instance : Bearing Value := ⟨fun v => [.value v]⟩

instance : Bearing (Ref .scope) := ⟨fun r => [.scope r]⟩

instance : Bearing (Ref .grimoire) := ⟨fun r => [.value (.grimoire r)]⟩

instance : Bearing (Ref .object) := ⟨fun r => [.value (.object r)]⟩

/-- A failure that is known by itself was raised. -/
instance : Bearing (Ref .failure) := ⟨fun r => [.value (.caught r)]⟩

instance [Bearing α] : Bearing (Option α) := ⟨fun o => o.toList.flatMap items⟩

instance [Bearing α] : Bearing (List α) := ⟨fun xs => xs.flatMap items⟩

instance [Bearing α] : Bearing (Array α) := ⟨fun xs => xs.toList.flatMap items⟩

instance [Bearing α] [Bearing β] : Bearing (α × β) := ⟨fun p => items p.1 ++ items p.2⟩

instance [Bearing α] [Bearing β] : Bearing (Except α β) where
  items
    | .ok b => items b
    | .error a => items a

instance : Bearing Flow where
  items
    | .value v | .give v => items v
    | .stop | .skip => []

instance : Bearing Entry := ⟨fun e => items e.name ++ items e.value⟩

instance : Bearing Failure := ⟨fun f => items (f.chain.filterMap Failure.object?)⟩

end Bearing

open Bearing

/-- What is got at from something in one step. -/
inductive Store.Yields (s : Store) : Item → Item → Prop where
  | element {r : Ref .array} {v : Value} : v ∈ s.array r →
    s.Yields (.value (.array r)) (.value v)
  | component {r : Ref .tuple} {v : Value} : v ∈ s.tuple r →
    s.Yields (.value (.tuple r)) (.value v)
  | name {r : Ref .map} {e : Entry} : e ∈ s.map r → s.Yields (.value (.map r)) (.value e.name)
  | entry {r : Ref .map} {e : Entry} : e ∈ s.map r → s.Yields (.value (.map r)) (.value e.value)
  | field {r : Ref .object} {name : String} {v : Value} : (name, v) ∈ (s.object r).fields →
    s.Yields (.value (.object r)) (.value v)
  | grimoire (r : Ref .object) :
    s.Yields (.value (.object r)) (.value (.grimoire (s.object r).grimoire))
  | parent {r p : Ref .grimoire} : (s.grimoire r).parent = some p →
    s.Yields (.value (.grimoire r)) (.value (.grimoire p))
  | declared (r : Ref .grimoire) : s.Yields (.value (.grimoire r)) (.scope (s.grimoire r).scope)
  | closure {r : Ref .spell} {f : Spell} : s.spell? r = some f →
    s.Yields (.value (.spell r)) (.scope f.scope)
  | receiver {r : Ref .method} {f : Method} : s.method? r = some f →
    s.Yields (.value (.method r)) (.value f.receiver)
  | owner {r : Ref .method} {f : Method} : s.method? r = some f →
    s.Yields (.value (.method r)) (.value (.grimoire f.owner))
  | space (r : Ref .space) : s.Yields (.value (.space r)) (.scope (s.space r).scope)
  | bound {r : Ref .scope} {name : String} {v : Value} :
    (name, v) ∈ (s.scopes.scope r).vars → s.Yields (.scope r) (.value v)
  | around {r p : Ref .scope} : (s.scopes.scope r).parent = some p →
    s.Yields (.scope r) (.scope p)
  | thrown {r : Ref .failure} {o : Ref .object} : .value (.object o) ∈ items (s.failure r) →
    s.Yields (.value (.caught r)) (.value (.object o))
  | blamed {r : Ref .failure} {o : Ref .object} : .value (.object o) ∈ items (s.failure r) →
    s.Yields (.value (.error r)) (.value (.object o))
  /-- An error that was not made by the script itself has been raised. -/
  | foreign {r : Ref .failure} : (∀ c, s.failure r ≠ .custom c) →
    s.Yields (.value (.error r)) (.value (.caught r))

structure Estate where
  holds : Store → Item → Prop
  /-- What may become of a store. -/
  Leads : Store → Store → Prop
  trans : ∀ {s s' s''}, Leads s s' → Leads s' s'' → Leads s s''
  settled : ∀ {s s'}, Leads s s' → Leads s' s'
  later : ∀ {s s' i}, holds s i → Leads s s' → holds s' i
  plain : ∀ {s v}, Refers.refs v = [] → holds s (.value v)
  reads : ∀ {s i j}, Leads s s → holds s i → s.Yields i j → holds s j
  newArray : ∀ {s} {xs : Array Value}, Leads s s → (∀ v ∈ xs, holds s (.value v)) →
    Leads s (s.newArray xs).2 ∧ holds (s.newArray xs).2 (.value (s.newArray xs).1)
  newTuple : ∀ {s} {xs : Array Value}, Leads s s → (∀ v ∈ xs, holds s (.value v)) →
    Leads s (s.newTuple xs).2 ∧ holds (s.newTuple xs).2 (.value (s.newTuple xs).1)
  newMap : ∀ {s} {t : Table}, Leads s s →
    (∀ e ∈ t, holds s (.value e.name) ∧ holds s (.value e.value)) →
    Leads s (s.newMap t).2 ∧ holds (s.newMap t).2 (.value (s.newMap t).1)
  newError : ∀ {s} {f : Failure}, Leads s s → f.IsUnraised →
    Leads s (s.newFailure f).2 ∧ holds (s.newFailure f).2 (.value (.error (s.newFailure f).1))
  setElement : ∀ {s} {r : Ref .array} (i : Nat) {v : Value}, Leads s s →
    holds s (.value (.array r)) → holds s (.value v) → Leads s (s.setElement r i v)
  setEntry : ∀ {s} {r : Ref .map} {e : Entry}, Leads s s → holds s (.value (.map r)) →
    holds s (.value e.name) → holds s (.value e.value) → Leads s (s.setEntry r e)

namespace Estate

variable {α β : Type} [Bearing α] [Bearing β] {L : Estate} {s s' : Store}

/-- All that is in some data belongs to the estate. -/
def Knows (L : Estate) (s : Store) (x : α) : Prop := ∀ i ∈ items x, L.holds s i

theorem Knows.later {x : α} (h : L.Knows s x) (hl : L.Leads s s') : L.Knows s' x :=
  fun i hi => L.later (h i hi) hl

/-! What is known, part by part -/

theorem knows_nothing {x : α} (h : items x = []) : L.Knows s x := by
  intro i hi
  rw [h] at hi
  cases hi

theorem knows_value {v : Value} : L.Knows s v ↔ L.holds s (.value v) := List.forall_mem_singleton

theorem knows_plain {v : Value} (h : Refers.refs v = []) : L.Knows s v :=
  knows_value.2 (L.plain h)

theorem knows_scope {r : Ref .scope} : L.Knows s r ↔ L.holds s (.scope r) :=
  List.forall_mem_singleton

theorem knows_list {xs : List α} : L.Knows s xs ↔ ∀ x ∈ xs, L.Knows s x := by
  simp only [Knows, items, List.mem_flatMap]
  exact ⟨fun h x hx i hi => h i ⟨x, hx, hi⟩, fun h i ⟨x, hx, hi⟩ => h x hx i hi⟩

theorem knows_array {xs : Array α} : L.Knows s xs ↔ ∀ x ∈ xs, L.Knows s x := by
  have hlist : L.Knows s xs ↔ L.Knows s xs.toList := .rfl
  rw [hlist, knows_list]
  simp only [Array.mem_toList_iff]

theorem knows_option {o : Option α} : L.Knows s o ↔ ∀ x ∈ o, L.Knows s x := by
  have hlist : L.Knows s o ↔ L.Knows s o.toList := .rfl
  rw [hlist, knows_list]
  simp only [Option.mem_toList, Option.mem_def]

theorem Knows.some {x : α} (h : L.Knows s x) : L.Knows s (Option.some x) :=
  knows_option.2 fun _ hx => Option.some.inj hx ▸ h

theorem knows_pair {x : α} {y : β} : L.Knows s (x, y) ↔ L.Knows s x ∧ L.Knows s y :=
  List.forall_mem_append

theorem knows_cons {x : α} {xs : List α} : L.Knows s (x :: xs) ↔ L.Knows s x ∧ L.Knows s xs :=
  List.forall_mem_append

theorem knows_nil : L.Knows s ([] : List α) := knows_nothing rfl

theorem knows_entry {e : Entry} : L.Knows s e ↔ L.Knows s e.name ∧ L.Knows s e.value :=
  List.forall_mem_append

theorem Knows.mem {x : α} {xs : List α} (h : L.Knows s xs) (hx : x ∈ xs) : L.Knows s x :=
  knows_list.1 h x hx

theorem Knows.toArray {xs : List α} (h : L.Knows s xs) : L.Knows s xs.toArray :=
  knows_array.2 fun _ hx => h.mem (List.mem_toArray.1 hx)

theorem Knows.toList {xs : Array α} (h : L.Knows s xs) : L.Knows s xs.toList :=
  knows_list.2 fun x hx => knows_array.1 h x (Array.mem_toList_iff.1 hx)

theorem Knows.head? {xs : List α} (h : L.Knows s xs) : L.Knows s xs.head? :=
  knows_option.2 fun _ hx => h.mem (List.mem_of_mem_head? hx)

theorem Knows.tail {xs : List α} (h : L.Knows s xs) : L.Knows s xs.tail :=
  knows_list.2 fun _ hx => h.mem (List.mem_of_mem_tail hx)

theorem Knows.getD {xs : Array α} {x : α} (i : Nat) (h : L.Knows s xs) (hx : L.Knows s x) :
    L.Knows s (xs.getD i x) := by
  rw [Array.getD_eq_getD_getElem?]
  cases hi : xs[i]? with
  | none => exact hx
  | some y => exact knows_array.1 h y (Array.mem_of_getElem? hi)

theorem Knows.append {xs ys : Array α} (hxs : L.Knows s xs) (hys : L.Knows s ys) :
    L.Knows s (xs ++ ys) := by
  refine knows_array.2 fun x hx => ?_
  rcases Array.mem_append.1 hx with hx | hx
  · exact knows_array.1 hxs x hx
  · exact knows_array.1 hys x hx

theorem Knows.extract {xs : Array α} (h : L.Knows s xs) (i j : Nat) :
    L.Knows s (xs.extract i j) := by
  refine knows_array.2 fun x hx => ?_
  obtain ⟨k, _, rfl⟩ := Array.mem_extract_iff_getElem.1 hx
  exact knows_array.1 h _ (Array.getElem_mem _)

theorem knows_ofPairs {pairs : List (Value × Value)} (hp : L.Knows s pairs) :
    L.Knows s (Table.ofPairs pairs) := by
  cases h : Table.ofPairs pairs with
  | error fault => exact knows_nothing rfl
  | ok t =>
    refine knows_list.2 fun e he => knows_entry.2 ?_
    exact knows_pair.1 (hp.mem (Table.mem_ofPairs h he))

/-! What is made -/

theorem makesArray {xs : Array Value} (hs : L.Leads s s) (hxs : L.Knows s xs) :
    L.Leads s (s.newArray xs).2 ∧ L.Knows (s.newArray xs).2 (s.newArray xs).1 :=
  (L.newArray hs fun v hv => knows_value.1 (knows_array.1 hxs v hv)).imp_right knows_value.2

theorem makesTuple {xs : Array Value} (hs : L.Leads s s) (hxs : L.Knows s xs) :
    L.Leads s (s.newTuple xs).2 ∧ L.Knows (s.newTuple xs).2 (s.newTuple xs).1 :=
  (L.newTuple hs fun v hv => knows_value.1 (knows_array.1 hxs v hv)).imp_right knows_value.2

theorem makesMap {t : Table} (hs : L.Leads s s) (ht : L.Knows s t) :
    L.Leads s (s.newMap t).2 ∧ L.Knows (s.newMap t).2 (s.newMap t).1 := by
  refine (L.newMap hs fun e he => ?_).imp_right knows_value.2
  have hentry := knows_entry.1 (ht.mem he)
  exact ⟨knows_value.1 hentry.1, knows_value.1 hentry.2⟩

/-! What is read from a store -/

section Reading

variable (hs : L.Leads s s)

include hs

theorem array {r : Ref .array} (hr : L.Knows s (Value.array r)) : L.Knows s (s.array r) :=
  knows_array.2 fun _ hv => knows_value.2 (L.reads hs (knows_value.1 hr) (.element hv))

theorem tuple {r : Ref .tuple} (hr : L.Knows s (Value.tuple r)) : L.Knows s (s.tuple r) :=
  knows_array.2 fun _ hv => knows_value.2 (L.reads hs (knows_value.1 hr) (.component hv))

theorem map {r : Ref .map} (hr : L.Knows s (Value.map r)) : L.Knows s (s.map r) := by
  refine knows_list.2 fun e he => knows_entry.2 ⟨knows_value.2 ?_, knows_value.2 ?_⟩
  · exact L.reads hs (knows_value.1 hr) (.name he)
  · exact L.reads hs (knows_value.1 hr) (.entry he)

theorem field? {r : Ref .object} {name : String} {v : Value} (hr : L.Knows s r)
    (h : s.field? r name = some v) : L.Knows s v :=
  knows_value.2 (L.reads hs (knows_value.1 hr) (.field (Bindings.mem_of_get? h)))

theorem object {r : Ref .object} (hr : L.Knows s r) : L.Knows s (s.object r).grimoire :=
  knows_value.2 (L.reads hs (knows_value.1 hr) (.grimoire r))

theorem space {r : Ref .space} (hr : L.Knows s (Value.space r)) : L.Knows s (s.space r).scope :=
  knows_scope.2 (L.reads hs (knows_value.1 hr) (.space r))

theorem declared {r : Ref .grimoire} (hr : L.Knows s r) : L.Knows s (s.grimoire r).scope :=
  knows_scope.2 (L.reads hs (knows_value.1 hr) (.declared r))

theorem spell? {r : Ref .spell} {f : Spell} (hr : L.Knows s (Value.spell r))
    (h : s.spell? r = some f) : L.Knows s f.scope :=
  knows_scope.2 (L.reads hs (knows_value.1 hr) (.closure h))

theorem method? {r : Ref .method} {f : Method} (hr : L.Knows s (Value.method r))
    (h : s.method? r = some f) : L.Knows s f.receiver ∧ L.Knows s f.owner :=
  ⟨knows_value.2 (L.reads hs (knows_value.1 hr) (.receiver h)),
    knows_value.2 (L.reads hs (knows_value.1 hr) (.owner h))⟩

theorem getLocal? {r : Ref .scope} {name : String} {v : Value} (hr : L.Knows s r)
    (h : s.scopes.getLocal? r name = some v) : L.Knows s v :=
  knows_value.2 (L.reads hs (knows_scope.1 hr) (.bound (Bindings.mem_of_get? h)))

theorem vars {r : Ref .scope} (hr : L.Knows s r) : L.Knows s (s.scopes.scope r).vars := by
  refine knows_list.2 fun (name, v) he => knows_pair.2 ⟨knows_nothing rfl, ?_⟩
  exact knows_value.2 (L.reads hs (knows_scope.1 hr) (.bound he))

theorem around {r p : Ref .scope} (hr : L.Knows s r) (h : (s.scopes.scope r).parent = some p) :
    L.Knows s p :=
  knows_scope.2 (L.reads hs (knows_scope.1 hr) (.around h))

theorem definer? {r d : Ref .scope} {name : String} (hr : L.Knows s r)
    (h : s.scopes.definer? r name = some d) : L.Knows s d := by
  fun_induction s.scopes.definer? r name with
  | case1 => exact Option.some.inj h ▸ hr
  | case2 r _ p hp _ ih => exact ih (around hs hr hp) h
  | case3 => cases h
  | case4 => cases h

theorem get? {r : Ref .scope} {name : String} {v : Value} (hr : L.Knows s r)
    (h : s.scopes.get? r name = some v) : L.Knows s v := by
  obtain ⟨d, hd, hv⟩ := Option.bind_eq_some_iff.1 h
  exact getLocal? hs (definer? hs hr hd) hv

theorem root {r : Ref .scope} (hr : L.Knows s r) : L.Knows s (s.scopes.root r) := by
  fun_induction s.scopes.root r with
  | case1 r p hp _ ih => exact ih (around hs hr hp)
  | case2 => exact hr
  | case3 => exact hr

theorem assigned {r : Ref .scope} (name : String) (hr : L.Knows s r) :
    L.Knows s (s.scopes.home r name) := by
  unfold Forest.home
  split
  · exact root hs hr
  · cases hd : s.scopes.definer? r name with
    | none => exact hr
    | some d => exact definer? hs hr hd

/-- Ancestors are got at through their descendants. -/
theorem lineage {r g : Ref .grimoire} (hr : L.Knows s r) (h : g ∈ s.lineage r) : L.Knows s g := by
  obtain ⟨i⟩ := r
  induction i using Nat.strongRecOn with
  | _ i ih =>
    rw [Store.lineage] at h
    rcases List.mem_cons.1 h with rfl | h
    · exact hr
    · split at h
      · rename_i p hp
        split at h
        · rename_i hlt
          exact ih p.index hlt (knows_value.2 (L.reads hs (knows_value.1 hr) (.parent hp))) h
        · cases h
      · cases h

theorem elements? {v : Value} {xs : Array Value} (hv : L.Knows s v)
    (h : s.elements? v = some xs) : L.Knows s xs := by
  unfold Store.elements? at h
  split at h <;> cases h
  · exact array hs hv
  · exact tuple hs hv
  · refine knows_array.2 fun v hv => ?_
    obtain ⟨c, _, rfl⟩ := List.mem_map.1 (List.mem_toArray.1 hv)
    exact knows_plain rfl
  · refine knows_array.2 fun v hmem => ?_
    obtain ⟨e, he, rfl⟩ := List.mem_map.1 (List.mem_toArray.1 hmem)
    exact (knows_entry.1 ((map hs hv).mem he)).1

end Reading

end Estate

end Spellbook
