import Mathlib.Logic.Relation
import Spellbook.Eval

/-! What refers to what in the store. Everything in it has an address and refers to other addresses,
and what can be got at from an address are those that a chain of references leads to. -/
namespace Spellbook

/-- Where something stands in the store. -/
structure Address where
  kind : Cell
  index : Nat
deriving DecidableEq, Repr

def Ref.address {κ : Cell} (r : Ref κ) : Address := ⟨κ, r.index⟩

class Refers (α : Type) where
  refs : α → List Address

namespace Refers

variable {α β : Type}

abbrev plain (α : Type) : Refers α := ⟨fun _ => []⟩

instance : Refers String := plain String

instance : Refers Fault := plain Fault

instance {κ : Cell} : Refers (Ref κ) := ⟨fun r => [r.address]⟩

instance : Refers Value where
  refs
    | .none | .bool _ | .int _ | .float _ | .str _ | .builtin _ => []
    | .array r => [r.address]
    | .tuple r => [r.address]
    | .map r => [r.address]
    | .spell r => [r.address]
    | .grimoire r => [r.address]
    | .object r => [r.address]
    | .method r => [r.address]
    | .space r => [r.address]
    | .error r | .caught r => [r.address]

instance [Refers α] : Refers (Option α) := ⟨fun o => o.toList.flatMap refs⟩

instance [Refers α] : Refers (List α) := ⟨fun xs => xs.flatMap refs⟩

instance [Refers α] : Refers (Array α) := ⟨fun xs => xs.toList.flatMap refs⟩

instance [Refers α] [Refers β] : Refers (α × β) := ⟨fun p => refs p.1 ++ refs p.2⟩

instance [Refers α] [Refers β] : Refers (Except α β) where
  refs
    | .ok b => refs b
    | .error a => refs a

instance : Refers (Scope Value) := ⟨fun s => refs s.parent ++ refs s.vars⟩

/-- Keys are kept with the values that they were made from. -/
instance : Refers Entry := ⟨fun e => refs e.name ++ refs e.value⟩

instance : Refers Spell := ⟨fun f => refs f.scope⟩

instance : Refers Grimoire := ⟨fun g => refs g.scope ++ refs g.parent⟩

instance : Refers Object := ⟨fun o => refs o.grimoire ++ refs o.fields⟩

instance : Refers Method := ⟨fun f => refs f.owner ++ refs f.receiver⟩

instance : Refers Space := ⟨fun n => refs n.scope⟩

/-- A failure refers to the objects that were raised, its own and those of its causes. -/
instance : Refers Failure := ⟨fun f => refs (f.chain.filterMap Failure.object?)⟩

end Refers

open Refers

namespace Cell

abbrev Content : Cell → Type
  | .scope => Scope Value
  | .array => Array Value
  | .tuple => Array Value
  | .map => Table
  | .spell => Spell
  | .grimoire => Grimoire
  | .object => Object
  | .method => Method
  | .space => Space
  | .failure => Failure

def refs : (κ : Cell) → κ.Content → List Address
  | .scope, c => Refers.refs c
  | .array, c => Refers.refs c
  | .tuple, c => Refers.refs c
  | .map, c => Refers.refs c
  | .spell, c => Refers.refs c
  | .grimoire, c => Refers.refs c
  | .object, c => Refers.refs c
  | .method, c => Refers.refs c
  | .space, c => Refers.refs c
  | .failure, c => Refers.refs c

/-- What an address refers to that is not in use. -/
def unused : Cell → List Address
  | .grimoire | .space => [Forest.outermost.address]
  | .object => [⟨.grimoire, 0⟩]
  | _ => []

end Cell

namespace Store

def table (s : Store) : (κ : Cell) → Array κ.Content
  | .scope => s.scopes.scopes
  | .array => s.arrays
  | .tuple => s.tuples
  | .map => s.maps
  | .spell => s.spells
  | .grimoire => s.grimoires
  | .object => s.objects
  | .method => s.methods
  | .space => s.spaces
  | .failure => s.failures

def withTable (s : Store) : (κ : Cell) → Array κ.Content → Store
  | .scope, t => { s with scopes := ⟨t⟩ }
  | .array, t => { s with arrays := t }
  | .tuple, t => { s with tuples := t }
  | .map, t => { s with maps := t }
  | .spell, t => { s with spells := t }
  | .grimoire, t => { s with grimoires := t }
  | .object, t => { s with objects := t }
  | .method, t => { s with methods := t }
  | .space, t => { s with spaces := t }
  | .failure, t => { s with failures := t }

def size (s : Store) (κ : Cell) : Nat := (s.table κ).size

def content? (s : Store) (a : Address) : Option a.kind.Content := (s.table a.kind)[a.index]?

def InUse (s : Store) (a : Address) : Prop := a.index < s.size a.kind

instance (s : Store) (a : Address) : Decidable (s.InUse a) :=
  inferInstanceAs (Decidable (a.index < s.size a.kind))

/-- The same stands at the address in both stores. -/
def SameAt (s s' : Store) (a : Address) : Prop := s'.content? a = s.content? a

def parts (s : Store) (a : Address) : List Address :=
  match s.content? a with
  | some c => a.kind.refs c
  | none => a.kind.unused

/-- A chain of references leads from one address to another. -/
def Reaches (s : Store) : Address → Address → Prop := Relation.ReflTransGen fun a b => b ∈ s.parts a

variable (s : Store)

theorem table_withTable (κ : Cell) (t : Array κ.Content) : (s.withTable κ t).table κ = t := by
  cases κ <;> rfl

theorem table_withTable_of_ne {κ κ' : Cell} (h : κ' ≠ κ) (t : Array κ.Content) :
    (s.withTable κ t).table κ' = s.table κ' := by
  cases κ <;> cases κ' <;> first | rfl | exact absurd rfl h

theorem content?_push_of_ne {κ : Cell} (c : κ.Content) {a : Address} (h : a ≠ ⟨κ, s.size κ⟩) :
    (s.withTable κ ((s.table κ).push c)).content? a = s.content? a := by
  obtain ⟨κ', i⟩ := a
  by_cases hκ : κ' = κ
  · subst hκ
    have hi : i ≠ (s.table κ').size := fun hi => h (by rw [hi]; rfl)
    simp only [content?, table_withTable, Array.getElem?_push, if_neg hi]
  · simp only [content?, table_withTable_of_ne s hκ]

theorem content?_push_self {κ : Cell} (c : κ.Content) :
    (s.withTable κ ((s.table κ).push c)).content? ⟨κ, s.size κ⟩ = some c := by
  simp only [content?, table_withTable, size, Array.getElem?_push_size]

theorem content?_modify_of_ne {a b : Address} (f : a.kind.Content → a.kind.Content) (h : b ≠ a) :
    (s.withTable a.kind ((s.table a.kind).modify a.index f)).content? b = s.content? b := by
  obtain ⟨κ, i⟩ := a
  obtain ⟨κ', j⟩ := b
  by_cases hκ : κ' = κ
  · subst hκ
    have hj : ¬ i = j := fun hj => h (by rw [hj])
    simp only [content?, table_withTable, Array.getElem?_modify, if_neg hj]
  · simp only [content?, table_withTable_of_ne s hκ]

theorem content?_modify_self (a : Address) (f : a.kind.Content → a.kind.Content) :
    (s.withTable a.kind ((s.table a.kind).modify a.index f)).content? a = (s.content? a).map f := by
  simp only [content?, table_withTable, Array.getElem?_modify, if_true]

theorem size_push (κ κ' : Cell) (c : κ.Content) :
    (s.withTable κ ((s.table κ).push c)).size κ' = s.size κ' + if κ' = κ then 1 else 0 := by
  by_cases hκ : κ' = κ
  · subst hκ
    simp only [size, table_withTable, Array.size_push, if_true]
  · simp only [size, table_withTable_of_ne s hκ, if_neg hκ, Nat.add_zero]

theorem size_modify (κ κ' : Cell) (i : Nat) (f : κ.Content → κ.Content) :
    (s.withTable κ ((s.table κ).modify i f)).size κ' = s.size κ' := by
  by_cases hκ : κ' = κ
  · subst hκ
    simp only [size, table_withTable, Array.size_modify]
  · simp only [size, table_withTable_of_ne s hκ]

/-! Reading -/

variable {s}

theorem parts_of_content? {a : Address} {c : a.kind.Content} (h : s.content? a = some c) :
    s.parts a = a.kind.refs c := by
  rw [parts, h]

theorem refs_getD (κ : Cell) {c : κ.Content} (hc : κ.refs c = κ.unused) (i : Nat) :
    κ.refs ((s.table κ).getD i c) = s.parts ⟨κ, i⟩ := by
  rw [Array.getD_eq_getD_getElem?]
  unfold parts content?
  cases (s.table κ)[i]? with
  | none => exact hc
  | some c => rfl

theorem refs_array (r : Ref .array) : refs (s.array r) = s.parts r.address :=
  refs_getD .array rfl r.index

theorem refs_tuple (r : Ref .tuple) : refs (s.tuple r) = s.parts r.address :=
  refs_getD .tuple rfl r.index

theorem refs_map (r : Ref .map) : refs (s.map r) = s.parts r.address :=
  refs_getD .map rfl r.index

theorem refs_scope (r : Ref .scope) : refs (s.scopes.scope r) = s.parts r.address :=
  refs_getD .scope rfl r.index

theorem refs_grimoire (r : Ref .grimoire) : refs (s.grimoire r) = s.parts r.address :=
  refs_getD .grimoire rfl r.index

theorem refs_object (r : Ref .object) : refs (s.object r) = s.parts r.address :=
  refs_getD .object rfl r.index

theorem refs_space (r : Ref .space) : refs (s.space r) = s.parts r.address :=
  refs_getD .space rfl r.index

theorem refs_failure (r : Ref .failure) : refs (s.failure r) = s.parts r.address :=
  refs_getD .failure rfl r.index

theorem refs_spell? {r : Ref .spell} {f : Spell} (h : s.spell? r = some f) :
    refs f = s.parts r.address :=
  (parts_of_content? (a := r.address) h).symm

theorem refs_method? {r : Ref .method} {f : Method} (h : s.method? r = some f) :
    refs f = s.parts r.address :=
  (parts_of_content? (a := r.address) h).symm

end Store

end Spellbook
