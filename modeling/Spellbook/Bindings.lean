/-! Names bound to values, each name once. -/
namespace Spellbook

abbrev Bindings (α : Type) := List (String × α)

namespace Bindings

variable {α : Type}

def get? : Bindings α → String → Option α
  | [], _ => none
  | (n, v) :: rest, name => if n = name then some v else get? rest name

/-- Binds a name, in place of its old value if it has one. -/
def set (b : Bindings α) (name : String) (v : α) : Bindings α :=
  match b with
  | [] => [(name, v)]
  | (n, w) :: rest => if n = name then (name, v) :: rest else (n, w) :: set rest name v

theorem get?_set (b : Bindings α) (name other : String) (v : α) :
    (b.set name v).get? other = if other = name then some v else b.get? other := by
  induction b with
  | nil => simp [set, get?, eq_comm]
  | cons entry rest ih =>
    obtain ⟨n, w⟩ := entry
    by_cases h : n = name
    · by_cases h' : other = name <;> grind [set, get?]
    · by_cases h' : n = other <;> grind [set, get?]

def sorted (b : Bindings α) : List (String × α) := b.mergeSort fun x y => x.1 ≤ y.1

end Bindings

end Spellbook
