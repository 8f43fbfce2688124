import Spellbook.Proofs.Value.Tables
import Mathlib.Data.Finset.Card
import Mathlib.Order.Interval.Finset.Nat

/-! Values that are built from nothing but None, truth values, integers, strings, arrays, tuples and
maps, without cycles. They are nested no more deeply than there are containers in the store: on the
way down no container can come twice. -/
namespace Spellbook

/-- The values without parts that a map can have as keys, as far as there are literals for them. The
sign of an integer is no part of its literal, and a string has no escapes for code points. -/
def Value.IsScalar : Value → Prop
  | .bool _ => True
  | .int n => n ≠ Int64.minValue
  | .str s => ∀ c ∈ s.toList, Text.quotedChar c ≠ Text.codePointEscape c
  | _ => False

instance Value.decidableIsScalar : (v : Value) → Decidable v.IsScalar
  | .bool _ => .isTrue trivial
  | .int n => inferInstanceAs (Decidable (n ≠ Int64.minValue))
  | .str s => decidable_of_iff
    ((s.toList.all fun c => Text.quotedChar c != Text.codePointEscape c) = true)
    (by simp only [List.all_eq_true, bne_iff_ne, IsScalar])
  | .none | .float _ | .array _ | .tuple _ | .map _ | .spell _ | .builtin _ | .grimoire _
  | .object _ | .method _ | .space _ | .error _ | .caught _ => .isFalse id

namespace Store

variable {s : Store} {P Q : Value → Prop} {v : Value} {n k : Nat}

/-- The value is there and is plain as far as its parts are. -/
inductive PlainOver (s : Store) (P : Value → Prop) : Value → Prop where
  | none : PlainOver s P .none
  | scalar {v : Value} (hv : v.IsScalar) : PlainOver s P v
  | array {r : Ref .array} (hr : r.index < s.arrays.size)
    (hparts : ∀ v ∈ (s.array r).toList, P v) : PlainOver s P (.array r)
  | tuple {r : Ref .tuple} (hr : r.index < s.tuples.size)
    (hparts : ∀ v ∈ (s.tuple r).toList, P v) : PlainOver s P (.tuple r)
  | map {r : Ref .map} (hr : r.index < s.maps.size) (hproper : (s.map r).IsProper)
    (hnames : ∀ e ∈ s.map r, e.name.IsScalar) (hparts : ∀ e ∈ s.map r, P e.value) :
    PlainOver s P (.map r)

/-- The value is plain and nested at most `depth` levels deep. -/
def PlainAt (s : Store) : Nat → Value → Prop
  | 0, _ => False
  | depth + 1, v => s.PlainOver (s.PlainAt depth) v

/-- The value is built from None, scalars, arrays, tuples and maps. It has no cycles, since there is
an end to its levels. -/
def Plain (s : Store) (v : Value) : Prop := ∃ depth, s.PlainAt depth v

theorem PlainOver.imp (h : s.PlainOver P v) (himp : ∀ u, P u → Q u) : s.PlainOver Q v := by
  cases h with
  | none => exact .none
  | scalar hv => exact .scalar hv
  | array hr hparts => exact .array hr fun u hu => himp u (hparts u hu)
  | tuple hr hparts => exact .tuple hr fun u hu => himp u (hparts u hu)
  | map hr hproper hnames hparts =>
    exact .map hr hproper hnames fun e he => himp e.value (hparts e he)

theorem PlainAt.pos (h : s.PlainAt n v) : 0 < n := by
  cases n with
  | zero => exact h.elim
  | succ n => exact Nat.succ_pos n

theorem PlainAt.succ (h : s.PlainAt n v) : s.PlainAt (n + 1) v := by
  induction n generalizing v with
  | zero => exact h.elim
  | succ n ih => exact h.imp fun _ => ih

theorem PlainAt.mono (h : s.PlainAt n v) (hle : n ≤ k) : s.PlainAt k v := by
  induction hle with
  | refl => exact h
  | step _ ih => exact ih.succ

/-! The depth of a value -/

def containers (s : Store) : List Value :=
  (List.range s.arrays.size).map (fun i => .array ⟨i⟩) ++
    (List.range s.tuples.size).map (fun i => .tuple ⟨i⟩) ++
    (List.range s.maps.size).map (fun i => .map ⟨i⟩)

theorem length_containers (s : Store) : s.containers.length + 1 = s.depthBound := by
  simp [containers, depthBound, Nat.add_assoc]

theorem PlainOver.mem_containers (h : s.PlainOver P v) (hnot : ¬ s.PlainOver Q v) :
    v ∈ s.containers := by
  have href : ∀ {c : Cell} {size : Nat} (r : Ref c), r.index < size → ∃ i < size, ⟨i⟩ = r :=
    fun r hr => ⟨r.index, hr, rfl⟩
  cases h with
  | none => exact absurd .none hnot
  | scalar hv => exact absurd (.scalar hv) hnot
  | array hr _ => simpa [containers] using href _ hr
  | tuple hr _ => simpa [containers] using href _ hr
  | map hr _ _ _ => simpa [containers] using href _ hr

/-- The value has `depth` levels, and not fewer. -/
def DeepAt (s : Store) (depth : Nat) (v : Value) : Prop :=
  s.PlainAt depth v ∧ ¬ s.PlainAt (depth - 1) v

theorem DeepAt.part (h : s.DeepAt (n + 1) v) (hn : 0 < n) : ∃ u, s.DeepAt n u := by
  obtain ⟨n, rfl⟩ := Nat.exists_eq_add_one.2 hn
  obtain ⟨hplain, hnot⟩ := h
  by_contra hnone
  exact hnot (hplain.imp fun u hu => by_contra fun hu' => hnone ⟨u, hu, hu'⟩)

theorem DeepAt.below (h : s.DeepAt n v) (hle : k ≤ n) (hk : 0 < k) : ∃ u, s.DeepAt k u := by
  obtain ⟨j, rfl⟩ := Nat.exists_eq_add_of_le hle
  induction j generalizing v with
  | zero => exact ⟨v, h⟩
  | succ j ih =>
    obtain ⟨u, hu⟩ := DeepAt.part (n := k + j) h (by omega)
    exact ih hu (Nat.le_add_right k j)

theorem DeepAt.mem_containers (h : s.DeepAt n v) (hn : 2 ≤ n) : v ∈ s.containers := by
  obtain ⟨n, rfl⟩ := Nat.exists_eq_add_of_le' hn
  exact PlainOver.mem_containers h.1 h.2

theorem DeepAt.unique (h : s.DeepAt n v) (h' : s.DeepAt k v) : n = k := by
  have hle : ∀ {i j}, s.DeepAt i v → s.DeepAt j v → i ≤ j := by
    intro i j hi hj
    by_contra hlt
    exact hi.2 (hj.1.mono (by omega))
  exact Nat.le_antisymm (hle h h') (hle h' h)

theorem DeepAt.le_depthBound (h : s.DeepAt n v) : n ≤ s.depthBound := by
  classical
  have hbelow : ∀ k, ∃ u, k ∈ Finset.Icc 2 n → s.DeepAt k u := by
    intro k
    by_cases hk : k ∈ Finset.Icc 2 n
    · obtain ⟨hlow, hhigh⟩ := Finset.mem_Icc.1 hk
      obtain ⟨u, hu⟩ := h.below hhigh (by omega)
      exact ⟨u, fun _ => hu⟩
    · exact ⟨v, fun hk' => absurd hk' hk⟩
  choose u hu using hbelow
  have hcard : (Finset.Icc 2 n).card ≤ s.containers.toFinset.card := by
    refine Finset.card_le_card_of_injOn u (fun k hk => ?_) fun j hj k hk heq => ?_
    · exact List.mem_toFinset.2 ((hu k hk).mem_containers (Finset.mem_Icc.1 hk).1)
    · exact (hu j hj).unique (heq ▸ hu k hk)
  have hlength := List.toFinset_card_le s.containers
  have hbound := length_containers s
  rw [Nat.card_Icc] at hcard
  omega

theorem Plain.at_depthBound (h : s.Plain v) : s.PlainAt s.depthBound v := by
  classical
  have hdeep : s.DeepAt (Nat.find h) v := by
    refine ⟨Nat.find_spec h, fun hless => ?_⟩
    have hle := Nat.find_le (h := h) hless
    have hpos : Nat.find h ≠ 0 := fun hzero => by
      have hspec := Nat.find_spec h
      rw [hzero] at hspec
      exact hspec
    omega
  exact hdeep.1.mono hdeep.le_depthBound

end Store

end Spellbook
