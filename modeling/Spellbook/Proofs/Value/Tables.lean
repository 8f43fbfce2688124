import Spellbook.Store
import Mathlib.Data.List.Forall2
import Mathlib.Data.List.Induction
import Mathlib.Data.String.Basic

/-! Maps as they are kept: in the order of their keys, each key once. Writing an entry keeps a map
so, a map can be made again from its own keys and values, and a key is found where it stands. -/
namespace Spellbook

theorem Key.compare_self (k : Key) : k.compare k = .eq := by
  cases k <;> simp only [compare, Std.ReflCmp.compare_self]

theorem Key.compare_gt_iff {k k' : Key} : k.compare k' = .gt ↔ k'.compare k = .lt := by
  cases k <;> cases k' <;> simp only [compare] <;> exact Std.OrientedCmp.gt_iff_lt

theorem Key.eq_of_compare {k k' : Key} (h : k.compare k' = .eq) : k = k' := by
  cases k <;> cases k' <;> simp only [compare, rank, compare_eq_iff_eq] at h
  case bool.bool => rw [h]
  case int.int => rw [Int64.toInt_inj.1 h]
  case millionths.millionths => rw [Int64.toInt_inj.1 h]
  case bits.bits => rw [UInt64.toNat_inj.1 h]
  case str.str => rw [h]
  all_goals omega

theorem Key.compare_of_rank_ne {k k' : Key} (h : k.rank ≠ k'.rank) :
    k.compare k' = Ord.compare k.rank k'.rank := by
  cases k <;> cases k' <;> first | rfl | exact absurd rfl h

theorem Key.rank_le {k k' : Key} (h : k.compare k' = .lt) : k.rank ≤ k'.rank := by
  by_cases hrank : k.rank = k'.rank
  · exact Nat.le_of_eq hrank
  · rw [compare_of_rank_ne hrank] at h
    exact Nat.le_of_lt (Nat.compare_eq_lt.1 h)

theorem Key.compare_trans {a b c : Key} (h : a.compare b = .lt) (h' : b.compare c = .lt) :
    a.compare c = .lt := by
  have hab := rank_le h
  have hbc := rank_le h'
  by_cases hrank : a.rank = c.rank
  · cases a <;> cases c <;> simp only [rank, reduceCtorEq, Nat.reduceEqDiff] at hrank <;>
      cases b <;> simp only [rank, Nat.reduceLeDiff] at hab hbc <;>
      simp only [compare] at h h' ⊢ <;> exact Std.TransCmp.lt_trans h h'
  · rw [compare_of_rank_ne hrank]
    exact Nat.compare_eq_lt.2 (Nat.lt_of_le_of_ne (Nat.le_trans hab hbc) hrank)

namespace Table

/-- The entries stand in the order of their keys, each key once and with the value it was made
from. -/
structure IsProper (t : Table) : Prop where
  ascending : t.Pairwise fun e e' => e.key.compare e'.key = .lt
  keyed : ∀ e ∈ t, Key.ofValue e.name = .ok e.key

variable {t t' : Table} {e x : Entry} {pairs : List (Value × Value)}

theorem IsProper.nodup (h : t.IsProper) : (t.map (·.key)).Nodup := by
  refine List.pairwise_map.2 (h.ascending.imp fun hlt heq => ?_)
  rw [heq, Key.compare_self] at hlt
  cases hlt

def label (e : Entry) : Key × Value := (e.key, e.name)

theorem isProper_iff : t.IsProper ↔
    (t.map label).Pairwise (fun p p' => p.1.compare p'.1 = .lt) ∧
      ∀ p ∈ t.map label, Key.ofValue p.2 = .ok p.1 := by
  rw [List.pairwise_map, List.forall_mem_map]
  exact ⟨fun h => ⟨h.ascending, h.keyed⟩, fun h => ⟨h.1, h.2⟩⟩

theorem insert_last (h : ∀ x ∈ t, x.key.compare e.key = .lt) : t.insert e = t ++ [e] := by
  induction t with
  | nil => rfl
  | cons x rest ih =>
    have hx := Key.compare_gt_iff.2 (h x List.mem_cons_self)
    have hrest := ih fun y hy => h y (List.mem_cons_of_mem _ hy)
    simp only [insert, hx, hrest, List.cons_append]

theorem mem_insert (h : x ∈ t.insert e) : x = e ∨ x ∈ t := by
  fun_induction Table.insert t e <;> grind

theorem IsProper.insert (h : t.IsProper) (he : Key.ofValue e.name = .ok e.key) :
    (t.insert e).IsProper := by
  obtain ⟨hascending, hkeyed⟩ := h
  refine ⟨?_, fun x hx => ?_⟩
  · clear hkeyed
    induction t with
    | nil => exact List.pairwise_singleton _ _
    | cons x rest ih =>
      obtain ⟨hx, hrest⟩ := List.pairwise_cons.1 hascending
      unfold Table.insert
      split
      next hlt =>
        refine List.pairwise_cons.2 ⟨List.forall_mem_cons.2 ⟨hlt, fun y hy => ?_⟩, hascending⟩
        exact Key.compare_trans hlt (hx y hy)
      next heq =>
        rw [← Key.eq_of_compare heq] at hx
        exact List.pairwise_cons.2 ⟨hx, hrest⟩
      next hgt =>
        refine List.pairwise_cons.2 ⟨fun y hy => ?_, ih hrest⟩
        obtain rfl | hy := mem_insert hy
        · exact Key.compare_gt_iff.1 hgt
        · exact hx y hy
  · obtain rfl | hx := mem_insert hx
    · exact he
    · exact hkeyed x hx

/-! Maps from pairs -/

theorem ofPairs_append (pairs : List (Value × Value)) (k v : Value) :
    ofPairs (pairs ++ [(k, v)]) = (ofPairs pairs).bind fun t =>
      (Key.ofValue k).bind fun key => .ok (t.insert ⟨key, k, v⟩) := by
  simp only [ofPairs, List.foldlM_append, List.foldlM_cons, List.foldlM_nil, bind_pure]
  rfl

theorem ofPairs_append_ok {k v : Value} (h : ofPairs (pairs ++ [(k, v)]) = .ok t) :
    ∃ t₀ key, ofPairs pairs = .ok t₀ ∧ Key.ofValue k = .ok key ∧ t = t₀.insert ⟨key, k, v⟩ := by
  rw [ofPairs_append] at h
  cases ht : ofPairs pairs with
  | error => simp [ht, Except.bind] at h
  | ok t₀ =>
    cases hkey : Key.ofValue k with
    | error => simp [ht, hkey, Except.bind] at h
    | ok key =>
      simp only [ht, hkey, Except.bind, Except.ok.injEq] at h
      exact ⟨t₀, key, rfl, rfl, h.symm⟩

theorem mem_ofPairs (h : ofPairs pairs = .ok t) (he : e ∈ t) : (e.name, e.value) ∈ pairs := by
  induction pairs using List.reverseRecOn generalizing t with
  | nil =>
    cases h
    cases he
  | append_singleton pairs p ih =>
    obtain ⟨t₀, key, ht₀, -, rfl⟩ := ofPairs_append_ok h
    obtain rfl | he := mem_insert he
    · exact List.mem_append_right _ List.mem_cons_self
    · exact List.mem_append_left _ (ih ht₀ he)

theorem isProper_ofPairs (h : ofPairs pairs = .ok t) : t.IsProper := by
  induction pairs using List.reverseRecOn generalizing t with
  | nil =>
    cases h
    exact ⟨.nil, List.forall_mem_nil _⟩
  | append_singleton pairs p ih =>
    obtain ⟨t₀, key, ht₀, hkey, rfl⟩ := ofPairs_append_ok h
    exact (ih ht₀).insert hkey

theorem ofPairs_proper (h : t.IsProper) :
    ofPairs (t.map fun e => (e.name, e.value)) = .ok t := by
  induction t using List.reverseRecOn with
  | nil => rfl
  | append_singleton rest e ih =>
    obtain ⟨hrest, -, hlast⟩ := List.pairwise_append.1 h.ascending
    have hproper : IsProper rest := ⟨hrest, fun x hx => h.keyed x (List.mem_append_left _ hx)⟩
    have hkey := h.keyed e (List.mem_append_right _ List.mem_cons_self)
    have hinsert : insert rest e = rest ++ [e] :=
      insert_last fun x hx => hlast x hx e List.mem_cons_self
    rw [List.map_append, List.map_singleton, ofPairs_append, ih hproper, hkey]
    exact congrArg Except.ok hinsert

theorem find?_alike {R : Entry → Entry → Prop} (h : List.Forall₂ R t t')
    (hkey : ∀ e e', R e e' → e.key = e'.key) (hnodup : (t.map (·.key)).Nodup) (he : e ∈ t) :
    ∃ e', t'.find? e.key = some e' ∧ R e e' := by
  induction h with
  | nil => cases he
  | @cons x x' rest rest' hx hrest ih =>
    rw [List.map_cons, List.nodup_cons] at hnodup
    obtain rfl | he := List.mem_cons.1 he
    · exact ⟨x', by simp [find?, hkey _ _ hx], hx⟩
    · obtain ⟨e', hfind, hR⟩ := ih hnodup.2 he
      have hne : x'.key ≠ e.key := by
        rw [← hkey _ _ hx]
        exact fun heq => hnodup.1 (heq ▸ List.mem_map_of_mem he)
      refine ⟨e', ?_, hR⟩
      unfold find? at hfind ⊢
      rw [List.find?_cons_of_neg (by simpa using hne), hfind]

end Table

end Spellbook
