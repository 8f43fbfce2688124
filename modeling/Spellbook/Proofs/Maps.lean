import Spellbook.Eval
import Spellbook.Proofs.Evaluation.Estate
import Spellbook.Proofs.Value.Equality
import Spellbook.Proofs.Value.Meaning

/-! What a map holds is what was written last under each of its keys, in the order of the keys.
Nothing else of its history shows. -/
namespace Spellbook

/-- What was written last under a key, as it was written. -/
def lastWrite? (k : Key) (history : List (Value × Value)) : Option (Value × Value) :=
  history.reverse.find? fun p => (Key.ofValue p.1).toOption = some k

theorem lastWrite?_append (k : Key) (history : List (Value × Value)) (p : Value × Value) :
    lastWrite? k (history ++ [p]) =
      if (Key.ofValue p.1).toOption = some k then some p else lastWrite? k history := by
  simp only [lastWrite?, List.reverse_append, List.reverse_singleton, List.singleton_append,
    List.find?_cons]
  split <;> simp_all

namespace Table

variable {t t' : Table} {e x : Entry} {history history' : List (Value × Value)}

theorem mem_insert_iff (h : t.Pairwise fun e e' => e.key.compare e'.key = .lt) :
    x ∈ t.insert e ↔ x = e ∨ x ∈ t ∧ x.key ≠ e.key := by
  have hne : ∀ {k k' : Key}, k.compare k' = .lt → k' ≠ k := fun hlt heq => by
    rw [heq, Key.compare_self] at hlt
    cases hlt
  induction t with
  | nil => simp [insert]
  | cons y rest ih =>
    obtain ⟨hy, hrest⟩ := List.pairwise_cons.1 h
    unfold insert
    split
    next hlt =>
      have hall : ∀ z ∈ y :: rest, z.key ≠ e.key :=
        List.forall_mem_cons.2 ⟨hne hlt, fun z hz => hne (Key.compare_trans hlt (hy z hz))⟩
      rw [List.mem_cons, and_iff_left_of_imp (hall x)]
    next heq =>
      have hkey := Key.eq_of_compare heq
      have hall : ∀ z ∈ rest, z.key ≠ e.key := fun z hz => hkey ▸ hne (hy z hz)
      have hreplaced : ¬(x = y ∧ x.key ≠ e.key) := fun hx => hx.2 (hx.1 ▸ hkey.symm)
      rw [List.mem_cons, List.mem_cons, or_and_right, and_iff_left_of_imp (hall x),
        or_iff_right hreplaced]
    next hgt =>
      have hkept : x = y → x.key ≠ e.key := fun hx => hx ▸ (hne (Key.compare_gt_iff.1 hgt)).symm
      rw [List.mem_cons, List.mem_cons, or_and_right, and_iff_left_of_imp hkept, or_left_comm]
      exact or_congr_right (ih hrest)

/-- Tables in order with the same entries are one and the same. -/
theorem IsProper.eq_of_mem_iff (h : t.IsProper) (h' : t'.IsProper) (hmem : ∀ e, e ∈ t ↔ e ∈ t') :
    t = t' := by
  have hperm := (List.perm_ext_iff_of_nodup h.nodup.of_map h'.nodup.of_map).2 hmem
  refine hperm.eq_of_pairwise (fun a b _ _ hlt hgt => ?_) h.ascending h'.ascending
  rw [Key.compare_gt_iff.2 hgt] at hlt
  cases hlt

/-- The table holds what was written last under each key, in the order of the keys. -/
structure Records (t : Table) (history : List (Value × Value)) : Prop where
  proper : t.IsProper
  last : ∀ k n v, ⟨k, n, v⟩ ∈ t ↔ lastWrite? k history = some (n, v)

theorem Records.write (h : t.Records history) {k v : Value} {key : Key}
    (hkey : Key.ofValue k = .ok key) : (t.insert ⟨key, k, v⟩).Records (history ++ [(k, v)]) := by
  refine ⟨h.proper.insert hkey, fun k' n v' => ?_⟩
  rw [mem_insert_iff h.proper.ascending, lastWrite?_append, hkey]
  by_cases hsame : key = k'
  · subst hsame
    simp [Except.toOption, eq_comm]
  · have hother : k' ≠ key := fun heq => hsame heq.symm
    simp [Except.toOption, hsame, hother, h.last]

theorem Records.unique (h : t.Records history) (h' : t'.Records history')
    (hlast : ∀ k, lastWrite? k history = lastWrite? k history') : t = t' :=
  h.proper.eq_of_mem_iff h'.proper fun e => by
    rw [h.last e.key e.name e.value, h'.last e.key e.name e.value, hlast]

end Table

namespace Op

def mapOf (pairs : List (Value × Value)) : Op Value := do
  newMap (← ofExcept (Table.ofPairs pairs))

theorem operateAt_mapOf (w : World) (pos : Pos) (pairs : List (Value × Value)) :
    Eval.operateAt w pos (mapOf pairs) = (do
      let table ← Eval.located w pos (Table.ofPairs pairs)
      Eval.create fun s => s.newMap table) := by
  unfold mapOf
  cases Table.ofPairs pairs <;> rfl

variable {s : Store} {k : Value}

theorem setIndex_map_ok (r : Ref .map) (v : Value) {key : Key} (h : Key.ofValue k = .ok key) :
    setIndex (.map r) k v s = .ok () (s.setEntry r ⟨key, k, v⟩) := by
  change (ofExcept (Key.ofValue k) >>= fun key => modify fun s => s.setEntry r ⟨key, k, v⟩) s = _
  rw [h]
  rfl

end Op

namespace Store

variable {s : Store} {r r' : Ref .map} {history : List (Value × Value)}

def putMap (s : Store) (r : Ref .map) (t : Table) : Store :=
  { s with maps := s.maps.setIfInBounds r.index t }

theorem map_eq_getElem? (s : Store) (r : Ref .map) : s.map r = s.maps[r.index]?.getD [] :=
  Array.getD_eq_getD_getElem? ..

theorem map_putMap (hin : r.index < s.maps.size) (t : Table) : (s.putMap r t).map r = t := by
  simp [map_eq_getElem?, putMap, hin]

theorem setEntry_eq_putMap (s : Store) (r : Ref .map) (e : Entry) :
    s.setEntry r e = s.putMap r ((s.map r).insert e) := by
  have hmaps : s.maps.modify r.index (Table.insert · e) =
      s.maps.setIfInBounds r.index ((s.map r).insert e) := by
    refine Array.ext_getElem? fun i => ?_
    grind [map_eq_getElem? s r]
  rw [setEntry, putMap, hmaps]

/-- The map has come to its present state by these writes: the pairs that it was made from, and what
index assignments wrote into it since. They may have been refused, and there may have been others
and anything else between them that leaves the map as it is. -/
inductive Made (r : Ref .map) : Store → List (Value × Value) → Prop where
  | literal {s s' : Store} {pairs : List (Value × Value)}
    (h : Op.mapOf pairs s = .ok (.map r) s') : Made r s' pairs
  | assign {s : Store} {history : List (Value × Value)} (object i v : Value)
    (hs : Made r s history) : Made r (endState (Op.setIndex object i v s))
      (if object = .map r then history ++ [(i, v)] else history)
  | other {s s' : Store} {history : List (Value × Value)} (hs : Made r s history)
    (hin : r.index < s'.maps.size) (hsame : s'.map r = s.map r) : Made r s' history

/-- The store with the map `{1: "a", "k": True}` after `"b"` was written under `1.0`, and with the
map `{"k": True, 1.0: "b"}`. -/
def rewritten : Store :=
  let entries : Table := [⟨.int 1, .float 1.0, .str "b"⟩, ⟨.str "k", .str "k", .bool true⟩]
  { Store.empty with maps := #[entries, entries] }

end Store

end Spellbook
