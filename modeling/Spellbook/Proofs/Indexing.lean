import Spellbook.Proofs.Arithmetic
import Spellbook.Proofs.Keys
import Spellbook.Proofs.Maps

/-! Reading and writing at an index. A write succeeds where a read does; what was written is read
there again, however the place is named, and everywhere else what was read before. -/
namespace Spellbook

open Number

namespace Sequence

/-- The index names the position: from the start or, if it is negative, from the end. -/
inductive Names (length : ℕ) : ℤ → ℕ → Prop where
  | front {p : ℕ} (h : p < length) : Names length p p
  | back {p : ℕ} (h : p < length) : Names length (p - length) p

/-- Two indices that name one position. -/
def SamePlace (length : ℕ) (i j : ℤ) : Prop := ∃ p, Names length i p ∧ Names length j p

variable {length p q : ℕ} {i : ℤ}

theorem names_iff : Names length i p ↔ p < length ∧ (i = p ∨ i = p - length) := by
  constructor
  · rintro (h | h)
    · exact ⟨h, .inl rfl⟩
    · exact ⟨h, .inr rfl⟩
  · rintro ⟨h, rfl | rfl⟩
    · exact .front h
    · exact .back h

theorem position_eq_ok : position length i = .ok p ↔ Names length i p := by
  rw [names_iff, position]
  split <;> split <;> simp only [Except.ok.injEq, reduceCtorEq, false_iff] <;> omega

theorem not_names_of_error {e : Fault} (h : position length i = .error e) :
    ¬ Names length i p := by
  rw [← position_eq_ok, h]
  nofun

theorem exists_names : (∃ p, Names length i p) ↔ -(length : ℤ) ≤ i ∧ i < length := by
  simp only [names_iff]
  constructor
  · rintro ⟨p, hp, rfl | rfl⟩ <;> omega
  · rintro ⟨hlow, hhigh⟩
    obtain hi | hi := lt_or_ge i 0
    · exact ⟨(i + length).toNat, by omega, .inr (by omega)⟩
    · exact ⟨i.toNat, by omega, .inl (by omega)⟩

theorem Names.unique (h : Names length i p) (h' : Names length i q) : p = q := by
  rw [names_iff] at h h'
  omega

end Sequence

namespace Table

theorem find?_insert_of_ne (t : Table) {e : Entry} {k : Key} (h : e.key ≠ k) :
    (t.insert e).find? k = t.find? k := by
  have hhead : ∀ rest : Table, find? (e :: rest) k = rest.find? k := fun rest =>
    List.find?_cons_of_neg (by simpa using h)
  induction t with
  | nil => exact hhead []
  | cons x rest ih =>
    unfold insert
    split
    next => exact hhead _
    next heq =>
      have hx : x.key ≠ k := Key.eq_of_compare heq ▸ h
      rw [hhead, find?, find?, List.find?_cons_of_neg (by simpa using hx)]
    next =>
      unfold find? at ih ⊢
      rw [List.find?_cons, List.find?_cons, ih]

theorem find?_eq_none {t : Table} {k : Key} (h : ∀ e ∈ t, e.key ≠ k) : t.find? k = none :=
  List.find?_eq_none.2 fun e he => by simpa using h e he

end Table

namespace Store

def Reads (s : Store) (object i u : Value) : Prop := Op.index object i s = .ok u s

variable {s s' : Store} {i j : Int64} {u v : Value}

section Arrays

variable {r : Ref .array} {p : ℕ}

theorem setIndex_array_ok (h : Sequence.Names (s.array r).size i.toInt p) :
    Op.setIndex (.array r) (.int i) v s = .ok () (s.setElement r p v) := by
  change (Op.ofExcept (Sequence.position (s.array r).size i.toInt) >>= fun p =>
    modify fun s => s.setElement r p v) s = _
  rw [Sequence.position_eq_ok.2 h]
  rfl

theorem setIndex_array_error {e : Fault}
    (h : Sequence.position (s.array r).size i.toInt = .error e) :
    Op.setIndex (.array r) (.int i) v s = .error e s := by
  change (Op.ofExcept (Sequence.position (s.array r).size i.toInt) >>= fun p =>
    modify fun s => s.setElement r p v) s = _
  rw [h]
  rfl

theorem setIndex_array_iff : Op.setIndex (.array r) (.int i) v s = .ok () s' ↔
    ∃ p, Sequence.Names (s.array r).size i.toInt p ∧ s' = s.setElement r p v := by
  cases hp : Sequence.position (s.array r).size i.toInt with
  | error e =>
    rw [setIndex_array_error hp]
    refine iff_of_false nofun ?_
    rintro ⟨p, hname, -⟩
    exact Sequence.not_names_of_error hp hname
  | ok p =>
    have hname := Sequence.position_eq_ok.1 hp
    rw [setIndex_array_ok hname, EStateM.Result.ok.injEq, and_iff_right rfl]
    constructor
    · rintro rfl
      exact ⟨p, hname, rfl⟩
    · rintro ⟨q, hq, rfl⟩
      rw [hname.unique hq]

theorem reads_array_iff : s.Reads (.array r) (.int i) u ↔
    ∃ p, Sequence.Names (s.array r).size i.toInt p ∧ (s.array r)[p]? = some u := by
  have hrun : Op.index (.array r) (.int i) s = (Op.ofExcept
      (Sequence.position (s.array r).size i.toInt) >>= fun p =>
        pure ((s.array r).getD p .none)) s := rfl
  rw [Reads, hrun]
  cases hp : Sequence.position (s.array r).size i.toInt with
  | error e =>
    refine iff_of_false nofun ?_
    rintro ⟨p, hname, -⟩
    exact Sequence.not_names_of_error hp hname
  | ok p =>
    have hname := Sequence.position_eq_ok.1 hp
    have hin : p < (s.array r).size := (Sequence.names_iff.1 hname).1
    have hget : (s.array r)[p]? = some ((s.array r).getD p .none) := by simp [hin]
    change EStateM.Result.ok ((s.array r).getD p .none) s = .ok u s ↔ _
    rw [EStateM.Result.ok.injEq, and_iff_left rfl, ← Option.some_inj, ← hget]
    constructor
    · exact fun hu => ⟨p, hname, hu⟩
    · rintro ⟨q, hq, hu⟩
      rwa [hname.unique hq]

theorem exists_reads_iff : (∃ u, s.Reads (.array r) (.int i) u) ↔
    ∃ p, Sequence.Names (s.array r).size i.toInt p := by
  simp only [reads_array_iff]
  constructor
  · rintro ⟨u, p, hname, -⟩
    exact ⟨p, hname⟩
  · rintro ⟨p, hname⟩
    have hin : p < (s.array r).size := (Sequence.names_iff.1 hname).1
    exact ⟨_, p, hname, Array.getElem?_eq_getElem hin⟩

theorem array_setElement (hin : r.index < s.arrays.size) (p : ℕ) (v : Value) :
    (s.setElement r p v).array r = (s.array r).setIfInBounds p v := by
  simp [array, setElement, hin, Array.getElem_modify]

theorem reads_setElement (hin : r.index < s.arrays.size)
    (hname : Sequence.Names (s.array r).size i.toInt p) :
    (Sequence.SamePlace (s.array r).size i.toInt j.toInt →
      (s.setElement r p v).Reads (.array r) (.int j) v) ∧
    (¬ Sequence.SamePlace (s.array r).size i.toInt j.toInt → ∀ u,
      (s.setElement r p v).Reads (.array r) (.int j) u ↔ s.Reads (.array r) (.int j) u) := by
  have hp : p < (s.array r).size := (Sequence.names_iff.1 hname).1
  simp only [reads_array_iff, array_setElement hin, Array.size_setIfInBounds]
  constructor
  · rintro ⟨q, hi, hj⟩
    obtain rfl := hname.unique hi
    exact ⟨p, hj, by simp [hp]⟩
  · intro hother u
    refine exists_congr fun q => and_congr_right fun hj => ?_
    have hne : p ≠ q := fun heq => hother ⟨q, heq ▸ hname, hj⟩
    rw [Array.getElem?_setIfInBounds_ne hne]

end Arrays

section Maps

variable {r : Ref .map} {k l : Value} {key key' : Key}

theorem reads_map_iff (h : Key.ofValue k = .ok key) :
    s.Reads (.map r) k u ↔ (((s.map r).find? key).map (·.value)).getD .none = u := by
  have hrun : Op.index (.map r) k s = (Op.ofExcept (Key.ofValue k) >>= fun key =>
      Op.look fun s => (((s.map r).find? key).map (·.value)).getD .none) s := rfl
  rw [Reads, hrun, h]
  change EStateM.Result.ok _ s = .ok u s ↔ _
  rw [EStateM.Result.ok.injEq, and_iff_left rfl]

theorem reads_setEntry (hin : r.index < s.maps.size) (h : Key.ofValue l = .ok key') :
    (key = key' → (s.setEntry r ⟨key, k, v⟩).Reads (.map r) l v) ∧
    (key ≠ key' → ∀ u, (s.setEntry r ⟨key, k, v⟩).Reads (.map r) l u ↔ s.Reads (.map r) l u) := by
  simp only [reads_map_iff h, setEntry_eq_putMap, map_putMap hin]
  constructor
  · rintro rfl
    have hfound := Table.find?_insert_self (s.map r) ⟨key, k, v⟩
    simp only at hfound
    simp [hfound]
  · intro hne u
    rw [Table.find?_insert_of_ne (s.map r) hne]

end Maps

theorem eq_of_setIndex_error {object i : Value} {e : Fault}
    (h : Op.setIndex object i v s = .error e s') : s' = s := by
  have hguarded : ∀ {α : Type} (x : Except Fault α) (write : α → Store → Store),
      (Op.ofExcept x >>= fun a => modify (write a)) s = .error e s' → s' = s := by
    intro α x write hx
    cases x <;> cases hx
    rfl
  unfold Op.setIndex at h
  split at h
  next r n => exact hguarded _ (fun p s => s.setElement r p v) h
  next =>
    cases h
    rfl
  next r => exact hguarded _ (fun key s => s.setEntry r ⟨key, i, v⟩) h
  next =>
    cases h
    rfl

/-- Reads and writes at an index go together. An array is written where it is read, which is from
minus its length on and before its length, by sums that stay within 64 bits; the value is read again
under every name of its position, and nothing else is read differently. Maps are written and read
under all keys, with `None` under those that they do not hold. A write that is refused changes
nothing. -/
theorem reads_follow_writes (s : Store) :
    (∀ r : Ref .array, r.index < s.arrays.size → ∀ (i : Int64) (v : Value),
      ((∃ s', Op.setIndex (.array r) (.int i) v s = .ok () s') ↔
        ∃ u, s.Reads (.array r) (.int i) u) ∧
      ((∃ u, s.Reads (.array r) (.int i) u) ↔
        -((s.array r).size : ℤ) ≤ i.toInt ∧ i.toInt < (s.array r).size) ∧
      ∀ s', Op.setIndex (.array r) (.int i) v s = .ok () s' →
        (s'.array r).size = (s.array r).size ∧
        ∀ j : Int64,
          (Sequence.SamePlace (s.array r).size i.toInt j.toInt → s'.Reads (.array r) (.int j) v) ∧
          (¬ Sequence.SamePlace (s.array r).size i.toInt j.toInt → ∀ u,
            s'.Reads (.array r) (.int j) u ↔ s.Reads (.array r) (.int j) u)) ∧
    (∀ (length : ℕ) (i : Int64), fits length = true → i.toInt < 0 →
      fits (i.toInt + length) = true) ∧
    (∀ r : Ref .map, r.index < s.maps.size → ∀ (k l v : Value) (key key' : Key),
      Key.ofValue k = .ok key → Key.ofValue l = .ok key' →
      (∃ u, s.Reads (.map r) l u) ∧
      ((∀ e ∈ s.map r, e.key ≠ key') → s.Reads (.map r) l .none) ∧
      ∃ s', Op.setIndex (.map r) k v s = .ok () s' ∧
        (key = key' → s'.Reads (.map r) l v) ∧
        (key ≠ key' → ∀ u, s'.Reads (.map r) l u ↔ s.Reads (.map r) l u)) ∧
    ∀ (object i v : Value) (e : Fault) (s' : Store),
      Op.setIndex object i v s = .error e s' → s' = s := by
  refine ⟨fun r hin i v => ⟨?_, exists_reads_iff.trans Sequence.exists_names, fun s' hwrite => ?_⟩,
    fun length i hlength hi => ?_, fun r hin k l v key key' hk hl => ⟨?_, fun hmissing => ?_, ?_⟩,
    fun object i v e s' h => eq_of_setIndex_error h⟩
  · rw [exists_reads_iff]
    constructor
    · rintro ⟨s', hwrite⟩
      obtain ⟨p, hname, -⟩ := setIndex_array_iff.1 hwrite
      exact ⟨p, hname⟩
    · rintro ⟨p, hname⟩
      exact ⟨_, setIndex_array_ok hname⟩
  · obtain ⟨p, hname, rfl⟩ := setIndex_array_iff.1 hwrite
    rw [array_setElement hin, Array.size_setIfInBounds]
    exact ⟨rfl, fun j => reads_setElement hin hname⟩
  · have hrange := fits_iff.1 hlength
    have hlow := i.le_toInt
    exact fits_iff.2 (by omega)
  · exact ⟨_, (reads_map_iff hl).2 rfl⟩
  · rw [reads_map_iff hl, Table.find?_eq_none hmissing]
    rfl
  · exact ⟨_, Op.setIndex_map_ok r v hk, reads_setEntry hin hl⟩

/-- The store with the array `[1, 2, 3]` and the map `{"a": 1}`. -/
def indexed : Store :=
  { Store.empty with
    arrays := #[#[.int 1, .int 2, .int 3]], maps := #[[⟨.str "a", .str "a", .int 1⟩]] }

/-- The last element by its two names, and one key by an integer and by a double. -/
theorem reads_follow_writes_indexed :
    (∃ s', Op.setIndex (.array ⟨0⟩) (.int (-1)) (.int 9) indexed = .ok () s' ∧
      s'.Reads (.array ⟨0⟩) (.int 2) (.int 9) ∧ s'.Reads (.array ⟨0⟩) (.int 0) (.int 1)) ∧
    (∃ s', Op.setIndex (.map ⟨0⟩) (.float 1.0) (.str "b") indexed = .ok () s' ∧
      s'.Reads (.map ⟨0⟩) (.int 1) (.str "b") ∧ s'.Reads (.map ⟨0⟩) (.str "a") (.int 1)) ∧
    indexed.Reads (.map ⟨0⟩) (.int 2) .none ∧ fits (Int64.minValue.toInt + (3 : ℕ)) = true := by
  have hkey : Key.ofValue (.float 1.0) = .ok (.int 1) := by
    rw [Key.ofValue, show Key.ofFloat 1.0 = .int 1 by decide +kernel]
  obtain ⟨harrays, hfits, hmaps, -⟩ := reads_follow_writes indexed
  obtain ⟨hagree, hrange, hafter⟩ := harrays ⟨0⟩ (by decide) (-1) (.int 9)
  obtain ⟨s₁, hwrite₁⟩ := hagree.2 (hrange.2 (by decide))
  obtain ⟨-, hreads⟩ := hafter s₁ hwrite₁
  obtain ⟨-, -, s₂, hwrite₂, hsame, -⟩ :=
    hmaps ⟨0⟩ (by decide) (.float 1.0) (.int 1) (.str "b") _ (.int 1) hkey rfl
  obtain ⟨-, -, s₃, hwrite₃, -, hother⟩ :=
    hmaps ⟨0⟩ (by decide) (.float 1.0) (.str "a") (.str "b") _ (.str "a") hkey rfl
  obtain ⟨-, hmissing, -⟩ := hmaps ⟨0⟩ (by decide) (.int 2) (.int 2) .none _ _ rfl rfl
  have hstore : s₂ = s₃ := by
    rw [hwrite₂] at hwrite₃
    exact (EStateM.Result.ok.inj hwrite₃).2
  have hlast : Sequence.SamePlace 3 (-1) 2 :=
    ⟨2, Sequence.names_iff.2 (by decide), Sequence.names_iff.2 (by decide)⟩
  refine ⟨⟨s₁, hwrite₁, (hreads 2).1 hlast,
    ((hreads 0).2 ?_ _).2 rfl⟩, ⟨s₂, hwrite₂, hsame rfl, ?_⟩, hmissing (by decide),
    hfits 3 Int64.minValue rfl (by decide)⟩
  · rintro ⟨p, hlast, hfirst⟩
    simp only [Sequence.names_iff] at hlast hfirst
    have hsize : (indexed.array ⟨0⟩).size = 3 := rfl
    have hback : (-1 : Int64).toInt = -1 := rfl
    have hfront : (0 : Int64).toInt = 0 := rfl
    omega
  · rw [hstore]
    exact (hother (by decide) _).2 rfl

end Store

end Spellbook
