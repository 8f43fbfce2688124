import Spellbook.Proofs.Arithmetic
import Spellbook.Proofs.Number.Decimal
import Spellbook.Proofs.Number.Rounding

/-! Texts made into integers. An integer that is written in decimal comes out if it fits in 64 bits.
One that does not is read as a double and moved to the nearest integer that fits, unless it is too
large for a double as well. -/
namespace Spellbook

open Number

theorem Number.isDigit_range {c : Char} (h : isDigit c = true) :
    48 ≤ c.toNat ∧ c.toNat ≤ 57 := by
  simp only [isDigit, Bool.and_eq_true, decide_eq_true_eq, Char.le_def,
    UInt32.le_iff_toNat_le] at h
  exact h

section Blanks

variable {blanks core rest before after : List Char}

theorem Text.isBlank_of_isDigit {c : Char} (h : isDigit c = true) : isBlank c = false := by
  obtain ⟨hlow, hhigh⟩ := isDigit_range h
  simp only [isBlank, blankRanges, inRanges, if_neg (show ¬ c.toNat < 9 by omega),
    if_neg (show ¬ c.toNat < 32 by omega), if_pos (show c.toNat < 133 by omega),
    Bool.or_false, Bool.or_eq_false_iff, decide_eq_false_iff_not]
  omega

theorem Text.dropWhile_blanks (hblanks : ∀ c ∈ blanks, isBlank c = true) (hne : core ≠ [])
    (hcore : ∀ c ∈ core, isBlank c = false) :
    (blanks ++ (core ++ rest)).dropWhile isBlank = core ++ rest := by
  obtain ⟨c, core, rfl⟩ := List.exists_cons_of_ne_nil hne
  rw [List.dropWhile_append_of_pos hblanks, List.cons_append, List.dropWhile_cons_of_neg]
  simp [hcore c List.mem_cons_self]

theorem Text.trim_between (hbefore : ∀ c ∈ before, isBlank c = true) (hne : core ≠ [])
    (hcore : ∀ c ∈ core, isBlank c = false) (hafter : ∀ c ∈ after, isBlank c = true) :
    trim (before ++ (core ++ after)) = core := by
  have hback : (after.reverse ++ (core.reverse ++ [])).dropWhile isBlank = core.reverse ++ [] :=
    dropWhile_blanks (by simpa using hafter) (by simpa using hne) (by simpa using hcore)
  rw [List.append_nil] at hback
  rw [trim, dropWhile_blanks hbefore hne hcore, List.reverse_append, hback, List.reverse_reverse]

end Blanks

/-- The signs a number may have, and whether they make it negative. -/
inductive IsSign : List Char → Bool → Prop where
  | absent : IsSign [] false
  | plus : IsSign ['+'] false
  | minus : IsSign ['-'] true

/-- The text is an integer: blanks around a sign, or none, and digits, however many. -/
inductive WritesInt : List Char → ℤ → Prop where
  | intro {before sign digits after : List Char} {negative : Bool}
    (hbefore : ∀ c ∈ before, Text.isBlank c = true) (hsign : IsSign sign negative)
    (hne : digits ≠ []) (hdigits : ∀ c ∈ digits, isDigit c = true)
    (hafter : ∀ c ∈ after, Text.isBlank c = true) :
    WritesInt (before ++ (sign ++ digits ++ after)) (signed negative (digitsValue digits))

theorem WritesInt.bare {sign digits : List Char} {negative : Bool} (hsign : IsSign sign negative)
    (hne : digits ≠ []) (h : digits.all isDigit = true) :
    WritesInt (sign ++ digits) (signed negative (digitsValue digits)) := by
  have hwrites := @intro [] sign digits [] negative (List.forall_mem_nil _) hsign hne
    (List.all_eq_true.1 h) (List.forall_mem_nil _)
  rwa [List.append_nil, List.nil_append] at hwrites

theorem WritesInt.digits {digits : List Char} (hne : digits ≠ []) (h : digits.all isDigit = true) :
    WritesInt digits (digitsValue digits) :=
  bare .absent hne h

namespace Number

variable {sign digits : List Char} {negative : Bool}

theorem splitSign_append (hsign : IsSign sign negative) (h : digits.all isDigit = true) :
    splitSign (sign ++ digits) = (negative, digits) := by
  cases hsign with
  | absent => exact splitSign_digits h
  | plus => rfl
  | minus => rfl

theorem readInt?_signed (hsign : IsSign sign negative) (hne : digits ≠ [])
    (h : digits.all isDigit = true) :
    readInt? (sign ++ digits) = checked (signed negative (digitsValue digits)) := by
  have hread : ∀ check : Int → Option Int64, (readNat? digits).bind
      (fun n => check (signed negative n)) = check (signed negative (digitsValue digits)) := by
    intro check
    rw [readNat?_digits h hne]
    rfl
  unfold readInt?
  rw [splitSign_append hsign h]
  exact hread checked

/-- The names of the values without digits do not begin with one. -/
theorem readNamed?_digits (hne : digits ≠ []) (h : digits.all isDigit = true) :
    readNamed? digits = none := by
  obtain ⟨d, ds, rfl⟩ := List.exists_cons_of_ne_nil hne
  have hd : isDigit d = true := List.all_eq_true.1 h d List.mem_cons_self
  have hlower : d.toLower = d := by
    have hrange := isDigit_range hd
    refine dif_neg fun hupper => ?_
    have hcapital : 65 ≤ d.toNat := hupper.1
    omega
  have hother : ∀ {name : String} {c : Char} {cs : List Char}, name.toList = c :: cs →
      isDigit c = false → String.ofList ((d :: ds).map Char.toLower) ≠ name := by
    rintro name c cs hname hc rfl
    rw [String.toList_ofList, List.map_cons, List.cons.injEq, hlower] at hname
    rw [hname.1, hc] at hd
    cases hd
  unfold readNamed?
  split
  next hname => exact absurd hname (hother rfl (by decide))
  next hname => exact absurd hname (hother rfl (by decide))
  next hname => exact absurd hname (hother rfl (by decide))
  next => rfl

theorem readMagnitude?_digits (hne : digits ≠ []) (h : digits.all isDigit = true) :
    readMagnitude? digits = some (nearest (digitsValue digits) 0) := by
  have hall := List.all_eq_true.1 h
  have htake : digits.takeWhile isDigit = digits := List.takeWhile_eq_self_iff.2 hall
  have hdrop : digits.dropWhile isDigit = [] := List.dropWhile_eq_nil_iff.2 hall
  have hsome : digits.isEmpty = false := List.isEmpty_eq_false_iff.2 hne
  unfold readMagnitude?
  simp only [htake, hdrop, List.append_nil, hsome]
  rfl

theorem readFloat?_signed (hsign : IsSign sign negative) (hne : digits ≠ [])
    (h : digits.all isDigit = true) : readFloat? (sign ++ digits) = some
      (if negative then -nearest (digitsValue digits) 0 else nearest (digitsValue digits) 0) := by
  unfold readFloat?
  rw [splitSign_append hsign h]
  simp only [readNamed?_digits hne h, readMagnitude?_digits hne h]
  rfl

theorem saturated_of_ge {i : ℤ} (h : wordLimit ≤ i) : saturated i = Int64.maxValue := by
  have hlimit : 0 < wordLimit := by decide
  rw [saturated, if_neg (by omega), if_neg (by omega)]
  rfl

theorem saturated_of_le {i : ℤ} (h : i ≤ -wordLimit) : saturated i = Int64.minValue := by
  have hlimit : 0 < wordLimit := by decide
  obtain h | rfl := lt_or_eq_of_le h
  · rw [saturated, if_pos h]
    rfl
  · rfl

theorem saturated_large {t : ℕ} (h : 2 ^ 63 ≤ t) :
    saturated (signed negative t) = if negative then Int64.minValue else Int64.maxValue := by
  have hlimit : wordLimit ≤ t := Int.ofNat_le.2 h
  cases negative
  · exact saturated_of_ge hlimit
  · exact saturated_of_le (neg_le_neg hlimit)

variable {n : ℕ}

theorem natAbs_signed : (signed negative n).natAbs = n := by
  cases negative
  · exact Int.natAbs_natCast n
  · exact (Int.natAbs_neg n).trans (Int.natAbs_natCast n)

theorem signed_neg_iff (h : 0 < n) : signed negative n < 0 ↔ negative = true := by
  have hpos : (0 : ℤ) < n := Int.ofNat_lt.2 h
  cases negative
  · exact iff_of_false (not_lt.2 hpos.le) nofun
  · exact iff_of_true (neg_neg_of_pos hpos) rfl

theorem le_of_not_fits_signed (h : fits (signed negative n) = false) : 2 ^ 63 ≤ n := by
  have hrange := mt fits_iff.2 (Bool.eq_false_iff.1 h)
  have habs : (signed negative n).natAbs = n := natAbs_signed
  omega

theorem not_fits_signed (h : 2 ^ 64 ≤ n) : fits (signed negative n) = false := by
  refine Bool.eq_false_iff.2 fun hfits => ?_
  have hrange := fits_iff.1 hfits
  have habs : (signed negative n).natAbs = n := natAbs_signed
  omega

end Number

namespace Builtin

variable {text : String} {z : ℤ}

/-- What a text that writes an integer is made into: the integer if it fits, else what becomes of
the double that is read. -/
theorem toInt?_written (h : WritesInt text.toList z) : ∃ negative n, z = signed negative n ∧
    toInt? (.str text) = (checked z).or
      ((truncate? (if negative then -nearest n 0 else nearest n 0)).map saturated) := by
  generalize htext : text.toList = cs at h
  obtain ⟨hbefore, hsign, hne, hdigits, hafter⟩ := h
  rename_i before sign digits after negative
  have hall := List.all_eq_true.2 hdigits
  have hcore : ∀ c ∈ sign ++ digits, Text.isBlank c = false := by
    intro c hc
    obtain hc | hc := List.mem_append.1 hc
    · cases hsign <;> simp at hc <;> subst hc <;> decide
    · exact Text.isBlank_of_isDigit (hdigits c hc)
  have htrim : Text.trim text.toList = sign ++ digits := by
    rw [htext]
    exact Text.trim_between hbefore (by simp [hne]) hcore hafter
  refine ⟨negative, digitsValue digits, rfl, ?_⟩
  rw [toInt?, htrim, intOfText?, readInt?_signed hsign hne hall, readFloat?_signed hsign hne hall]
  cases checked (signed negative (digitsValue digits)) with
  | some n => rfl
  | none =>
    rw [Option.none_or, Option.map_eq_bind]
    rfl

variable {s : Store}

theorem int_apply {n : Int64} (h : toInt? (.str text) = some n) :
    Builtin.int.apply [.str text] s = .ok (.int n) s := by
  change converted (.str text) "Integer" .int (toInt? (.str text)) s = _
  rw [h]
  rfl

theorem int_apply_refused (h : toInt? (.str text) = none) :
    Builtin.int.apply [.str text] s = .error (.notConvertible (Text.quoted text) "Integer") s := by
  change converted (.str text) "Integer" .int (toInt? (.str text)) s = _
  rw [h]
  rfl

theorem int_fits (h : WritesInt text.toList z) (hfits : fits z = true) :
    ∃ n : Int64, n.toInt = z ∧ Builtin.int.apply [.str text] s = .ok (.int n) s := by
  obtain ⟨negative, v, -, hread⟩ := toInt?_written h
  have hchecked : checked z = some (Int64.ofInt z) := if_pos hfits
  rw [hchecked, Option.some_or] at hread
  exact ⟨_, toInt_of_checked hchecked, int_apply hread⟩

theorem int_saturates (h : WritesInt text.toList z) (hfits : fits z = false)
    (hlimit : z.natAbs < doubleLimit) : Builtin.int.apply [.str text] s =
      .ok (.int (if z < 0 then Int64.minValue else Int64.maxValue)) s := by
  obtain ⟨negative, v, rfl, hread⟩ := toInt?_written h
  have hchecked : checked (signed negative v) = none := if_neg (Bool.eq_false_iff.1 hfits)
  have hlarge := le_of_not_fits_signed hfits
  rw [natAbs_signed] at hlimit
  obtain ⟨t, ht, htruncate⟩ := truncate?_nearest_large hlarge hlimit negative
  rw [hchecked, Option.none_or, htruncate, Option.map_some, saturated_large ht] at hread
  simp only [signed_neg_iff (show 0 < v by omega)]
  exact int_apply hread

theorem int_refuses (h : WritesInt text.toList z) (hlimit : doubleLimit ≤ z.natAbs) :
    Builtin.int.apply [.str text] s = .error (.notConvertible (Text.quoted text) "Integer") s := by
  obtain ⟨negative, v, rfl, hread⟩ := toInt?_written h
  rw [natAbs_signed] at hlimit
  have hfits : fits (signed negative v) = false :=
    not_fits_signed (doubleLimit_bounds.1.trans hlimit)
  have hchecked : checked (signed negative v) = none := if_neg (Bool.eq_false_iff.1 hfits)
  rw [hchecked, Option.none_or, truncate?_nearest_infinite hlimit negative,
    Option.map_none] at hread
  exact int_apply_refused hread

theorem writesInt_toString (n : Int64) : WritesInt (toString n.toInt).toList n.toInt := by
  have hwritten : ∀ (k : ℕ) {sign : List Char} {negative : Bool}, IsSign sign negative →
      WritesInt (sign ++ Nat.toDigits 10 k) (signed negative k) := by
    intro k sign negative hsign
    have hwrites := WritesInt.bare hsign Nat.toDigits_ne_nil (all_isDigit_toDigits k)
    rwa [digitsValue_toDigits] at hwrites
  cases n.toInt with
  | ofNat k =>
    have hdecimal : (toString (k : ℤ)).toList = Nat.toDigits 10 k := Nat.toList_repr
    exact hdecimal ▸ hwritten k .absent
  | negSucc k =>
    have hdecimal : (toString (Int.negSucc k)).toList = ['-'] ++ Nat.toDigits 10 (k + 1) :=
      (String.toList_append ..).trans (congrArg (['-'] ++ ·) Nat.toList_repr)
    exact hdecimal ▸ hwritten (k + 1) .minus

theorem int_str (n : Int64) (s : Store) :
    (Builtin.str.apply [.int n] >>= fun text => Builtin.int.apply [text]) s = .ok (.int n) s := by
  have hfits : fits n.toInt = true := by
    have hlow := n.le_toInt
    have hhigh := n.toInt_lt
    exact fits_iff.2 ⟨hlow, hhigh⟩
  obtain ⟨m, hm, hrun⟩ := int_fits (s := s) (writesInt_toString n) hfits
  have htext : Builtin.str.apply [.int n] s = .ok (.str (toString n.toInt)) s := rfl
  simp only [Bind.bind, EStateM.bind, htext, hrun, Int64.toInt_inj.1 hm]

/-- A text that writes an integer is made into that integer if it fits. If not, it is refused once
it is too large for a double, and made into the nearest integer that fits before. Integers are read
back from their own texts. -/
theorem integers_from_text (s : Store) :
    (∀ (text : String) (z : ℤ), WritesInt text.toList z →
      (fits z = true →
        ∃ n : Int64, n.toInt = z ∧ Builtin.int.apply [.str text] s = .ok (.int n) s) ∧
      (fits z = false → z.natAbs < doubleLimit → Builtin.int.apply [.str text] s =
        .ok (.int (if z < 0 then Int64.minValue else Int64.maxValue)) s) ∧
      (doubleLimit ≤ z.natAbs → Builtin.int.apply [.str text] s =
        .error (.notConvertible (Text.quoted text) "Integer") s)) ∧
    ∀ n : Int64,
      (Builtin.str.apply [.int n] >>= fun text => Builtin.int.apply [text]) s = .ok (.int n) s :=
  ⟨fun _ _ h => ⟨int_fits h, int_saturates h, int_refuses h⟩, fun n => int_str n s⟩

theorem writesInt_beyond : WritesInt "9223372036854775808".toList 9223372036854775808 :=
  .digits (by decide) (by decide)

theorem integers_from_text_signed :
    (∃ n : Int64, n.toInt = -42 ∧
      Builtin.int.apply [.str " -042\n"] .empty = .ok (.int n) .empty) ∧
    Builtin.int.apply [.str "9223372036854775808"] .empty = .ok (.int Int64.maxValue) .empty ∧
    (∃ text e, Builtin.int.apply [.str text] .empty = .error e .empty) ∧
    (Builtin.str.apply [.int Int64.minValue] >>= fun text => Builtin.int.apply [text]) .empty =
      .ok (.int Int64.minValue) .empty := by
  obtain ⟨htexts, hback⟩ := integers_from_text .empty
  have hsigned : WritesInt " -042\n".toList (-42) :=
    @WritesInt.intro [' '] ['-'] ['0', '4', '2'] ['\n'] true (List.all_eq_true.1 (by decide))
      .minus (by decide) (List.all_eq_true.1 (by decide)) (List.all_eq_true.1 (by decide))
  have hlong : WritesInt (String.ofList (List.replicate 400 '9')).toList
      (digitsValue (List.replicate 400 '9')) := by
    rw [String.toList_ofList]
    exact .digits (by decide) (by decide +kernel)
  obtain ⟨-, -, hrefused⟩ := htexts _ _ hlong
  refine ⟨(htexts _ _ hsigned).1 rfl, (htexts _ _ writesInt_beyond).2.1 rfl ?_,
    ⟨_, _, hrefused ?_⟩, hback Int64.minValue⟩
  · exact lt_of_lt_of_le (by decide) doubleLimit_bounds.1
  · rw [Int.natAbs_natCast]
    decide +kernel

/-- The first integer that does not fit is made into another one. -/
theorem not_integers_exact : ¬ ∀ (s : Store) (text : String) (z : ℤ), WritesInt text.toList z →
    (∃ n : Int64, n.toInt = z ∧ Builtin.int.apply [.str text] s = .ok (.int n) s) ∨
      ∃ e, Builtin.int.apply [.str text] s = .error e s := by
  intro h
  have hsaturated : Builtin.int.apply [.str "9223372036854775808"] .empty =
      .ok (.int Int64.maxValue) .empty :=
    int_saturates writesInt_beyond rfl (lt_of_lt_of_le (by decide) doubleLimit_bounds.1)
  obtain ⟨n, hn, hrun⟩ | ⟨e, hrun⟩ := h .empty _ _ writesInt_beyond
  · rw [hsaturated] at hrun
    cases hrun
    cases hn
  · rw [hsaturated] at hrun
    cases hrun

end Builtin

end Spellbook
