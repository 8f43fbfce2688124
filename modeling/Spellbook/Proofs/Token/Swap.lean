import Spellbook.Proofs.Token.Moves

/-! What stands behind a colon or a line end makes no difference to the tokens before it. The lexer
looks at one character behind a token, and at two only behind a point or a slash. -/
namespace Spellbook

/-- A character that ends every token before it, and is in none that starts before it but strings and
comments. -/
structure Separates (k : Char) : Prop where
  digit : Number.isDigit k = false
  word : Scan.isWordChar k = false
  blank : Lexer.isInlineBlank k = false
  double : k ≠ '"'
  single : k ≠ '\''
  escape : k ≠ '\\'
  point : k ≠ '.'
  slash : k ≠ '/'
  star : k ≠ '*'
  symbol : ∀ (s : Symbol) (x : Char), s.text.toList ≠ [x, k]

theorem separates_colon : Separates ':' where
  digit := by decide
  word := by decide
  blank := by decide
  double := by decide
  single := by decide
  escape := by decide
  point := by decide
  slash := by decide
  star := by decide
  symbol s x := by cases s <;> simp [Symbol.text]

theorem separates_newline : Separates '\n' where
  digit := by decide
  word := by decide
  blank := by decide
  double := by decide
  single := by decide
  escape := by decide
  point := by decide
  slash := by decide
  star := by decide
  symbol s x := by cases s <;> simp [Symbol.text]

variable {a b : List Char} {k : Char}

section Lists

variable {r : List Char} {p : Char → Bool}

theorem takeWhile_before (hp : p k = false) (r a : List Char) :
    (r ++ k :: a).takeWhile p = r.takeWhile p := by
  induction r with
  | nil => simp [hp]
  | cons c r ih =>
    by_cases hc : p c = true
    · simp [hc, ih]
    · simp [hc]

theorem dropWhile_before (hp : p k = false) (r a : List Char) :
    (r ++ k :: a).dropWhile p = r.dropWhile p ++ k :: a := by
  induction r with
  | nil => simp [hp]
  | cons c r ih =>
    by_cases hc : p c = true
    · simp [hc, ih]
    · simp [hc]

theorem isPrefixOf_before {text : List Char} (h : text.length ≤ r.length + 1) :
    text.isPrefixOf (r ++ k :: a) = text.isPrefixOf (r ++ k :: b) := by
  have htake : ∀ a : List Char, (r ++ k :: a).take text.length = (r ++ [k]).take text.length := by
    intro a
    rw [← List.singleton_append, ← List.append_assoc]
    exact List.take_append_of_le_length (by simpa using h)
  rw [Bool.eq_iff_iff, List.isPrefixOf_iff_prefix, List.isPrefixOf_iff_prefix,
    List.prefix_iff_eq_take, List.prefix_iff_eq_take, htake a, htake b]

end Lists

namespace Scan

/-- The same token, taken off two texts that differ behind a separator only. -/
def Swapped (k : Char) (a b : List Char) (t t' : Scan) : Prop :=
  ∃ r, t.rest = r ++ k :: a ∧ t' = { t with rest := r ++ k :: b }

theorem number_int {cs : List Char}
    (h : ∀ d more, cs.dropWhile Number.isDigit = '.' :: d :: more → Number.isDigit d = false) :
    number cs = ⟨.int, cs.takeWhile Number.isDigit,
      (Number.readInt? (cs.takeWhile Number.isDigit)).map .int, none,
      cs.dropWhile Number.isDigit⟩ := by
  simp only [number]
  split
  · rename_i d more hcs
    rw [if_neg (by simp [h d more hcs])]
  · rfl

theorem number_float {cs more : List Char} {d : Char}
    (h : cs.dropWhile Number.isDigit = '.' :: d :: more) (hd : Number.isDigit d = true) :
    number cs = ⟨.float, cs.takeWhile Number.isDigit ++ '.' :: (d :: more).takeWhile Number.isDigit,
      (Number.readFloat? (cs.takeWhile Number.isDigit ++
        '.' :: (d :: more).takeWhile Number.isDigit)).map .float, none,
      (d :: more).dropWhile Number.isDigit⟩ := by
  simp only [number, h, hd, if_true]

theorem number_swap (hk : Separates k) (r : List Char) :
    Swapped k a b (number (r ++ k :: a)) (number (r ++ k :: b)) := by
  have htake := takeWhile_before hk.digit
  have hdrop := dropWhile_before hk.digit
  by_cases hfloat : ∃ d D, r.dropWhile Number.isDigit = '.' :: d :: D ∧ Number.isDigit d = true
  · obtain ⟨d, D, hr, hd⟩ := hfloat
    have hcs : ∀ a, (r ++ k :: a).dropWhile Number.isDigit = '.' :: d :: (D ++ k :: a) := by
      intro a
      rw [hdrop, hr]
      rfl
    refine ⟨(d :: D).dropWhile Number.isDigit, ?_, ?_⟩
    · rw [number_float (hcs a) hd]
      exact hdrop (d :: D) a
    · rw [number_float (hcs a) hd, number_float (hcs b) hd]
      simp only [htake, ← List.cons_append, hdrop]
  · have hint : ∀ a d more, (r ++ k :: a).dropWhile Number.isDigit = '.' :: d :: more →
        Number.isDigit d = false := by
      intro a d more hcs
      rw [hdrop] at hcs
      match hr : r.dropWhile Number.isDigit with
      | [] => simp [hr, hk.point] at hcs
      | [c] =>
        simp only [hr, List.cons_append, List.nil_append, List.cons.injEq] at hcs
        rw [← hcs.2.1, hk.digit]
      | c :: e :: D =>
        simp only [hr, List.cons_append, List.cons.injEq] at hcs
        obtain ⟨rfl, rfl, -⟩ := hcs
        exact Bool.not_eq_true _ ▸ fun hd => hfloat ⟨e, D, hr, hd⟩
    refine ⟨r.dropWhile Number.isDigit, ?_, ?_⟩
    · rw [number_int (hint a), hdrop]
    · rw [number_int (hint a), number_int (hint b)]
      simp only [htake, hdrop]

theorem word_swap (hk : Separates k) (r : List Char) :
    Swapped k a b (word (r ++ k :: a)) (word (r ++ k :: b)) := by
  simp only [word, takeWhile_before hk.word, dropWhile_before hk.word]
  split <;> exact ⟨_, rfl, rfl⟩

theorem isPrefixOf_quotes {q : Char} (hq : q ≠ k) (r : List Char) :
    [q, q].isPrefixOf (r ++ k :: a) = [q, q].isPrefixOf (r ++ k :: b) := by
  cases r with
  | nil => simp [List.isPrefixOf, beq_eq_false_iff_ne.2 hq]
  | cons c r => exact isPrefixOf_before (by simp)

theorem eq_of_quotes {q : Char} (hq : q ≠ k) {r : List Char}
    (h : [q, q].isPrefixOf (r ++ k :: a) = true) : ∃ r', r = q :: q :: r' := by
  obtain ⟨more, hmore⟩ := List.isPrefixOf_iff_prefix.1 h
  match r with
  | [] => exact absurd (List.cons.inj hmore).1 hq
  | [c] => exact absurd (List.cons.inj (List.cons.inj hmore).2).1 hq
  | c :: d :: r =>
    obtain ⟨hc, hmore⟩ := List.cons.inj hmore
    obtain ⟨hd, -⟩ := List.cons.inj hmore
    exact ⟨r, by rw [← hc, ← hd]⟩

theorem cons_of_append {r cs : List Char} {c : Char} (h : r ++ k :: a = c :: cs) :
    (r = [] ∧ c = k ∧ cs = a) ∨ ∃ r', r = c :: r' ∧ cs = r' ++ k :: a := by
  cases r with
  | nil =>
    obtain ⟨hc, hcs⟩ := List.cons.inj h
    exact .inl ⟨rfl, hc.symm, hcs.symm⟩
  | cons d r =>
    obtain ⟨rfl, hcs⟩ := List.cons.inj h
    exact .inr ⟨r, rfl, hcs.symm⟩

theorem stringBody_swap (hk : Separates k) {q : Char} (hq : q ≠ k) (triple multiline : Bool) (r : List Char)
    (h : a.length < (stringBody q triple multiline (r ++ k :: a)).rest.length) :
    ∃ r', (stringBody q triple multiline (r ++ k :: a)).rest = r' ++ k :: a ∧
      stringBody q triple multiline (r ++ k :: b) =
        { stringBody q triple multiline (r ++ k :: a) with rest := r' ++ k :: b } := by
  generalize hcs : r ++ k :: a = cs at h ⊢
  fun_induction stringBody q triple multiline cs generalizing r with
  | case1 => simp at hcs
  | case2 c cs hc =>
    obtain ⟨-, rfl, -⟩ | ⟨r, rfl, rfl⟩ := cons_of_append hcs
    · simp [Ne.symm hq] at hc
    · refine ⟨r, rfl, ?_⟩
      rw [List.cons_append, stringBody.eq_def]
      simp only [if_pos hc]
  | case3 c cs hc hp =>
    obtain ⟨-, rfl, -⟩ | ⟨r, rfl, rfl⟩ := cons_of_append hcs
    · simp [Ne.symm hq] at hp
    · have hp' := hp
      simp only [Bool.and_eq_true] at hp'
      obtain ⟨r, rfl⟩ := eq_of_quotes hq hp'.2
      rw [isPrefixOf_quotes (b := b) hq] at hp
      refine ⟨r, rfl, ?_⟩
      rw [List.cons_append, stringBody.eq_def]
      simp only [if_neg hc, if_pos hp]
      rfl
  | case4 c cs hc hp hline =>
    obtain ⟨rfl, rfl, rfl⟩ | ⟨r, rfl, rfl⟩ := cons_of_append hcs
    · -- The line ends here, and the string with it.
      refine ⟨[], rfl, ?_⟩
      rw [List.nil_append, stringBody.eq_def]
      simp [Ne.symm hq, hline]
    · rw [isPrefixOf_quotes (b := b) hq] at hp
      refine ⟨c :: r, rfl, ?_⟩
      rw [List.cons_append, stringBody.eq_def]
      simp only [if_neg hc, if_neg hp, if_pos hline]
  | case5 hc hline hp =>
    obtain ⟨-, hescape, -⟩ | ⟨r, -, hr⟩ := cons_of_append hcs
    · exact absurd hescape.symm hk.escape
    · simp at hr
  | case6 e cs hc hline hp ih =>
    obtain ⟨-, hescape, -⟩ | ⟨r, rfl, hr⟩ := cons_of_append hcs
    · exact absurd hescape.symm hk.escape
    · obtain ⟨rfl, rfl, rfl⟩ | ⟨r, rfl, rfl⟩ := cons_of_append hr.symm
      · -- The separator itself is taken, and too little is left.
        have hlong := length_stringBody_rest q triple multiline cs
        simp only [Body.push] at h
        omega
      · obtain ⟨r', hrest, hbody⟩ := ih r rfl h
        have hquotes := isPrefixOf_quotes (a := a) (b := b) hq (e :: r)
        simp only [List.cons_append] at hquotes
        rw [hquotes] at hp
        refine ⟨r', hrest, ?_⟩
        rw [List.cons_append, List.cons_append, stringBody.eq_def]
        simp only [if_neg hc, if_neg hp, if_neg hline, if_true, hbody, Body.push]
  | case7 c cs hc hp hline hescape ih =>
    obtain ⟨rfl, rfl, rfl⟩ | ⟨r, rfl, rfl⟩ := cons_of_append hcs
    · have hlong := length_stringBody_rest q triple multiline cs
      simp only [Body.push] at h
      omega
    · obtain ⟨r', hrest, hbody⟩ := ih r rfl h
      rw [isPrefixOf_quotes (b := b) hq] at hp
      refine ⟨r', hrest, ?_⟩
      rw [List.cons_append, stringBody.eq_def]
      simp only [if_neg hc, if_neg hp, if_neg hline, if_neg hescape, hbody, Body.push]

theorem string_swap (hk : Separates k) {q : Char} (hq : q ≠ k) (kind : Kind) (opening r : List Char)
    (h : a.length < (Scan.string kind opening q (r ++ k :: a)).rest.length) :
    Swapped k a b (Scan.string kind opening q (r ++ k :: a))
      (Scan.string kind opening q (r ++ k :: b)) := by
  have hscan : ∀ (body body' : Body) (opening r' : List Char), body.rest = r' ++ k :: a →
      body' = { body with rest := r' ++ k :: b } →
      Swapped k a b (body.toScan kind opening) (body'.toScan kind opening) := by
    rintro body _ opening r' hrest rfl
    refine ⟨r', by rw [Body.toScan_rest, hrest], ?_⟩
    simp only [Body.toScan]
    split <;> rfl
  have hquotes := isPrefixOf_quotes (a := a) (b := b) hq r
  by_cases hp : [q, q].isPrefixOf (r ++ k :: a) = true
  · obtain ⟨r, rfl⟩ := eq_of_quotes hq hp
    simp only [Scan.string, if_pos hp, if_pos (hquotes ▸ hp), Body.toScan_rest] at h ⊢
    obtain ⟨r', hrest, hbody⟩ := stringBody_swap (b := b) hk hq _ _ r h
    exact hscan _ _ _ r' hrest hbody
  · simp only [Scan.string, if_neg hp, if_neg (hquotes ▸ hp), Body.toScan_rest] at h ⊢
    obtain ⟨r', hrest, hbody⟩ := stringBody_swap (b := b) hk hq _ _ r h
    exact hscan _ _ _ r' hrest hbody

theorem symbol?_swap (c : Char) (r : List Char) :
    symbol? (c :: r ++ k :: a) = symbol? (c :: r ++ k :: b) := by
  have hlength : ∀ s : Symbol, s.text.toList.length ≤ 2 := fun s => by cases s <;> decide
  have hprefix : ∀ s : Symbol, s.text.toList.isPrefixOf (c :: r ++ k :: a) =
      s.text.toList.isPrefixOf (c :: r ++ k :: b) :=
    fun s => isPrefixOf_before (Nat.le_trans (hlength s) (by simp))
  simp only [symbol?, hprefix]

theorem symbol_drop (hk : Separates k) {c : Char} {r : List Char} {s : Symbol}
    (h : symbol? (c :: (r ++ k :: a)) = some s) :
    Swapped k a b ⟨.symbol s, s.text.toList, none, none, (c :: (r ++ k :: a)).drop s.text.length⟩
      ⟨.symbol s, s.text.toList, none, none, (c :: (r ++ k :: b)).drop s.text.length⟩ := by
  unfold symbol? at h
  have hfound := List.find?_some h
  have hprefix := List.isPrefixOf_iff_prefix.1 hfound
  have hle : s.text.length ≤ (c :: r).length := by
    rw [← String.length_toList]
    obtain ⟨x, hx⟩ | ⟨x, y, hxy⟩ := symbol_chars s
    · simp [hx]
    · cases r with
      | nil =>
        obtain ⟨more, hmore⟩ := hprefix
        rw [hxy] at hmore
        have hy : y = k := (List.cons.inj (List.cons.inj hmore).2).1
        exact absurd (hy ▸ hxy) (hk.symbol s x)
      | cons d r => simp [hxy]
  refine ⟨(c :: r).drop s.text.length, ?_, ?_⟩
  · exact List.drop_append_of_le_length hle
  · rw [← List.cons_append, ← List.cons_append, List.drop_append_of_le_length hle]

theorem quote?_swap (hk : Separates k) (r : List Char) :
    quote? (r ++ k :: a) = quote? (r ++ k :: b) := by
  cases r with
  | nil =>
    rw [List.nil_append, List.nil_append, quote?_eq_none hk.double hk.single,
      quote?_eq_none hk.double hk.single]
  | cons c r =>
    by_cases hdouble : c = '"'
    · subst hdouble
      rfl
    · by_cases hsingle : c = '\''
      · subst hsingle
        rfl
      · rw [List.cons_append, List.cons_append, quote?_eq_none hdouble hsingle,
          quote?_eq_none hdouble hsingle]

theorem continuesWord_swap (r : List Char) :
    continuesWord (r ++ k :: a) = continuesWord (r ++ k :: b) := by
  cases r <;> rfl

end Scan

open Scan in
theorem scan_swap (hk : Separates k) (c : Char) (r : List Char)
    (h : a.length < (scan c (r ++ k :: a)).rest.length) :
    Swapped k a b (scan c (r ++ k :: a)) (scan c (r ++ k :: b)) := by
  have hne : ∀ {cs : List Char} {q : Char}, quote? cs = some q → q ≠ k := by
    rintro cs q hcs rfl
    unfold quote? at hcs
    split at hcs
    · exact hk.double (Option.some.inj hcs).symm
    · exact hk.single (Option.some.inj hcs).symm
    · cases hcs
  have htemplate : (if c = 'f' then quote? (r ++ k :: a) else none) =
      if c = 'f' then quote? (r ++ k :: b) else none := by rw [quote?_swap (b := b) hk]
  have hsymbol := symbol?_swap (a := a) (b := b) (k := k) c r
  have hnumber := number_swap (a := a) (b := b) hk (c :: r)
  have hword := word_swap (a := a) (b := b) hk (c :: r)
  simp only [List.cons_append] at hsymbol hnumber hword
  unfold scan at h ⊢
  rw [← htemplate, ← continuesWord_swap (a := a) (b := b) (k := k), ← hsymbol]
  split at h
  · rename_i q hquote
    exact string_swap hk (hne hquote) _ _ _ h
  · split at h
    · rename_i q hquote
      have hr : quote? (r ++ k :: a) = some q := by
        split at hquote
        · exact hquote
        · cases hquote
      obtain ⟨-, rfl, -⟩ | ⟨r, rfl, -⟩ := cons_of_append (eq_of_quote? hr)
      · exact absurd rfl (hne hr)
      · exact string_swap hk (hne hr) _ _ r h
    · clear h
      split
      · exact ⟨r, rfl, rfl⟩
      · split
        · exact hnumber
        · split
          · exact hword
          · split
            · rename_i s hs
              exact symbol_drop hk hs
            · exact ⟨r, rfl, rfl⟩

namespace Lexer

def next (s : Lexer) : Lexer := s.step.2.getD s

theorem Reached.next {source : String} {s : Lexer} (h : Reached source s) : Reached source s.next := by
  rcases hstep : s.step with ⟨found, _ | next⟩
  · rwa [Lexer.next, hstep]
  · rw [Lexer.next, hstep]
    exact h.step hstep

variable {r : List Char} {s next : Lexer} {found : List Lexed}

theorem commentBody_swap (hk : Separates k) {text rest : List Char}
    (h : commentBody (r ++ k :: a) = (text, some rest)) (hlen : a.length < rest.length) :
    ∃ r', rest = r' ++ k :: a ∧
      commentBody (r ++ k :: b) = (text, some (r' ++ k :: b)) := by
  generalize hcs : r ++ k :: a = cs at h
  fun_induction commentBody cs generalizing r text with
  | case1 => simp at h
  | case2 cs =>
    simp only [Prod.mk.injEq, Option.some.injEq] at h
    obtain ⟨rfl, rfl⟩ := h
    obtain ⟨-, hstar, -⟩ | ⟨r, rfl, hr⟩ := Scan.cons_of_append hcs
    · exact absurd hstar.symm hk.star
    · obtain ⟨-, hslash, -⟩ | ⟨r, rfl, rfl⟩ := Scan.cons_of_append hr.symm
      · exact absurd hslash.symm hk.slash
      · exact ⟨r, rfl, rfl⟩
  | case3 c cs hne text' rest' hbody ih =>
    simp only [Prod.mk.injEq] at h
    obtain ⟨rfl, rfl⟩ := h
    obtain ⟨-, -, rfl⟩ | ⟨r, rfl, rfl⟩ := Scan.cons_of_append hcs
    · exact absurd (length_commentBody hbody) (Nat.lt_asymm hlen)
    · obtain ⟨r', hrest, hswapped⟩ := ih rfl hbody
      refine ⟨r', hrest, ?_⟩
      rw [List.cons_append, commentBody.eq_3, hswapped]
      intro cs hc hcs
      obtain ⟨-, hslash, -⟩ | ⟨r'', rfl, -⟩ := Scan.cons_of_append hcs
      · exact absurd hslash.symm hk.slash
      · exact hne _ hc rfl

theorem blankLine_swap (hk : Separates k) (r : List Char) :
    blankLine (r ++ k :: a) = blankLine (r ++ k :: b) := by
  match r with
  | [] =>
    by_cases hline : k = '\n'
    · subst hline
      rfl
    · simp [blankLine, hline, hk.slash]
  | c :: r =>
    by_cases hline : c = '\n'
    · subst hline
      rfl
    · by_cases hslash : c = '/'
      · subst hslash
        match r with
        | [] => simp [blankLine, hk.slash]
        | d :: r =>
          by_cases hd : d = '/'
          · subst hd
            rfl
          · simp [blankLine, hd]
      · simp [blankLine, hline, hslash]

theorem opensComment_swap (hk : Separates k) (c : Char) (r : List Char) :
    opensComment (c :: (r ++ k :: a)) = opensComment (c :: (r ++ k :: b)) := by
  by_cases hslash : c = '/'
  · subst hslash
    match r with
    | [] => simp [opensComment, hk.slash, hk.star]
    | d :: r =>
      by_cases hd : d = '/'
      · subst hd
        rfl
      · by_cases hstar : d = '*'
        · subst hstar
          rfl
        · simp [opensComment, hd, hstar]
  · simp [opensComment, hslash]

def withRest (s : Lexer) (rest : List Char) : Lexer := { s with rest := rest }

theorem skipBlanks_swap (hk : Separates k) (hs : s.rest = r ++ k :: a) :
    s.skipBlanks.rest = r.dropWhile isInlineBlank ++ k :: a ∧
      (s.withRest (r ++ k :: b)).skipBlanks =
        s.skipBlanks.withRest (r.dropWhile isInlineBlank ++ k :: b) := by
  simp only [skipBlanks, withRest, skip, hs, takeWhile_before hk.blank, dropWhile_before hk.blank,
    and_self]

theorem comment_swap (hk : Separates k) {d : Char} (hd : k ≠ d) {cs : List Char}
    (hs : s.rest = r ++ k :: a) (hr : s.skipBlanks.rest = '/' :: d :: cs) : ∃ E,
      cs = E ++ k :: a ∧ (s.withRest (r ++ k :: b)).skipBlanks.rest = '/' :: d :: (E ++ k :: b) := by
  obtain ⟨hskip, hskip'⟩ := skipBlanks_swap (b := b) hk hs
  obtain ⟨-, hslash, -⟩ | ⟨D, hD, hcs⟩ := Scan.cons_of_append (hskip.symm.trans hr)
  · exact absurd hslash.symm hk.slash
  · obtain ⟨-, hmark, -⟩ | ⟨E, rfl, rfl⟩ := Scan.cons_of_append hcs.symm
    · exact absurd hmark.symm hd
    · refine ⟨E, rfl, ?_⟩
      rw [hskip', hD]
      rfl

theorem lineComment_swap {E : List Char}
    (h : a.length < ((E ++ k :: a).dropWhile (· != '\n')).length) (x : List Char) :
    (E ++ k :: x).takeWhile (· != '\n') = E.takeWhile (· != '\n') ∧
      (E ++ k :: x).dropWhile (· != '\n') = E.dropWhile (· != '\n') ++ k :: x := by
  induction E with
  | nil =>
    by_cases hk : k = '\n'
    · simp [hk]
    · have hle := Scan.length_dropWhile_le (· != '\n') a
      simp [hk] at h
      omega
  | cons c E ih =>
    by_cases hc : c = '\n'
    · simp [hc]
    · have hmore := ih (by simpa [hc] using h)
      simpa [hc] using hmore

theorem Move.swap (hk : Separates k) (h : Move s found next) (hs : s.rest = r ++ k :: a)
    (hlen : a.length < next.rest.length) : ∃ r', next.rest = r' ++ k :: a ∧
      Move (s.withRest (r ++ k :: b)) found (next.withRest (r' ++ k :: b)) := by
  obtain ⟨hskip, hskip'⟩ := skipBlanks_swap (b := b) hk hs
  have hrest : ∀ {D : List Char}, r.dropWhile isInlineBlank = D →
      (s.withRest (r ++ k :: b)).skipBlanks.rest = D ++ k :: b := by
    rintro D rfl
    rw [hskip']
    rfl
  cases h with
  | inside hr hn =>
    obtain ⟨-, -, rfl⟩ | ⟨D, hD, rfl⟩ := Scan.cons_of_append (hskip.symm.trans hr)
    · exact absurd hlen (Nat.lt_irrefl _)
    · have hmove := Move.inside (s := s.withRest (r ++ k :: b)) (hrest hD) hn
      rw [hskip'] at hmove
      exact ⟨D, rfl, hmove⟩
  | newline hr hn =>
    obtain ⟨-, -, rfl⟩ | ⟨D, hD, rfl⟩ := Scan.cons_of_append (hskip.symm.trans hr)
    · exact absurd hlen (Nat.lt_irrefl _)
    · have hmove := Move.newline (s := s.withRest (r ++ k :: b)) (hrest hD) hn
      rw [hskip'] at hmove
      exact ⟨D, rfl, hmove⟩
  | lineComment hr =>
    obtain ⟨E, rfl, hr'⟩ := comment_swap (b := b) hk hk.slash hs hr
    have hmove := Move.lineComment hr'
    have hends := lineComment_swap (k := k) (a := a) hlen
    rw [hskip', (hends b).1, (hends b).2] at hmove
    rw [(hends a).1, (hends a).2]
    exact ⟨E.dropWhile (· != '\n'), rfl, hmove⟩
  | openComment hr hbody =>
    simp [skip] at hlen
  | blockComment hr hbody =>
    obtain ⟨E, rfl, hr'⟩ := comment_swap (b := b) hk hk.star hs hr
    obtain ⟨r', hrest', hswapped⟩ := commentBody_swap (b := b) hk hbody hlen
    have hmove := Move.blockComment hr' hswapped
    rw [hskip'] at hmove
    exact ⟨r', hrest', hmove⟩
  | @token c cs hr hc hcomment =>
    obtain ⟨-, rfl, rfl⟩ | ⟨D, hD, rfl⟩ := Scan.cons_of_append (hskip.symm.trans hr)
    · exact absurd (length_scan_rest c cs) (Nat.not_le.2 hlen)
    · obtain ⟨r', hrest', hswapped⟩ := scan_swap (b := b) hk c D hlen
      have hr' : (s.withRest (r ++ k :: b)).skipBlanks.rest = c :: (D ++ k :: b) := hrest hD
      have hmove := Move.token hr' hc ((opensComment_swap hk c D).symm.trans hcomment)
      rw [hskip', hswapped] at hmove
      exact ⟨r', hrest', hmove⟩

theorem applyIndent_withRest (s : Lexer) (rest : List Char) (width : Nat) :
    (s.withRest rest).applyIndent width =
      ((s.applyIndent width).1, (s.applyIndent width).2.withRest rest) := by
  obtain ⟨_, pos, indents, nesting, fresh, hasTokens⟩ := s
  unfold applyIndent withRest
  dsimp only
  split
  · rfl
  · split <;> rfl

theorem Look.swap (hk : Separates k) (h : Look s found next) (hs : s.rest = r ++ k :: a)
    (hlen : a.length < next.rest.length) : ∃ r', next.rest = r' ++ k :: a ∧
      Look (s.withRest (r ++ k :: b)) found (next.withRest (r' ++ k :: b)) := by
  obtain ⟨hskip, hskip'⟩ := skipBlanks_swap (b := b) hk hs
  have hwidth : (s.withRest (r ++ k :: b)).rest.takeWhile isInlineBlank =
      s.rest.takeWhile isInlineBlank := by
    rw [hs, takeWhile_before hk.blank]
    exact takeWhile_before hk.blank r b
  have hrest : ∀ {D : List Char}, r.dropWhile isInlineBlank = D →
      (s.withRest (r ++ k :: b)).skipBlanks.rest = D ++ k :: b := by
    rintro D rfl
    rw [hskip']
    rfl
  have hblank : ∀ r' : List Char, blankLine ((r' ++ k :: b).dropWhile isInlineBlank) =
      blankLine ((r' ++ k :: a).dropWhile isInlineBlank) := by
    intro r'
    rw [dropWhile_before hk.blank, dropWhile_before hk.blank, blankLine_swap hk]
  cases h with
  | blank hb =>
    refine ⟨r, hs, .blank ?_⟩
    rw [hrest rfl, ← blankLine_swap (a := a) hk, ← hskip]
    exact hb
  | openComment hr hbody => simp [skip] at hlen
  | comment hr hbody hb =>
    obtain ⟨D, rfl, hr'⟩ := comment_swap (b := b) hk hk.star hs hr
    obtain ⟨r', hrest', hswapped⟩ := commentBody_swap (b := b) hk hbody hlen
    have hlook := Look.comment hr' hswapped ((hblank r').trans (hrest' ▸ hb))
    rw [hskip'] at hlook
    exact ⟨r', hrest', hlook⟩
  | @behind cs text rest behind hr hbody hb hbehind =>
    rw [applyIndent_rest, hbehind] at hlen
    obtain ⟨D, rfl, hr'⟩ := comment_swap (b := b) hk hk.star hs hr
    obtain ⟨r', hrest', hswapped⟩ := commentBody_swap (b := b) hk hbody hlen
    have hbehind' : behind.withRest (r' ++ k :: b) =
        { (s.withRest (r ++ k :: b)).skipBlanks.skip ('/' :: '*' :: text) (r' ++ k :: b) with
          fresh := false } := by
      rw [hskip', hbehind]
      rfl
    have hlook := Look.behind hr' hswapped ((hblank r').trans (hrest' ▸ hb)) hbehind'
    rw [hwidth, applyIndent_withRest] at hlook
    exact ⟨r', by rw [applyIndent_rest, hbehind]; exact hrest', hlook⟩
  | @row inside hb hne hinside =>
    have hb' : blankLine (s.withRest (r ++ k :: b)).skipBlanks.rest = false := by
      rw [hrest rfl, ← blankLine_swap (a := a) hk, ← hskip]
      exact hb
    have hne' : ∀ cs, (s.withRest (r ++ k :: b)).skipBlanks.rest ≠ '/' :: '*' :: cs := by
      intro cs hcs
      obtain ⟨-, hslash, -⟩ | ⟨D, hD, hcs'⟩ := Scan.cons_of_append ((hrest rfl).symm.trans hcs)
      · exact absurd hslash.symm hk.slash
      · obtain ⟨-, hstar, -⟩ | ⟨E, rfl, -⟩ := Scan.cons_of_append hcs'.symm
        · exact absurd hstar.symm hk.star
        · refine hne (E ++ k :: a) ?_
          rw [hskip, hD]
          rfl
    have hinside' : inside.withRest (r.dropWhile isInlineBlank ++ k :: b) =
        { (s.withRest (r ++ k :: b)).skipBlanks with fresh := false } := by
      rw [hskip', hinside]
      rfl
    have hlook := Look.row hb' hne' hinside'
    rw [hwidth, applyIndent_withRest] at hlook
    exact ⟨_, by rw [applyIndent_rest, hinside]; exact hskip, hlook⟩

theorem step_swap (hk : Separates k) (h : s.step = (found, some next)) (hs : s.rest = r ++ k :: a)
    (hlen : a.length < next.rest.length) : ∃ r', next.rest = r' ++ k :: a ∧
      (s.withRest (r ++ k :: b)).step = (found, some (next.withRest (r' ++ k :: b))) := by
  cases hstart : s.atStart with
  | true =>
    rw [step_look hstart] at h
    simp only [Prod.mk.injEq, Option.some.injEq] at h
    obtain ⟨rfl, rfl⟩ := h
    obtain ⟨r', hrest, hlook⟩ := (look_layout s).swap (b := b) hk hs hlen
    refine ⟨r', hrest, ?_⟩
    rw [step_look (s := s.withRest (r ++ k :: b)) hstart, hlook.layout_eq]
  | false =>
    obtain ⟨-, hstep⟩ | ⟨found', next', hstep, hmove⟩ := step_moves hstart
    · simp [hstep] at h
    · rw [hstep] at h
      simp only [Prod.mk.injEq, Option.some.injEq] at h
      obtain ⟨rfl, rfl⟩ := h
      obtain ⟨r', hrest, hswapped⟩ := hmove.swap (b := b) hk hs hlen
      exact ⟨r', hrest, hswapped.step_eq (s := s.withRest (r ++ k :: b)) hstart⟩

theorem length_step_rest (h : s.step = (found, some next)) : next.rest.length ≤ s.rest.length := by
  have hless := measure_step h
  have hfresh : ∀ b : Bool, b.toNat ≤ 1 := by decide
  have := hfresh s.fresh
  simp only [measure] at hless
  omega

theorem foldl_nestingAfter_marks {found : List Lexed} (h : ∀ l ∈ found, l.token.kind.isSolid = false)
    (n : Nat) : (found.map (·.token.kind)).foldl nestingAfter n = n := by
  induction found with
  | nil => rfl
  | cons l found ih =>
    have hl : nestingAfter n l.token.kind = n := by
      have hl := h l List.mem_cons_self
      unfold nestingAfter
      split <;> first | rfl | simp_all [Kind.isSolid]
    rw [List.map_cons, List.foldl_cons, hl]
    exact ih fun l hl => h l (List.mem_cons_of_mem _ hl)

theorem applyIndent_nesting (s : Lexer) (width : Nat) : (s.applyIndent width).2.nesting = s.nesting := by
  rw [(applyIndent_relevel s width).2]

theorem nesting_step (h : s.step = (found, some next)) :
    (found.map (·.token.kind)).foldl nestingAfter s.nesting = next.nesting := by
  cases hstart : s.atStart with
  | true =>
    rw [step_look hstart] at h
    simp only [Prod.mk.injEq, Option.some.injEq] at h
    obtain ⟨rfl, rfl⟩ := h
    rw [foldl_nestingAfter_marks (isSolid_layout s)]
    have hlook := look_layout s
    generalize hnext : s.layout.2 = next at hlook
    generalize s.layout.1 = found at hlook
    cases hlook with
    | behind hr hbody hb hbehind => rw [applyIndent_nesting, hbehind]; rfl
    | row hb hne hinside => rw [applyIndent_nesting, hinside]; rfl
    | _ => rfl
  | false =>
    obtain ⟨-, hstep⟩ | ⟨found', next', hstep, hmove⟩ := step_moves hstart
    · simp [hstep] at h
    · rw [hstep] at h
      simp only [Prod.mk.injEq, Option.some.injEq] at h
      obtain ⟨rfl, rfl⟩ := h
      cases hmove with
      | newline hr hn => cases ht : s.hasTokens <;> rfl
      | _ => rfl

theorem Reached.swap (hk : Separates k) {source source' : String} {head : List Char}
    (hs : source.toList = head ++ k :: a) (hs' : source'.toList = head ++ k :: b)
    (h : Reached source s) (hlen : a.length < s.rest.length) : ∃ r before,
      s.rest = r ++ k :: a ∧ lex source = before ++ s.run ∧
      lex source' = before ++ (s.withRest (r ++ k :: b)).run ∧
      (before.map (·.token.kind)).foldl nestingAfter 0 = s.nesting := by
  induction h with
  | start =>
    refine ⟨head, [], hs, rfl, ?_, rfl⟩
    rw [lex, hs']
    rfl
  | @step s next found _ hstep ih =>
    obtain ⟨r, before, hr, hlex, hlex', hn⟩ :=
      ih (Nat.lt_of_lt_of_le hlen (length_step_rest hstep))
    obtain ⟨r', hrest, hstep'⟩ := step_swap (b := b) hk hstep hr hlen
    refine ⟨r', before ++ found, hrest, ?_, ?_, ?_⟩
    · rw [hlex, run_of_step hstep, List.append_assoc]
    · rw [hlex', run_of_step hstep', List.append_assoc]
    · rw [List.map_append, List.foldl_append, hn, nesting_step hstep]

theorem Reached.swap_here (hk : Separates k) {source source' : String} {head : List Char}
    (hs : source.toList = head ++ k :: a) (hs' : source'.toList = head ++ k :: b)
    (h : Reached source s) (hr : s.skipBlanks.rest = k :: a) : ∃ rest before,
      lex source = before ++ s.run ∧ lex source' = before ++ (s.withRest rest).run ∧
      (s.withRest rest).skipBlanks = s.skipBlanks.withRest (k :: b) ∧
      (before.map (·.token.kind)).foldl nestingAfter 0 = s.nesting := by
  have hlen : a.length < s.rest.length := by
    have hle := length_skipBlanks s
    rw [hr] at hle
    exact hle
  obtain ⟨r, before, hrest, hlex, hlex', hn⟩ := h.swap hk hs hs' hlen
  obtain ⟨hskip, hskip'⟩ := skipBlanks_swap (b := b) hk hrest
  have hnil : r.dropWhile isInlineBlank = [] := by
    have hlength := congrArg List.length (hskip.symm.trans hr)
    simp only [List.length_append, List.length_cons] at hlength
    exact List.length_eq_zero_iff.1 (by omega)
  rw [hnil] at hskip'
  exact ⟨r ++ k :: b, before, hlex, hlex', hskip', hn⟩

end Lexer

end Spellbook
