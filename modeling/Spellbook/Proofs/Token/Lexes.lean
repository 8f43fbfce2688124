import Spellbook.Proofs.Token.Words
import Spellbook.Text.Quoted

/-! The lexer takes back single tokens. A token is found again in front of whatever cannot be taken
for more of it. -/
namespace Spellbook

open Scan

theorem ne_of_test {α : Type} {p : α → Bool} {a b : α} (ha : p a = true) (hb : p b = false) :
    a ≠ b := by
  rintro rfl
  rw [ha] at hb
  cases hb

def Token.bare (t : Token) : Token := { t with pos := .start }

/-- A text in front of `more` is lexed without errors into these tokens, places apart. -/
structure Lexes (tokens : List Token) (text more : List Char) : Prop where
  run (s : Lexer) : s.fresh = false → s.rest = text ++ more →
    ∃ (found : List Lexed) (s' : Lexer),
      s.run = found ++ s'.run ∧ found.map (·.token.bare) = tokens ∧
      (∀ l ∈ found, l.error = none) ∧ s'.fresh = false ∧ s'.rest = more ∧
      s'.indents = s.indents ∧ (s.hasTokens = true ∨ tokens ≠ [] → s'.hasTokens = true)
  /-- No token is empty. -/
  length_le : tokens.length ≤ text.length

namespace Lexer

theorem run_of_end {s : Lexer} {found : List Lexed} (h : s.step = (found, none)) :
    s.run = found := by
  rw [run]
  split
  · rename_i h'
    rw [h] at h'
    cases h'
    rfl
  · rename_i h'
    rw [h] at h'
    cases h'

theorem run_of_step {s next : Lexer} {found : List Lexed} (h : s.step = (found, some next)) :
    s.run = found ++ next.run := by
  rw [run]
  split
  · rename_i h'
    rw [h] at h'
    cases h'
  · rename_i h'
    rw [h] at h'
    cases h'
    rfl

theorem run_congr {s s' : Lexer} (h : s.step = s'.step) : s.run = s'.run := by
  rcases hs : s'.step with ⟨found, next⟩
  cases next with
  | none => rw [run_of_end (h.trans hs), run_of_end hs]
  | some next => rw [run_of_step (h.trans hs), run_of_step hs]

theorem skipBlanks_eq {s : Lexer} {c : Char} {cs : List Char} (h : s.rest = c :: cs)
    (hc : isInlineBlank c = false) : s.skipBlanks = s := by
  simp only [skipBlanks, skip, h, List.takeWhile_cons, List.dropWhile_cons, hc, Pos.advance]
  obtain ⟨rest, pos, indents, nesting, fresh, hasTokens⟩ := s
  simp only at h
  subst h
  rfl

theorem skipBlanks_nil {s : Lexer} (hr : s.rest = []) : s.skipBlanks = s := by
  obtain ⟨rest, pos, indents, nesting, fresh, hasTokens⟩ := s
  cases hr
  rfl

theorem isInlineBlank_head {s : Lexer} {c : Char} {cs : List Char}
    (h : s.skipBlanks.rest = c :: cs) : isInlineBlank c = false := by
  have hhead := List.head?_dropWhile_not isInlineBlank s.rest
  have hr : s.rest.dropWhile isInlineBlank = c :: cs := h
  simpa [hr] using hhead

theorem run_skipBlanks {s : Lexer} (hf : s.fresh = false) : s.skipBlanks.run = s.run := by
  have hf' : s.skipBlanks.fresh = false := hf
  have hskip : s.skipBlanks.skipBlanks = s.skipBlanks := by
    cases hr : s.skipBlanks.rest with
    | nil => exact skipBlanks_nil hr
    | cons c cs => exact skipBlanks_eq hr (isInlineBlank_head hr)
  refine run_congr ?_
  simp only [step, hf, hf', hskip, Bool.false_and, Bool.false_eq_true, if_false]

theorem isInlineBlank_of_ne {c : Char} (hspace : c ≠ ' ') (htab : c ≠ '\t') (hreturn : c ≠ '\r') :
    isInlineBlank c = false := by
  unfold isInlineBlank indentWidth?
  split <;> first | contradiction | rfl

theorem step_scan {s : Lexer} {c : Char} {cs : List Char} (hf : s.fresh = false)
    (h : s.rest = c :: cs) (hb : isInlineBlank c = false) (hn : c ≠ '\n')
    (hcomment : c = '/' → ∀ d ∈ cs.head?, d ≠ '/' ∧ d ≠ '*') :
    s.step = ([s.place (scan c cs)],
      some { s.skip (scan c cs).text (scan c cs).rest with
        nesting := nestingAfter s.nesting (scan c cs).kind, hasTokens := true }) := by
  unfold step
  rw [hf, skipBlanks_eq h hb]
  simp only [Bool.false_and, Bool.false_eq_true, if_false, h]
  split
  · rename_i heq
    cases heq
  · rename_i heq
    cases heq
    exact absurd rfl hn
  · rename_i heq
    cases heq
    exact absurd rfl (hcomment rfl '/' rfl).1
  · rename_i heq
    cases heq
    exact absurd rfl (hcomment rfl '*' rfl).2
  · rename_i heq
    cases heq
    rfl

end Lexer

namespace Lexes

variable {tokens tokens' : List Token} {text text' more : List Char}

theorem append (h : Lexes tokens text (text' ++ more)) (h' : Lexes tokens' text' more) :
    Lexes (tokens ++ tokens') (text ++ text') more := by
  have hlength : (tokens ++ tokens').length ≤ (text ++ text').length := by
    rw [List.length_append, List.length_append]
    exact Nat.add_le_add h.length_le h'.length_le
  refine ⟨fun s hf hr => ?_, hlength⟩
  rw [List.append_assoc] at hr
  obtain ⟨found₁, s₁, hrun₁, htok₁, herr₁, hf₁, hr₁, hi₁, ht₁⟩ := h.run s hf hr
  obtain ⟨found₂, s₂, hrun₂, htok₂, herr₂, hf₂, hr₂, hi₂, ht₂⟩ := h'.run s₁ hf₁ hr₁
  refine ⟨found₁ ++ found₂, s₂, ?_, ?_, ?_, hf₂, hr₂, hi₂.trans hi₁, fun ht => ht₂ ?_⟩
  · rw [hrun₁, hrun₂, List.append_assoc]
  · rw [List.map_append, htok₁, htok₂]
  · exact List.forall_mem_append.2 ⟨herr₁, herr₂⟩
  · by_cases hnil : tokens = []
    · rcases ht with ht | ht
      · exact .inl (ht₁ (.inl ht))
      · exact .inr (by simpa [hnil] using ht)
    · exact .inl (ht₁ (.inr hnil))

theorem blank : Lexes [] [' '] more := by
  refine ⟨fun s hf hr => ?_, Nat.zero_le _⟩
  have hskip : s.skipBlanks = (s.skip [' '] more).skipBlanks := by
    have htake : (' ' :: more).takeWhile Lexer.isInlineBlank =
      ' ' :: more.takeWhile Lexer.isInlineBlank := rfl
    have hdrop : (' ' :: more).dropWhile Lexer.isInlineBlank =
      more.dropWhile Lexer.isInlineBlank := rfl
    simp only [Lexer.skipBlanks, Lexer.skip, hr, List.singleton_append, htake, hdrop]
    rfl
  have hf' : (s.skip [' '] more).fresh = false := hf
  have hstep : s.step = (s.skip [' '] more).step := by
    unfold Lexer.step
    rw [hf, hf', hskip]
    simp only [Bool.false_and, Bool.false_eq_true, if_false]
  have hrun : s.run = [] ++ (s.skip [' '] more).run := Lexer.run_congr hstep
  exact ⟨[], s.skip [' '] more, hrun, rfl, List.forall_mem_nil _, hf, rfl, rfl,
    fun h => h.resolve_right (· rfl)⟩

theorem nil : Lexes [] [] more := by
  refine ⟨fun s hf hr => ?_, Nat.le_refl _⟩
  exact ⟨[], s, rfl, rfl, List.forall_mem_nil _, hf, hr, rfl, fun h => h.resolve_right (· rfl)⟩

theorem spaced (h : Lexes tokens text (' ' :: more)) : Lexes tokens (text ++ [' ']) more := by
  have happend := h.append blank
  rwa [List.append_nil] at happend

theorem scanned {c : Char} {cs : List Char} {kind : Kind} {literal : Option Literal}
    (hscan : scan c (cs ++ more) = ⟨kind, c :: cs, literal, none, more⟩)
    (hb : Lexer.isInlineBlank c = false) (hn : c ≠ '\n')
    (hcomment : c = '/' → ∀ d ∈ (cs ++ more).head?, d ≠ '/' ∧ d ≠ '*') :
    Lexes [⟨kind, String.ofList (c :: cs), .start, literal⟩] (c :: cs) more := by
  refine ⟨fun s hf hr => ?_, Nat.succ_le_succ (Nat.zero_le _)⟩
  have hstep := Lexer.step_scan hf (hr.trans List.cons_append) hb hn hcomment
  rw [hscan] at hstep
  refine ⟨_, _, Lexer.run_of_step hstep, rfl, ?_, hf, rfl, rfl, fun _ => rfl⟩
  exact List.forall_mem_singleton.2 rfl

end Lexes

namespace Scan

theorem takeWhile_append {cs more : List Char} {p : Char → Bool} (h : cs.all p = true)
    (hmore : ∀ c ∈ more.head?, p c = false) : (cs ++ more).takeWhile p = cs := by
  rw [List.takeWhile_append_of_pos (List.all_eq_true.1 h)]
  cases more with
  | nil => exact List.append_nil cs
  | cons c more => rw [List.takeWhile_cons, hmore c rfl, if_neg Bool.false_ne_true, List.append_nil]

theorem dropWhile_append {cs more : List Char} {p : Char → Bool} (h : cs.all p = true)
    (hmore : ∀ c ∈ more.head?, p c = false) : (cs ++ more).dropWhile p = more := by
  rw [List.dropWhile_append_of_pos (List.all_eq_true.1 h)]
  cases more with
  | nil => rfl
  | cons c more => rw [List.dropWhile_cons, hmore c rfl, if_neg Bool.false_ne_true]

end Scan

def Token.ofWord (w : String) : Token :=
  match Keyword.ofWord? w with
  | none => ⟨.ident, w, .start, none⟩
  | some .true_ => ⟨.keyword .true_, w, .start, some (.bool true)⟩
  | some .false_ => ⟨.keyword .false_, w, .start, some (.bool false)⟩
  | some k => ⟨.keyword k, w, .start, none⟩

namespace Scan

theorem quote?_eq_none {c : Char} (hdouble : c ≠ '"') (hsingle : c ≠ '\'') (cs : List Char) :
    quote? (c :: cs) = none := by
  unfold quote?
  split
  · rename_i heq
    cases heq
    exact absurd rfl hdouble
  · rename_i heq
    cases heq
    exact absurd rfl hsingle
  · rfl

theorem quote?_of_isWordChar {c : Char} (hc : isWordChar c = true) (cs : List Char) :
    quote? (c :: cs) = none :=
  quote?_eq_none (ne_of_test hc (by decide)) (ne_of_test hc (by decide)) cs

theorem scan_word {c : Char} {rest more : List Char} (hw : IsWord (c :: rest))
    (hq : quote? more = none) : scan c (rest ++ more) = word (c :: (rest ++ more)) := by
  obtain ⟨c', rest', hcons, hstart, hdigit⟩ := hw.first
  cases hcons
  have hc := isWordChar_of_isWordStart hstart
  have hall := hw.all
  have hmark := hw.notMark
  have htemplate : (if c = 'f' then quote? (rest ++ more) else none) = none := by
    split
    · cases rest with
      | nil => exact hq
      | cons d rest =>
        simp only [List.all_cons, Bool.and_eq_true] at hall
        exact quote?_of_isWordChar hall.2.1 _
    · rfl
  have hunder : (c = '_' && !continuesWord (rest ++ more)) = false := by
    cases rest with
    | nil =>
      have hne : c ≠ '_' := by
        rintro rfl
        exact hmark rfl
      simp [hne]
    | cons d rest =>
      simp only [List.all_cons, Bool.and_eq_true] at hall
      simp [continuesWord, hall.2.1]
  simp only [scan, quote?_of_isWordChar hc, htemplate, hunder, hdigit, hstart, if_true,
    Bool.false_eq_true, if_false]

end Scan

theorem Lexes.word {w : String} (hw : IsWord w.toList) {more : List Char}
    (hmore : ∀ c ∈ more.head?, isWordChar c = false) (hq : quote? more = none) :
    Lexes [.ofWord w] w.toList more := by
  obtain ⟨c, rest, hcons, hstart, hdigit⟩ := hw.first
  have hc := isWordChar_of_isWordStart hstart
  rw [hcons] at hw ⊢
  have htake : (c :: (rest ++ more)).takeWhile isWordChar = c :: rest :=
    takeWhile_append hw.all hmore
  have hdrop : (c :: (rest ++ more)).dropWhile isWordChar = more := dropWhile_append hw.all hmore
  have hof : String.ofList (c :: rest) = w := by rw [← hcons, String.ofList_toList]
  have hblank : Lexer.isInlineBlank c = false := by
    refine Lexer.isInlineBlank_of_ne ?_ ?_ ?_ <;> exact ne_of_test hc (by decide)
  have hscan : scan c (rest ++ more) =
      ⟨(Token.ofWord w).kind, c :: rest, (Token.ofWord w).literal, none, more⟩ := by
    rw [scan_word hw hq, Scan.word, htake, hdrop, hof]
    unfold Token.ofWord
    cases Keyword.ofWord? w with
    | none => rfl
    | some k => cases k <;> rfl
  have hlexeme : Token.ofWord w =
      ⟨(Token.ofWord w).kind, String.ofList (c :: rest), .start, (Token.ofWord w).literal⟩ := by
    rw [hof]
    unfold Token.ofWord
    cases Keyword.ofWord? w with
    | none => rfl
    | some k => cases k <;> rfl
  rw [hlexeme]
  refine .scanned hscan hblank (ne_of_test hc (by decide)) fun h => ?_
  exact absurd h (ne_of_test hc (by decide))

def Token.ofSymbol (s : Symbol) : Token := ⟨.symbol s, s.text, .start, none⟩

/-- No symbol starts with another and one of these. -/
def Detached (more : List Char) : Prop := ∀ c ∈ more.head?, c ∉ ['+', '-', '*', '/', '=', '<', '>']

namespace Scan

theorem symbol_chars (s : Symbol) :
    (∃ a, s.text.toList = [a]) ∨ ∃ a b, s.text.toList = [a, b] := by
  cases s <;> simp [Symbol.text]

theorem symbol?_text {s : Symbol} (hs : s ≠ .underscore) : symbol? s.text.toList = some s := by
  revert hs
  cases s <;> decide

theorem symbol?_two (a b : Char) (more : List Char) : symbol? (a :: b :: more) = symbol? [a, b] := by
  unfold symbol?
  congr 1
  funext s
  rcases symbol_chars s with ⟨c, hs⟩ | ⟨c, d, hs⟩ <;> simp [hs, List.isPrefixOf]

theorem symbol?_one {a c : Char} (hc : c ∉ ['+', '-', '*', '/', '=', '<', '>']) :
    symbol? [a, c] = symbol? [a] := by
  unfold symbol?
  congr 1
  funext s
  simp only [List.mem_cons, List.not_mem_nil, or_false, not_or] at hc
  cases s <;> simp [Symbol.text, List.isPrefixOf, Ne.symm, hc]

theorem symbol?_append {s : Symbol} (hs : s ≠ .underscore) {more : List Char}
    (hmore : Detached more) : symbol? (s.text.toList ++ more) = some s := by
  have htext := symbol?_text hs
  cases more with
  | nil => rwa [List.append_nil]
  | cons c more =>
    rcases symbol_chars s with ⟨a, hchars⟩ | ⟨a, b, hchars⟩
    · rw [hchars] at htext ⊢
      exact (symbol?_two a c more).trans ((symbol?_one (hmore c rfl)).trans htext)
    · rw [hchars] at htext ⊢
      exact (symbol?_two a b (c :: more)).trans htext

end Scan

namespace Scan

theorem scan_digit {c : Char} (hc : Number.isDigit c = true) (cs : List Char) :
    scan c cs = number (c :: cs) := by
  have hne : ∀ d, Number.isDigit d = false → c ≠ d := fun d hd => ne_of_test hc hd
  have hquote := quote?_eq_none (hne '"' (by decide)) (hne '\'' (by decide)) []
  simp only [scan, hquote, if_neg (hne 'f' (by decide)), hne '_' (by decide), decide_false,
    Bool.false_and, Bool.false_eq_true, if_false, hc, if_true]

theorem number_append {ds more : List Char} (hds : ds.all Number.isDigit = true)
    (hmore : ∀ c ∈ more.head?, Number.isDigit c = false)
    (hpoint : ∀ d rest, more = '.' :: d :: rest → Number.isDigit d = false) :
    number (ds ++ more) = ⟨.int, ds, (Number.readInt? ds).map .int, none, more⟩ := by
  simp only [number, takeWhile_append hds hmore, dropWhile_append hds hmore]
  split
  · rename_i d rest
    rw [hpoint d rest rfl]
    rfl
  · rfl

end Scan

theorem Lexes.digits {ds : List Char} {n : Int64} (hall : ds.all Number.isDigit = true)
    (hread : Number.readInt? ds = some n) {more : List Char}
    (hmore : ∀ c ∈ more.head?, Number.isDigit c = false)
    (hpoint : ∀ d rest, more = '.' :: d :: rest → Number.isDigit d = false) :
    Lexes [⟨.int, String.ofList ds, .start, some (.int n)⟩] ds more := by
  cases ds with
  | nil => cases hread
  | cons c cs =>
    have hc : Number.isDigit c = true := List.all_eq_true.1 hall c List.mem_cons_self
    have hscan : scan c (cs ++ more) = ⟨.int, c :: cs, some (.int n), none, more⟩ := by
      rw [scan_digit hc, ← List.cons_append, number_append hall hmore hpoint, hread]
      rfl
    refine .scanned hscan ?_ (ne_of_test hc (by decide)) fun h => ?_
    · refine Lexer.isInlineBlank_of_ne ?_ ?_ ?_ <;> exact ne_of_test hc (by decide)
    · exact absurd h (ne_of_test hc (by decide))

theorem Lexes.int {n : Int64} (hn : 0 ≤ n.toInt) {more : List Char}
    (hmore : ∀ c ∈ more.head?, Number.isDigit c = false)
    (hpoint : ∀ d rest, more = '.' :: d :: rest → Number.isDigit d = false) :
    Lexes [⟨.int, toString n, .start, some (.int n)⟩] (toString n).toList more := by
  have hall : (toString n).toList.all Number.isDigit = true := by
    rw [Number.toString_toList hn]
    exact Number.all_isDigit_toDigits _
  have hdigits := Lexes.digits hall (Number.readInt?_toString hn) hmore hpoint
  rwa [String.ofList_toList] at hdigits

namespace Scan

theorem quotedChar_cases {c : Char} (h : Text.quotedChar c ≠ Text.codePointEscape c) :
    (Text.quotedChar c = [c] ∧ c ≠ '"' ∧ c ≠ '\\' ∧ c ≠ '\n') ∨
      ∃ e, Text.quotedChar c = ['\\', e] ∧ unescape e = [c] := by
  unfold Text.quotedChar at h ⊢
  split at h
  · exact .inr ⟨'0', rfl, rfl⟩
  · exact .inr ⟨'t', rfl, rfl⟩
  · exact .inr ⟨'r', rfl, rfl⟩
  · exact .inr ⟨'n', rfl, rfl⟩
  · exact .inr ⟨'\\', rfl, rfl⟩
  · exact .inr ⟨'"', rfl, rfl⟩
  · rename_i hnewline hslash hquote
    split at h
    · exact absurd rfl h
    · rename_i hplain
      exact .inl ⟨if_neg hplain, hquote, hslash, hnewline⟩

section Body

variable {multiline : Bool}

theorem stringBody_close (cs : List Char) :
    stringBody '"' false multiline ('"' :: cs) = ⟨['"'], [], true, cs⟩ := by
  rw [stringBody.eq_def]
  rfl

theorem stringBody_escape (e : Char) (cs : List Char) :
    stringBody '"' false multiline ('\\' :: e :: cs) =
      (stringBody '"' false multiline cs).push ['\\', e] (unescape e) := by
  rw [stringBody.eq_def]
  rfl

theorem stringBody_plain {c : Char} (hquote : c ≠ '"') (hslash : c ≠ '\\') (hline : c ≠ '\n')
    (cs : List Char) :
    stringBody '"' false multiline (c :: cs) =
      (stringBody '"' false multiline cs).push [c] [c] := by
  rw [stringBody.eq_def]
  simp [hquote, hslash, hline]

end Body

theorem stringBody_quoted {cs : List Char}
    (h : ∀ c ∈ cs, Text.quotedChar c ≠ Text.codePointEscape c) (more : List Char) :
    stringBody '"' false false (cs.flatMap Text.quotedChar ++ '"' :: more) =
      ⟨cs.flatMap Text.quotedChar ++ ['"'], cs, true, more⟩ := by
  induction cs with
  | nil => exact stringBody_close more
  | cons c cs ih =>
    have ih := ih fun d hd => h d (List.mem_cons_of_mem _ hd)
    rw [List.flatMap_cons, List.append_assoc]
    rcases quotedChar_cases (h c List.mem_cons_self) with ⟨hc, hquote, hslash, hline⟩ | ⟨e, hc, he⟩
    · rw [hc, List.singleton_append, stringBody_plain hquote hslash hline, ih]
      rfl
    · rw [hc, List.cons_append, List.singleton_append, stringBody_escape, ih, he]
      rfl

theorem not_triple {cs : List Char} (h : ∀ c ∈ cs, Text.quotedChar c ≠ Text.codePointEscape c)
    {more : List Char} (hmore : more.head? ≠ some '"') :
    ['"', '"'].isPrefixOf (cs.flatMap Text.quotedChar ++ '"' :: more) = false := by
  cases cs with
  | nil =>
    cases more with
    | nil => rfl
    | cons d more =>
      have hd : '"' ≠ d := fun hd => hmore (hd ▸ rfl)
      simp [List.isPrefixOf, hd]
  | cons c cs =>
    rw [List.flatMap_cons, List.append_assoc]
    rcases quotedChar_cases (h c List.mem_cons_self) with ⟨hc, hquote, _⟩ | ⟨e, hc, _⟩
    · simp [hc, List.isPrefixOf, Ne.symm hquote]
    · rw [hc]
      rfl

end Scan

theorem Lexes.str {s : String} (h : ∀ c ∈ s.toList, Text.quotedChar c ≠ Text.codePointEscape c)
    {more : List Char} (hmore : more.head? ≠ some '"') :
    Lexes [⟨.str, Text.quoted s, .start, some (.str s)⟩] (Text.quoted s).toList more := by
  have hscan : scan '"' (s.toList.flatMap Text.quotedChar ++ ['"'] ++ more) =
      ⟨.str, '"' :: (s.toList.flatMap Text.quotedChar ++ ['"']), some (.str s), none, more⟩ := by
    rw [List.append_assoc, List.singleton_append]
    show Scan.string .str ['"'] '"' _ = _
    unfold Scan.string
    rw [not_triple h hmore]
    show (stringBody '"' false false _).toScan _ _ = _
    rw [stringBody_quoted h]
    simp [Body.toScan]
  unfold Text.quoted
  rw [String.toList_ofList]
  exact .scanned hscan (by decide) (by decide) fun h => absurd h (by decide)

namespace Scan

theorem scan_symbol {s : Symbol} (hs : s ≠ .underscore) {c : Char} {cs more : List Char}
    (htext : s.text.toList = c :: cs) (hmore : symbol? (c :: (cs ++ more)) = some s) :
    scan c (cs ++ more) = ⟨.symbol s, c :: cs, none, none, more⟩ := by
  have hfirst : quote? [c] = none ∧ c ≠ 'f' ∧ c ≠ '_' ∧ Number.isDigit c = false ∧
      isWordStart c = false := by
    clear hmore
    revert hs htext
    cases s <;> intro hs htext <;> cases htext <;> first | contradiction | decide
  obtain ⟨hquote, hf, hunder, hdigit, hstart⟩ := hfirst
  have hlength : s.text.length = (c :: cs).length := by
    rw [← htext]
    exact String.length_toList.symm
  have hdrop : (c :: (cs ++ more)).drop s.text.length = more := by
    rw [hlength, ← List.cons_append]
    exact List.drop_left
  simp only [scan, hquote, if_neg hf, hunder, decide_false, Bool.false_and, Bool.false_eq_true,
    if_false, hdigit, hstart, hmore, htext, hdrop]

end Scan

/-- Symbols that no longer one starts with. -/
def Symbol.isMark : Symbol → Bool
  | .comma | .colon | .dot | .leftParen | .rightParen | .leftBrace | .rightBrace | .leftBracket
  | .rightBracket => true
  | _ => false

theorem Scan.symbol?_mark {s : Symbol} (hs : s.isMark = true) (more : List Char) :
    symbol? (s.text.toList ++ more) = some s := by
  revert hs
  cases s <;> intro hs <;> first | rfl | cases hs

namespace Lexes

theorem found {s : Symbol} (hs : s ≠ .underscore) {more : List Char}
    (hsymbol : symbol? (s.text.toList ++ more) = some s) (hslash : s = .slash → Detached more) :
    Lexes [.ofSymbol s] s.text.toList more := by
  have hof : Token.ofSymbol s = ⟨.symbol s, String.ofList s.text.toList, .start, none⟩ := by
    rw [String.ofList_toList]
    rfl
  rw [hof]
  obtain ⟨c, cs, hcons⟩ : ∃ c cs, s.text.toList = c :: cs := by
    rcases symbol_chars s with ⟨a, h⟩ | ⟨a, b, h⟩
    · exact ⟨a, [], h⟩
    · exact ⟨a, [b], h⟩
  have hfirst : Lexer.isInlineBlank c = false ∧ c ≠ '\n' ∧
      (c = '/' → s = .slash ∧ cs = [] ∨ cs = ['=']) := by
    clear hsymbol hof hslash
    revert hcons
    cases s <;> intro hcons <;> cases hcons <;> decide
  rw [hcons] at hsymbol ⊢
  refine .scanned (scan_symbol hs hcons hsymbol) hfirst.1 hfirst.2.1 fun hc d hd => ?_
  rcases hfirst.2.2 hc with ⟨rfl, rfl⟩ | rfl
  · have hd := hslash rfl d hd
    simp only [List.mem_cons, not_or] at hd
    exact ⟨hd.2.2.2.1, hd.2.2.1⟩
  · cases hd
    decide

theorem symbol {s : Symbol} (hs : s ≠ .underscore) {more : List Char} (hmore : Detached more) :
    Lexes [.ofSymbol s] s.text.toList more :=
  found hs (symbol?_append hs hmore) fun _ => hmore

theorem mark {s : Symbol} (hs : s.isMark = true) (more : List Char) :
    Lexes [.ofSymbol s] s.text.toList more := by
  refine found ?_ (symbol?_mark hs more) ?_
  · rintro rfl
    cases hs
  · rintro rfl
    cases hs

end Lexes

/-! Whole texts -/

namespace Lexer

theorem run_finish {s : Lexer} (hf : s.fresh = false) (hr : s.rest = []) : s.run = s.finish := by
  refine run_of_end ?_
  have hskip : s.skipBlanks = s := by
    obtain ⟨rest, pos, indents, nesting, fresh, hasTokens⟩ := s
    cases hr
    rfl
  unfold step
  rw [hf, hskip]
  simp only [Bool.false_and, Bool.false_eq_true, if_false, hr]

theorem run_start {c : Char} {cs : List Char} (hb : isInlineBlank c = false) (hn : c ≠ '\n')
    (hc : c ≠ '/') : (start (c :: cs)).run = Lexer.run { start (c :: cs) with fresh := false } := by
  have hskip : skipBlanks { start (c :: cs) with fresh := false } =
      { start (c :: cs) with fresh := false } := skipBlanks_eq rfl hb
  have htake : (c :: cs).takeWhile isInlineBlank = [] := by
    rw [List.takeWhile_cons, hb, if_neg Bool.false_ne_true]
  have hline : blankLine (c :: cs) = false := by
    unfold blankLine
    split
    · contradiction
    · rename_i heq
      cases heq
      exact absurd rfl hn
    · rename_i heq
      cases heq
      exact absurd rfl hc
    · rfl
  have hlayout : (start (c :: cs)).layout = ([], { start (c :: cs) with fresh := false }) := by
    unfold layout
    simp only [hskip]
    simp only [start, htake, hline, Bool.false_eq_true, if_false]
    split
    · rename_i heq
      cases heq
      exact absurd rfl hc
    · rfl
  have hstep : (start (c :: cs)).step = ([], some { start (c :: cs) with fresh := false }) := by
    unfold step
    rw [hlayout]
    rfl
  exact run_of_step hstep

end Lexer

def Token.lineEnd : Token := ⟨.newline, "\\n", .start, none⟩

def Token.eof : Token := ⟨.eof, "", .start, none⟩

theorem lex_line {tokens : List Token} {source : String} {c : Char} {cs : List Char}
    (htext : source.toList = c :: cs) (hb : Lexer.isInlineBlank c = false) (hn : c ≠ '\n')
    (hc : c ≠ '/') (hne : tokens ≠ []) (h : Lexes tokens (c :: cs) []) :
    (tokensOf source).map Token.bare = tokens ++ [Token.lineEnd, .eof] ∧
      lexErrorsOf source = [] := by
  have hrun : lex source = Lexer.run { Lexer.start (c :: cs) with fresh := false } := by
    rw [lex, htext, Lexer.run_start hb hn hc]
  obtain ⟨found, s, hfound, htokens, herrors, hf, hr, hindents, hhas⟩ :=
    h.run { Lexer.start (c :: cs) with fresh := false } rfl (List.append_nil _).symm
  have hfinish : s.finish = [Lexer.lineEnd s.pos, Lexer.mark .eof s.pos] := by
    rw [Lexer.finish, hhas (.inr hne), hindents]
    rfl
  have hlex : lex source = found ++ [Lexer.lineEnd s.pos, Lexer.mark .eof s.pos] := by
    rw [hrun, hfound, Lexer.run_finish hf hr, hfinish]
  constructor
  · rw [tokensOf, hlex, List.map_map, List.map_append]
    exact congrArg (· ++ _) htokens
  · rw [lexErrorsOf, hlex, List.filterMap_append]
    rw [List.filterMap_eq_nil_iff.2 herrors]
    rfl

end Spellbook
