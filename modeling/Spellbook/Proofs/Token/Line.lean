import Spellbook.Proofs.Token.Blocks
import Spellbook.Proofs.Token.Lexes

/-! One line of a text. What is scanned without a flaw at the end of a text is scanned alike at the
end of a line, so a line has the same tokens wherever it stands. -/
namespace Spellbook

/-- A character that is in no token but strings and comments, so every other token ends before it. -/
structure EndsToken (c : Char) : Prop where
  digit : Number.isDigit c = false
  word : Scan.isWordChar c = false
  double : c ≠ '"'
  single : c ≠ '\''
  symbol : ∀ s : Symbol, c ∉ s.text.toList

/-- Nothing follows, or a character before which tokens end. -/
def Parted (tail : List Char) : Prop := ∀ c ∈ tail.head?, EndsToken c

/-- Nothing follows, or a new line does. -/
def EndsLine (tail : List Char) : Prop := ∀ c ∈ tail.head?, c = '\n'

theorem endsToken_newline : EndsToken '\n' where
  digit := by decide
  word := by decide
  double := by decide
  single := by decide
  symbol s := by cases s <;> decide

namespace EndsLine

variable {tail : List Char} {p : Char → Bool}

theorem head (h : EndsLine tail) (hp : p '\n' = false) : ∀ c ∈ tail.head?, p c = false := by
  intro c hc
  rw [h c hc, hp]

theorem parted (h : EndsLine tail) : Parted tail := fun c hc => h c hc ▸ endsToken_newline

end EndsLine

section Lists

variable {tail : List Char} {p : Char → Bool}

theorem takeWhile_parted (h : ∀ c ∈ tail.head?, p c = false) (cs : List Char) :
    (cs ++ tail).takeWhile p = cs.takeWhile p := by
  induction cs with
  | nil =>
    cases tail with
    | nil => rfl
    | cons c tail => simp [h c rfl]
  | cons c cs ih => simp [List.takeWhile_cons, ih]

theorem dropWhile_parted (h : ∀ c ∈ tail.head?, p c = false) (cs : List Char) :
    (cs ++ tail).dropWhile p = cs.dropWhile p ++ tail := by
  induction cs with
  | nil =>
    cases tail with
    | nil => rfl
    | cons c tail => simp [h c rfl]
  | cons c cs ih =>
    by_cases hc : p c
    · simp [hc, ih]
    · simp [hc]

theorem isPrefixOf_parted {text : List Char} (h : ∀ c ∈ tail.head?, c ∉ text) (cs : List Char) :
    text.isPrefixOf (cs ++ tail) = text.isPrefixOf cs := by
  induction text generalizing cs with
  | nil => simp
  | cons a text ih =>
    cases cs with
    | nil =>
      cases tail with
      | nil => rfl
      | cons c tail =>
        have hne : a ≠ c := fun ha => h c rfl (by simp [ha])
        simp [List.isPrefixOf, hne]
    | cons c cs =>
      have hrest := ih (fun d hd hmem => h d hd (List.mem_cons_of_mem a hmem)) cs
      simp [List.isPrefixOf, hrest]

end Lists

open Scan

namespace Scan

variable {tail : List Char}

def before (t : Scan) (tail : List Char) : Scan := { t with rest := t.rest ++ tail }

theorem quote?_ne_parted (h : Parted tail) {cs : List Char} {q : Char} (hq : quote? cs = some q) :
    ∀ c ∈ tail.head?, c ≠ q := by
  intro c hc
  unfold quote? at hq
  split at hq
  · cases hq
    exact (h c hc).double
  · cases hq
    exact (h c hc).single
  · cases hq

theorem quote?_parted (h : Parted tail) (cs : List Char) : quote? (cs ++ tail) = quote? cs := by
  cases cs with
  | nil =>
    cases tail with
    | nil => rfl
    | cons c tail => exact quote?_eq_none (h c rfl).double (h c rfl).single tail
  | cons c cs => by_cases hd : c = '"' <;> by_cases hs : c = '\'' <;> simp [quote?, hd, hs]

theorem continuesWord_parted (h : Parted tail) (cs : List Char) :
    continuesWord (cs ++ tail) = continuesWord cs := by
  cases cs with
  | nil =>
    cases tail with
    | nil => rfl
    | cons c tail => simp [continuesWord, (h c rfl).word]
  | cons c cs => rfl

theorem toScan_before {b : Body} (hb : b.closed = true) (kind : Kind) (opening : List Char) :
    ({ b with rest := b.rest ++ tail } : Body).toScan kind opening =
      (b.toScan kind opening).before tail := by
  simp [Body.toScan, before, hb]

theorem toScan_closed {b : Body} {kind : Kind} {opening : List Char}
    (h : (b.toScan kind opening).flaw = none) : b.closed = true := by
  cases hb : b.closed with
  | true => rfl
  | false => simp [Body.toScan, hb] at h

section Quoted

variable {q : Char} (hq : ∀ c ∈ tail.head?, c ≠ q)

include hq

theorem quotes_parted (cs : List Char) : [q, q].isPrefixOf (cs ++ tail) = [q, q].isPrefixOf cs :=
  isPrefixOf_parted (fun c hc => by simp [hq c hc]) cs

theorem stringBody_parted (triple multiline : Bool) (cs : List Char)
    (hclosed : (stringBody q triple multiline cs).closed = true) :
    stringBody q triple multiline (cs ++ tail) =
      { stringBody q triple multiline cs with
        rest := (stringBody q triple multiline cs).rest ++ tail } := by
  have hprefix := quotes_parted hq
  fun_induction stringBody q triple multiline cs with
  | case1 => simp at hclosed
  | case2 c cs hc =>
    rw [List.cons_append, stringBody.eq_def]
    simp only [if_pos hc]
  | case3 c cs hc hp =>
    have hp' := hp
    simp only [Bool.and_eq_true] at hp'
    have hdrop : (cs ++ tail).drop 2 = cs.drop 2 ++ tail :=
      List.drop_append_of_le_length (List.isPrefixOf_iff_prefix.1 hp'.2).length_le
    rw [List.cons_append, stringBody.eq_def]
    simp only [if_neg hc, hprefix, if_pos hp, hdrop]
  | case4 c cs hc hp hline => simp at hclosed
  | case5 hc hline hp => simp at hclosed
  | case6 e cs hc hline hp ih =>
    have hcs := hprefix (e :: cs)
    rw [List.cons_append] at hcs
    rw [List.cons_append, List.cons_append, stringBody.eq_def]
    simp only [if_neg hc, hcs, if_neg hp, if_neg hline, if_true, ih hclosed, Body.push]
  | case7 c cs hc hp hline hescape ih =>
    rw [List.cons_append, stringBody.eq_def]
    simp only [if_neg hc, hprefix, if_neg hp, if_neg hline, if_neg hescape, ih hclosed, Body.push]

theorem string_parted (kind : Kind) (opening cs : List Char)
    (hf : (Scan.string kind opening q cs).flaw = none) :
    Scan.string kind opening q (cs ++ tail) = (Scan.string kind opening q cs).before tail := by
  have hprefix := quotes_parted hq cs
  by_cases hp : [q, q].isPrefixOf cs
  · have hdrop : (cs ++ tail).drop 2 = cs.drop 2 ++ tail :=
      List.drop_append_of_le_length (List.isPrefixOf_iff_prefix.1 hp).length_le
    simp only [Scan.string, hp, if_true] at hf
    simp only [Scan.string, hprefix, hp, if_true, hdrop,
      stringBody_parted hq _ _ _ (toScan_closed hf), toScan_before (toScan_closed hf)]
  · simp only [Scan.string, hp, if_false, Bool.false_eq_true] at hf
    simp only [Scan.string, hprefix, hp, if_false, Bool.false_eq_true,
      stringBody_parted hq _ _ _ (toScan_closed hf), toScan_before (toScan_closed hf)]

end Quoted

theorem number_parted (h : Parted tail) (cs : List Char) :
    number (cs ++ tail) = (number cs).before tail := by
  have hdigit : ∀ c ∈ tail.head?, Number.isDigit c = false := fun c hc => (h c hc).digit
  have htake := takeWhile_parted hdigit
  have hdrop := dropWhile_parted hdigit
  simp only [number, htake cs, hdrop cs]
  cases cs.dropWhile Number.isDigit with
  | nil =>
    cases tail with
    | nil => rfl
    | cons c tail =>
      have hpoint : c ≠ '.' := fun hc => (h c rfl).symbol .dot (by simp [hc, Symbol.text])
      simp [hpoint, before]
  | cons a rest =>
    cases rest with
    | nil =>
      cases tail with
      | nil => by_cases ha : a = '.' <;> simp [ha, before]
      | cons c tail => by_cases ha : a = '.' <;> simp [ha, before, hdigit c rfl]
    | cons d more =>
      have htake' := htake (d :: more)
      have hdrop' := hdrop (d :: more)
      rw [List.cons_append] at htake' hdrop'
      by_cases ha : a = '.'
      · by_cases hd : Number.isDigit d
        · simp only [List.cons_append, ha, hd, if_true, htake', hdrop', before]
        · simp only [List.cons_append, ha, hd, Bool.false_eq_true, if_false, before]
      · simp [ha, before]

theorem word_parted (h : Parted tail) (cs : List Char) :
    word (cs ++ tail) = (word cs).before tail := by
  have hword : ∀ c ∈ tail.head?, isWordChar c = false := fun c hc => (h c hc).word
  simp only [word, takeWhile_parted hword, dropWhile_parted hword]
  split <;> simp [before]

theorem symbol?_parted (h : Parted tail) (cs : List Char) :
    symbol? (cs ++ tail) = symbol? cs := by
  simp only [symbol?, fun s : Symbol => isPrefixOf_parted (fun c hc => (h c hc).symbol s) cs]

end Scan

theorem scan_parted {tail : List Char} (h : Parted tail) (c : Char) (cs : List Char)
    (hf : (scan c cs).flaw = none) : scan c (cs ++ tail) = (scan c cs).before tail := by
  have htemplate : (if c = 'f' then quote? (cs ++ tail) else none) =
      if c = 'f' then quote? cs else none := by rw [quote?_parted h]
  have hsymbol := symbol?_parted h (c :: cs)
  rw [List.cons_append] at hsymbol
  simp only [scan, htemplate, continuesWord_parted h, hsymbol] at hf ⊢
  cases hq : quote? [c] with
  | some q =>
    rw [hq] at hf
    exact string_parted (quote?_ne_parted h hq) _ _ cs hf
  | none =>
    cases hq' : (if c = 'f' then quote? cs else none) with
    | some q =>
      obtain ⟨rfl, hquote⟩ : c = 'f' ∧ quote? cs = some q := by simpa using hq'
      have hdrop : (cs ++ tail).drop 1 = cs.drop 1 ++ tail := by
        cases cs with
        | nil => simp [quote?] at hquote
        | cons d cs => rfl
      rw [hq, hq'] at hf
      simp only [hdrop, string_parted (quote?_ne_parted h hquote) _ _ _ hf]
    | none =>
      -- No string starts here, so the first character decides on the kind of token.
      dsimp only
      split
      · rfl
      · split
        · exact number_parted h (c :: cs)
        · split
          · exact word_parted h (c :: cs)
          · cases hs : symbol? (c :: cs) with
            | none => rfl
            | some s =>
              have hle : s.text.length ≤ (c :: cs).length := by
                have hp := List.find?_some hs
                rw [← String.length_toList]
                exact (List.isPrefixOf_iff_prefix.1 hp).length_le
              simp only [before, ← List.cons_append, List.drop_append_of_le_length hle]

/-- Nothing but blanks stands between the tokens of a text of one line. -/
inductive CommentFree : List Char → Prop where
  | nil : CommentFree []
  | blank {c : Char} {cs : List Char} : Lexer.isInlineBlank c = true → CommentFree cs →
    CommentFree (c :: cs)
  | token {c : Char} {cs : List Char} : Lexer.isInlineBlank c = false → c ≠ '\n' →
    opensComment (c :: cs) = false → CommentFree (scan c cs).rest → CommentFree (c :: cs)

instance CommentFree.decidable : (text : List Char) → Decidable (CommentFree text)
  | [] => .isTrue .nil
  | c :: cs =>
    have hless : (scan c cs).rest.length < cs.length + 1 :=
      Nat.lt_succ_of_le (length_scan_rest c cs)
    have := decidable cs
    have := decidable (scan c cs).rest
    decidable_of_iff
      (Lexer.isInlineBlank c = true ∧ CommentFree cs ∨
        Lexer.isInlineBlank c = false ∧ c ≠ '\n' ∧ opensComment (c :: cs) = false ∧
          CommentFree (scan c cs).rest) (by
      constructor
      · rintro (⟨hc, h⟩ | ⟨hc, hn, hcomment, h⟩)
        · exact .blank hc h
        · exact .token hc hn hcomment h
      · intro h
        cases h with
        | blank hc h => exact .inl ⟨hc, h⟩
        | token hc hn hcomment h => exact .inr ⟨hc, hn, hcomment, h⟩)
termination_by text => text.length

def Lexed.bare (l : Lexed) : Lexed := ⟨l.token.bare, l.error.map fun e => ⟨e.flaw, .start⟩⟩

def Scan.bare (t : Scan) : Lexed := ⟨t.token .start, t.flaw.map fun f => ⟨f, .start⟩⟩

namespace Lexer

theorem bare_place (s : Lexer) (t : Scan) : (s.place t).bare = t.bare := by
  cases hf : t.flaw <;> simp [place, Lexed.bare, Token.bare, Scan.bare, Scan.token, hf]

theorem run_blank {s : Lexer} {c : Char} {cs : List Char} (hf : s.fresh = false)
    (hr : s.rest = c :: cs) (hc : isInlineBlank c = true) : s.run = (s.skip [c] cs).run := by
  have hskip : s.skipBlanks = (s.skip [c] cs).skipBlanks := by
    simp [skipBlanks, skip, hr, hc, Pos.advance]
  have hf' : (s.skip [c] cs).fresh = false := hf
  refine run_congr ?_
  simp only [step, hf, hf', hskip, Bool.false_and, Bool.false_eq_true, if_false]

/-- The lexer finds these tokens, and stands before `tail` then. -/
structure Passes (s : Lexer) (ts : List Scan) (tail : List Char) (found : List Lexed)
    (s' : Lexer) : Prop where
  run : s.run = found ++ s'.run
  found : found.map Lexed.bare = ts.map Scan.bare
  fresh : s'.fresh = false
  rest : s'.rest = tail
  indents : s'.indents = s.indents
  nesting : s'.nesting = (ts.map (·.kind)).foldl nestingAfter s.nesting
  hasTokens : s'.hasTokens = (s.hasTokens || !ts.isEmpty)

theorem run_scan {s : Lexer} {c : Char} {cs tail : List Char} (hf : s.fresh = false)
    (hr : s.rest = c :: cs ++ tail) (hb : isInlineBlank c = false) (hn : c ≠ '\n')
    (hcomment : opensComment (c :: cs) = false) (hend : EndsLine tail)
    (hflaw : (scan c cs).flaw = none ∨ tail = []) :
    ∃ s' : Lexer, s.run = s.place (scan c cs) :: s'.run ∧ s'.fresh = false ∧
      s'.rest = (scan c cs).rest ++ tail ∧ s'.indents = s.indents ∧
      s'.nesting = nestingAfter s.nesting (scan c cs).kind ∧ s'.hasTokens = true := by
  have hscan : scan c (cs ++ tail) = (scan c cs).before tail := by
    obtain hflaw | rfl := hflaw
    · exact scan_parted hend.parted c cs hflaw
    · simp [before]
  have hcomment' : c = '/' → ∀ d ∈ (cs ++ tail).head?, d ≠ '/' ∧ d ≠ '*' := by
    rintro rfl d hd
    cases cs with
    | nil =>
      rw [hend d hd]
      decide
    | cons e cs =>
      obtain rfl : e = d := by simpa using hd
      constructor <;> rintro rfl <;> simp [opensComment] at hcomment
  have hstep := step_scan hf (hr.trans List.cons_append) hb hn hcomment'
  rw [hscan] at hstep
  exact ⟨_, run_of_step hstep, hf, rfl, rfl, rfl, rfl⟩

end Lexer

/-- A line of tokens and blanks is gone over in the same way alone and in front of further lines,
unless it has a flaw. -/
theorem CommentFree.passes {text : List Char} (h : CommentFree text) :
    ∃ ts : List Scan, (∀ c ∈ text.head?, Lexer.isInlineBlank c = false → ts ≠ []) ∧
      ∀ tail, EndsLine tail → (∀ t ∈ ts, t.flaw = none) ∨ tail = [] →
        ∀ s : Lexer, s.fresh = false → s.rest = text ++ tail →
          ∃ found s', s.Passes ts tail found s' := by
  induction h with
  | nil =>
    refine ⟨[], by simp, fun tail _ _ s hf hr => ?_⟩
    exact ⟨[], s, rfl, rfl, hf, hr, rfl, rfl, by simp⟩
  | @blank c cs hc _ ih =>
    obtain ⟨ts, -, ih⟩ := ih
    refine ⟨ts, by simp [hc], fun tail hend hflaw s hf hr => ?_⟩
    have hrun := Lexer.run_blank hf hr hc
    obtain ⟨found, s', hs'⟩ := ih tail hend hflaw (s.skip [c] (cs ++ tail)) hf rfl
    exact ⟨found, s', hrun.trans hs'.run, hs'.found, hs'.fresh, hs'.rest, hs'.indents, hs'.nesting,
      hs'.hasTokens⟩
  | @token c cs hc hn hcomment _ ih =>
    obtain ⟨ts, -, ih⟩ := ih
    refine ⟨scan c cs :: ts, by simp, fun tail hend hflaw s hf hr => ?_⟩
    have hfirst : (scan c cs).flaw = none ∨ tail = [] :=
      hflaw.imp_left fun hall => hall _ List.mem_cons_self
    have hmore : (∀ t ∈ ts, t.flaw = none) ∨ tail = [] :=
      hflaw.imp_left fun hall t ht => hall t (List.mem_cons_of_mem _ ht)
    obtain ⟨s₁, hrun, hf₁, hr₁, hi₁, hn₁, ht₁⟩ := Lexer.run_scan hf hr hc hn hcomment hend hfirst
    obtain ⟨found, s', hs'⟩ := ih tail hend hmore s₁ hf₁ hr₁
    refine ⟨s.place (scan c cs) :: found, s', ?_, ?_, hs'.fresh, hs'.rest, ?_, ?_, ?_⟩
    · rw [hrun, hs'.run, List.cons_append]
    · simp [hs'.found, Lexer.bare_place]
    · rw [hs'.indents, hi₁]
    · simp [hs'.nesting, hn₁]
    · simp [hs'.hasTokens, ht₁]

theorem CommentFree.head {c : Char} {cs tail : List Char} (h : CommentFree (c :: cs))
    (hc : Lexer.isInlineBlank c = false) (hend : EndsLine tail) :
    c ≠ '\n' ∧ opensComment (c :: (cs ++ tail)) = false := by
  cases h with
  | blank hblank _ => simp [hc] at hblank
  | token _ hn hcomment _ =>
    refine ⟨hn, ?_⟩
    cases cs with
    | nil =>
      cases tail with
      | nil => exact hcomment
      | cons d tail =>
        obtain rfl : d = '\n' := hend d rfl
        simp [opensComment]
    | cons d cs =>
      by_cases hslash : c = '/' <;> by_cases hd : d = '/' <;> by_cases hs : d = '*' <;>
        simp_all [opensComment]

end Spellbook
