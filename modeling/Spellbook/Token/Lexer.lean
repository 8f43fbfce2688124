import Spellbook.Token.Scan

/-! From text to tokens. Block structure comes from leading blanks: a deeper line opens an INDENT,
a shallower one closes a DEDENT for each level it leaves, and the levels still open at the end
are closed before EOF. Inside brackets line ends and indentation mean nothing. -/
namespace Spellbook

structure LexError where
  flaw : Flaw
  pos : Pos
deriving DecidableEq, Repr

/-- The complaint with its place. A comment that never ends is placed by its line alone. -/
def LexError.message (e : LexError) : String :=
  match e.flaw with
  | .openComment => "[line " ++ toString e.pos.line ++ "] " ++ e.flaw.reason
  | _ => "[line " ++ toString e.pos.line ++ ":" ++ toString e.pos.col ++ "] " ++ e.flaw.reason

/-- A token as it leaves the lexer, with the error it stands for if it is illegal. -/
structure Lexed where
  token : Token
  error : Option LexError
deriving DecidableEq, Repr

structure Lexer where
  rest : List Char
  pos : Pos
  /-- Widths of the open blocks, the innermost first. The last one is the 0 of the whole text. -/
  indents : List Nat
  /-- How many brackets are open. -/
  nesting : Nat
  /-- A line starts here and its indentation has not been looked at. -/
  fresh : Bool
  /-- The line has had a token. -/
  hasTokens : Bool

namespace Lexer

def start (cs : List Char) : Lexer := ⟨cs, .start, [0], 0, true, false⟩

/-- How far a blank indents, for the characters that may indent a line. -/
def indentWidth? : Char → Option Nat
  | ' ' => some 1
  | '\t' => some 4
  | '\r' => some 0
  | _ => none

def isInlineBlank (c : Char) : Bool := (indentWidth? c).isSome

def widthOf : List Char → Nat
  | [] => 0
  | c :: rest => (indentWidth? c).getD 0 + widthOf rest

/-- Whether nothing but a line comment comes before the end of the line. -/
def blankLine : List Char → Bool
  | [] => true
  | '\n' :: _ => true
  | '/' :: '/' :: _ => true
  | _ => false

def skip (s : Lexer) (taken rest : List Char) : Lexer :=
  { s with rest := rest, pos := s.pos.advance taken }

def skipBlanks (s : Lexer) : Lexer :=
  s.skip (s.rest.takeWhile isInlineBlank) (s.rest.dropWhile isInlineBlank)

/-- The characters of a block comment behind its opening, and what follows it if it ends. -/
def commentBody : List Char → List Char × Option (List Char)
  | [] => ([], none)
  | '*' :: '/' :: cs => (['*', '/'], some cs)
  | c :: cs =>
    let (text, rest) := commentBody cs
    (c :: text, rest)

def openComment (s : Lexer) (text : List Char) : Lexed :=
  ⟨⟨.illegal, String.ofList text, s.pos, some (.str Flaw.openComment.reason)⟩,
    some ⟨.openComment, s.pos.line, 1⟩⟩

def mark (kind : Kind) (pos : Pos) : Lexed := ⟨⟨kind, "", pos, none⟩, none⟩

def lineEnd (pos : Pos) : Lexed := ⟨⟨.newline, "\\n", pos, none⟩, none⟩

def unevenDedent (pos : Pos) : Lexed :=
  ⟨⟨.illegal, "", pos, some (.str Flaw.unevenDedent.reason)⟩, some ⟨.unevenDedent, pos⟩⟩

/-- Compares the width of a line with the open blocks. A width between two of them is an error,
and counts as a block from then on. -/
def applyIndent (s : Lexer) (width : Nat) : List Lexed × Lexer :=
  let pos : Pos := ⟨s.pos.line, width + 1⟩
  if s.indents.headD 0 < width then
    ([mark .indent pos], { s with indents := width :: s.indents })
  else
    let kept := s.indents.dropWhile (width < ·)
    let closed := List.replicate (s.indents.length - kept.length) (mark .dedent pos)
    if kept.headD 0 = width then (closed, { s with indents := kept })
    else (closed ++ [unevenDedent pos], { s with indents := width :: kept })

/-- Looks at the indentation of a line. Lines without tokens do not count, also when they hold a
block comment, and a block comment before the first token leaves the width as it is. -/
def layout (s : Lexer) : List Lexed × Lexer :=
  let s := { s with fresh := false }
  let blanks := s.rest.takeWhile isInlineBlank
  let width := widthOf blanks
  let inside := s.skipBlanks
  if blankLine inside.rest then ([], s)
  else
    match inside.rest with
    | '/' :: '*' :: cs =>
      match commentBody cs with
      | (text, none) =>
        let text := '/' :: '*' :: text
        ([inside.openComment text], inside.skip text [])
      | (text, some rest) =>
        let behind := inside.skip ('/' :: '*' :: text) rest
        if blankLine behind.skipBlanks.rest then ([], behind) else behind.applyIndent width
    | _ => inside.applyIndent width

/-- The tokens behind the last one: the end of its line, the blocks still open, and EOF. -/
def finish (s : Lexer) : List Lexed :=
  (if s.hasTokens then [lineEnd s.pos] else []) ++
    List.replicate (s.indents.length - 1) (mark .dedent s.pos) ++ [mark .eof s.pos]

def nestingAfter (nesting : Nat) : Kind → Nat
  | .symbol .leftParen | .symbol .leftBracket | .symbol .leftBrace => nesting + 1
  | .symbol .rightParen | .symbol .rightBracket | .symbol .rightBrace => nesting - 1
  | _ => nesting

def place (s : Lexer) (t : Scan) : Lexed :=
  ⟨⟨t.kind, String.ofList t.text, s.pos, t.literal⟩, t.flaw.map fun f => ⟨f, s.pos⟩⟩

/-- One step: the tokens found, and the lexer behind them unless the text is at its end. -/
def step (s : Lexer) : List Lexed × Option Lexer :=
  if s.fresh && s.nesting == 0 then
    let (found, next) := s.layout
    (found, some next)
  else
    let s := s.skipBlanks
    match s.rest with
    | [] => (s.finish, none)
    | '\n' :: cs =>
      let next := s.skip ['\n'] cs
      if s.nesting > 0 then ([], some next)
      else
        (if s.hasTokens then [lineEnd s.pos] else [],
          some { next with fresh := true, hasTokens := false })
    | '/' :: '/' :: cs =>
      let text := cs.takeWhile (· != '\n')
      ([], some (s.skip ('/' :: '/' :: text) (cs.dropWhile (· != '\n'))))
    | '/' :: '*' :: cs =>
      match commentBody cs with
      | (text, none) =>
        let text := '/' :: '*' :: text
        ([s.openComment text], some (s.skip text []))
      | (text, some rest) => ([], some (s.skip ('/' :: '*' :: text) rest))
    | c :: cs =>
      let t := scan c cs
      let next := s.skip t.text t.rest
      ([s.place t],
        some { next with nesting := nestingAfter s.nesting t.kind, hasTokens := true })

theorem length_skipBlanks (s : Lexer) : s.skipBlanks.rest.length ≤ s.rest.length :=
  Scan.length_dropWhile_le _ _

theorem length_commentBody {cs text rest : List Char} (h : commentBody cs = (text, some rest)) :
    rest.length < cs.length := by
  fun_induction commentBody cs generalizing text rest <;> grind

@[simp]
theorem applyIndent_rest (s : Lexer) (width : Nat) : (s.applyIndent width).2.rest = s.rest := by
  unfold applyIndent
  grind

@[simp]
theorem applyIndent_fresh (s : Lexer) (width : Nat) : (s.applyIndent width).2.fresh = s.fresh := by
  unfold applyIndent
  grind

theorem layout_fresh (s : Lexer) : s.layout.2.fresh = false := by
  unfold layout
  dsimp only
  split
  · rfl
  · split
    · split
      · rfl
      · split
        · rfl
        · rw [applyIndent_fresh]; rfl
    · rw [applyIndent_fresh]; rfl

theorem length_layout_rest (s : Lexer) : s.layout.2.rest.length ≤ s.rest.length := by
  have hs := length_skipBlanks { s with fresh := false }
  dsimp only at hs
  unfold layout
  dsimp only
  split
  · exact Nat.le_refl _
  · split
    · rename_i cs hcs
      have hlen := congrArg List.length hcs
      simp only [List.length_cons] at hlen
      split
      · simp [skip]
      · rename_i text rest hc
        have := length_commentBody hc
        split
        · simp only [skip]; omega
        · rw [applyIndent_rest]; simp only [skip]; omega
    · rw [applyIndent_rest]; exact hs

/-- What a step makes smaller: the characters to come, then the pending look at a line start. -/
def measure (s : Lexer) : Nat := 2 * s.rest.length + s.fresh.toNat

theorem measure_step {s next : Lexer} {found : List Lexed} (h : s.step = (found, some next)) :
    next.measure < s.measure := by
  unfold step at h
  split at h
  · rename_i hf
    have hfresh : s.fresh = true := by simp_all
    have h1 := layout_fresh s
    have h2 := length_layout_rest s
    simp only [Prod.mk.injEq, Option.some.injEq] at h
    rw [← h.2]
    simp only [measure, h1, hfresh, Bool.toNat_false, Bool.toNat_true]
    omega
  · have hs := length_skipBlanks s
    have hb : ∀ b : Bool, b.toNat ≤ 1 := by decide
    have h1 := hb next.fresh
    dsimp only at h
    split at h
    · simp at h
    · rename_i cs hcs
      have := congrArg List.length hcs
      simp only [List.length_cons] at this
      split at h <;>
      · simp only [Prod.mk.injEq, Option.some.injEq] at h
        rw [← h.2] at h1 ⊢
        simp only [measure, skip] at *
        omega
    · rename_i cs hcs
      have := congrArg List.length hcs
      have := Scan.length_dropWhile_le (· != '\n') cs
      simp only [List.length_cons] at *
      simp only [Prod.mk.injEq, Option.some.injEq] at h
      rw [← h.2] at h1 ⊢
      simp only [measure, skip] at *
      omega
    · rename_i cs hcs
      have := congrArg List.length hcs
      simp only [List.length_cons] at this
      split at h
      · simp only [Prod.mk.injEq, Option.some.injEq] at h
        rw [← h.2] at h1 ⊢
        simp only [measure, skip, List.length_nil] at *
        omega
      · rename_i text rest hc
        have := length_commentBody hc
        simp only [Prod.mk.injEq, Option.some.injEq] at h
        rw [← h.2] at h1 ⊢
        simp only [measure, skip] at *
        omega
    · rename_i c cs _ _ _ hcs
      have := congrArg List.length hcs
      have := length_scan_rest c cs
      simp only [List.length_cons] at *
      simp only [Prod.mk.injEq, Option.some.injEq] at h
      rw [← h.2] at h1 ⊢
      simp only [measure, skip] at *
      omega

def run (s : Lexer) : List Lexed :=
  match _h : s.step with
  | (found, none) => found
  | (found, some next) => found ++ next.run
termination_by s.measure
decreasing_by exact measure_step _h

end Lexer

def lex (source : String) : List Lexed := (Lexer.start source.toList).run

def tokensOf (source : String) : List Token := (lex source).map (·.token)

def lexErrorsOf (source : String) : List LexError := (lex source).filterMap (·.error)

end Spellbook
