import Spellbook.Text.Alphabetic
import Spellbook.Text.Numeric
import Spellbook.Number.Reader
import Spellbook.Token

/-! Taking one token off the front of a text. The characters taken and the rest always make up
the text again, and at least one character is taken. -/
namespace Spellbook

inductive Flaw where
  | unexpectedChar (c : Char)
  | openString
  | openComment
  | unevenDedent
deriving DecidableEq, Repr

def Flaw.reason : Flaw → String
  | .unexpectedChar c => "unexpected character '" ++ String.singleton c ++ "'"
  | .openString => "unterminated string"
  | .openComment => "unterminated block comment"
  | .unevenDedent => "unindent does not match any outer indentation level"

structure Scan where
  kind : Kind
  /-- The characters taken. -/
  text : List Char
  literal : Option Literal
  flaw : Option Flaw
  rest : List Char

namespace Scan

def isWordChar (c : Char) : Bool := Text.isAlphabetic c || Text.isNumeric c || c == '_'

def isWordStart (c : Char) : Bool := Text.isAlphabetic c || c == '_'

/-- The symbols a text is searched for, the longer of two that start alike first. -/
def symbols : List Symbol :=
  [.increment, .plusAssign, .plus, .decrement, .minusAssign, .minus, .power, .starAssign, .star,
   .slashAssign, .slash, .equal, .assign, .notEqual, .bang, .shiftLeft, .lessEqual, .less,
   .shiftRight, .greaterEqual, .greater, .percent, .ampersand, .pipe, .caret, .tilde, .comma,
   .semicolon, .colon, .dot, .atSign, .leftParen, .rightParen, .leftBrace, .rightBrace,
   .leftBracket, .rightBracket]

def symbol? (cs : List Char) : Option Symbol :=
  symbols.find? fun s => s.text.toList.isPrefixOf cs

/-- The characters an escape stands for. A backslash before a newline joins two lines, and before
any other character without a meaning of its own it is dropped. -/
def unescape : Char → List Char
  | 'n' => ['\n']
  | 't' => ['\t']
  | 'r' => ['\r']
  | '0' => ['\x00']
  | '\n' => []
  | c => [c]

structure Body where
  text : List Char
  value : List Char
  closed : Bool
  rest : List Char

def Body.push (text value : List Char) (b : Body) : Body :=
  { b with text := text ++ b.text, value := value ++ b.value }

/-- Reads up to the closing quote, three of them for a `triple` string. Only a `multiline` string
goes on over the end of a line. -/
def stringBody (quote : Char) (triple multiline : Bool) : List Char → Body
  | [] => ⟨[], [], false, []⟩
  | c :: cs =>
    if c = quote && !triple then ⟨[c], [], true, cs⟩
    else if c = quote && [quote, quote].isPrefixOf cs then
      ⟨[quote, quote, quote], [], true, cs.drop 2⟩
    else if c = '\n' && !multiline then ⟨[], [], false, c :: cs⟩
    else if c = '\\' then
      match cs with
      | [] => ⟨[c], [], false, []⟩
      | e :: more => (stringBody quote triple multiline more).push [c, e] (unescape e)
    else (stringBody quote triple multiline cs).push [c] [c]

/-- The token of a string that has been read to its end, or to where it should have ended. -/
def Body.toScan (kind : Kind) (opening : List Char) (b : Body) : Scan :=
  if b.closed then
    ⟨kind, opening ++ b.text, some (.str (String.ofList b.value)), none, b.rest⟩
  else
    ⟨.illegal, opening ++ b.text, some (.str Flaw.openString.reason), some .openString, b.rest⟩

/-- A string or template whose opening, `opening`, ends with the quote. Three quotes open a string
that three quotes close. -/
def string (kind : Kind) (opening : List Char) (quote : Char) (cs : List Char) : Scan :=
  if [quote, quote].isPrefixOf cs then
    (stringBody quote true true (cs.drop 2)).toScan kind (opening ++ [quote, quote])
  else (stringBody quote false (kind = .template) cs).toScan kind opening

/-- An integer, or a double if a point and a digit follow the digits. -/
def number (cs : List Char) : Scan :=
  let whole := cs.takeWhile Number.isDigit
  let plain : Scan :=
    ⟨.int, whole, (Number.readInt? whole).map .int, none, cs.dropWhile Number.isDigit⟩
  match cs.dropWhile Number.isDigit with
  | '.' :: d :: more =>
    if Number.isDigit d then
      let fraction := (d :: more).takeWhile Number.isDigit
      let text := whole ++ '.' :: fraction
      ⟨.float, text, (Number.readFloat? text).map .float, none,
        (d :: more).dropWhile Number.isDigit⟩
    else plain
  | _ => plain

def word (cs : List Char) : Scan :=
  let text := cs.takeWhile isWordChar
  let rest := cs.dropWhile isWordChar
  match Keyword.ofWord? (String.ofList text) with
  | none => ⟨.ident, text, none, none, rest⟩
  | some .true_ => ⟨.keyword .true_, text, some (.bool true), none, rest⟩
  | some .false_ => ⟨.keyword .false_, text, some (.bool false), none, rest⟩
  | some k => ⟨.keyword k, text, none, none, rest⟩

def unexpected (c : Char) (cs : List Char) : Scan :=
  ⟨.illegal, [c], some (.str (Flaw.unexpectedChar c).reason), some (.unexpectedChar c), cs⟩

def continuesWord : List Char → Bool
  | [] => false
  | c :: _ => isWordChar c

def quote? : List Char → Option Char
  | '"' :: _ => some '"'
  | '\'' :: _ => some '\''
  | _ => none

end Scan

open Scan in
def scan (c : Char) (cs : List Char) : Scan :=
  match quote? [c] with
  | some q => Scan.string .str [c] q cs
  | none =>
    match if c = 'f' then quote? cs else none with
    | some q => Scan.string .template [c, q] q (cs.drop 1)
    | none =>
      if c = '_' && !continuesWord cs then ⟨.symbol .underscore, [c], none, none, cs⟩
      else if Number.isDigit c then number (c :: cs)
      else if isWordStart c then word (c :: cs)
      else
        match symbol? (c :: cs) with
        | some s =>
          ⟨.symbol s, s.text.toList, none, none, (c :: cs).drop s.text.length⟩
        | none => unexpected c cs

namespace Scan

theorem length_dropWhile_le {α : Type} (p : α → Bool) (xs : List α) :
    (xs.dropWhile p).length ≤ xs.length := by
  induction xs with
  | nil => simp
  | cons x xs ih =>
    rw [List.dropWhile_cons]
    split
    · simp only [List.length_cons]; omega
    · simp

theorem length_stringBody_rest (q : Char) (triple multiline : Bool) (cs : List Char) :
    (stringBody q triple multiline cs).rest.length ≤ cs.length := by
  fun_induction stringBody q triple multiline cs <;>
    simp_all [Body.push] <;> omega

@[simp]
theorem Body.toScan_rest (k : Kind) (opening : List Char) (b : Body) :
    (b.toScan k opening).rest = b.rest := by
  unfold Body.toScan
  split <;> rfl

theorem length_string_rest (k : Kind) (opening : List Char) (q : Char) (cs : List Char) :
    (Scan.string k opening q cs).rest.length ≤ cs.length := by
  unfold Scan.string
  split
  · rw [Body.toScan_rest]
    exact Nat.le_trans (length_stringBody_rest q _ _ _) (by simp)
  · rw [Body.toScan_rest]
    exact length_stringBody_rest q _ _ cs

theorem length_number_rest (c : Char) (cs : List Char) (hc : Number.isDigit c = true) :
    (number (c :: cs)).rest.length ≤ cs.length := by
  have hd : ((c :: cs).dropWhile Number.isDigit).length ≤ cs.length := by
    rw [List.dropWhile_cons, if_pos hc]; exact length_dropWhile_le _ _
  unfold number
  dsimp only
  split
  · rename_i d more hm
    rw [hm] at hd
    have := length_dropWhile_le Number.isDigit (d :: more)
    split
    · simp only [List.length_cons] at *; omega
    · simpa [hm] using hd
  · exact hd

theorem length_word_rest (c : Char) (cs : List Char) (hc : isWordChar c = true) :
    (word (c :: cs)).rest.length ≤ cs.length := by
  have hd : ((c :: cs).dropWhile isWordChar).length ≤ cs.length := by
    rw [List.dropWhile_cons, if_pos hc]; exact length_dropWhile_le _ _
  unfold word
  dsimp only
  split <;> exact hd

theorem isWordChar_of_isWordStart {c : Char} (h : isWordStart c = true) :
    isWordChar c = true := by
  grind [isWordStart, isWordChar]

theorem length_symbol_pos (s : Symbol) : 0 < s.text.length := by
  cases s <;> decide

end Scan

open Scan in
/-- A scan takes at least the character it was called on. -/
theorem length_scan_rest (c : Char) (cs : List Char) : (scan c cs).rest.length ≤ cs.length := by
  unfold scan
  split
  · exact length_string_rest _ _ _ _
  · split
    · exact Nat.le_trans (length_string_rest _ _ _ _) (by simp)
    · split
      · simp
      · split
        · rename_i h; exact length_number_rest c cs h
        · split
          · rename_i h; exact length_word_rest c cs (isWordChar_of_isWordStart h)
          · split
            · rename_i s _
              have := length_symbol_pos s
              simp only [List.length_drop, List.length_cons]; omega
            · simp [unexpected]

end Spellbook
