import Spellbook.Program.Printer
import Spellbook.Proofs.Program.Parser.Trees
import Spellbook.Proofs.Token.Lexes

/-! Printed expressions are lexed into their own tokens: no token runs into the next one. -/
namespace Spellbook

/-- Text that the lexer takes back as it was: no template, no double, and no string with
a character that is written as its code point. -/
def Expr.isPlain : Expr → Bool
  | .literal _ (.float _) => false
  | .literal _ (.str s) => s.toList.all fun c => Text.quotedChar c != Text.codePointEscape c
  | .template .. => false
  | _ => true

/-- Taken from tokens, and written as the lexer takes it back. -/
structure Expr.Legible (e : Expr) : Prop where
  proper : e.Proper
  plain : e.isPlain = true

theorem Expr.All.legible {e : Expr} (hp : e.All Expr.Proper) (hplain : e.All (·.isPlain = true)) :
    e.All Expr.Legible := by
  induction hp with
  | mk hself _ ih => exact .mk ⟨hself, hplain.self⟩ fun e' he => ih e' he (hplain.part he)

def Literal.token : Literal → Token
  | .none => .ofWord "None"
  | .int n => ⟨.int, toString n, .start, some (.int n)⟩
  | .float x => ⟨.float, Number.literalText x, .start, some (.float x)⟩
  | .str s => ⟨.str, Text.quoted s, .start, some (.str s)⟩
  | .bool true => .ofWord "True"
  | .bool false => .ofWord "False"

def UnaryOp.token : UnaryOp → Token
  | .negate => .ofSymbol .minus
  | .plus => .ofSymbol .plus
  | .bang => .ofSymbol .bang
  | .not => .ofWord "not"
  | .complement => .ofSymbol .tilde

/-- The token of an operator. For `not in` it is the second of its two words. -/
def Operator.token : Operator → Token
  | .equal => .ofSymbol .equal
  | .notEqual => .ofSymbol .notEqual
  | .less => .ofSymbol .less
  | .greater => .ofSymbol .greater
  | .lessEqual => .ofSymbol .lessEqual
  | .greaterEqual => .ofSymbol .greaterEqual
  | .isIn | .notIn => .ofWord "in"
  | .bitAnd => .ofSymbol .ampersand
  | .bitOr => .ofSymbol .pipe
  | .bitXor => .ofSymbol .caret
  | .shiftLeft => .ofSymbol .shiftLeft
  | .shiftRight => .ofSymbol .shiftRight
  | .add => .ofSymbol .plus
  | .sub => .ofSymbol .minus
  | .mul => .ofSymbol .star
  | .div => .ofSymbol .slash
  | .mod => .ofSymbol .percent
  | .pow => .ofSymbol .power

def BinaryOp.tokens : BinaryOp → List Token
  | .connective .and => [.ofWord "and"]
  | .connective .or => [.ofWord "or"]
  | .operator .notIn => [.ofWord "not", .ofWord "in"]
  | .operator o => [o.token]

def Step.symbol : Step → Symbol
  | .increment => .increment
  | .decrement => .decrement

mutual

def Expr.tokens : Expr → List Token
  | .name id => [.ofWord id.name]
  | .literal _ value => [value.token]
  | .unary _ op operand => [.ofSymbol .leftParen] ++ [op.token] ++ operand.tokens ++
    [.ofSymbol .rightParen]
  | .binary _ op left right => [.ofSymbol .leftParen] ++ left.tokens ++ op.tokens ++
    right.tokens ++ [.ofSymbol .rightParen]
  | .preStep _ step target => [.ofSymbol .leftParen] ++ [.ofSymbol step.symbol] ++
    [.ofWord target.name] ++ [.ofSymbol .rightParen]
  | .postStep _ step target => [.ofSymbol .leftParen] ++ [.ofWord target.name] ++
    [.ofSymbol step.symbol] ++ [.ofSymbol .rightParen]
  | .call _ callee args => callee.tokens ++ [.ofSymbol .leftParen] ++ Expr.tokensAll args ++
    [.ofSymbol .rightParen]
  | .index _ object i => [.ofSymbol .leftParen] ++ object.tokens ++ [.ofSymbol .leftBracket] ++
    i.tokens ++ [.ofSymbol .rightBracket, .ofSymbol .rightParen]
  | .slice _ object start stop => [.ofSymbol .leftParen] ++ object.tokens ++
    [.ofSymbol .leftBracket] ++ Expr.tokensBound start ++ [.ofSymbol .colon] ++
    Expr.tokensBound stop ++ [.ofSymbol .rightBracket, .ofSymbol .rightParen]
  | .attr object member => object.tokens ++ [.ofSymbol .dot] ++ [.ofWord member.name]
  | .array _ elements => [.ofSymbol .leftBracket] ++ Expr.tokensAll elements ++
    [.ofSymbol .rightBracket]
  | .tuple _ elements => [.ofSymbol .leftParen] ++ Expr.tokensAll elements ++
    (if elements.length = 1 then [.ofSymbol .comma] else []) ++ [.ofSymbol .rightParen]
  | .map _ entries => [.ofSymbol .leftBrace] ++ Expr.tokensEntries entries ++
    [.ofSymbol .rightBrace]
  | .template _ _ => []
  | .super _ method => [.ofWord "super", .ofSymbol .dot] ++ [.ofWord method.name]

def Expr.tokensAll : List Expr → List Token
  | [] => []
  | [e] => e.tokens
  | e :: more => e.tokens ++ [.ofSymbol .comma] ++ Expr.tokensAll more

def Expr.tokensEntries : List (Expr × Expr) → List Token
  | [] => []
  | [(k, v)] => k.tokens ++ [.ofSymbol .colon] ++ v.tokens
  | (k, v) :: more => k.tokens ++ [.ofSymbol .colon] ++ v.tokens ++ [.ofSymbol .comma] ++
    Expr.tokensEntries more

def Expr.tokensBound : Option Expr → List Token
  | none => []
  | some e => e.tokens

end

/-! Lists with commas between their elements -/

def separated : List (List Token) → List Token
  | [] => []
  | [ts] => ts
  | ts :: more => ts ++ .ofSymbol .comma :: separated more

theorem Text.joined_cons (sep s s' : String) (rest : List String) :
    joined sep (s :: s' :: rest) = s ++ sep ++ joined sep (s' :: rest) := by
  simp only [joined, List.foldl_cons]
  induction rest generalizing s' with
  | nil => rfl
  | cons s'' rest ih =>
    rw [List.foldl_cons, List.foldl_cons, ← ih]
    simp only [String.append_assoc]

namespace Expr

theorem tokensAll_eq (es : List Expr) : tokensAll es = separated (es.map tokens) := by
  induction es with
  | nil => rfl
  | cons e es ih =>
    cases es with
    | nil => simp [tokensAll, separated]
    | cons e' es => simpa [tokensAll, separated] using ih

theorem tokensEntries_eq (entries : List (Expr × Expr)) : tokensEntries entries =
    separated (entries.map fun entry => entry.1.tokens ++ .ofSymbol .colon :: entry.2.tokens) := by
  induction entries with
  | nil => rfl
  | cons entry entries ih =>
    cases entries with
    | nil => simp [tokensEntries, separated]
    | cons entry' entries => simpa [tokensEntries, separated] using ih

theorem printAll_eq (es : List Expr) : printAll es = Text.joined ", " (es.map print) := by
  induction es with
  | nil => rfl
  | cons e es ih =>
    cases es with
    | nil => simp [printAll, Text.joined]
    | cons e' es => simpa [printAll, Text.joined_cons] using ih

theorem printEntries_eq (entries : List (Expr × Expr)) : printEntries entries =
    Text.joined ", " (entries.map fun entry => entry.1.print ++ ": " ++ entry.2.print) := by
  induction entries with
  | nil => rfl
  | cons entry entries ih =>
    cases entries with
    | nil => simp [printEntries, Text.joined]
    | cons entry' entries => simpa [printEntries, Text.joined_cons] using ih

end Expr

theorem Keyword.isWord (k : Keyword) : Scan.IsWord k.word.toList := by
  cases k <;> exact ⟨by decide, ⟨_, _, rfl, by decide, by decide⟩, by decide⟩

/-! Where an expression starts and ends in a text -/

def IsFirst (c : Char) : Prop :=
  Scan.isWordStart c = true ∨ Number.isDigit c = true ∨ c ∈ ['"', '(', '[', '\x7b']

instance : DecidablePred IsFirst := fun c =>
  inferInstanceAs (Decidable (Scan.isWordStart c = true ∨ Number.isDigit c = true ∨
    c ∈ ['"', '(', '[', '\x7b']))

theorem IsFirst.ne {c d : Char} (hc : IsFirst c) (hd : ¬ IsFirst d) : c ≠ d := by
  rintro rfl
  exact hd hc

theorem IsFirst.detached {c : Char} (hc : IsFirst c) (cs : List Char) : Detached (c :: cs) := by
  intro d hd hmem
  have hall : (['+', '-', '*', '/', '=', '<', '>'].all fun d => !decide (IsFirst d)) = true := by
    decide
  have hfirst := List.all_eq_true.1 hall d hmem
  cases hd
  simp [hc] at hfirst

/-- Characters that an expression ends before. -/
def closers : List Char := [' ', ',', ':', '.', '(', ')', '[', ']', '\x7d']

/-- A text in front of which every expression ends. -/
structure Closes (more : List Char) : Prop where
  first : ∀ c ∈ more.head?, c ∈ closers
  point : ∀ d rest, more = '.' :: d :: rest → Number.isDigit d = false

namespace Closes

variable {more : List Char}

theorem nil : Closes [] where
  first c hc := by cases hc
  point d rest h := by cases h

theorem cons {c : Char} (hc : c ∈ closers ∧ c ≠ '.') (cs : List Char) : Closes (c :: cs) where
  first d hd := by
    cases hd
    exact hc.1
  point d rest h := by
    injection h with h
    exact absurd h hc.2

theorem dot {w : String} (hw : Scan.IsWord w.toList) (more : List Char) :
    Closes (".".toList ++ (w.toList ++ more)) := by
  obtain ⟨c, cs, hcs, _, hdigit⟩ := hw.first
  rw [hcs]
  constructor
  · intro d hd
    cases hd
    decide
  · intro d rest h
    cases h
    exact hdigit

theorem head {P : Char → Prop} [DecidablePred P] (h : Closes more)
    (hP : (closers.all fun c => P c) = true) : ∀ c ∈ more.head?, P c :=
  fun c hc => of_decide_eq_true (List.all_eq_true.1 hP c (h.first c hc))

theorem detached (h : Closes more) : Detached more := h.head (by decide)

theorem quote? (h : Closes more) : Scan.quote? more = none := by
  cases more with
  | nil => rfl
  | cons c cs =>
    have hc := h.head (P := fun c => c ≠ '"' ∧ c ≠ '\'') (by decide) c rfl
    exact Scan.quote?_eq_none hc.1 hc.2 cs

theorem word (h : Closes more) {w : String} (hw : Scan.IsWord w.toList) :
    Lexes [.ofWord w] w.toList more :=
  .word hw (h.head (by decide)) h.quote?

theorem literal (h : Closes more) {pos : Pos} {value : Literal}
    (hl : (Expr.literal pos value).Legible) : Lexes [value.token] value.print.toList more := by
  cases value with
  | none => exact h.word (Keyword.isWord .none)
  | int n => exact .int hl.proper (h.head (by decide)) h.point
  | float x => exact absurd hl.plain Bool.false_ne_true
  | str s =>
    have hs : ∀ c ∈ s.toList, Text.quotedChar c ≠ Text.codePointEscape c := fun c hc =>
      bne_iff_ne.1 (List.all_eq_true.1 hl.plain c hc)
    refine .str hs fun hquote => ?_
    exact h.head (P := (· ≠ '"')) (by decide) '"' hquote rfl
  | bool b =>
    cases b with
    | false => exact h.word (Keyword.isWord .false_)
    | true => exact h.word (Keyword.isWord .true_)

end Closes

theorem lexes_joined {α : Type} {xs : List α} {tokens : α → List Token} {text : α → String}
    (h : ∀ x ∈ xs, ∀ more, Closes more → Lexes (tokens x) (text x).toList more) {more : List Char}
    (hm : Closes more) :
    Lexes (separated (xs.map tokens)) (Text.joined ", " (xs.map text)).toList more := by
  induction xs with
  | nil => exact .nil
  | cons x xs ih =>
    have hx := h x List.mem_cons_self
    have hxs := ih fun y hy => h y (List.mem_cons_of_mem _ hy)
    cases xs with
    | nil => exact hx more hm
    | cons y xs =>
      have hcomma : Lexes [.ofSymbol .comma] ", ".toList
          ((Text.joined ", " ((y :: xs).map text)).toList ++ more) := (Lexes.mark rfl _).spaced
      have hall := ((hx _ (.cons (by decide) _)).append hcomma).append hxs
      simpa [separated, Text.joined_cons, String.toList_append] using hall

theorem lexes_entry {key value : List Token} {name text : String} {more : List Char}
    (hkey : ∀ more, Closes more → Lexes key name.toList more)
    (hvalue : Lexes value text.toList more) :
    Lexes (key ++ .ofSymbol .colon :: value) (name ++ ": " ++ text).toList more := by
  have hcolon : Lexes [.ofSymbol .colon] ": ".toList (text.toList ++ more) :=
    (Lexes.mark rfl _).spaced
  have hentry := ((hkey _ (.cons (by decide) _)).append hcolon).append hvalue
  simpa [String.toList_append] using hentry

theorem BinaryOp.lexes (op : BinaryOp) (more : List Char) :
    Lexes op.tokens op.text.toList (' ' :: more) := by
  have hclose : ∀ more, Closes (' ' :: more) := Closes.cons (by decide)
  have hsymbol : ∀ s : Symbol, s ≠ .underscore →
      Lexes [.ofSymbol s] s.text.toList (' ' :: more) :=
    fun s hs => .symbol hs (hclose more).detached
  cases op with
  | connective c =>
    cases c with
    | and => exact (hclose more).word (Keyword.isWord .and_)
    | or => exact (hclose more).word (Keyword.isWord .or_)
  | operator o =>
    cases o with
    | isIn => exact (hclose more).word (Keyword.isWord .in_)
    | notIn =>
      have hnot := (hclose ("in".toList ++ ' ' :: more)).word (Keyword.isWord .not_)
      exact (hnot.append .blank).append ((hclose more).word (Keyword.isWord .in_))
    | _ => exact hsymbol _ (by decide)

theorem UnaryOp.lexes {op : UnaryOp} (hop : op ≠ .not) {more : List Char} (hmore : Detached more) :
    Lexes [op.token] op.text.toList more := by
  cases op with
  | not => exact absurd rfl hop
  | _ => exact .symbol (by decide) hmore

theorem Step.lexes (step : Step) {more : List Char} (hmore : Detached more) :
    Lexes [.ofSymbol step.symbol] step.text.toList more := by
  cases step with
  | increment => exact .symbol (s := .increment) (by decide) hmore
  | decrement => exact .symbol (s := .decrement) (by decide) hmore

namespace Expr

theorem print_first {e : Expr} (h : e.All Legible) :
    ∃ c cs, e.print.toList = c :: cs ∧ IsFirst c := by
  induction h with
  | @mk e hself _ ih =>
  cases e with
  | name id =>
    obtain ⟨c, cs, hcs, hc, _⟩ := hself.proper.1.first
    exact ⟨c, cs, by rw [print, hcs], .inl hc⟩
  | literal pos value =>
    rw [print]
    cases value with
    | none => exact ⟨'N', _, rfl, by decide⟩
    | int n =>
      have hall := Number.all_isDigit_toDigits n.toInt.toNat
      have hne : Nat.toDigits 10 n.toInt.toNat ≠ [] := Nat.toDigits_ne_nil
      obtain ⟨c, cs, hcs⟩ := List.exists_cons_of_ne_nil hne
      rw [hcs] at hall
      have hc : Number.isDigit c = true := List.all_eq_true.1 hall c List.mem_cons_self
      exact ⟨c, cs, (Number.toString_toList hself.proper).trans hcs, .inr (.inl hc)⟩
    | float x => exact absurd hself.plain Bool.false_ne_true
    | str s => exact ⟨'"', _, String.toList_ofList, by decide⟩
    | bool b =>
      cases b with
      | false => exact ⟨'F', _, rfl, by decide⟩
      | true => exact ⟨'T', _, rfl, by decide⟩
  | call pos callee args =>
    obtain ⟨c, cs, hcs, hc⟩ := ih callee List.mem_cons_self
    simp only [print, String.toList_append, hcs]
    exact ⟨c, _, rfl, hc⟩
  | attr object member =>
    obtain ⟨c, cs, hcs, hc⟩ := ih object List.mem_cons_self
    simp only [print, String.toList_append, hcs]
    exact ⟨c, _, rfl, hc⟩
  | array pos elements =>
    simp only [print, String.toList_append]
    exact ⟨'[', _, rfl, by decide⟩
  | map pos entries =>
    simp only [print, String.toList_append]
    exact ⟨'\x7b', _, rfl, by decide⟩
  | template pos parts => exact absurd hself.plain Bool.false_ne_true
  | super pos method =>
    simp only [print, String.toList_append]
    exact ⟨'s', _, rfl, by decide⟩
  | unary pos op operand =>
    cases op <;> simp only [print, String.toList_append] <;> exact ⟨'(', _, rfl, by decide⟩
  | binary | preStep | postStep | index | slice | tuple =>
    simp only [print, String.toList_append]
    exact ⟨'(', _, rfl, by decide⟩

/-- The expression is lexed into its tokens in front of whatever ends it. -/
def LexesBack (e : Expr) : Prop := ∀ more, Closes more → Lexes e.tokens e.print.toList more

theorem lexes_all {es : List Expr} (h : ∀ e ∈ es, LexesBack e) (more : List Char)
    (hm : Closes more) : Lexes (tokensAll es) (printAll es).toList more := by
  rw [tokensAll_eq, printAll_eq]
  exact lexes_joined h hm

theorem lexes_entries {entries : List (Expr × Expr)}
    (h : ∀ e ∈ entries.flatMap fun entry => [entry.1, entry.2], LexesBack e) (more : List Char)
    (hm : Closes more) : Lexes (tokensEntries entries) (printEntries entries).toList more := by
  rw [tokensEntries_eq, printEntries_eq]
  refine lexes_joined (fun entry hentry more hm => ?_) hm
  have hparts : ∀ e ∈ [entry.1, entry.2], LexesBack e := fun e he =>
    h e (List.mem_flatMap.2 ⟨entry, hentry, he⟩)
  obtain ⟨hkey, hvalue, -⟩ := List.forall_mem_cons.1 hparts |>.imp_right List.forall_mem_cons.1
  exact lexes_entry hkey (hvalue more hm)

theorem lexes_bound {bound : Option Expr} (h : ∀ e ∈ bound, LexesBack e) (more : List Char)
    (hm : Closes more) : Lexes (tokensBound bound) (printBound bound).toList more := by
  cases bound with
  | none => exact .nil
  | some e =>
    simp only [tokensBound, printBound]
    exact h e rfl more hm

theorem lexes_unary (pos : Pos) (op : UnaryOp) {operand : Expr} (hoperand : operand.All Legible)
    (h : LexesBack operand) (more : List Char) :
    Lexes (unary pos op operand).tokens (unary pos op operand).print.toList more := by
  by_cases hop : op = .not
  · subst hop
    have hnot : ∀ more, Lexes [.ofSymbol .leftParen, .ofWord "not"] "(not ".toList more := by
      intro more
      have hword := (Closes.cons (c := ' ') (by decide) more).word (Keyword.isWord .not_)
      exact ((Lexes.mark (s := .leftParen) rfl _).append hword).spaced
    simp only [tokens, print, String.toList_append]
    refine .append (.append (hnot _) ?_) ?_
    · exact h _ (.cons (by decide) _)
    · exact .mark rfl _
  · obtain ⟨c, cs, hcs, hc⟩ := print_first hoperand
    simp only [print_unary hop, tokens, String.toList_append]
    refine .append (.append (.append ?_ ?_) ?_) ?_
    · exact .mark rfl _
    · refine op.lexes hop ?_
      rw [hcs]
      exact hc.detached _
    · exact h _ (.cons (by decide) _)
    · exact .mark rfl _

theorem lexes_preStep (pos : Pos) (step : Step) {target : Ident} (hid : target.IsVariable)
    (more : List Char) :
    Lexes (preStep pos step target).tokens (preStep pos step target).print.toList more := by
  obtain ⟨c, cs, hcs, hc, _⟩ := hid.1.first
  simp only [tokens, print, String.toList_append]
  refine .append (.append (.append ?_ ?_) ?_) ?_
  · exact .mark rfl _
  · refine step.lexes ?_
    rw [hcs]
    exact IsFirst.detached (.inl hc) _
  · exact (Closes.cons (by decide) _).word hid.1
  · exact .mark rfl _

theorem lexes_postStep (pos : Pos) (step : Step) {target : Ident} (hid : target.IsVariable)
    (more : List Char) :
    Lexes (postStep pos step target).tokens (postStep pos step target).print.toList more := by
  simp only [tokens, print, String.toList_append]
  refine .append (.append (.append ?_ ?_) ?_) ?_
  · exact .mark rfl _
  · refine .word hid.1 (fun c hc => ?_) ?_
    · cases step <;> cases hc <;> decide
    · cases step <;> rfl
  · exact step.lexes (Closes.cons (by decide) _).detached
  · exact .mark rfl _

theorem lexesBack {e : Expr} (h : e.All Legible) : e.LexesBack := by
  induction h with
  | @mk e hself hparts ih =>
  intro more hm
  have hbrackets : ∀ more, Lexes [.ofSymbol .rightBracket, .ofSymbol .rightParen] "])".toList more :=
    fun more => (Lexes.mark (s := .rightBracket) rfl _).append (.mark (s := .rightParen) rfl more)
  cases e with
  | name id =>
    simp only [tokens, print]
    exact hm.word hself.proper.1
  | literal pos value =>
    simp only [tokens, print]
    exact hm.literal hself
  | unary pos op operand =>
    exact lexes_unary pos op (hparts operand List.mem_cons_self) (ih operand List.mem_cons_self) more
  | binary pos op left right =>
    have hleft := ih left List.mem_cons_self
    have hright := ih right (List.mem_cons_of_mem _ List.mem_cons_self)
    simp only [tokens, print, String.toList_append]
    refine .append (.append (.spaced (.append (.spaced (.append ?_ ?_)) ?_)) ?_) ?_
    · exact .mark rfl _
    · exact hleft _ (.cons (by decide) _)
    · exact op.lexes _
    · exact hright _ (.cons (by decide) _)
    · exact .mark rfl _
  | preStep pos step target => exact lexes_preStep pos step hself.proper more
  | postStep pos step target => exact lexes_postStep pos step hself.proper more
  | call pos callee args =>
    have hcallee := ih callee List.mem_cons_self
    have hargs := lexes_all fun e he => ih e (List.mem_cons_of_mem _ he)
    simp only [tokens, print, String.toList_append]
    refine .append (.append (.append ?_ ?_) ?_) ?_
    · exact hcallee _ (.cons (by decide) _)
    · exact .mark rfl _
    · exact hargs _ (.cons (by decide) _)
    · exact .mark rfl _
  | index pos object i =>
    have hobject := ih object List.mem_cons_self
    have hi := ih i (List.mem_cons_of_mem _ List.mem_cons_self)
    simp only [tokens, print, String.toList_append]
    refine .append (.append (.append (.append ?_ ?_) ?_) ?_) (hbrackets _)
    · exact .mark rfl _
    · exact hobject _ (.cons (by decide) _)
    · exact .mark rfl _
    · exact hi _ (.cons (by decide) _)
  | slice pos object start stop =>
    have hobject := ih object List.mem_cons_self
    have hstart := lexes_bound fun e he =>
      ih e (List.mem_cons_of_mem _ (List.mem_append_left _ (Option.mem_toList.2 he)))
    have hstop := lexes_bound fun e he =>
      ih e (List.mem_cons_of_mem _ (List.mem_append_right _ (Option.mem_toList.2 he)))
    simp only [tokens, print, String.toList_append]
    refine .append (.append (.append (.append (.append (.append ?_ ?_) ?_) ?_) ?_) ?_) (hbrackets _)
    · exact .mark rfl _
    · exact hobject _ (.cons (by decide) _)
    · exact .mark rfl _
    · exact hstart _ (.cons (by decide) _)
    · exact .mark rfl _
    · exact hstop _ (.cons (by decide) _)
  | attr object member =>
    have hobject := ih object List.mem_cons_self
    simp only [tokens, print, String.toList_append]
    refine .append (.append ?_ ?_) ?_
    · exact hobject _ (.dot hself.proper more)
    · exact .mark rfl _
    · exact hm.word hself.proper
  | array pos elements =>
    have helements := lexes_all fun e he => ih e he
    simp only [tokens, print, String.toList_append]
    refine .append (.append ?_ ?_) ?_
    · exact .mark rfl _
    · exact helements _ (.cons (by decide) _)
    · exact .mark rfl _
  | tuple pos elements =>
    have helements := lexes_all fun e he => ih e he
    simp only [tokens, print, String.toList_append]
    refine .append (.append (.append ?_ ?_) ?_) ?_
    · exact .mark rfl _
    · split
      · exact helements _ (.cons (by decide) _)
      · exact helements _ (.cons (by decide) _)
    · split
      · exact .mark rfl _
      · exact .nil
    · exact .mark rfl _
  | map pos entries =>
    have hentries := lexes_entries fun e he => ih e he
    simp only [tokens, print, String.toList_append]
    refine .append (.append ?_ ?_) ?_
    · exact .mark rfl _
    · exact hentries _ (.cons (by decide) _)
    · exact .mark rfl _
  | template pos parts => exact absurd hself.plain Bool.false_ne_true
  | super pos method =>
    have hword := (Closes.dot hself.proper more).word (Keyword.isWord .super)
    have hsuper := hword.append (.mark (s := .dot) rfl _)
    simp only [tokens, print, String.toList_append]
    exact hsuper.append (hm.word hself.proper)

end Expr

end Spellbook
