import Mathlib
import Spellbook.Proofs.Program.Parser.Walks.Statements

/-! Recovery from syntax errors stays at its nesting level, unless a `match` fails in its block. That
block is left open, and what follows in it is taken for what follows the `match`. -/
open Spellbook.Parser

namespace Spellbook

theorem mem_collect {found : List Diagnostic} {errors : List LexError} {e : Diagnostic}
    (h : e ∈ found) : e ∈ collect found errors := by
  rw [collect, List.mem_mergeSort]
  exact List.mem_append_left _ h

/-- The statement starts where every block before it is closed, and those in its bodies start in
these bodies, at whatever depth. -/
def StandsOnTop (source : String) (a : Stmt) : Prop :=
  ∃ before s, tokensOf source = before ++ s.tokens ∧ Levels 0 before 0 ∧
    Stands (budget source.length) s a

/-- In a text without lexical errors, whatever else is wrong with it, every statement is attached at
its own block depth, unless a `match` has failed and left its block open. A statement of the program
starts where as many INDENTs as DEDENTs stand before it, and a statement in an indented body between
the INDENT of that body and the DEDENT that closes it. -/
theorem statements_attached {source : String} (herrors : lexErrorsOf source = [])
    (hmatch : ∀ e ∈ (parse source).diagnostics, ¬ FailsInMatch source e) :
    ∀ a ∈ (parse source).program.statements, StandsOnTop source a := by
  obtain ⟨body, last, hreading⟩ := reading source
  have hprogram := hreading.run _ (Nat.le_refl _)
  have hregular : Regular source last := by
    intro e he
    refine hmatch e ?_
    rw [hreading.parse]
    exact mem_collect (List.mem_reverse.2 he)
  have hstart : (State.start source).tokens <:+ tokensOf source := by
    rw [tokens_start]
  have htop : Levels 0 (State.start source).tokens 0 := by
    rw [tokens_start]
    exact levels_tokensOf herrors
  have hstray : ∀ c, isTopSeparator c = true → c.isFlat = true ∨ c = .dedent :=
    fun c hc => (isTopSeparator_cases hc).imp_left isFlat_of_isSeparator
  have hwalks : Walks source (State.start source)
      (fun body => True ∧ ∀ a ∈ body, Parser.Starts (budget source.length) (State.start source) a)
      (program (budget source.length)) (State.start source) :=
    .statements herrors (stmtsWalk herrors _) hstart (weigh_of_suffix hstart) rfl
      (.inr ⟨rfl, htop⟩) hstray _ (.refl source _)
  obtain ⟨-, -, hstarts⟩ := (hwalks.ok hprogram).orderly hregular
  rw [hreading.parse]
  intro a ha
  obtain ⟨s, hleads, heven, -, hstands⟩ := hstarts a ha
  exact ⟨_, s, (tokens_start source).symm.trans hleads.tokens_eq, heven, hstands⟩

/-! Two texts -/

def stateAt (source : String) (i : Nat) (found : List Diagnostic) : State :=
  { State.ofTokens ((tokensOf source).drop i) with found }

section StateAt

variable {source : String} {before : List Token} {s : State}
  (h : tokensOf source = before ++ s.tokens)

include h

theorem eq_stateAt : s = stateAt source before.length s.found := by
  rw [stateAt, h, List.drop_left]
  rfl

theorem take_before : (tokensOf source).take before.length = before := by
  rw [h, List.take_left]

theorem drop_before : (tokensOf source).drop before.length = s.tokens := by
  rw [h, List.drop_left]

theorem before_lt : before.length < (tokensOf source).length := by
  rw [h, List.length_append]
  exact Nat.lt_add_of_pos_right (Nat.succ_pos _)

end StateAt

def headerText : String := "while a:\n match b c:\n  case 1: d\n e\nf"

def headerTokens : List Token :=
  [⟨.keyword .while_, "while", ⟨1, 1⟩, none⟩, ⟨.ident, "a", ⟨1, 7⟩, none⟩,
    ⟨.symbol .colon, ":", ⟨1, 8⟩, none⟩, ⟨.newline, "\\n", ⟨1, 9⟩, none⟩,
    ⟨.indent, "", ⟨2, 2⟩, none⟩, ⟨.keyword .match_, "match", ⟨2, 2⟩, none⟩,
    ⟨.ident, "b", ⟨2, 8⟩, none⟩, ⟨.ident, "c", ⟨2, 10⟩, none⟩, ⟨.symbol .colon, ":", ⟨2, 11⟩, none⟩,
    ⟨.newline, "\\n", ⟨2, 12⟩, none⟩, ⟨.indent, "", ⟨3, 3⟩, none⟩,
    ⟨.keyword .case_, "case", ⟨3, 3⟩, none⟩, ⟨.int, "1", ⟨3, 8⟩, some (.int 1)⟩,
    ⟨.symbol .colon, ":", ⟨3, 9⟩, none⟩, ⟨.ident, "d", ⟨3, 11⟩, none⟩,
    ⟨.newline, "\\n", ⟨3, 12⟩, none⟩, ⟨.dedent, "", ⟨4, 2⟩, none⟩, ⟨.ident, "e", ⟨4, 2⟩, none⟩,
    ⟨.newline, "\\n", ⟨4, 3⟩, none⟩, ⟨.dedent, "", ⟨5, 1⟩, none⟩, ⟨.ident, "f", ⟨5, 1⟩, none⟩,
    ⟨.newline, "\\n", ⟨5, 2⟩, none⟩, ⟨.eof, "", ⟨5, 2⟩, none⟩]

theorem tokensOf_headerText : tokensOf headerText = headerTokens := by
  cbv

/-- How many tokens are left where a statement fails. -/
def leftBehind : EStateM.Result Halt State Stmt → Option Nat
  | .ok _ _ => none
  | .error _ s => some s.tokens.length

set_option maxRecDepth 2000 in
theorem leftBehind_headerText (found : List Diagnostic) :
    leftBehind (stmt (budget headerText.length) (stateAt headerText 5 found)) = some 16 := by
  rw [stateAt, tokensOf_headerText]
  cbv

theorem headerText_regular (e : Diagnostic) : ¬ FailsInMatch headerText e := by
  rintro ⟨s, s', ⟨before, hbefore⟩, hcur, hstmt, hne⟩
  have hdrop := drop_before hbefore.symm
  have hplaces : ∀ i < (tokensOf headerText).length,
      ((tokensOf headerText).drop i).head?.map (·.kind) = some (.keyword .match_) → i = 5 := by
    rw [tokensOf_headerText]
    decide
  have hplace : before.length = 5 := by
    refine hplaces _ (before_lt hbefore.symm) ?_
    rw [hdrop]
    exact congrArg some hcur
  have hleft := leftBehind_headerText s.found
  rw [← hplace, ← eq_stateAt hbefore.symm, hstmt] at hleft
  have hlength : s'.tokens.length = 16 := Option.some.inj hleft
  refine hne ?_
  rw [State.Even, State.taken, hlength, ← hdrop, hplace, tokensOf_headerText]
  decide

theorem statements_attached_headerText : lexErrorsOf headerText = [] ∧
    (parse headerText).diagnostics.length = 1 ∧ (parse headerText).program.statements.length = 2 ∧
    (∀ e ∈ (parse headerText).diagnostics, ¬ FailsInMatch headerText e) ∧
    ∀ a ∈ (parse headerText).program.statements, StandsOnTop headerText a := by
  obtain ⟨herrors, hone, htwo⟩ : lexErrorsOf headerText = [] ∧
      (parse headerText).diagnostics.length = 1 ∧
      (parse headerText).program.statements.length = 2 := by decide +kernel
  have hregular := fun e (_ : e ∈ (parse headerText).diagnostics) => headerText_regular e
  exact ⟨herrors, hone, htwo, hregular, statements_attached herrors hregular⟩

/-- A block of a match in which no case stands. -/
def strayText : String := "match x:\n    y\n    z\nw\n"

def strayTokens : List Token :=
  [⟨.keyword .match_, "match", ⟨1, 1⟩, none⟩, ⟨.ident, "x", ⟨1, 7⟩, none⟩,
    ⟨.symbol .colon, ":", ⟨1, 8⟩, none⟩, ⟨.newline, "\\n", ⟨1, 9⟩, none⟩,
    ⟨.indent, "", ⟨2, 5⟩, none⟩, ⟨.ident, "y", ⟨2, 5⟩, none⟩, ⟨.newline, "\\n", ⟨2, 6⟩, none⟩,
    ⟨.ident, "z", ⟨3, 5⟩, none⟩, ⟨.newline, "\\n", ⟨3, 6⟩, none⟩, ⟨.dedent, "", ⟨4, 1⟩, none⟩,
    ⟨.ident, "w", ⟨4, 1⟩, none⟩, ⟨.newline, "\\n", ⟨4, 2⟩, none⟩, ⟨.eof, "", ⟨5, 1⟩, none⟩]

theorem tokensOf_strayText : tokensOf strayText = strayTokens := by
  cbv

/-- The name that a statement consists of, if it is one. -/
def nameRead : EStateM.Result Halt State Stmt → Option Ident
  | .ok (.expr (.name id)) _ => some id
  | _ => none

theorem nameRead_strayText (found : List Diagnostic) :
    ∀ i ∈ [0, 1, 2, 3, 4, 10, 11, 12],
      nameRead (stmt (budget strayText.length) (stateAt strayText i found)) =
        if i = 10 then some ⟨"w", ⟨4, 1⟩⟩ else none := by
  simp only [List.forall_mem_cons, stateAt, tokensOf_strayText]
  refine ⟨?_, ?_, ?_, ?_, ?_, ?_, ?_, ?_, List.forall_mem_nil _⟩ <;> cbv

/-- A match that fails in its block leaves the block open, and the next line of the block is taken
for a statement of the program. -/
theorem not_statements_attached : ¬ ∀ source, lexErrorsOf source = [] →
    ∀ a ∈ (parse source).program.statements, StandsOnTop source a := by
  intro h
  have hz : Stmt.expr (.name ⟨"z", ⟨3, 5⟩⟩) ∈ (parse strayText).program.statements := by
    have hstatements : (parse strayText).program.statements =
        [.expr (.name ⟨"z", ⟨3, 5⟩⟩), .expr (.name ⟨"w", ⟨4, 1⟩⟩)] := by cbv
    rw [hstatements]
    exact List.mem_cons_self
  obtain ⟨before, s, htokens, hlevels, hstands⟩ := h strayText (by decide +kernel) _ hz
  have hplaces : ∀ i < (tokensOf strayText).length, Levels 0 ((tokensOf strayText).take i) 0 →
      i ∈ [0, 1, 2, 3, 4, 10, 11, 12] := by
    rw [tokensOf_strayText]
    decide
  have hplace := hplaces _ (before_lt htokens) ((take_before htokens).symm ▸ hlevels)
  have hname := nameRead_strayText s.found _ hplace
  obtain ⟨s', hstmt⟩ := hstands.read
  rw [← eq_stateAt htokens, hstmt] at hname
  split at hname <;> simp [nameRead] at hname

end Spellbook
