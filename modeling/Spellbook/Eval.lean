import Spellbook.Eval.Stmt

/-! Evaluation. The rules are applied to each other as often as the fuel allows. -/
namespace Spellbook

def Evaluator.spent : Evaluator :=
  ⟨fun _ => throw .outOfFuel, fun _ => throw .outOfFuel, fun _ _ _ => throw .outOfFuel, 0⟩

/-- What expressions, statements and spells do within `fuel` nested steps. -/
def evaluator (w : World) : Nat → Evaluator
  | 0 => .spent
  | fuel + 1 =>
    ⟨fun e => (evaluator w fuel).evalExpr w e, fun s => (evaluator w fuel).evalStmt w s,
      fun _ decl args => (evaluator w fuel).body w decl args, fuel⟩

/-- Runs a program in a scope. Its value is that of its last statement, or what it returns. -/
def Evaluator.run (inner : Evaluator) (p : Program) (scope : Ref .scope) : Eval Value := do
  match ← Eval.inScope scope (inner.program p true) with
  | .value v | .give v => return v
  | .stop | .skip => Eval.raise (.plain Fault.strayControl.message)

def runProgram (w : World) (fuel : Nat) (p : Program) (scope : Ref .scope) : Eval Value :=
  (evaluator w fuel).run p scope

end Spellbook
