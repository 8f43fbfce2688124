import Spellbook.Proofs.Evaluation.Demands
import Spellbook.Session

/-! Scope, calls, access rights and file are the same after an evaluation as before it, whichever way
it ends. -/
namespace Spellbook

def Demand.any : Demand := ⟨fun _ => True, fun _ => True, False⟩

theorem Store.declares_any (s : Store) : s.Declares .any :=
  ⟨fun _ _ => trivial, fun _ _ _ _ => trivial, fun _ _ _ _ => ⟨trivial, fun _ => trivial⟩,
    fun _ _ => trivial⟩

structure Covers {ι : Type} (l : Filter ι) [l.NeBot] (E : ι → Evaluator) (m : Machine)
    (w : World) : Prop where
  expr : ∀ e, ExprSettles .any l E m e
  stmt : ∀ s, StmtSettles .any l E m s
  spells : SpellsSettle .any l E m w
  turns : ∃ turns, ∀ᶠ i in l, (E i).turns = turns

namespace Covers

variable {ι : Type} {l : Filter ι} [l.NeBot] {E : ι → Evaluator} {m m' : Machine} {w : World}

theorem later (h : Covers l E m w) (hp : m.Precedes m') : Covers l E m' w where
  expr e := (h.expr e).later hp
  stmt s := (h.stmt s).later hp
  spells := h.spells.later hp
  turns := h.turns

theorem evalExpr (h : Covers l E m w) (e : Expr) :
    Settles .any l (fun i => (E i).evalExpr w e) m :=
  .evalExpr (fun e' _ => h.expr e') h.spells m.store.declares_any

theorem evalStmt (h : Covers l E m w) (s : Stmt) :
    Settles .any l (fun i => (E i).evalStmt w s) m := by
  refine .evalStmt (fun e _ => h.expr e) (fun s _ => h.stmt s) h.spells ?_ ?_ ?_
    m.store.declares_any
  · exact fun _ _ => ⟨trivial, fun _ => trivial⟩
  · exact fun _ _ _ _ _ _ _ _ m' hp _ s _ => (h.later hp).stmt s
  · exact fun _ => ⟨id, h.turns⟩

theorem body (h : Covers l E m w) (decl : SpellDecl) (args : List Value) :
    Settles .any l (fun i => (E i).body w decl args) m :=
  .body (fun e _ => h.expr e) (fun s _ => h.stmt s) args m.store.declares_any

theorem run (h : Covers l E m w) (p : Program) (scope : Ref .scope) :
    Settles .any l (fun i => (E i).run p scope) m :=
  .run (fun s _ => h.stmt s) scope m.store.declares_any

theorem spent (m : Machine) (w : World) : Covers l (fun _ => .spent) m w where
  expr _ _ h := .spent id h.2
  stmt _ _ h := .spent id h.2
  spells :=
    { call := fun _ _ _ _ _ _ _ hs => .spent id hs
      close := fun _ _ _ _ _ _ hs => .spent id hs }
  turns := ⟨0, .of_forall fun _ => rfl⟩

end Covers

theorem covers_evaluator (w : World) (fuel : Nat) (m : Machine) :
    Covers (⊤ : Filter Unit) (fun _ => evaluator w fuel) m w := by
  induction fuel generalizing m with
  | zero => exact .spent m w
  | succ fuel ih =>
    exact {
      expr := fun e m' _ => (ih m').evalExpr e
      stmt := fun s m' _ => (ih m').evalStmt s
      spells :=
        { call := fun decl args _ m' _ _ _ _ => (ih m').body decl args
          close := fun decl args m' _ _ _ _ => (ih m').body decl args }
      turns := ⟨fuel, .of_forall fun _ => rfl⟩ }

theorem Settles.keeps {d : Demand} {α : Type} [Bearing α] {x : Eval α} {m : Machine}
    (h : Settles d (⊤ : Filter Unit) (fun _ => x) m) : m.Keeps (endState (x m)) :=
  (Abides.allows h).goes.stays.toKeeps

/-- Expressions, statements and programs put back scope, calls, access rights and file in whatever
state they are evaluated and however they end, and files that were imported stay imported. -/
theorem evaluation_restores (w : World) (fuel : Nat) (m : Machine) :
    (∀ e, m.Keeps (endState ((evaluator w fuel).expr e m))) ∧
      (∀ s, m.Keeps (endState ((evaluator w fuel).stmt s m))) ∧
      ∀ p scope, m.Keeps (endState (runProgram w fuel p scope m)) := by
  have h := covers_evaluator w fuel m
  refine ⟨fun e => ?_, fun s => ?_, fun p scope => ?_⟩
  · exact Settles.keeps (h.expr e ⟨.refl m, m.store.declares_any⟩)
  · exact Settles.keeps (h.stmt s ⟨.refl m, m.store.declares_any⟩)
  · exact Settles.keeps (h.run p scope)

end Spellbook
