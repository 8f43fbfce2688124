import Spellbook.Proofs.Program.Parts

/-! The places that failures of an expression or a statement are reported at. -/
namespace Spellbook

/-- Lines are counted from 1, and line 0 is no place. -/
def Pos.IsKnown (p : Pos) : Prop := 0 < p.line

def Expr.places : Expr → List Pos
  | .preStep pos _ target => [pos, target.pos]
  | .postStep pos _ target => [pos, target.pos]
  | .super pos method => [pos, method.pos]
  | e => [e.pos]

def Expr.Placed (e : Expr) : Prop := ∀ p ∈ e.places, p.IsKnown

/-- The places of the statement itself that it does not share with an expression, and those of the
spells that it declares. -/
def Stmt.places : Stmt → List Pos
  | .update _ _ pos _ => [pos]
  | .load pos _ _ => [pos]
  | .raise pos _ => [pos]
  | .within pos _ _ _ => [pos]
  | .spell decl => [decl.name.pos]
  | .grimoire decl =>
    decl.parent.toList.map (·.pos) ++ (decl.init.toList ++ decl.methods).map (·.name.pos)
  | _ => []

structure Stmt.Placed (s : Stmt) : Prop where
  places : ∀ p ∈ s.places, p.IsKnown
  trees : ∀ e ∈ s.trees, e.All Expr.Placed

theorem Expr.pos_mem_places (e : Expr) : e.pos ∈ e.places := by
  cases e <;> exact List.mem_cons_self

end Spellbook
