import Spellbook.Proofs.Program.Places

/-! The pieces of a program that are evaluated one by one, with what each of them does by itself:
what it evaluates next, the names it binds, and the places it reports at. -/
namespace Spellbook

/-- What an evaluator is given. -/
inductive Code where
  | expr (e : Expr)
  | stmt (s : Stmt)
  | spell (decl : SpellDecl)

def Place.names : Place → List String
  | .name id => [id.name]
  | _ => []

def Target.names : Target → List String
  | .place p => p.names
  | .tuple _ names => names.map (·.name)

def Expr.name? : Expr → Option String
  | .name id => some id.name
  | _ => none

def Expr.names : Expr → List String
  | .preStep _ _ target => [target.name]
  | .postStep _ _ target => [target.name]
  | _ => []

/-- The names that a statement binds by itself, handlers apart. The methods of a grimoire know their
receiver under names of its own. -/
def Stmt.names : Stmt → List String
  | .assign target _ _ => target.names
  | .update place _ _ _ => place.names
  | .each _ pattern _ _ _ => pattern.toTarget.names
  | .spell decl => [decl.name.name]
  | .grimoire decl => [decl.name.name, "self", "super"]
  | .load _ _ binder => binder.toList.map (·.name)
  | .within _ _ binder _ => binder.toList.map (·.name)
  | _ => []

/-- The names that a handler may bind to what it catches. -/
def Ensnare.names (h : Ensnare) : List String :=
  h.condition.toList.filterMap Expr.name? ++ h.binder.toList.map (·.name)

def Stmt.handlers : Stmt → List Ensnare
  | .attempt _ _ handlers _ => handlers
  | _ => []

namespace Code

def exprs : Code → List Expr
  | .expr e => e.parts
  | .stmt s => s.exprs
  | .spell decl => decl.defaults

def stmts : Code → List Stmt
  | .expr _ => []
  | .stmt s => s.blocks
  | .spell decl => decl.body

def places : Code → List Pos
  | .expr e => e.places
  | .stmt s => s.places ++ s.trees.flatMap Expr.places
  | .spell decl => [decl.name.pos]

def names : Code → List String
  | .expr e => e.names
  | .stmt s => s.names
  | .spell decl => decl.params.map (·.name.name)

def catches : Code → List String
  | .stmt s => s.handlers.flatMap Ensnare.names
  | _ => []

def spells : Code → List SpellDecl
  | .stmt s => s.spells
  | _ => []

end Code

def Program.HasCode (p : Program) : Code → Prop
  | .expr e => p.HasExpr e
  | .stmt s => p.Has s
  | .spell decl => ∃ s, p.Has s ∧ decl ∈ s.spells

theorem Place.mem_parts {place : Place} {e : Expr} (h : e ∈ place.exprs) :
    e ∈ place.toExpr.parts := by
  cases place with
  | name id => cases h
  | attr object id => exact h
  | index pos object i => exact h

/-- A statement evaluates its trees, or the parts of one of them that it assigns to. -/
theorem Stmt.mem_trees_or_parts {s : Stmt} {e : Expr} (he : e ∈ s.exprs) :
    e ∈ s.trees ∨ ∃ tree ∈ s.trees, e ∈ tree.parts := by
  cases s with
  | assign target pos value =>
    rcases List.mem_cons.1 he with rfl | he
    · exact .inl (by simp [trees])
    · cases target with
      | place place => exact .inr ⟨place.toExpr, by simp [trees, Target.toExpr], Place.mem_parts he⟩
      | tuple pos names => cases he
  | update place op pos value =>
    rcases List.mem_cons.1 he with rfl | he
    · exact .inl (by simp [trees])
    · exact .inr ⟨place.toExpr, by simp [trees], Place.mem_parts he⟩
  | each pos pattern iterable body otherwise =>
    obtain rfl := List.mem_singleton.1 he
    exact .inl (by simp [trees])
  | expr | give | cond | loop | choose | attempt | raise | within =>
    exact .inl (List.mem_append_left _ he)
  | spell | grimoire | load | stop | skip | ignore | global | main => cases he

theorem Program.Has.hasExpr {p : Program} {s : Stmt} {e : Expr} (hs : p.Has s)
    (he : e ∈ s.exprs) : p.HasExpr e := by
  rcases Stmt.mem_trees_or_parts he with he | ⟨tree, ht, he⟩
  · exact .tree hs he
  · exact HasExpr.part (.tree hs ht) he

namespace Program.HasCode

variable {p : Program} {c : Code}

theorem expr (hc : p.HasCode c) {e : Expr} (he : e ∈ c.exprs) : p.HasCode (.expr e) := by
  cases c with
  | expr e' => exact HasExpr.part hc he
  | stmt s => exact Has.hasExpr hc he
  | spell decl =>
    obtain ⟨s, hs, hd⟩ := hc
    have htree : e ∈ s.spells.flatMap SpellDecl.defaults := List.mem_flatMap.2 ⟨decl, hd, he⟩
    cases s with
    | spell _ => exact HasExpr.tree hs htree
    | grimoire _ => exact HasExpr.tree hs htree
    | _ => cases hd

theorem stmt (hc : p.HasCode c) {s : Stmt} (hs : s ∈ c.stmts) : p.HasCode (.stmt s) := by
  cases c with
  | expr e => cases hs
  | stmt s' => exact Has.inside hc (List.mem_append_left _ hs)
  | spell decl =>
    obtain ⟨s', hs', hd⟩ := hc
    exact hs'.inside (List.mem_append_right _ (List.mem_flatMap.2 ⟨decl, hd, hs⟩))

theorem spell (hc : p.HasCode c) {decl : SpellDecl} (hd : decl ∈ c.spells) :
    p.HasCode (.spell decl) := by
  cases c with
  | stmt s => exact ⟨s, hc, hd⟩
  | _ => cases hd

end Program.HasCode

/-! Checking all code of a program -/

def Code.isSpell : Code → Bool
  | .spell _ => true
  | _ => false

/-- Whether the code in statements nested at most `depth` deep passes a check. -/
def passesWithin (check : Code → Bool) : Nat → List Stmt → Bool
  | 0, ss => ss.isEmpty
  | depth + 1, ss =>
    ss.all (fun s => check (.stmt s) && s.spells.all (fun decl => check (.spell decl)) &&
        s.trees.all fun e => decide (e.All fun e => check (.expr e) = true)) &&
      passesWithin check depth (ss.flatMap Stmt.children)

theorem Program.HasCode.passes {p : Program} (check : Code → Bool) (depth : Nat)
    (h : passesWithin check depth p.statements = true) {c : Code} (hc : p.HasCode c) :
    check c = true := by
  have hlevel : ∀ depth ss s, passesWithin check depth ss = true → s ∈ ss →
      (check (.stmt s) = true ∧ (∀ decl ∈ s.spells, check (.spell decl) = true) ∧
        ∀ e ∈ s.trees, e.All fun e => check (.expr e) = true) ∧
      ∃ depth ss, passesWithin check depth ss = true ∧ ∀ s' ∈ s.children, s' ∈ ss := by
    intro depth ss s hd hs
    cases depth with
    | zero =>
      rw [List.isEmpty_iff.1 hd] at hs
      cases hs
    | succ depth =>
      obtain ⟨hall, hrest⟩ := Bool.and_eq_true_iff.1 hd
      refine ⟨?_, depth, _, hrest, fun s' h => List.mem_flatMap.2 ⟨s, hs, h⟩⟩
      simpa [and_assoc] using List.all_eq_true.1 hall s hs
  have hstmt : ∀ s, p.Has s → ∃ depth ss, passesWithin check depth ss = true ∧ s ∈ ss := by
    intro s hs
    induction hs with
    | top hs => exact ⟨depth, _, h, hs⟩
    | inside _ hs ih =>
      obtain ⟨depth, ss, hd, hmem⟩ := ih
      obtain ⟨_, depth', ss', hd', hchildren⟩ := hlevel depth ss _ hd hmem
      exact ⟨depth', ss', hd', hchildren _ hs⟩
  have hpassed := fun s (hs : p.Has s) =>
    have ⟨depth, ss, hd, hmem⟩ := hstmt s hs
    (hlevel depth ss s hd hmem).1
  cases c with
  | stmt s => exact (hpassed s hc).1
  | spell decl =>
    obtain ⟨s, hs, hd⟩ := hc
    exact (hpassed s hs).2.1 decl hd
  | expr e =>
    have hexpr : e.All fun e => check (.expr e) = true := by
      induction hc with
      | tree hs he => exact (hpassed _ hs).2.2 _ he
      | part _ he ih => exact ih.part he
    exact hexpr.self

end Spellbook
