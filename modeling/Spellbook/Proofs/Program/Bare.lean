import Spellbook.Proofs.Program.Parts

/-! Programs without their places. -/
namespace Spellbook

def Place.bare : Place → Place
  | .name id => .name id.bare
  | .attr object member => .attr object.bare member.bare
  | .index _ object i => .index .start object.bare i.bare

def Target.bare : Target → Target
  | .place p => .place p.bare
  | .tuple _ names => .tuple .start (names.map Ident.bare)

def Pattern.bare : Pattern → Pattern
  | .one id => .one id.bare
  | .tuple _ names => .tuple .start (names.map Ident.bare)

def Param.bare (q : Param) : Param :=
  ⟨q.name.bare, q.hint.map Ident.bare, q.default.map Expr.bare⟩

mutual

def Stmt.bare : Stmt → Stmt
  | .expr e => .expr e.bare
  | .assign target _ value => .assign target.bare .start value.bare
  | .update place op _ value => .update place.bare op .start value.bare
  | .give _ value => .give .start (value.map Expr.bare)
  | .cond _ condition body branches otherwise => .cond .start condition.bare (Stmt.bareAll body)
      (Stmt.bareBranches branches) (Stmt.bareBlock otherwise)
  | .loop _ condition body => .loop .start condition.bare (Stmt.bareAll body)
  | .each _ pattern iterable body otherwise =>
    .each .start pattern.bare iterable.bare (Stmt.bareAll body) (Stmt.bareBlock otherwise)
  | .spell decl => .spell decl.bare
  | .grimoire decl => .grimoire decl.bare
  | .load _ path binder => .load .start path (binder.map Ident.bare)
  | .choose _ subject cases default =>
    .choose .start subject.bare (Stmt.bareBranches cases) (Stmt.bareBlock default)
  | .attempt _ body ensnares resolve =>
    .attempt .start (Stmt.bareAll body) (Ensnare.bareAll ensnares) (Stmt.bareBlock resolve)
  | .raise _ value => .raise .start value.bare
  | .stop _ => .stop .start
  | .skip _ => .skip .start
  | .ignore _ => .ignore .start
  | .global _ names => .global .start (names.map Ident.bare)
  | .within _ resource binder body =>
    .within .start resource.bare (binder.map Ident.bare) (Stmt.bareAll body)
  | .main _ body => .main .start (Stmt.bareAll body)

def SpellDecl.bare : SpellDecl → SpellDecl
  | ⟨name, params, body, arcane⟩ =>
    ⟨name.bare, params.map Param.bare, Stmt.bareAll body, arcane⟩

def GrimoireDecl.bare : GrimoireDecl → GrimoireDecl
  | ⟨name, parent, init, methods, arcane⟩ =>
    ⟨name.bare, parent.map Ident.bare, SpellDecl.bareInit init, SpellDecl.bareAll methods, arcane⟩

def Ensnare.bare : Ensnare → Ensnare
  | ⟨_, condition, binder, body⟩ =>
    ⟨.start, condition.map Expr.bare, binder.map Ident.bare, Stmt.bareAll body⟩

def Stmt.bareAll : List Stmt → List Stmt
  | [] => []
  | s :: more => s.bare :: Stmt.bareAll more

def Stmt.bareBlock : Option (List Stmt) → Option (List Stmt)
  | none => none
  | some body => some (Stmt.bareAll body)

def Stmt.bareBranches : List (Expr × List Stmt) → List (Expr × List Stmt)
  | [] => []
  | (e, body) :: more => (e.bare, Stmt.bareAll body) :: Stmt.bareBranches more

def SpellDecl.bareInit : Option SpellDecl → Option SpellDecl
  | none => none
  | some decl => some decl.bare

def SpellDecl.bareAll : List SpellDecl → List SpellDecl
  | [] => []
  | decl :: more => decl.bare :: SpellDecl.bareAll more

def Ensnare.bareAll : List Ensnare → List Ensnare
  | [] => []
  | handler :: more => handler.bare :: Ensnare.bareAll more

end

def Program.bare (p : Program) : Program := ⟨Stmt.bareAll p.statements⟩

section Congr

variable {pos pos' : Pos} {e e' : Expr} {value value' : Option Expr}

theorem Stmt.bare_expr_congr (h : e'.bare = e.bare) : (Stmt.expr e').bare = (Stmt.expr e).bare := by
  rw [bare, bare, h]

theorem Stmt.bare_raise_congr (h : e'.bare = e.bare) :
    (Stmt.raise pos' e').bare = (Stmt.raise pos e).bare := by
  rw [bare, bare, h]

theorem Stmt.bare_give_congr (h : value'.map Expr.bare = value.map Expr.bare) :
    (Stmt.give pos' value').bare = (Stmt.give pos value).bare := by
  rw [bare, bare, h]

end Congr

theorem Stmt.bareAll_eq_map (body : List Stmt) : Stmt.bareAll body = body.map Stmt.bare := by
  induction body with
  | nil => rfl
  | cons s body ih => rw [bareAll, ih, List.map_cons]

theorem SpellDecl.bareAll_eq_map (decls : List SpellDecl) :
    SpellDecl.bareAll decls = decls.map SpellDecl.bare := by
  induction decls with
  | nil => rfl
  | cons decl decls ih => rw [bareAll, ih, List.map_cons]

theorem SpellDecl.bareInit_eq_map (decl : Option SpellDecl) :
    SpellDecl.bareInit decl = decl.map SpellDecl.bare := by
  cases decl <;> rfl

end Spellbook
