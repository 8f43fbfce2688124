import Spellbook.Proofs.Program.Places
import Spellbook.Proofs.Token.Steps
import Spellbook.Proofs.Token.Spans

/-! The tokens that expressions and statements get their places from. A place is more than a number
if it is known what stands there. -/
namespace Spellbook

def UnaryOp.kind : UnaryOp → Kind
  | .negate => .symbol .minus | .plus => .symbol .plus | .bang => .symbol .bang
  | .not => .keyword .not_ | .complement => .symbol .tilde

/-- The token of an operator. For `not in` it is the first of its two words. -/
def Operator.kind : Operator → Kind
  | .equal => .symbol .equal | .notEqual => .symbol .notEqual | .less => .symbol .less
  | .greater => .symbol .greater | .lessEqual => .symbol .lessEqual
  | .greaterEqual => .symbol .greaterEqual | .isIn => .keyword .in_ | .notIn => .keyword .not_
  | .bitAnd => .symbol .ampersand | .bitOr => .symbol .pipe | .bitXor => .symbol .caret
  | .shiftLeft => .symbol .shiftLeft | .shiftRight => .symbol .shiftRight
  | .add => .symbol .plus | .sub => .symbol .minus | .mul => .symbol .star
  | .div => .symbol .slash | .mod => .symbol .percent | .pow => .symbol .power

def BinaryOp.kind : BinaryOp → Kind
  | .connective .and => .keyword .and_
  | .connective .or => .keyword .or_
  | .operator o => o.kind

def Step.kind : Step → Kind
  | .increment => .symbol .increment
  | .decrement => .symbol .decrement

def Update.kind : Update → Kind
  | .add => .symbol .plusAssign | .sub => .symbol .minusAssign
  | .mul => .symbol .starAssign | .div => .symbol .slashAssign

/-- A place, and what tokens may stand there. -/
structure Mark where
  pos : Pos
  Fits : Token → Prop

def Kind.mark (k : Kind) (pos : Pos) : Mark := ⟨pos, fun t => t.kind = k⟩

def Ident.mark (id : Ident) : Mark := ⟨id.pos, fun t => t.lexeme = id.name⟩

def Literal.mark (value : Literal) (pos : Pos) : Mark :=
  ⟨pos, fun t => t.literal = some value ∨ value = .none ∧ t.kind = .keyword .none⟩

/-- The tokens an expression itself is made from, without those of its parts. A tuple without
parentheses has the place of its first element. -/
def Expr.marks : Expr → List Mark
  | .name id => [id.mark]
  | .literal pos value => [value.mark pos]
  | .unary pos op _ => [op.kind.mark pos]
  | .binary pos op _ _ => [op.kind.mark pos]
  | .preStep pos step target => [step.kind.mark pos, target.mark]
  | .postStep pos step target => [step.kind.mark pos, target.mark]
  | .call pos _ _ => [Kind.mark (.symbol .leftParen) pos]
  | .index pos _ _ => [Kind.mark (.symbol .leftBracket) pos]
  | .slice pos _ _ _ => [Kind.mark (.symbol .leftBracket) pos]
  | .attr _ member => [member.mark]
  | .array pos _ => [Kind.mark (.symbol .leftBracket) pos]
  | .tuple pos elements =>
    [⟨pos, fun t => t.kind = .symbol .leftParen ∨ elements.head?.map Expr.pos = some pos⟩]
  | .map pos _ => [Kind.mark (.symbol .leftBrace) pos]
  | .template pos _ => [Kind.mark .template pos]
  | .super pos method => [Kind.mark (.keyword .super) pos, method.mark]

theorem Expr.places_eq (e : Expr) : e.places = e.marks.map Mark.pos := by
  cases e <;> rfl

def Param.marks (q : Param) : List Mark := q.name.mark :: q.hint.toList.map Ident.mark

def SpellDecl.marks (decl : SpellDecl) : List Mark :=
  decl.name.mark :: decl.params.flatMap Param.marks

def Ensnare.marks (h : Ensnare) : List Mark :=
  Kind.mark (.keyword .ensnare) h.pos :: h.binder.toList.map Ident.mark

/-- The tokens a statement itself is made from, without those of its expressions and of the
statements inside. -/
def Stmt.marks : Stmt → List Mark
  | .expr _ => []
  | .assign _ pos _ => [Kind.mark (.symbol .assign) pos]
  | .update _ op pos _ => [op.kind.mark pos]
  | .give pos _ => [Kind.mark (.keyword .return_) pos]
  | .cond pos _ _ _ _ => [Kind.mark (.keyword .if_) pos]
  | .loop pos _ _ => [Kind.mark (.keyword .while_) pos]
  | .each pos _ _ _ _ => [Kind.mark (.keyword .for_) pos]
  | .spell decl => decl.marks
  | .grimoire decl => decl.name.mark :: decl.parent.toList.map Ident.mark ++
      (decl.init.toList ++ decl.methods).flatMap SpellDecl.marks
  | .load pos _ binder => Kind.mark (.keyword .import_) pos :: binder.toList.map Ident.mark
  | .choose pos _ _ _ => [Kind.mark (.keyword .match_) pos]
  | .attempt pos _ ensnares _ =>
    Kind.mark (.keyword .attempt) pos :: ensnares.flatMap Ensnare.marks
  | .raise pos _ => [Kind.mark (.keyword .raise) pos]
  | .stop pos => [Kind.mark (.keyword .stop) pos]
  | .skip pos => [Kind.mark (.keyword .skip) pos]
  | .ignore pos => [Kind.mark (.keyword .ignore) pos]
  | .global pos names => Kind.mark (.keyword .global) pos :: names.map Ident.mark
  | .within pos _ binder _ => Kind.mark (.keyword .with_) pos :: binder.toList.map Ident.mark
  | .main pos _ => [Kind.mark (.keyword .main) pos]

theorem Stmt.places_subset (s : Stmt) : s.places ⊆ s.marks.map Mark.pos := by
  cases s with
  | grimoire decl =>
    intro p hp
    simp only [Stmt.places, List.mem_append, List.mem_map] at hp
    simp only [Stmt.marks, List.map_append, List.map_cons, List.map_map, List.mem_append,
      List.mem_cons, List.mem_map, List.mem_flatMap]
    obtain ⟨id, hid, rfl⟩ | ⟨d, hd, rfl⟩ := hp
    · exact .inl (.inr ⟨id, hid, rfl⟩)
    · exact .inr ⟨d.name.mark, ⟨d, hd, List.mem_cons_self⟩, rfl⟩
  | _ => simp [Stmt.places, Stmt.marks, SpellDecl.marks, Kind.mark, Ident.mark]

/-- The text has a token in its place there, and it fits. -/
def Mark.StandsIn (text : String) (k : Mark) : Prop :=
  ∃ t ∈ tokensOf text, t.StandsIn text ∧ t.pos = k.pos ∧ k.Fits t

/-- A token that is written out in the text stands at the mark, and fits. -/
def HasToken (text : String) (k : Mark) : Prop :=
  ∃ t ∈ tokensOf text, t.kind.isSolid = true ∧ t.pos = k.pos ∧ k.Fits t

namespace HasToken

variable {text : String} {k : Mark}

theorem isKnown (h : HasToken text k) : k.pos.IsKnown := by
  obtain ⟨t, ht, _, hpos, _⟩ := h
  exact hpos ▸ line_pos_of_mem_tokensOf ht

theorem imp (h : HasToken text k) {Fits : Token → Prop} (hf : ∀ t, k.Fits t → Fits t) :
    HasToken text ⟨k.pos, Fits⟩ := by
  obtain ⟨t, ht, hsolid, hpos, hfits⟩ := h
  exact ⟨t, ht, hsolid, hpos, hf t hfits⟩

theorem standsIn (h : HasToken text k) : k.StandsIn text := by
  obtain ⟨t, ht, hsolid, hpos, hfits⟩ := h
  exact ⟨t, ht, standsIn_of_mem_tokensOf ht hsolid, hpos, hfits⟩

end HasToken

end Spellbook
