import Spellbook.Program.Stmt

/-! What expressions and statements are made of. A part is always smaller than the whole. -/
namespace Spellbook

def Part.hole? : Part → Option Expr
  | .text _ => none
  | .hole e => some e

def Expr.parts : Expr → List Expr
  | .unary _ _ operand => [operand]
  | .binary _ _ left right => [left, right]
  | .call _ callee args => callee :: args
  | .index _ object i => [object, i]
  | .slice _ object start stop => object :: (start.toList ++ stop.toList)
  | .attr object _ => [object]
  | .array _ elements => elements
  | .tuple _ elements => elements
  | .map _ entries => entries.flatMap fun entry => [entry.1, entry.2]
  | .template _ parts => parts.filterMap Part.hole?
  | _ => []

def Place.exprs : Place → List Expr
  | .name _ => []
  | .attr object _ => [object]
  | .index _ object i => [object, i]

def Target.exprs : Target → List Expr
  | .place p => p.exprs
  | .tuple _ _ => []

def Stmt.exprs : Stmt → List Expr
  | .expr e => [e]
  | .assign target _ value => value :: target.exprs
  | .update place _ _ value => value :: place.exprs
  | .give _ value => value.toList
  | .cond _ condition _ branches _ => condition :: branches.map (·.1)
  | .loop _ condition _ => [condition]
  | .each _ _ iterable _ _ => [iterable]
  | .choose _ subject cases _ => subject :: cases.map (·.1)
  | .attempt _ _ ensnares _ => ensnares.filterMap (·.condition)
  | .raise _ value => [value]
  | .within _ resource _ _ => [resource]
  | _ => []

def Stmt.blocks : Stmt → List Stmt
  | .cond _ _ body branches otherwise => body ++ branches.flatMap (·.2) ++ otherwise.getD []
  | .loop _ _ body => body
  | .each _ _ _ body otherwise => body ++ otherwise.getD []
  | .choose _ _ cases default => cases.flatMap (·.2) ++ default.getD []
  | .attempt _ body ensnares resolve => body ++ ensnares.flatMap (·.body) ++ resolve.getD []
  | .within _ _ _ body => body
  | .main _ body => body
  | _ => []

def Stmt.spells : Stmt → List SpellDecl
  | .spell decl => [decl]
  | .grimoire decl => decl.init.toList ++ decl.methods
  | _ => []

/-- The lists of statements that stand in a statement, each as a body of its own. Those in the body of
a grimoire are its spells. -/
def Stmt.bodies : Stmt → List (List Stmt)
  | .cond _ _ body branches otherwise => body :: branches.map (·.2) ++ otherwise.toList
  | .loop _ _ body => [body]
  | .each _ _ _ body otherwise => body :: otherwise.toList
  | .choose _ _ cases default => cases.map (·.2) ++ default.toList
  | .attempt _ body ensnares resolve => body :: ensnares.map (·.body) ++ resolve.toList
  | .within _ _ _ body => [body]
  | .main _ body => [body]
  | .spell decl => [decl.body]
  | .grimoire decl => [(decl.init.toList ++ decl.methods).map .spell]
  | _ => []

def Stmt.isLoop : Stmt → Bool
  | .loop .. => true
  | _ => false

def SpellDecl.defaults (decl : SpellDecl) : List Expr := decl.params.filterMap (·.default)

/-- The statements inside a statement: those that it runs, and those of the spells it declares. -/
def Stmt.children (s : Stmt) : List Stmt := s.blocks ++ s.spells.flatMap (·.body)

/-- The expressions that stand in a statement, with what it assigns to and the defaults of the
spells it declares. -/
def Stmt.trees : Stmt → List Expr
  | .assign target _ value => [target.toExpr, value]
  | .update place _ _ value => [place.toExpr, value]
  | .each _ pattern iterable _ _ => [pattern.toTarget.toExpr, iterable]
  | s => s.exprs ++ s.spells.flatMap SpellDecl.defaults

inductive Program.Has (p : Program) : Stmt → Prop where
  | top {s : Stmt} : s ∈ p.statements → p.Has s
  | inside {s s' : Stmt} : p.Has s → s' ∈ s.children → p.Has s'

/-- A program has the expressions that stand in its statements, and their parts. -/
inductive Program.HasExpr (p : Program) : Expr → Prop where
  | tree {s : Stmt} {e : Expr} : p.Has s → e ∈ s.trees → p.HasExpr e
  | part {e e' : Expr} : p.HasExpr e → e' ∈ e.parts → p.HasExpr e'

inductive Expr.All (P : Expr → Prop) : Expr → Prop where
  | mk {e : Expr} : P e → (∀ e' ∈ e.parts, All P e') → All P e

/-- A statement and all that are inside it have a property. -/
inductive Stmt.All (P : Stmt → Prop) : Stmt → Prop where
  | mk {s : Stmt} : P s → (∀ s' ∈ s.children, All P s') → All P s

theorem Expr.All.self {P : Expr → Prop} {e : Expr} : e.All P → P e
  | .mk h _ => h

theorem Expr.All.part {P : Expr → Prop} {e e' : Expr} : e.All P → e' ∈ e.parts → e'.All P
  | .mk _ h => h e'

theorem Stmt.All.self {P : Stmt → Prop} {s : Stmt} : s.All P → P s
  | .mk h _ => h

theorem Stmt.All.child {P : Stmt → Prop} {s s' : Stmt} : s.All P → s' ∈ s.children → s'.All P
  | .mk _ h => h s'

theorem Stmt.All.imp {P Q : Stmt → Prop} {s : Stmt} (h : s.All P) (hpq : ∀ s, P s → Q s) :
    s.All Q := by
  induction h with
  | mk hs _ ih => exact .mk (hpq _ hs) ih

theorem Expr.sizeOf_lt_of_mem_parts {e e' : Expr} (h : e' ∈ e.parts) : sizeOf e' < sizeOf e := by
  cases e with
  | name | literal | preStep | postStep | super => cases h
  | unary pos op operand =>
    obtain rfl := List.mem_singleton.1 h
    simp only [unary.sizeOf_spec]
    omega
  | binary pos op left right =>
    simp only [parts, List.mem_cons, List.not_mem_nil, or_false] at h
    rcases h with rfl | rfl <;> simp only [binary.sizeOf_spec] <;> omega
  | call pos callee args =>
    rcases List.mem_cons.1 h with rfl | h
    · simp only [call.sizeOf_spec]
      omega
    · have := List.sizeOf_lt_of_mem h
      simp only [call.sizeOf_spec]
      omega
  | index pos object i =>
    simp only [parts, List.mem_cons, List.not_mem_nil, or_false] at h
    rcases h with rfl | rfl <;> simp only [index.sizeOf_spec] <;> omega
  | slice pos object start stop =>
    simp only [parts, List.mem_cons, List.mem_append, Option.mem_toList] at h
    rcases h with rfl | rfl | rfl <;> simp only [slice.sizeOf_spec, Option.some.sizeOf_spec] <;>
      omega
  | attr object member =>
    obtain rfl := List.mem_singleton.1 h
    simp only [attr.sizeOf_spec]
    omega
  | array pos elements =>
    have hlt : sizeOf e' < sizeOf elements := List.sizeOf_lt_of_mem h
    simp only [array.sizeOf_spec]
    omega
  | tuple pos elements =>
    have hlt : sizeOf e' < sizeOf elements := List.sizeOf_lt_of_mem h
    simp only [tuple.sizeOf_spec]
    omega
  | map pos entries =>
    obtain ⟨entry, hmem, he⟩ := List.mem_flatMap.1 h
    have hlt := List.sizeOf_lt_of_mem hmem
    simp only [List.mem_cons, List.not_mem_nil, or_false] at he
    obtain ⟨k, v⟩ := entry
    simp only [Prod.mk.sizeOf_spec] at hlt
    rcases he with rfl | rfl <;> simp only [map.sizeOf_spec] <;> omega
  | template pos parts =>
    obtain ⟨part, hmem, he⟩ := List.mem_filterMap.1 h
    have hlt := List.sizeOf_lt_of_mem hmem
    cases part with
    | text s => cases he
    | hole e =>
      cases he
      simp only [Part.hole.sizeOf_spec] at hlt
      simp only [template.sizeOf_spec]
      omega

instance Expr.decidableAll (P : Expr → Prop) [DecidablePred P] (e : Expr) : Decidable (e.All P) :=
  have : ∀ x : { x // x ∈ e.parts }, Decidable (x.1.All P) := fun x => decidableAll P x.1
  decidable_of_iff (P e ∧ ∀ x ∈ e.parts.attach, x.1.All P)
    ⟨fun h => .mk h.1 fun e' he => h.2 ⟨e', he⟩ (List.mem_attach _ _),
      fun h => ⟨h.self, fun x _ => h.part x.2⟩⟩
termination_by sizeOf e
decreasing_by exact sizeOf_lt_of_mem_parts x.2

/-! Expressions without their places -/

def Ident.bare (id : Ident) : Ident := ⟨id.name, .start⟩

mutual

def Expr.bare : Expr → Expr
  | .name id => .name id.bare
  | .literal _ value => .literal .start value
  | .unary _ op operand => .unary .start op operand.bare
  | .binary _ op left right => .binary .start op left.bare right.bare
  | .preStep _ step target => .preStep .start step target.bare
  | .postStep _ step target => .postStep .start step target.bare
  | .call _ callee args => .call .start callee.bare (Expr.bareAll args)
  | .index _ object i => .index .start object.bare i.bare
  | .slice _ object start stop =>
    .slice .start object.bare (Expr.bareBound start) (Expr.bareBound stop)
  | .attr object member => .attr object.bare member.bare
  | .array _ elements => .array .start (Expr.bareAll elements)
  | .tuple _ elements => .tuple .start (Expr.bareAll elements)
  | .map _ entries => .map .start (Expr.bareEntries entries)
  | .template _ parts => .template .start (Part.bareAll parts)
  | .super _ method => .super .start method.bare

def Expr.bareAll : List Expr → List Expr
  | [] => []
  | e :: more => e.bare :: Expr.bareAll more

def Expr.bareEntries : List (Expr × Expr) → List (Expr × Expr)
  | [] => []
  | (k, v) :: more => (k.bare, v.bare) :: Expr.bareEntries more

def Expr.bareBound : Option Expr → Option Expr
  | none => none
  | some e => some e.bare

def Part.bareAll : List Part → List Part
  | [] => []
  | .text s :: more => .text s :: Part.bareAll more
  | .hole e :: more => .hole e.bare :: Part.bareAll more

end

theorem Expr.eq_name_of_bare {e : Expr} {id : Ident} (h : e.bare = .name id) :
    ∃ id', e = .name id' ∧ id'.bare = id := by
  cases e with
  | name id' =>
    simp only [bare, name.injEq] at h
    exact ⟨id', rfl, h⟩
  | _ =>
    simp only [bare] at h
    cases h

/-! Statements inside statements -/

theorem sizeOf_lt_of_mem_getD {s : Stmt} {body : Option (List Stmt)} (h : s ∈ body.getD []) :
    sizeOf s < sizeOf body := by
  cases body with
  | none => cases h
  | some body =>
    have hlt : sizeOf s < sizeOf body := List.sizeOf_lt_of_mem h
    simp only [Option.some.sizeOf_spec]
    omega

theorem sizeOf_lt_of_mem_branches {s : Stmt} {branches : List (Expr × List Stmt)}
    (h : s ∈ branches.flatMap (·.2)) : sizeOf s < sizeOf branches := by
  obtain ⟨⟨e, body⟩, hmem, hs⟩ := List.mem_flatMap.1 h
  have hbranch := List.sizeOf_lt_of_mem hmem
  have hbody : sizeOf s < sizeOf body := List.sizeOf_lt_of_mem hs
  simp only [Prod.mk.sizeOf_spec] at hbranch
  omega

theorem sizeOf_lt_of_mem_ensnares {s : Stmt} {ensnares : List Ensnare}
    (h : s ∈ ensnares.flatMap (·.body)) : sizeOf s < sizeOf ensnares := by
  obtain ⟨⟨pos, condition, binder, body⟩, hmem, hs⟩ := List.mem_flatMap.1 h
  have hensnare := List.sizeOf_lt_of_mem hmem
  have hbody : sizeOf s < sizeOf body := List.sizeOf_lt_of_mem hs
  simp only [Ensnare.mk.sizeOf_spec] at hensnare
  omega

theorem Stmt.sizeOf_lt_of_mem_blocks {s s' : Stmt} (h : s' ∈ s.blocks) :
    sizeOf s' < sizeOf s := by
  cases s with
  | cond pos condition body branches otherwise =>
    simp only [blocks, List.mem_append] at h
    simp only [cond.sizeOf_spec]
    rcases h with (h | h) | h
    · have := List.sizeOf_lt_of_mem h
      omega
    · have := sizeOf_lt_of_mem_branches h
      omega
    · have := sizeOf_lt_of_mem_getD h
      omega
  | loop pos condition body =>
    have hlt : sizeOf s' < sizeOf body := List.sizeOf_lt_of_mem h
    simp only [loop.sizeOf_spec]
    omega
  | each pos pattern iterable body otherwise =>
    simp only [blocks, List.mem_append] at h
    simp only [each.sizeOf_spec]
    rcases h with h | h
    · have := List.sizeOf_lt_of_mem h
      omega
    · have := sizeOf_lt_of_mem_getD h
      omega
  | choose pos subject cases default =>
    simp only [blocks, List.mem_append] at h
    simp only [choose.sizeOf_spec]
    rcases h with h | h
    · have := sizeOf_lt_of_mem_branches h
      omega
    · have := sizeOf_lt_of_mem_getD h
      omega
  | attempt pos body ensnares resolve =>
    simp only [blocks, List.mem_append] at h
    simp only [attempt.sizeOf_spec]
    rcases h with (h | h) | h
    · have := List.sizeOf_lt_of_mem h
      omega
    · have := sizeOf_lt_of_mem_ensnares h
      omega
    · have := sizeOf_lt_of_mem_getD h
      omega
  | within pos resource binder body =>
    have hlt : sizeOf s' < sizeOf body := List.sizeOf_lt_of_mem h
    simp only [within.sizeOf_spec]
    omega
  | main pos body =>
    have hlt : sizeOf s' < sizeOf body := List.sizeOf_lt_of_mem h
    simp only [main.sizeOf_spec]
    omega
  | expr | assign | update | give | spell | grimoire | load | raise | stop | skip | ignore
  | global => cases h

end Spellbook
