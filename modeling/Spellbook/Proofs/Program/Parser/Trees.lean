import Spellbook.Program.Parser
import Spellbook.Proofs.Program.Marks
import Spellbook.Proofs.Token.Feed
import Spellbook.Proofs.Token.Words

/-! What a tree is that is read from a text: all that it is made of is written as tokens are and
stands where tokens of the text do. What stands in a hole of a template is read from the text of the
hole, as if there were nothing else. A complaint about a lexical error says what its token says. -/
namespace Spellbook

/-- A word that can stand for a variable. -/
def Ident.IsVariable (id : Ident) : Prop :=
  Scan.IsWord id.name.toList ∧
    (Keyword.ofWord? id.name = none ∨ Keyword.ofWord? id.name = some .self)

/-- What is taken from tokens is written as tokens are: names are words, integers have no sign. -/
def Expr.Proper : Expr → Prop
  | .name id => id.IsVariable
  | .literal _ (.int n) => 0 ≤ n.toInt
  | .preStep _ _ target => target.IsVariable
  | .postStep _ _ target => target.IsVariable
  | .attr _ member => Scan.IsWord member.name.toList
  | .super _ method => Scan.IsWord method.name.toList
  | _ => True

/-- The characters stand between braces in what a template is made from. -/
def Token.HasHole (t : Token) (hole : List Char) : Prop :=
  ∃ content, t.literal = some (.str content) ∧ '\x7b' :: hole ++ ['\x7d'] <:+: content.toList

/-- The texts that the parts of an expression can be read from, if it is read from `text`. -/
def Expr.Lends (e : Expr) (text part : String) : Prop :=
  match e with
  | .template pos _ => ∃ t ∈ tokensOf text, t.kind = .template ∧ t.pos = pos ∧
      ∃ hole, t.HasHole hole ∧ part = String.ofList (Text.trim hole)
  | _ => part = text

/-- The expression is written as tokens are and stands where tokens of the text do, and so do its
parts, each in a text of its own. -/
inductive Expr.ReadFrom : String → Expr → Prop where
  | mk {text : String} {e : Expr} (origin : Expr → String) :
      e.Proper → (∀ k ∈ e.marks, HasToken text k) →
      (∀ e' ∈ e.parts, e.Lends text (origin e')) →
      (∀ e' ∈ e.parts, ReadFrom (origin e') e') → ReadFrom text e

namespace Expr.ReadFrom

variable {text : String} {e : Expr}

theorem proper (h : e.ReadFrom text) : e.Proper := by
  cases h with
  | mk _ hp => exact hp

theorem marked (h : e.ReadFrom text) : ∀ k ∈ e.marks, HasToken text k := by
  cases h with
  | mk _ _ hk => exact hk

theorem part (h : e.ReadFrom text) {e' : Expr} (he : e' ∈ e.parts) :
    ∃ part, e.Lends text part ∧ e'.ReadFrom part := by
  cases h with
  | mk origin _ _ hl hr => exact ⟨origin e', hl e' he, hr e' he⟩

theorem hasToken (h : e.ReadFrom text) {Fits : Token → Prop} (hf : ∀ t, Fits t) :
    HasToken text ⟨e.pos, Fits⟩ := by
  have hpos := e.pos_mem_places
  rw [e.places_eq] at hpos
  obtain ⟨k, hk, hpos⟩ := List.mem_map.1 hpos
  exact hpos ▸ (h.marked k hk).imp fun t _ => hf t

theorem isPlaced (h : e.ReadFrom text) : e.Placed := by
  intro p hp
  rw [e.places_eq] at hp
  obtain ⟨k, hk, rfl⟩ := List.mem_map.1 hp
  exact (h.marked k hk).isKnown

/-- Whatever the texts are that its parts are read from, an expression has throughout what
everything has that is read from a text. -/
theorem all {P : Expr → Prop} (hP : ∀ text e, e.ReadFrom text → P e) (h : e.ReadFrom text) :
    e.All P := by
  induction h with
  | mk origin hp hk hl hr ih => exact .mk (hP _ _ (.mk origin hp hk hl hr)) ih

theorem of_parts (hp : e.Proper) (hk : ∀ k ∈ e.marks, HasToken text k)
    (hparts : ∀ e' ∈ e.parts, ∃ part, e.Lends text part ∧ e'.ReadFrom part) :
    e.ReadFrom text := by
  have horigin : ∀ e', ∃ part, e' ∈ e.parts → e.Lends text part ∧ e'.ReadFrom part := by
    intro e'
    by_cases he : e' ∈ e.parts
    · obtain ⟨part, hpart⟩ := hparts e' he
      exact ⟨part, fun _ => hpart⟩
    · exact ⟨text, fun h => absurd h he⟩
  obtain ⟨origin, horigin⟩ := Classical.skolem.1 horigin
  exact .mk origin hp hk (fun e' he => (horigin e' he).1) fun e' he => (horigin e' he).2

theorem plain (hp : e.Proper) (hk : ∀ k ∈ e.marks, HasToken text k) (hl : e.Lends text text)
    (hparts : ∀ e' ∈ e.parts, e'.ReadFrom text) : e.ReadFrom text :=
  .of_parts hp hk fun e' he => ⟨text, hl, hparts e' he⟩

theorem one {k : Mark} (hp : e.Proper) (he : e.marks = [k]) (hk : HasToken text k)
    (hl : e.Lends text text) (hparts : ∀ e' ∈ e.parts, e'.ReadFrom text) : e.ReadFrom text := by
  refine plain hp (fun k' h => ?_) hl hparts
  rw [he, List.mem_singleton] at h
  exact h ▸ hk

end Expr.ReadFrom

structure Token.Read (text : String) (t : Token) : Prop extends t.Sound where
  found : t ∈ tokensOf text

theorem Token.read_of_mem {text : String} {t : Token} (h : t ∈ tokensOf text) : t.Read text :=
  ⟨sound_tokensOf text t h, h⟩

def Diagnostic.Quotes (tokens : List Token) (d : Diagnostic) : Prop :=
  ∀ reason, d.complaint = .illegal reason →
    ∃ t ∈ tokens, t.kind = .illegal ∧ t.pos = d.pos ∧ t.literal = some (.str reason)

theorem Diagnostic.quotes_of_ne {tokens : List Token} {d : Diagnostic}
    (h : ∀ reason, d.complaint ≠ .illegal reason) : d.Quotes tokens :=
  fun reason hd => absurd hd (h reason)

namespace Token.Read

variable {text : String} {t : Token}

theorem hasToken (h : t.Read text) {k : Kind} (ht : t.kind = k) (hk : k.isSolid = true)
    {Fits : Token → Prop} (hf : Fits t) : HasToken text ⟨t.pos, Fits⟩ := by
  subst ht
  exact ⟨t, h.found, hk, rfl, hf⟩

theorem mark (h : t.Read text) {k : Kind} (ht : t.kind = k) (hk : k.isSolid = true) :
    HasToken text (k.mark t.pos) :=
  h.hasToken ht hk ht

theorem isVariable (h : t.Read text) (ht : t.kind = .ident ∨ t.kind = .keyword .self) :
    (Parser.identOf t).IsVariable := by
  obtain ht | ht := ht
  · exact ⟨(h.ident ht).1, .inl (h.ident ht).2⟩
  · exact ⟨(h.keyword _ ht).1, .inr (h.keyword _ ht).2⟩

theorem ident_mark (h : t.Read text) {k : Kind} (ht : t.kind = k) (hk : k.isSolid = true) :
    HasToken text (Parser.identOf t).mark :=
  h.hasToken ht hk rfl

theorem explained (h : t.Read text) (hk : t.kind = .illegal) :
    ∃ reason, t.literal = some (.str reason) := by
  obtain ⟨l, hl, rfl⟩ := List.mem_map.1 h.found
  have hhonest := Lexer.honest_run _ l hl
  obtain ⟨e, he⟩ := Option.isSome_iff_exists.1 (hhonest.illegal.1 hk)
  exact ⟨_, hhonest.reason e he⟩

theorem quoted (h : t.Read text) (hk : t.kind = .illegal) {reason : String}
    (hreason : t.literal = some (.str reason)) :
    Diagnostic.Quotes (tokensOf text) ⟨t.pos, .illegal reason⟩ := by
  rintro said hsaid
  cases hsaid
  exact ⟨t, h.found, hk, rfl, hreason⟩

end Token.Read

/-! Statements -/

/-- The `init` of a grimoire goes by that name, and none of its other spells does. -/
structure GrimoireDecl.Parted (decl : GrimoireDecl) : Prop where
  init : ∀ f ∈ decl.init, f.name.name = "init"
  methods : ∀ f ∈ decl.methods, f.name.name ≠ "init"

/-- If it declares a grimoire, the `init` of that is kept apart. -/
def Stmt.Parted (s : Stmt) : Prop := ∀ decl, s = .grimoire decl → decl.Parted

theorem Stmt.parted_of_spells {s : Stmt} (h : s.spells = []) : s.Parted := by
  rintro decl rfl
  obtain ⟨hinit, hmethods⟩ := List.append_eq_nil_iff.1 h
  refine ⟨fun f hf => ?_, fun f hf => ?_⟩
  · rw [Option.toList_eq_nil_iff.1 hinit] at hf
    cases hf
  · rw [hmethods] at hf
    cases hf

/-- The statement itself stands where tokens of the text do, the expressions that stand in it are
read from the text, and `init` is apart from other spells. -/
structure Stmt.ReadFrom (text : String) (s : Stmt) : Prop where
  marks : ∀ k ∈ s.marks, HasToken text k
  trees : ∀ e ∈ s.trees, e.ReadFrom text
  parted : s.Parted

theorem Stmt.ReadFrom.isKnown {text : String} {s : Stmt} (h : s.ReadFrom text) :
    ∀ p ∈ s.places, p.IsKnown := by
  intro p hp
  obtain ⟨k, hk, rfl⟩ := List.mem_map.1 (s.places_subset hp)
  exact (h.marks k hk).isKnown

structure Param.ReadFrom (text : String) (q : Param) : Prop where
  marks : ∀ k ∈ q.marks, HasToken text k
  default : ∀ e ∈ q.default, e.ReadFrom text

structure SpellDecl.ReadFrom (text : String) (decl : SpellDecl) : Prop where
  marks : ∀ k ∈ decl.marks, HasToken text k
  defaults : ∀ e ∈ decl.defaults, e.ReadFrom text
  body : ∀ s ∈ decl.body, s.All (Stmt.ReadFrom text)

variable {text : String}

theorem Stmt.All.read {s : Stmt} (ht : s.ReadFrom text)
    (hb : ∀ s' ∈ s.blocks, s'.All (Stmt.ReadFrom text))
    (hd : ∀ decl ∈ s.spells, decl.ReadFrom text) : s.All (Stmt.ReadFrom text) := by
  refine .mk ht fun s' hs => ?_
  rcases List.mem_append.1 hs with hs | hs
  · exact hb s' hs
  · obtain ⟨decl, hdecl, hs⟩ := List.mem_flatMap.1 hs
    exact (hd decl hdecl).body s' hs

theorem Stmt.All.plain {s : Stmt} (ht : ∀ e ∈ s.trees, e.ReadFrom text)
    (hb : ∀ s' ∈ s.blocks, s'.All (Stmt.ReadFrom text)) (hk : ∀ k ∈ s.marks, HasToken text k)
    (hd : s.spells = []) : s.All (Stmt.ReadFrom text) :=
  .read ⟨hk, ht, parted_of_spells hd⟩ hb fun _ h => nomatch (hd ▸ h)

/-! What the parser takes for another thing -/

namespace Parser

theorem eq_of_holeText {depth : Nat} {cs hole rest : List Char}
    (h : holeText depth cs = some (hole, rest)) : cs = hole ++ '\x7d' :: rest := by
  fun_induction holeText depth cs generalizing hole rest with
  | case1 => cases h
  | case3 => cases h; rfl
  | case2 _ _ ih | case4 _ _ ih | case5 _ _ _ _ _ _ ih =>
    obtain ⟨⟨inner, behind⟩, hinner, heq⟩ := Option.map_eq_some_iff.1 h
    cases heq
    rw [ih hinner]
    rfl

theorem eq_of_binaryOp? {k : Kind} {op : BinaryOp} (h : binaryOp? k = some op) :
    k = op.kind := by
  unfold binaryOp? at h
  split at h <;> cases h <;> rfl

theorem isSolid_kind (op : BinaryOp) : op.kind.isSolid = true := by
  obtain c | o := op
  · cases c <;> rfl
  · cases o <;> rfl

theorem eq_of_update? {k : Kind} {op : Update} (h : update? k = some op) : k = op.kind := by
  unfold update? at h
  split at h <;> cases h <;> rfl

theorem isSolid_update (op : Update) : op.kind.isSolid = true := by
  cases op <;> rfl

theorem names?_eq {es : List Expr} {ids : List Ident} (h : names? es = some ids) :
    ids.map .name = es := by
  fun_induction names? es generalizing ids with
  | case1 => cases h; rfl
  | case2 id more ih =>
    obtain ⟨ids', hids, rfl⟩ := Option.map_eq_some_iff.1 h
    rw [List.map_cons, ih hids]
  | case3 => cases h

theorem place?_eq {e : Expr} {place : Place} (h : place? e = some place) : place.toExpr = e := by
  unfold place? at h
  split at h
  · cases h; rfl
  · cases h; rfl
  · cases h; rfl
  · cases h

theorem target?_eq {e : Expr} {target : Target} (h : target? e = some target) :
    target.toExpr = e := by
  unfold target? at h
  split at h
  · obtain ⟨ids, hids, rfl⟩ := Option.map_eq_some_iff.1 h
    rw [Target.toExpr, names?_eq hids]
  · obtain ⟨place, hplace, rfl⟩ := Option.map_eq_some_iff.1 h
    exact place?_eq hplace

theorem spell_mem_of_member {body : List Stmt} {m : Member} {decl : SpellDecl}
    (hm : m ∈ body.map Member.ofStmt) (hdecl : m = .init decl ∨ m = .method decl) :
    Stmt.spell decl ∈ body := by
  obtain ⟨s, hs, rfl⟩ := List.mem_map.1 hm
  suffices hspell : s = .spell decl from hspell ▸ hs
  unfold Member.ofStmt at hdecl
  split at hdecl
  · split at hdecl
    · rcases hdecl with h | h <;> cases h; rfl
    · rcases hdecl with h | h <;> cases h; rfl
  · rcases hdecl with h | h <;> cases h
  · rcases hdecl with h | h <;> cases h
  · rcases hdecl with h | h <;> cases h

theorem spell_mem_of_members {body : List Stmt} {decl : SpellDecl}
    (h : decl ∈ ((body.map Member.ofStmt).filterMap fun
        | .init decl => some decl
        | _ => none).getLast?.toList ++
      (body.map Member.ofStmt).filterMap fun
        | .method decl => some decl
        | _ => none) : Stmt.spell decl ∈ body := by
  rcases List.mem_append.1 h with h | h
  · have hmem := List.mem_of_getLast? (Option.mem_toList.1 h)
    obtain ⟨m, hm, hsome⟩ := List.mem_filterMap.1 hmem
    split at hsome
    · cases hsome
      exact spell_mem_of_member hm (.inl rfl)
    · cases hsome
  · obtain ⟨m, hm, hsome⟩ := List.mem_filterMap.1 h
    split at hsome
    · cases hsome
      exact spell_mem_of_member hm (.inr rfl)
    · cases hsome

theorem name_of_member {s : Stmt} {decl : SpellDecl} :
    (Member.ofStmt s = .init decl → decl.name.name = "init") ∧
      (Member.ofStmt s = .method decl → decl.name.name ≠ "init") := by
  unfold Member.ofStmt
  split
  · split
    · rename_i hname
      exact ⟨fun h => by cases h; exact hname, nofun⟩
    · rename_i hname
      exact ⟨nofun, fun h => by cases h; exact hname⟩
  · exact ⟨nofun, nofun⟩
  · exact ⟨nofun, nofun⟩
  · exact ⟨nofun, nofun⟩

theorem parted_of_members (name : Ident) (parent : Option Ident) (arcane : Bool)
    (body : List Stmt) :
    GrimoireDecl.Parted ⟨name, parent,
      ((body.map Member.ofStmt).filterMap fun
        | .init decl => some decl
        | _ => none).getLast?,
      (body.map Member.ofStmt).filterMap fun
        | .method decl => some decl
        | _ => none, arcane⟩ := by
  refine ⟨fun f hf => ?_, fun f hf => ?_⟩
  · obtain ⟨m, hm, hsome⟩ := List.mem_filterMap.1 (List.mem_of_getLast? hf)
    obtain ⟨s, -, rfl⟩ := List.mem_map.1 hm
    split at hsome
    · cases hsome
      exact name_of_member.1 ‹_›
    · cases hsome
  · obtain ⟨m, hm, hsome⟩ := List.mem_filterMap.1 hf
    obtain ⟨s, -, rfl⟩ := List.mem_map.1 hm
    split at hsome
    · cases hsome
      exact name_of_member.2 ‹_›
    · cases hsome

end Parser

theorem SpellDecl.readFrom_of_all {decl : SpellDecl}
    (h : (Stmt.spell decl).All (Stmt.ReadFrom text)) : decl.ReadFrom text := by
  refine ⟨h.self.marks, fun e he => h.self.trees e ?_, fun s' hs' => h.child ?_⟩
  · simpa [Stmt.trees, Stmt.exprs, Stmt.spells] using he
  · simpa [Stmt.children, Stmt.blocks, Stmt.spells] using hs'

theorem Stmt.All.spell {decl : SpellDecl} (hd : decl.ReadFrom text) :
    (Stmt.spell decl).All (Stmt.ReadFrom text) := by
  refine .read ⟨hd.marks, fun e hmem => hd.defaults e ?_, nofun⟩ nofun
    (List.forall_mem_cons.2 ⟨hd, nofun⟩)
  simpa [Stmt.trees, Stmt.exprs, Stmt.spells] using hmem

theorem Stmt.All.grimoire {g : GrimoireDecl} (hname : HasToken text g.name.mark)
    (hparent : ∀ id ∈ g.parent, HasToken text id.mark) (hparted : g.Parted)
    (hdecls : ∀ decl ∈ g.init.toList ++ g.methods, decl.ReadFrom text) :
    (Stmt.grimoire g).All (Stmt.ReadFrom text) := by
  refine .read ⟨List.forall_mem_append.2 ⟨List.forall_mem_cons.2 ⟨hname, ?_⟩, ?_⟩, ?_,
    fun _ heq => Stmt.grimoire.inj heq ▸ hparted⟩ nofun hdecls
  · intro p hmem
    obtain ⟨id, hid, rfl⟩ := List.mem_map.1 hmem
    exact hparent id (Option.mem_toList.1 hid)
  · intro p hmem
    obtain ⟨decl, hdecl, hmem⟩ := List.mem_flatMap.1 hmem
    exact (hdecls decl hdecl).marks p hmem
  · intro e hmem
    obtain ⟨decl, hdecl, hmem⟩ := List.mem_flatMap.1 hmem
    exact (hdecls decl hdecl).defaults e hmem

end Spellbook
