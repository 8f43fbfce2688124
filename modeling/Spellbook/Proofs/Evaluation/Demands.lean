import Spellbook.Proofs.Evaluation.Statements

/-! The spells that a store knows. What a look-up finds or a call runs is one of them, so a demand on
the spells of a program is met by all that its runs come to know. -/
namespace Spellbook

open Estate

/-- What is asked of a run: the spells that it may come to know, those that may close a resource,
and whether it has to end. -/
structure Demand where
  spell : SpellDecl → Prop
  closer : SpellDecl → Prop
  ends : Prop

structure Store.Declares (d : Demand) (s : Store) : Prop where
  spell : ∀ f ∈ s.spells, d.spell f.decl
  init : ∀ g ∈ s.grimoires, ∀ decl ∈ g.init, d.spell decl
  method : ∀ g ∈ s.grimoires, ∀ entry ∈ g.methods,
    d.spell entry.2 ∧ (entry.1 = "close" → d.closer entry.2)
  bound : ∀ f ∈ s.methods, d.spell f.decl

/-- The methods of a grimoire, later ones in place of earlier ones, meet the demand if the spells
do that they come from. -/
theorem Demand.meets_table {d : Demand} {decl : GrimoireDecl}
    (hm : ∀ f ∈ decl.methods, d.spell f ∧ (f.name.name = "close" → d.closer f)) :
    ∀ entry ∈ decl.table, d.spell entry.2 ∧ (entry.1 = "close" → d.closer entry.2) := by
  have hfold : ∀ (methods : List SpellDecl) (filed : Bindings SpellDecl),
      (∀ f ∈ methods, d.spell f ∧ (f.name.name = "close" → d.closer f)) →
      (∀ entry ∈ filed, d.spell entry.2 ∧ (entry.1 = "close" → d.closer entry.2)) →
      ∀ entry ∈ methods.foldl (fun all decl => all.set decl.name.name decl) filed,
        d.spell entry.2 ∧ (entry.1 = "close" → d.closer entry.2) := by
    intro methods
    induction methods with
    | nil => exact fun filed _ hf => hf
    | cons decl rest ih =>
      intro filed hm hf
      obtain ⟨hfirst, hrest⟩ := List.forall_mem_cons.1 hm
      refine ih _ hrest fun entry he => ?_
      rcases Bindings.mem_set he with rfl | he
      · exact hfirst
      · exact hf entry he
  exact hfold decl.methods [] hm nofun

namespace Store

variable {s : Store} {d : Demand}

/-- A grimoire is in the store, or it is the empty one that an unused address names. -/
theorem grimoire_mem_or_empty (s : Store) (r : Ref .grimoire) :
    s.grimoire r ∈ s.grimoires ∨ ((s.grimoire r).init = none ∧ (s.grimoire r).methods = []) := by
  unfold grimoire
  rw [Array.getD_eq_getD_getElem?]
  cases h : s.grimoires[r.index]? with
  | none => exact .inr ⟨rfl, rfl⟩
  | some g => exact .inl (Array.mem_of_getElem? h)

namespace Declares

theorem of_eq {s' : Store} (hs : s.Declares d) (h : s' = { s' with
    spells := s.spells, grimoires := s.grimoires, methods := s.methods }) : s'.Declares d := by
  rw [h]
  exact ⟨hs.spell, hs.init, hs.method, hs.bound⟩

theorem newSpell (hs : s.Declares d) {f : Spell} (hf : d.spell f.decl) :
    (s.newSpell f).2.Declares d where
  spell := by
    intro g hg
    rcases Array.mem_push.1 hg with hg | rfl
    · exact hs.spell g hg
    · exact hf
  init := hs.init
  method := hs.method
  bound := hs.bound

theorem newMethod (hs : s.Declares d) {f : Method} (hf : d.spell f.decl) :
    (s.newMethod f).2.Declares d where
  spell := hs.spell
  init := hs.init
  method := hs.method
  bound := by
    intro g hg
    rcases Array.mem_push.1 hg with hg | rfl
    · exact hs.bound g hg
    · exact hf

theorem newGrimoire (hs : s.Declares d) {g : Grimoire} (hi : ∀ decl ∈ g.init, d.spell decl)
    (hm : ∀ entry ∈ g.methods, d.spell entry.2 ∧ (entry.1 = "close" → d.closer entry.2)) :
    (s.newGrimoire g).2.Declares d where
  spell := hs.spell
  init := by
    intro g' hg
    rcases Array.mem_push.1 hg with hg | rfl
    · exact hs.init g' hg
    · exact hi
  method := by
    intro g' hg
    rcases Array.mem_push.1 hg with hg | rfl
    · exact hs.method g' hg
    · exact hm
  bound := hs.bound

theorem of_spell? (hs : s.Declares d) {r : Ref .spell} {f : Spell} (h : s.spell? r = some f) :
    d.spell f.decl :=
  hs.spell f (Array.mem_of_getElem? h)

theorem of_method? (hs : s.Declares d) {r : Ref .method} {f : Method} (h : s.method? r = some f) :
    d.spell f.decl :=
  hs.bound f (Array.mem_of_getElem? h)

theorem of_ownMethod? (hs : s.Declares d) {r : Ref .grimoire} {name : String} {decl : SpellDecl}
    (h : s.ownMethod? r name = some decl) : d.spell decl ∧ (name = "close" → d.closer decl) := by
  have hmem := s.grimoire_mem_or_empty r
  unfold ownMethod? at h
  cases hg : (s.grimoire r).methods.get? name with
  | some found =>
    rw [hg] at h
    cases h
    have hentry := Bindings.mem_of_get? hg
    rcases hmem with hmem | ⟨_, hnil⟩
    · exact hs.method _ hmem _ hentry
    · rw [hnil] at hentry
      cases hentry
  | none =>
    rw [hg] at h
    by_cases hn : name = "init"
    · simp only [hn, if_true] at h
      refine ⟨?_, fun hclose => absurd (hn.symm.trans hclose) (by decide)⟩
      rcases hmem with hmem | ⟨hnone, _⟩
      · exact hs.init _ hmem decl h
      · rw [hnone] at h
        cases h
    · simp only [hn, if_false] at h
      cases h

theorem of_findMethod? (hs : s.Declares d) {r owner : Ref .grimoire} {name : String}
    {decl : SpellDecl} (h : s.findMethod? r name = some (decl, owner)) :
    d.spell decl ∧ (name = "close" → d.closer decl) := by
  obtain ⟨g, _, hg⟩ := List.exists_of_findSome?_eq_some h
  obtain ⟨found, hfound, heq⟩ := Option.map_eq_some_iff.1 hg
  cases heq
  exact hs.of_ownMethod? hfound

theorem of_findInit? (hs : s.Declares d) {r owner : Ref .grimoire} {decl : SpellDecl}
    (h : s.findInit? r = some (decl, owner)) : d.spell decl := by
  obtain ⟨g, _, hg⟩ := List.exists_of_findSome?_eq_some h
  obtain ⟨found, hfound, heq⟩ := Option.map_eq_some_iff.1 hg
  cases heq
  rcases s.grimoire_mem_or_empty owner with hmem | ⟨hnone, _⟩
  · exact hs.init _ hmem _ hfound
  · rw [hnone] at hfound
    cases hfound

end Declares

end Store

namespace Demand

variable {ι : Type} (d : Demand) (l : Filter ι)

/-- Everything is known, and nothing is asked but that the spells meet the demand. -/
def logic [hl : l.NeBot] : Logic ι where
  holds _ _ := True
  Leads _ s' := s'.Declares d
  trans _ h := h
  settled h := h
  later _ _ := trivial
  plain _ := trivial
  reads _ _ _ := trivial
  newArray hs _ := ⟨hs.of_eq rfl, trivial⟩
  newTuple hs _ := ⟨hs.of_eq rfl, trivial⟩
  newMap hs _ := ⟨hs.of_eq rfl, trivial⟩
  newError hs _ := ⟨hs.of_eq rfl, trivial⟩
  setElement _ _ hs _ _ := hs.of_eq rfl
  setEntry hs _ _ _ := hs.of_eq rfl
  family := l
  proper := hl
  alarm := none
  ends := d.ends
  heard := nofun
  fits _ := True
  place _ := True
  spell := d.spell
  closer := d.closer
  binds _ _ _ _ := True
  receives _ _ _ _ := True
  stands _ _ := True
  declares _ _ _ := True
  fits_later _ _ _ := trivial
  binds_later _ _ _ := trivial
  receives_later _ _ _ _ := trivial
  home _ _ _ := trivial
  inward _ _ _ := trivial
  exports _ _ _ _ := trivial
  ofSpell hs h := hs.of_spell? h
  ofMethod hs _ h := ⟨hs.of_method? h, trivial⟩
  ofGrimoire hs h := hs.of_findMethod? h
  ofObject _ _ _ := trivial
  ofInit hs _ h := ⟨hs.of_findInit? h, trivial⟩
  ofSuper _ _ _ _ _ := trivial
  newSpell hs _ hf := ⟨hs.newSpell hf, trivial⟩
  newMethod hs _ _ hf _ := ⟨hs.newMethod hf, trivial⟩
  newObject hs _ _ _ := ⟨hs.of_eq rfl, trivial⟩
  newGrimoire hs _ _ _ _ hi hm := ⟨hs.newGrimoire hi (meets_table hm), trivial⟩
  newSpace hs _ := ⟨hs.of_eq rfl, trivial⟩
  opened hs _ := ⟨hs.of_eq rfl, trivial⟩
  entered hs _ _ _ := ⟨hs.of_eq rfl, trivial⟩
  define hs _ _ _ := hs.of_eq rfl
  declareGlobal _ hs _ := hs.of_eq rfl
  setField _ _ hs _ _ := hs.of_eq rfl
  raise hs _ _ _ := ⟨hs.of_eq rfl, trivial⟩

end Demand

/-- The members of the family come to agree on an outcome that leaves the bookkeeping as it was and
meets the demand. -/
abbrev Settles (d : Demand) {ι α : Type} [Bearing α] (l : Filter ι) [l.NeBot] (x : ι → Eval α)
    (m : Machine) : Prop :=
  Abides (d.logic l) x m

section Parts

variable (d : Demand) {ι : Type} (l : Filter ι) [l.NeBot] (E : ι → Evaluator) (m : Machine)

/-- All later states with the same calls under way. -/
def Demand.ground : Ground (d.logic l) where
  here m' := m.Precedes m' ∧ m'.store.Declares d
  admits h := ⟨⟨h.2, trivial⟩, fun _ _ => trivial⟩
  later h hg := ⟨h.1.trans hg.stays.precedes, hg.leads⟩

abbrev ExprSettles (e : Expr) : Prop := (d.ground l m).Takes E e

abbrev StmtSettles (s : Stmt) : Prop := (d.ground l m).Does E s

/-- The states that a spell may be started from: with one more call under way, or to close a
resource. -/
abbrev Demand.Starts (w : World) : Start → Machine → Prop
  | .call, m' => m.frames.length < w.maxDepth ∧ m'.store.Declares d ∧
    ∃ frame, Machine.Precedes { m with frames := frame :: m.frames } m'
  | .close, m' => m.Precedes m' ∧ m'.store.Declares d

/-- Spells settle that are called, with one more call under way, or that close a resource. -/
structure SpellsSettle (w : World) : Prop where
  call : ∀ decl args frame m', d.spell decl → m.frames.length < w.maxDepth →
    Machine.Precedes { m with frames := frame :: m.frames } m' → m'.store.Declares d →
    Settles d l (fun i => (E i).spell .call decl args) m'
  close : ∀ decl args m', d.spell decl → d.closer decl → m.Precedes m' → m'.store.Declares d →
    Settles d l (fun i => (E i).spell .close decl args) m'

variable {d l E m} in
theorem SpellsSettle.later {m' : Machine} {w : World} (h : SpellsSettle d l E m w)
    (hp : m.Precedes m') : SpellsSettle d l E m' w where
  call decl args frame m'' hd hlt hp' hs :=
    h.call decl args frame m'' hd (hp.frames ▸ hlt)
      ⟨hp'.frames.trans (congrArg (frame :: ·) hp.frames), hp.imported.trans hp'.imported⟩ hs
  close decl args m'' hd hn hp' hs := h.close decl args m'' hd hn (hp.trans hp') hs

/-- The statements of the module settle in every later state in which it counts as imported. -/
def ModuleSettles (w : World) (name : String) : Prop :=
  let path := (Import.ofText name).locate w.files w.base
  path.isAmong m.imported = false → ∀ source, w.files.read path = .ok source →
    (parse source).diagnostics = [] → ∀ m', m.Precedes m' → path ∈ m'.imported →
      ∀ s ∈ (parse source).program.statements, StmtSettles d l E m' s

end Parts

variable {d : Demand} {ι : Type} {l : Filter ι} [l.NeBot] {E : ι → Evaluator} {m m' : Machine}

theorem Demand.Starts.declares {w : World} {start : Start} (h : d.Starts m w start m') :
    m'.store.Declares d := by
  cases start with
  | call => exact h.2.1
  | close => exact h.2

theorem SpellsSettle.start {w : World} (hsp : SpellsSettle d l E m w) {start : Start}
    {decl : SpellDecl} {m'' : Machine} (args : List Value) (h : d.Starts m w start m')
    (hspell : d.spell decl) (hcloser : start = .close → d.closer decl)
    (hframes : m''.frames = m'.frames) (himported : m''.imported = m'.imported)
    (hs : m''.store.Declares d) : Settles d l (fun i => (E i).spell start decl args) m'' := by
  cases start with
  | call =>
    obtain ⟨hlt, -, frame, hp⟩ := h
    have hp' : Machine.Precedes { m with frames := frame :: m.frames } m'' :=
      ⟨hframes.trans hp.frames, himported ▸ hp.imported⟩
    exact hsp.call decl args frame m'' hspell hlt hp' hs
  | close =>
    have hp' : m.Precedes m'' := ⟨hframes.trans h.1.frames, himported ▸ h.1.imported⟩
    exact hsp.close decl args m'' hspell (hcloser rfl) hp' hs

theorem ExprSettles.later {e : Expr} (h : ExprSettles d l E m e) (hp : m.Precedes m') :
    ExprSettles d l E m' e :=
  fun _ hm => h ⟨hp.trans hm.1, hm.2⟩

theorem StmtSettles.later {s : Stmt} (h : StmtSettles d l E m s) (hp : m.Precedes m') :
    StmtSettles d l E m' s :=
  fun _ hm => h ⟨hp.trans hm.1, hm.2⟩

namespace Settles

variable {d : Demand} {ι : Type} {l : Filter ι} [l.NeBot] {E : ι → Evaluator} {m m' : Machine}
  {w : World}

/-- Where a piece of code is evaluated, when its parts settle, the spells that it starts and the
module that it runs. -/
def site {c : Code} (he : ∀ e ∈ c.exprs, ExprSettles d l E m e)
    (hb : ∀ s ∈ c.stmts, StmtSettles d l E m s) (hsp : SpellsSettle d l E m w)
    (hd : ∀ decl ∈ c.spells, d.spell decl ∧ (decl.name.name = "close" → d.closer decl))
    (hload : ∀ pos name binder, c = .stmt (.load pos name binder) → ModuleSettles d l E m w name)
    (hloop : ∀ s, c = .stmt s → s.isLoop = true →
      ¬ d.ends ∧ ∃ turns, ∀ᶠ i in l, (E i).turns = turns) : Site (d.logic l) w E c where
  toGround := d.ground l m
  calls := d.Starts m w
  nested h := ⟨⟨h.1.frames, h.1.imported⟩, h.2.of_eq rfl⟩
  expr := he
  stmt := hb
  place _ _ _ := trivial
  frees _ _ _ _ := trivial
  catches _ _ _ _ := trivial
  spells := hd
  call h pos _ hlt name :=
    ⟨h.1.frames ▸ hlt, h.2, _, congrArg (_ :: ·) h.1.frames, h.1.imported⟩
  close h := h
  orderly h := h.declares
  onward {start m' m''} h hg := by
    cases start with
    | call =>
      obtain ⟨hlt, _, frame, hp⟩ := h
      exact ⟨hlt, hg.leads, frame, hp.trans hg.stays.precedes⟩
    | close => exact ⟨h.1.trans hg.stays.precedes, hg.leads⟩
  starting h _ _ hspell hcloser :=
    hsp.start _ h hspell hcloser rfl rfl (h.declares.of_eq rfl)
  receiving h _ _ _ _ hspell hcloser :=
    hsp.start _ h hspell hcloser rfl rfl (h.declares.of_eq rfl)
  entering {m' pos name binder source} h hc hnew hread hnone := by
    have hold : ((Import.ofText name).locate w.files w.base).isAmong m.imported = false :=
      Bool.eq_false_iff.2 fun ham =>
        Bool.eq_false_iff.1 hnew (Machine.isAmong_mono h.1.imported ham)
    have hp : m.Precedes (m'.entering ((Import.ofText name).locate w.files w.base)) :=
      ⟨h.1.frames, h.1.imported.trans (List.suffix_cons _ _)⟩
    exact .program (hload pos name binder hc hold source hread hnone _ hp List.mem_cons_self) false
      ⟨.refl _, h.2.of_eq rfl⟩
  turns := hloop

theorem evalExpr {e : Expr} (he : ∀ e' ∈ e.parts, ExprSettles d l E m e')
    (hsp : SpellsSettle d l E m w) (hm : m.store.Declares d) :
    Settles d l (fun i => (E i).evalExpr w e) m :=
  Abides.evalExpr (site (c := .expr e) he nofun hsp nofun nofun nofun)
    ⟨⟨.refl m, hm⟩, nofun, fun _ _ _ _ _ _ _ _ => trivial⟩

theorem evalStmt {s : Stmt} (he : ∀ e ∈ s.exprs, ExprSettles d l E m e)
    (hb : ∀ s' ∈ s.blocks, StmtSettles d l E m s') (hsp : SpellsSettle d l E m w)
    (hd : ∀ decl ∈ s.spells, d.spell decl ∧ (decl.name.name = "close" → d.closer decl))
    (hload : ∀ pos name binder, s = .load pos name binder → ModuleSettles d l E m w name)
    (hloop : s.isLoop = true → ¬ d.ends ∧ ∃ turns, ∀ᶠ i in l, (E i).turns = turns)
    (hm : m.store.Declares d) : Settles d l (fun i => (E i).evalStmt w s) m := by
  refine Abides.evalStmt (site (c := .stmt s) he hb hsp hd ?_ ?_)
    ⟨⟨.refl m, hm⟩, fun _ _ => trivial, fun _ _ _ _ _ _ _ _ => trivial⟩
  · rintro pos name binder ⟨⟩
    exact hload pos name binder rfl
  · rintro _ ⟨⟩
    exact hloop

theorem body {decl : SpellDecl} (he : ∀ e ∈ decl.defaults, ExprSettles d l E m e)
    (hb : ∀ s ∈ decl.body, StmtSettles d l E m s) (args : List Value) (hm : m.store.Declares d) :
    Settles d l (fun i => (E i).body w decl args) m :=
  Abides.body (G := d.ground l m) he hb ⟨.refl m, hm⟩ trivial (fun _ _ => trivial)
    fun _ _ _ => trivial

theorem program {p : Program} (hp : ∀ s ∈ p.statements, StmtSettles d l E m s) (runMain : Bool)
    (hm : m.store.Declares d) : Settles d l (fun i => (E i).program p runMain) m :=
  Abides.program (G := d.ground l m) hp runMain ⟨.refl m, hm⟩

theorem run {p : Program} (hp : ∀ s ∈ p.statements, StmtSettles d l E m s) (scope : Ref .scope)
    (hm : m.store.Declares d) : Settles d l (fun i => (E i).run p scope) m :=
  Abides.run (G := d.ground l m) hp hm ⟨⟨rfl, List.suffix_rfl⟩, hm⟩ fun _ h =>
    .raised ⟨h.orderly.of_eq rfl, trivial⟩

end Settles

end Spellbook
