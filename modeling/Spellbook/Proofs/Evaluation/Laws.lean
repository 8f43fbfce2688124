import Spellbook.Proofs.Evaluation.Demands
import Spellbook.Proofs.Evaluation.Observers

/-! Laws that runs may be held to: which code is evaluated, what names are bound to, and which
places failures and calls speak of. A law looks at one thing at a time, so a store that follows it
does so after everything that adds to the store no more than the law allows. -/
namespace Spellbook

/-! Laws -/

structure Law where
  /-- The code that may be evaluated while a file is running. -/
  fits : Option String → Code → Prop
  /-- The spells that may come to be known. -/
  spell : SpellDecl → Prop
  /-- What a name may be bound to, in whatever scope. -/
  binding : String → Value → Prop
  /-- The places that failures and calls may speak of. -/
  place : Location → Prop

/-- The places that a failure speaks of: its own if that is known, and those of the calls that it
lists. -/
def Failure.places : Failure → List Location
  | .plain _ => []
  | .traced t => [t.location].filter Location.isKnown ++ t.stack.map (·.location)
  | .custom c => [c.location].filter Location.isKnown ++ c.stack.map (·.location)
  | .reported r => (r.primary.toList ++ r.labels).map (·.start) ++ r.stack.map (·.location)

/-- A failure, its cause and so on speak of no other places than these. -/
def Failure.Tells (place : Location → Prop) (f : Failure) : Prop :=
  ∀ g ∈ f.chain, ∀ l ∈ g.places, place l

namespace Law

def Receives (L : Law) : Prop := ∀ v, L.binding "self" v ∧ L.binding "super" v

def demand (L : Law) : Demand := ⟨L.spell, fun _ => True, False⟩

/-- What a world must be like, and what code that fits, for the law to be kept by evaluating it. -/
structure Sound (L : Law) (w : World) : Prop where
  expr : ∀ {f c e}, L.fits f c → e ∈ c.exprs → L.fits f (.expr e)
  stmt : ∀ {f c s}, L.fits f c → s ∈ c.stmts → L.fits f (.stmt s)
  spell : ∀ {f c decl}, L.fits f c → decl ∈ c.spells → L.spell decl
  names : ∀ {f c name}, L.fits f c → name ∈ c.names → ∀ v, L.binding name v
  catches : ∀ {f c name}, L.fits f c → name ∈ c.catches → ∀ r, L.binding name (.caught r)
  place : ∀ {f c pos}, L.fits f c → pos ∈ c.places → L.place ⟨f, pos.line, pos.col⟩
  load : ∀ {f pos name binder source}, L.fits f (.stmt (.load pos name binder)) →
    w.files.read ((Import.ofText name).locate w.files w.base) = .ok source →
    (parse source).diagnostics = [] → ∀ s ∈ (parse source).program.statements,
      L.fits (some ((Import.ofText name).locate w.files w.base).text) (.stmt s)

end Law

structure Store.Follows (L : Law) (s : Store) : Prop where
  declares : s.Declares L.demand
  grimoires : ∀ g ∈ s.grimoires, L.Receives
  methods : ∀ f ∈ s.methods, L.Receives
  bindings : s.scopes.AllBound L.binding
  failures : ∀ f ∈ s.failures, f.Tells L.place

/-- The scope that the machine is in is there, and store and calls are as the law asks. -/
structure Machine.Follows (L : Law) (m : Machine) : Prop where
  scope : m.scope.index < m.store.scopes.scopes.size
  store : m.store.Follows L
  frames : ∀ frame ∈ m.frames, L.place frame.location

structure Law.Allows (L : Law) (m m' : Machine) : Prop where
  keeps : m.Keeps m'
  scopes : m.store.scopes.scopes.size ≤ m'.store.scopes.scopes.size
  store : m'.store.Follows L

/-- The machine follows the law, and the code may be evaluated in it. -/
structure Law.Admits (L : Law) (m : Machine) (c : Code) : Prop where
  follows : m.Follows L
  fits : L.fits m.file c

/-! Failures -/

namespace Failure

variable {place : Location → Prop}

theorem tells_plain (message : String) : (plain message).Tells place := by
  intro g hg l hl
  obtain rfl := List.mem_singleton.1 hg
  cases hl

theorem tells_traced {t : Traced} (hl : place t.location)
    (hs : ∀ frame ∈ t.stack, place frame.location) (hc : ∀ f ∈ t.cause, f.Tells place) :
    (traced t).Tells place := by
  obtain ⟨name, message, location, cause, stack, details⟩ := t
  intro g hg l hmem
  rcases List.mem_cons.1 hg with rfl | hg
  · simp only [places, List.mem_append, List.mem_filter, List.mem_singleton, List.mem_map] at hmem
    rcases hmem with ⟨rfl, _⟩ | ⟨frame, hframe, rfl⟩
    · exact hl
    · exact hs frame hframe
  · cases cause with
    | none => cases hg
    | some f => exact hc f rfl g hg l hmem

theorem tells_custom {c : Custom} (hl : c.location.isKnown = true → place c.location)
    (hs : ∀ frame ∈ c.stack, place frame.location) : (custom c).Tells place := by
  intro g hg l hmem
  obtain rfl := List.mem_singleton.1 hg
  simp only [places, List.mem_append, List.mem_filter, List.mem_singleton, List.mem_map] at hmem
  rcases hmem with ⟨rfl, hknown⟩ | ⟨frame, hframe, rfl⟩
  · exact hl hknown
  · exact hs frame hframe

theorem IsUnraised.tells {f : Failure} (h : f.IsUnraised) : f.Tells place := by
  obtain ⟨name, message, rfl⟩ := h
  exact tells_custom (fun h => nomatch h) nofun

theorem tells_reported {r : Report} (hp : ∀ span ∈ r.primary, place span.start)
    (hl : ∀ span ∈ r.labels, place span.start) (hs : r.stack = []) (hc : r.cause = none) :
    (reported r).Tells place := by
  obtain ⟨_, _, _, _, primary, labels, _, _, _, cause, stack, _⟩ := r
  obtain rfl : stack = [] := hs
  obtain rfl : cause = none := hc
  intro g hg l hmem
  obtain rfl := List.mem_singleton.1 hg
  simp only [places, List.map_nil, List.append_nil, List.mem_map, List.mem_append,
    Option.mem_toList] at hmem
  obtain ⟨span, hspan | hspan, rfl⟩ := hmem
  · exact hp span hspan
  · exact hl span hspan

end Failure

/-! Stores that follow a law -/

namespace Store.Follows

variable {L : Law} {s s' : Store}

/-- What else there is in a store does not matter. -/
theorem of_eq (hs : s.Follows L) (h : s' = { s' with
    spells := s.spells, grimoires := s.grimoires, methods := s.methods, scopes := s.scopes
    failures := s.failures }) : s'.Follows L := by
  rw [h]
  exact ⟨hs.declares.of_eq rfl, hs.grimoires, hs.methods, hs.bindings, hs.failures⟩

theorem newFailure (hs : s.Follows L) {f : Failure} (hf : f.Tells L.place) :
    (s.newFailure f).2.Follows L where
  declares := hs.declares.of_eq rfl
  grimoires := hs.grimoires
  methods := hs.methods
  bindings := hs.bindings
  failures g hg := by
    rcases Array.mem_push.1 hg with hg | rfl
    · exact hs.failures g hg
    · exact hf

theorem newSpell (hs : s.Follows L) {f : Spell} (hf : L.spell f.decl) :
    (s.newSpell f).2.Follows L :=
  { hs with declares := hs.declares.newSpell hf }

theorem newMethod (hs : s.Follows L) {f : Method} (hf : L.spell f.decl) (hr : L.Receives) :
    (s.newMethod f).2.Follows L :=
  { hs with declares := hs.declares.newMethod hf, methods := fun _ _ => hr }

theorem newGrimoire (hs : s.Follows L) {g : Grimoire} (hi : ∀ decl ∈ g.init, L.spell decl)
    (hm : ∀ entry ∈ g.methods, L.spell entry.2) (hr : L.Receives) :
    (s.newGrimoire g).2.Follows L :=
  { hs with
    declares := hs.declares.newGrimoire hi fun entry he => ⟨hm entry he, fun _ => trivial⟩
    grimoires := fun _ _ => hr }

theorem withScopes (hs : s.Follows L) {scopes : Forest Value}
    (hb : scopes.AllBound L.binding) : Follows L { s with scopes := scopes } where
  declares := hs.declares.of_eq rfl
  grimoires := hs.grimoires
  methods := hs.methods
  bindings := hb
  failures := hs.failures

theorem define (hs : s.Follows L) (r : Ref .scope) {name : String} {v : Value}
    (hv : L.binding name v) : Follows L { s with scopes := s.scopes.define r name v } :=
  hs.withScopes (hs.bindings.define r hv)

theorem openScope (hs : s.Follows L) (parent : Ref .scope) : (s.opened parent).Follows L :=
  hs.withScopes (hs.bindings.push parent)

theorem entered (hs : s.Follows L) (hr : L.Receives) (v : Value) (g : Ref .grimoire) :
    (s.entered v g).Follows L := by
  have hnamed := (hs.openScope (s.grimoire g).scope).define s.fresh (hr v).1
  unfold Store.entered Store.received
  cases ((s.opened (s.grimoire g).scope).grimoire g).parent with
  | none => exact hnamed
  | some p => exact hnamed.define s.fresh (hr (.grimoire p)).2

theorem failure (hs : s.Follows L) (r : Ref .failure) : (s.failure r).Tells L.place := by
  rw [Store.failure, Array.getD_eq_getD_getElem?]
  cases h : s.failures[r.index]? with
  | none => exact Failure.tells_plain ""
  | some f => exact hs.failures f (Array.mem_of_getElem? h)

theorem findMethod? (hs : s.Follows L) {r owner : Ref .grimoire} {name : String} {decl : SpellDecl}
    (h : s.findMethod? r name = some (decl, owner)) : L.spell decl ∧ L.Receives := by
  refine ⟨(hs.declares.of_findMethod? h).1, ?_⟩
  obtain ⟨g, _, hg⟩ := List.exists_of_findSome?_eq_some h
  obtain ⟨found, hfound, heq⟩ := Option.map_eq_some_iff.1 hg
  rcases s.grimoire_mem_or_empty g with hmem | ⟨hinit, hmethods⟩
  · exact hs.grimoires _ hmem
  · -- An unused address names a grimoire that declares nothing.
    simp [ownMethod?, hinit, hmethods, Bindings.get?] at hfound

theorem findInit? (hs : s.Follows L) {r owner : Ref .grimoire} {decl : SpellDecl}
    (h : s.findInit? r = some (decl, owner)) : L.spell decl ∧ L.Receives := by
  refine ⟨hs.declares.of_findInit? h, ?_⟩
  obtain ⟨g, _, hg⟩ := List.exists_of_findSome?_eq_some h
  obtain ⟨found, hfound, heq⟩ := Option.map_eq_some_iff.1 hg
  rcases s.grimoire_mem_or_empty g with hmem | ⟨hinit, _⟩
  · exact hs.grimoires _ hmem
  · rw [hinit] at hfound
    cases hfound

theorem method? (hs : s.Follows L) {r : Ref .method} {f : Method} (h : s.method? r = some f) :
    L.spell f.decl ∧ L.Receives :=
  ⟨hs.declares.of_method? h, hs.methods f (Array.mem_of_getElem? h)⟩

end Store.Follows

/-! Machines that follow a law -/

namespace Law

variable {L : Law} {m m' : Machine} {c : Code}

theorem Admits.store (hc : L.Admits m c) : m.store.Follows L := hc.follows.store

theorem tells_of_message (hm : m.store.Follows L)
    (hframes : ∀ frame ∈ m.frames, L.place frame.location) {f : Failure} (hf : m.Says L.place f) :
    f.Tells L.place := by
  have hstack : ∀ limit, ∀ frame ∈ m.frames.take limit, L.place frame.location :=
    fun _ frame h => hframes frame (List.mem_of_mem_take h)
  cases hf with
  | traced name message limit details hp hc =>
    refine Failure.tells_traced hp (hstack limit) fun f hf => ?_
    rcases hc f hf with ⟨message, rfl⟩ | ⟨r, rfl⟩
    · exact Failure.tells_plain message
    · exact hm.failure r
  | custom name message object limit hp => exact Failure.tells_custom (fun _ => hp) (hstack limit)
  | reported hp hspans _ hstack hcause =>
    refine Failure.tells_reported (fun span h => ?_) (fun span h => ?_) hstack hcause
    · rw [hspans span (List.mem_append_left _ (Option.mem_toList.2 h))]
      exact hp
    · rw [hspans span (List.mem_append_right _ h)]
      exact hp

/-- Everything is known. The scope that the machine is in is there, and what it says of places is as
the law asks. -/
def logic (L : Law) {ι : Type} (alarm : ι × ι) : Logic ι where
  holds _ _ := True
  Leads s s' := s.scopes.scopes.size ≤ s'.scopes.scopes.size ∧ s'.Follows L
  trans h h' := ⟨Nat.le_trans h.1 h'.1, h'.2⟩
  settled h := ⟨Nat.le_refl _, h.2⟩
  later _ _ := trivial
  plain _ := trivial
  reads _ _ _ := trivial
  newArray hs _ := ⟨⟨Nat.le_refl _, hs.2.of_eq rfl⟩, trivial⟩
  newTuple hs _ := ⟨⟨Nat.le_refl _, hs.2.of_eq rfl⟩, trivial⟩
  newMap hs _ := ⟨⟨Nat.le_refl _, hs.2.of_eq rfl⟩, trivial⟩
  newError hs hf := ⟨⟨Nat.le_refl _, hs.2.newFailure hf.tells⟩, trivial⟩
  setElement _ _ hs _ _ := ⟨Nat.le_refl _, hs.2.of_eq rfl⟩
  setEntry hs _ _ _ := ⟨Nat.le_refl _, hs.2.of_eq rfl⟩
  toQuorum := .everyone alarm
  ends := False
  fits m := m.scope.index < m.store.scopes.scopes.size ∧
    ∀ frame ∈ m.frames, L.place frame.location
  place := L.place
  spell := L.spell
  closer _ := True
  binds _ _ name v := L.binding name v
  receives _ _ _ _ := L.Receives
  stands _ _ := True
  declares _ _ _ := L.Receives
  fits_later h hs hl := ⟨hs.scope ▸ Nat.lt_of_lt_of_le h.1 hl.1, hs.frames ▸ h.2⟩
  binds_later _ _ h := h
  receives_later _ _ _ h := h
  home _ _ h := h
  inward _ _ h := h
  exports _ _ hl hv := hl.2.bindings.vars hv
  ofSpell hs h := hs.2.declares.of_spell? h
  ofMethod hs _ h := hs.2.method? h
  ofGrimoire hs h := ⟨(hs.2.findMethod? h).1, fun _ => trivial⟩
  ofObject hs _ h := (hs.2.findMethod? h).2
  ofInit hs _ h := hs.2.findInit? h
  ofSuper hs _ _ _ h := (hs.2.findMethod? h).2
  newSpell hs _ hf := ⟨⟨Nat.le_refl _, hs.2.newSpell hf⟩, trivial⟩
  newMethod hs _ _ hf hr := ⟨⟨Nat.le_refl _, hs.2.newMethod hf hr⟩, trivial⟩
  newObject hs _ _ _ := ⟨⟨Nat.le_refl _, hs.2.of_eq rfl⟩, trivial⟩
  newGrimoire hs _ _ _ hr hi hm :=
    ⟨⟨Nat.le_refl _, hs.2.newGrimoire hi (fun entry he =>
      (Demand.meets_table (d := L.demand) (fun f hf => ⟨(hm f hf).1, fun _ => trivial⟩)
        entry he).1) hr⟩, trivial⟩
  newSpace hs _ := ⟨⟨Nat.le_refl _, hs.2.of_eq rfl⟩, trivial⟩
  opened hs _ := ⟨⟨by simp, hs.2.openScope _⟩, trivial⟩
  entered hs _ _ hr := ⟨⟨by simp, hs.2.entered hr _ _⟩, trivial⟩
  define hs _ _ hb := ⟨by simp, hs.2.define _ hb⟩
  declareGlobal _ hs _ := ⟨by simp, hs.2.withScopes (hs.2.bindings.declareGlobal _ _)⟩
  setField _ _ hs _ _ := ⟨Nat.le_refl _, hs.2.of_eq rfl⟩
  raise hs hf htold _ := ⟨⟨Nat.le_refl _, hs.2.newFailure (tells_of_message hs.2 hf.2 htold)⟩, trivial⟩

/-- The states that code of a file may be evaluated in. -/
def ground (L : Law) {ι : Type} (alarm : ι × ι) (file : Option String) :
    Ground (L.logic alarm) where
  here m := m.Follows L ∧ m.file = file
  admits h := ⟨⟨⟨Nat.le_refl _, h.1.store⟩, h.1.scope, h.1.frames⟩, fun _ _ => trivial⟩
  later {m _} h hg :=
    have hfits := (L.logic alarm).fits_later (m := m) ⟨h.1.scope, h.1.frames⟩ hg.stays hg.leads
    ⟨⟨hfits.1, hg.leads.2, hfits.2⟩, hg.stays.file.trans h.2⟩

end Law

/-- The members of the family come to agree on an outcome that the law allows, unless an alarm is
raised. -/
abbrev Upholds (L : Law) {ι α : Type} [Bearing α] (alarm : ι × ι) (x : ι → Eval α) (m : Machine) :
    Prop :=
  Abides (L.logic alarm) x m

theorem Code.mem_names_of_frees {c : Code} {name : String} (h : name ∈ c.frees) :
    name ∈ c.names := by
  cases c with
  | stmt s =>
    cases s with
    | grimoire decl => exact List.mem_singleton.1 h ▸ List.mem_cons_self
    | _ => exact h
  | expr | spell => exact h

structure Obeys (L : Law) {ι : Type} (alarm : ι × ι) (E : ι → Evaluator) : Prop where
  expr : ∀ {e : Expr} {m : Machine}, L.Admits m (.expr e) →
    Upholds L alarm (fun i => (E i).expr e) m
  stmt : ∀ {s : Stmt} {m : Machine}, L.Admits m (.stmt s) →
    Upholds L alarm (fun i => (E i).stmt s) m
  spell : ∀ (start : Start) {decl : SpellDecl} (args : List Value) {m : Machine} {c : Code},
    L.Admits m c → L.spell decl → Upholds L alarm (fun i => (E i).spell start decl args) m
  turns : ∃ n, ∀ i, (E i).turns = n

namespace Law

variable {L : Law} {ι : Type} {alarm : ι × ι} {E : ι → Evaluator} {w : World} {c : Code}
  {file : Option String} {m m' : Machine}

section Parts

variable (hL : L.Sound w) (hE : Obeys L alarm E)

include hL hE

theorem takes (hc : L.fits file c) {e : Expr} (he : e ∈ c.exprs) :
    (L.ground alarm file).Takes E e :=
  fun _ hm => hE.expr ⟨hm.1, hm.2 ▸ hL.expr hc he⟩

theorem does (hc : L.fits file c) {s : Stmt} (hs : s ∈ c.stmts) :
    (L.ground alarm file).Does E s :=
  fun _ hm => hE.stmt ⟨hm.1, hm.2 ▸ hL.stmt hc hs⟩

end Parts

theorem allows_of_goes (h : (L.logic alarm).Goes m m') : L.Allows m m' :=
  ⟨h.stays.toKeeps, h.leads.1, h.leads.2⟩

theorem Allows.follows (h : L.Allows m m') (hm : m.Follows L) : m'.Follows L where
  scope := h.keeps.scope ▸ Nat.lt_of_lt_of_le hm.scope h.scopes
  store := h.store
  frames := h.keeps.frames ▸ hm.frames

theorem Admits.later (hc : L.Admits m c) (h : L.Allows m m') : L.Admits m' c :=
  ⟨h.follows hc.follows, h.keeps.file ▸ hc.fits⟩

/-- Where code that fits is evaluated. -/
def site (hL : L.Sound w) (hE : Obeys L alarm E) (hc : L.fits file c) :
    Site (L.logic alarm) w E c where
  toGround := L.ground alarm file
  calls _ m := m.Follows L ∧ m.file = file
  nested {m} h :=
    have hopened := h.1.store.openScope m.scope
    ⟨⟨by simp [Machine.nested, Store.fresh], hopened, h.1.frames⟩, h.2⟩
  expr _ he := takes hL hE hc he
  stmt _ hs := does hL hE hc hs
  place {m} h pos hp := by
    have hplace := hL.place hc hp
    rw [← h.2] at hplace
    exact hplace
  frees _ _ hn v := hL.names hc (Code.mem_names_of_frees hn) v
  catches _ _ hn r := hL.catches hc hn r
  spells decl hd := ⟨hL.spell hc hd, fun _ => trivial⟩
  call {m} h pos hp _ name := by
    have hplace := hL.place hc hp
    rw [← h.2] at hplace
    exact ⟨⟨h.1.scope, h.1.store.of_eq rfl, List.forall_mem_cons.2 ⟨hplace, h.1.frames⟩⟩, h.2⟩
  close h := h
  orderly h := ⟨Nat.le_refl _, h.1.store⟩
  onward h hg := (L.ground alarm file).later h hg
  starting {start m r decl args} h _ _ hspell _ :=
    have hopened := h.1.store.openScope r
    hE.spell start args ⟨⟨by simp [Machine.starting, Store.fresh], hopened,
      h.1.frames⟩, h.2 ▸ hc⟩ hspell
  receiving {start m v decl args g} h _ _ _ hr hspell _ :=
    have hentered := h.1.store.entered hr v g
    hE.spell start args ⟨⟨by simp [Machine.receiving, Store.fresh], hentered,
      h.1.frames⟩, h.2 ▸ hc⟩ hspell
  entering {m pos name binder source} h hload _ hread hclean :=
    have hopened := h.1.store.openScope m.scope
    .program (G := L.ground alarm _) (fun s hs _ hm => hE.stmt ⟨hm.1, hm.2 ▸
      hL.load (hload ▸ hc) hread hclean s hs⟩) false
      ⟨⟨by simp [Machine.entering], hopened, h.1.frames⟩, rfl⟩
  turns _ _ _ :=
    have ⟨n, hn⟩ := hE.turns
    ⟨id, n, .of_forall hn⟩

theorem upholds_expr {e : Expr} (hL : L.Sound w) (hE : Obeys L alarm E)
    (hc : L.Admits m (.expr e)) : Upholds L alarm (fun i => (E i).evalExpr w e) m :=
  .evalExpr (site hL hE hc.fits) ⟨⟨hc.follows, rfl⟩, nofun, fun _ _ _ _ _ _ _ _ => trivial⟩

theorem upholds_stmt {s : Stmt} (hL : L.Sound w) (hE : Obeys L alarm E)
    (hc : L.Admits m (.stmt s)) : Upholds L alarm (fun i => (E i).evalStmt w s) m := by
  refine .evalStmt (site hL hE hc.fits) ⟨⟨hc.follows, rfl⟩, ?_, fun _ _ _ _ _ _ _ _ => trivial⟩
  rintro decl ⟨⟩ v
  have hself : "self" ∈ (Code.stmt (.grimoire decl)).names := by simp [Code.names, Stmt.names]
  have hsuper : "super" ∈ (Code.stmt (.grimoire decl)).names := by simp [Code.names, Stmt.names]
  exact ⟨hL.names hc.fits hself v, hL.names hc.fits hsuper v⟩

theorem upholds_body {decl : SpellDecl} (hL : L.Sound w) (hE : Obeys L alarm E)
    (hc : L.Admits m (.spell decl)) (args : List Value) :
    Upholds L alarm (fun i => (E i).body w decl args) m :=
  .body (fun _ he => takes hL hE hc.fits he) (fun _ hs => does hL hE hc.fits hs)
    ⟨hc.follows, rfl⟩ (hL.place hc.fits List.mem_cons_self) (fun _ _ => trivial)
    fun _ hn v => hL.names hc.fits hn v

theorem upholds_run {p : Program} {scope : Ref .scope} (hE : Obeys L alarm E)
    (hm : Machine.Follows L { m with scope := scope })
    (hp : ∀ s ∈ p.statements, L.fits m.file (.stmt s)) :
    Upholds L alarm (fun i => (E i).run p scope) m := by
  refine .run (G := L.ground alarm m.file) (fun s hs _ hm => hE.stmt ⟨hm.1, hm.2 ▸ hp s hs⟩)
    ⟨Nat.le_refl _, hm.store⟩ ⟨hm, rfl⟩ fun _ h => .raised ⟨⟨Nat.le_refl _, ?_⟩, trivial⟩
  exact h.leads.2.newFailure (Failure.tells_plain _)

theorem obeys_spent : Obeys L alarm fun _ => .spent where
  expr hc := .spent id ⟨Nat.le_refl _, hc.store⟩
  stmt hc := .spent id ⟨Nat.le_refl _, hc.store⟩
  spell _ _ _ _ _ hc _ := .spent id ⟨Nat.le_refl _, hc.store⟩
  turns := ⟨0, fun _ => rfl⟩

/-- A law that admits every known spell is obeyed by the evaluator alone. -/
theorem obeys_evaluator (hL : L.Sound w)
    (hstart : ∀ {f c decl}, L.fits f c → L.spell decl → L.fits f (.spell decl)) (fuel : Nat) :
    Obeys L ((), ()) fun _ => evaluator w fuel := by
  induction fuel with
  | zero => exact obeys_spent
  | succ fuel ih =>
    exact ⟨upholds_expr hL ih, upholds_stmt hL ih, fun _ decl args m c hc hd =>
      upholds_body hL ih ⟨hc.follows, hstart hc.fits hd⟩ args, fuel, fun _ => rfl⟩

variable {P : Code → Machine → Prop}

/-- All that the evaluators are given is told, and `P` lets no spell start that does not fit. -/
theorem obeys_watched [∀ c m, Decidable (P c m)] (hL : L.Sound w)
    (hstart : ∀ {m c decl}, L.Admits m c → L.spell decl → P (.spell decl) m →
      L.fits m.file (.spell decl))
    (fuel : Nat) :
    Obeys L (Quiet.alarm (fun c m => L.Admits m c) P) fun i => watched w i.1 fuel := by
  induction fuel with
  | zero => exact obeys_spent
  | succ fuel ih =>
    refine ⟨fun hc => ?_, fun hc => ?_, fun start decl args m c hc hd => ?_, fuel, fun _ => rfl⟩
    · exact .told rfl ⟨Nat.le_refl _, hc.store⟩ (fun _ => hc) fun _ => upholds_expr hL ih hc
    · exact .told rfl ⟨Nat.le_refl _, hc.store⟩ (fun _ => hc) fun _ => upholds_stmt hL ih hc
    · have hfits := hstart hc hd
      exact .told rfl ⟨Nat.le_refl _, hc.store⟩ (fun hp => ⟨hc.follows, hfits hp⟩) fun hp =>
        upholds_body hL ih ⟨hc.follows, hfits hp⟩ args

variable {fuel : Nat} {p : Program} {scope : Ref .scope}

open Classical in
/-- A law that a program starts by is followed throughout its run, as long as no spell is started
that the law does not admit. -/
theorem throughout (hL : L.Sound w)
    (hstart : ∀ {m c decl}, L.Admits m c → L.spell decl → P (.spell decl) m →
      L.fits m.file (.spell decl))
    (hm : Machine.Follows L { m with scope := scope })
    (hp : ∀ s ∈ p.statements, L.fits m.file (.stmt s)) (h : Throughout w fuel p scope m P) :
    (Throughout w fuel p scope m fun c m => L.Admits m c ∧ P c m) ∧
      L.Allows m (endState (runProgram w fuel p scope m)) := by
  have hrun := upholds_run (obeys_watched hL hstart fuel) hm hp
  obtain ⟨hthroughout, hallows⟩ := hrun.throughout rfl (Abides.silent h)
  exact ⟨hthroughout, allows_of_goes hallows.goes⟩

end Law

theorem Upholds.allows {L : Law} {α : Type} [Bearing α] {x : Eval α} {m : Machine}
    (h : Upholds L ((), ()) (fun _ => x) m) : L.Allows m (endState (x m)) :=
  Law.allows_of_goes (Abides.allows h).goes

/-! What a sentry finds out -/

def Law.free : Law := ⟨fun _ _ => True, fun _ => True, fun _ _ => True, fun _ => True⟩

theorem Law.sound_free (w : World) : Law.free.Sound w := by
  constructor <;> intros <;> trivial

theorem Machine.follows_free {m : Machine} (hm : m.scope.index < m.store.scopes.scopes.size) :
    m.Follows Law.free where
  scope := hm
  frames _ _ := trivial
  store :=
    { declares := ⟨fun _ _ => trivial, fun _ _ _ _ => trivial,
        fun _ _ _ _ => ⟨trivial, fun _ => trivial⟩, fun _ _ => trivial⟩
      grimoires := fun _ _ _ => ⟨trivial, trivial⟩
      methods := fun _ _ _ => ⟨trivial, trivial⟩
      bindings := fun _ _ _ _ => trivial
      failures := fun _ _ _ _ _ _ => trivial }

/-- What a sentry lets pass to the end holds throughout. -/
theorem throughout_of_sentry {w : World} {P : Code → Machine → Prop} {fuel : Nat} {p : Program}
    {scope : Ref .scope} {m : Machine} [∀ c m, Decidable (P c m)]
    (hs : scope.index < m.store.scopes.scopes.size)
    (h : endsEarly ((watched w (sentry P "") fuel).run p scope m) = false) :
    Throughout w fuel p scope m P := by
  have hfollows : Machine.Follows Law.free { m with scope := scope } := Machine.follows_free hs
  have hrun := Law.upholds_run (p := p) (Law.obeys_watched (P := P) (Law.sound_free w)
    (fun _ _ _ => trivial) fuel) hfollows fun _ _ => trivial
  refine (hrun.throughout rfl fun hbreaks => ?_).1.imp fun c m hc => hc.2
  obtain ⟨m₁, _, h₁, _⟩ := hbreaks
  have hends : (watched w (sentry P "") fuel).run p scope m = .error .outOfFuel m₁ := h₁
  rw [hends] at h
  cases h

theorem Store.follows_initial {L : Law} (hb : ∀ b : Builtin, L.binding b.name (.builtin b)) :
    Store.initial.Follows L := by
  refine Store.initial_induct ?_ fun s b hs => hs.define Forest.outermost (hb b)
  have hnone : ∀ {α : Type} {P : α → Prop}, ∀ a ∈ (#[] : Array α), P a :=
    fun a h => absurd h (Array.not_mem_empty a)
  refine ⟨⟨hnone, hnone, hnone, hnone⟩, hnone, hnone, fun scope hscope => ?_, hnone⟩
  obtain rfl : scope = ⟨none, [], []⟩ := by
    simpa [Store.empty, Forest.single] using hscope
  exact fun entry he => nomatch he

end Spellbook
