import Mathlib.Order.Filter.Basic
import Spellbook.Eval
import Spellbook.Proofs.Evaluation.Operations

/-! A logic for families of evaluations. A family abides by a logic in a state if its members come to
agree on an outcome that the logic allows. One member, two evaluators side by side, evaluators with
observers, and one evaluator under growing fuel are families alike. What a logic allows is said by
the steps that the rules of evaluation are made of, so all that is asked of runs is asked here. -/
namespace Spellbook

open Bearing Estate

/-! What evaluations do to the bookkeeping -/

/-- What every evaluation puts back, and the one thing it only adds to. -/
structure Machine.Keeps (m m' : Machine) : Prop where
  scope : m'.scope = m.scope
  frames : m'.frames = m.frames
  owner : m'.owner = m.owner
  file : m'.file = m.file
  imported : m.imported <:+ m'.imported

/-- `m'` comes no earlier than `m`, with the same calls under way. -/
structure Machine.Precedes (m m' : Machine) : Prop where
  frames : m'.frames = m.frames
  imported : m.imported <:+ m'.imported

/-- No file is among the paths twice. -/
def Path.Distinct (paths : List Path) : Prop := paths.Pairwise fun p q => p.same q = false

/-- The bookkeeping is kept, and no file goes on record twice. -/
structure Machine.Stays (m m' : Machine) : Prop extends m.Keeps m' where
  distinct : Path.Distinct m.imported → Path.Distinct m'.imported

theorem Path.Distinct.cons {p : Path} {paths : List Path} (h : Distinct paths)
    (hp : p.isAmong paths = false) : Distinct (p :: paths) := by
  refine List.pairwise_cons.2 ⟨fun q hq => ?_, h⟩
  exact Bool.eq_false_iff.2 (List.any_eq_false.1 hp q hq)

namespace Machine

variable {m m₁ m₂ : Machine}

theorem Keeps.refl (m : Machine) : m.Keeps m := ⟨rfl, rfl, rfl, rfl, List.suffix_rfl⟩

theorem Keeps.trans (h₁ : m.Keeps m₁) (h₂ : m₁.Keeps m₂) : m.Keeps m₂ where
  scope := h₂.scope.trans h₁.scope
  frames := h₂.frames.trans h₁.frames
  owner := h₂.owner.trans h₁.owner
  file := h₂.file.trans h₁.file
  imported := h₁.imported.trans h₂.imported

theorem isAmong_mono {p : Path} (h : m.imported <:+ m₁.imported)
    (hp : p.isAmong m.imported = true) : p.isAmong m₁.imported = true := by
  obtain ⟨q, hq, hsame⟩ := List.any_eq_true.1 hp
  exact List.any_eq_true.2 ⟨q, h.subset hq, hsame⟩

theorem Keeps.precedes (h : m.Keeps m₁) : m.Precedes m₁ := ⟨h.frames, h.imported⟩

theorem Precedes.refl (m : Machine) : m.Precedes m := ⟨rfl, List.suffix_rfl⟩

theorem Precedes.trans (h₁ : m.Precedes m₁) (h₂ : m₁.Precedes m₂) : m.Precedes m₂ :=
  ⟨h₂.frames.trans h₁.frames, h₁.imported.trans h₂.imported⟩

theorem Stays.refl (m : Machine) : m.Stays m := ⟨.refl m, id⟩

theorem Stays.trans (h₁ : m.Stays m₁) (h₂ : m₁.Stays m₂) : m.Stays m₂ :=
  ⟨h₁.toKeeps.trans h₂.toKeeps, h₂.distinct ∘ h₁.distinct⟩

theorem stays_store (m : Machine) (s : Store) : m.Stays { m with store := s } :=
  ⟨⟨rfl, rfl, rfl, rfl, List.suffix_rfl⟩, id⟩

def located (m : Machine) (pos : Pos) : Location := ⟨m.file, pos.line, pos.col⟩

end Machine

theorem Eval.modify_eq (f : Machine → Machine) (m : Machine) :
    (modify f : Eval Unit) m = .ok () (f m) := rfl

/-! Where code is started -/

namespace Store

/-- The scopes once one has been opened. -/
def opened (s : Store) (parent : Ref .scope) : Store :=
  { s with scopes := (s.scopes.push parent).2 }

/-- The scope that is opened next. -/
def fresh (s : Store) : Ref .scope := ⟨s.scopes.scopes.size⟩

/-- What a method of `g` knows beside its parameters, bound in a scope. -/
def received (s : Store) (r : Ref .scope) (v : Value) (g : Ref .grimoire) : Store :=
  let named := s.scopes.define r "self" v
  { s with scopes := (s.grimoire g).parent.elim named fun p => named.define r "super" (.grimoire p) }

/-- The store in which the body of a method of `g` starts. -/
def entered (s : Store) (v : Value) (g : Ref .grimoire) : Store :=
  (s.opened (s.grimoire g).scope).received s.fresh v g

@[simp] theorem size_opened (s : Store) (parent : Ref .scope) :
    (s.opened parent).scopes.scopes.size = s.scopes.scopes.size + 1 := by
  simp [opened]

@[simp] theorem size_entered (s : Store) (v : Value) (g : Ref .grimoire) :
    (s.entered v g).scopes.scopes.size = s.scopes.scopes.size + 1 := by
  unfold entered received
  cases ((s.opened (s.grimoire g).scope).grimoire g).parent with
  | none => simp
  | some p => simp

end Store

/-- The methods of a grimoire by name. Of several with one name the last counts. -/
def GrimoireDecl.table (decl : GrimoireDecl) : Bindings SpellDecl :=
  decl.methods.foldl (fun all m => all.set m.name.name m) []

/-- Whether its attributes are those of an object that stands in for it. -/
def Value.standsAlone : Value → Bool
  | .int _ | .float _ | .bool _ | .str _ | .array _ => true
  | _ => false

namespace Machine

/-- In a new scope inside the one that it is in. -/
def nested (m : Machine) : Machine :=
  { m with store := m.store.opened m.scope, scope := m.store.fresh }

/-- Where a spell without a receiver starts that was declared in the scope. -/
def starting (m : Machine) (r : Ref .scope) : Machine :=
  { m with store := m.store.opened r, scope := m.store.fresh, owner := none }

/-- Where a method starts that `g` declares. -/
def receiving (m : Machine) (v : Value) (g : Ref .grimoire) : Machine :=
  { m with store := m.store.entered v g, scope := m.store.fresh, owner := some g }

def entering (m : Machine) (path : Path) : Machine :=
  { m with
    store := { m.store with scopes := (m.store.scopes.push m.scope).2 }
    scope := (m.store.scopes.push m.scope).1
    imported := path :: m.imported
    file := some path.text
    owner := none }

/-- What may be raised by code that knows these places. -/
inductive Says (m : Machine) (known : Location → Prop) : Failure → Prop where
  | traced {pos : Pos} (name message : String) {cause : Option Failure} (limit : Nat)
      (details : List (String × String)) : known (m.located pos) →
    (∀ f ∈ cause, (∃ message, f = .plain message) ∨ ∃ r, f = m.store.failure r) →
    Says m known (.traced ⟨name, message, m.located pos, cause, m.frames.take limit, details⟩)
  | custom {pos : Pos} (name message : String) (object : Option (Ref .object)) (limit : Nat) :
    known (m.located pos) →
    Says m known (.custom ⟨name, message, object, m.located pos, m.frames.take limit⟩)
  | reported {pos : Pos} {r : Report} : known (m.located pos) →
    (∀ span ∈ r.primary.toList ++ r.labels, span.start = m.located pos) →
    ((m.located pos).isKnown = true → r.primary.isSome = true) → r.stack = [] → r.cause = none →
    Says m known (.reported r)

end Machine

/-! Logics -/

/-- Which members of a family of runs have to agree. -/
structure Quorum (ι : Type) where
  family : Filter ι
  proper : family.NeBot
  /-- Two members that may break off with different words, to say that nothing is asked of the
  others. -/
  alarm : Option (ι × ι)
  /-- Those who may raise an alarm are heard. -/
  heard : ∀ a ∈ alarm, family = ⊤

def Quorum.everyone {ι : Type} (alarm : ι × ι) : Quorum ι where
  family := ⊤
  proper := @Filter.instNeBotTop _ ⟨alarm.1⟩
  alarm := some alarm
  heard _ _ := rfl

/-- What is asked of runs. -/
structure Logic (ι : Type) extends Estate, Quorum ι where
  /-- Whether a run has to end. -/
  ends : Prop
  /-- What is asked of a machine beside its store. -/
  fits : Machine → Prop
  /-- The places that failures may speak of. -/
  place : Location → Prop
  /-- The spells that may come to be known. -/
  spell : SpellDecl → Prop
  /-- Those that may close a resource. -/
  closer : SpellDecl → Prop
  /-- What a name may be bound to in a scope. -/
  binds : Store → Ref .scope → String → Value → Prop
  /-- The receivers of a method that a grimoire declares. -/
  receives : Store → Value → Ref .grimoire → SpellDecl → Prop
  /-- The grimoires of which an object may be made to stand in for a value. -/
  stands : Store → Ref .grimoire → Prop
  /-- The grimoires that may be declared in a scope. -/
  declares : Store → Ref .scope → GrimoireDecl → Prop
  fits_later : ∀ {m m'}, fits m → m.Stays m' → Leads m.store m'.store → fits m'
  binds_later : ∀ {s s' r name v}, Leads s s' → holds s (.scope r) → binds s r name v →
    binds s' r name v
  receives_later : ∀ {s s' v g decl}, Leads s s' → holds s (.value v) →
    holds s (.value (.grimoire g)) → receives s v g decl → receives s' v g decl
  /-- An assignment may go to where the name is bound. -/
  home : ∀ {s r name v}, Leads s s → holds s (.scope r) → binds s r name v →
    binds s (s.scopes.home r name) name v
  inward : ∀ {s r name v}, Leads s s → holds s (.scope r) → binds s r name v →
    binds (s.opened r) s.fresh name v
  /-- What a module has bound may be bound where it is imported. -/
  exports : ∀ {s s' r name v}, Leads s s → holds s (.scope r) → Leads (s.opened r) s' →
    (name, v) ∈ (s'.scopes.scope s.fresh).vars → binds s' r name v
  ofSpell : ∀ {s r f}, Leads s s → s.spell? r = some f → spell f.decl
  ofMethod : ∀ {s r f}, Leads s s → holds s (.value (.method r)) → s.method? r = some f →
    spell f.decl ∧ receives s f.receiver f.owner f.decl
  ofGrimoire : ∀ {s r name decl g}, Leads s s → s.findMethod? r name = some (decl, g) →
    spell decl ∧ (name = "close" → closer decl)
  ofObject : ∀ {s r name decl g}, Leads s s → holds s (.value (.object r)) →
    s.findMethod? (s.object r).grimoire name = some (decl, g) → receives s (.object r) g decl
  ofInit : ∀ {s r decl g}, Leads s s → holds s (.value (.object r)) →
    s.findInit? (s.object r).grimoire = some (decl, g) →
      spell decl ∧ receives s (.object r) g decl
  ofSuper : ∀ {s r p v name decl g}, Leads s s → holds s (.scope r) →
    s.scopes.get? r "super" = some (.grimoire p) → s.scopes.get? r "self" = some v →
    s.findMethod? p name = some (decl, g) → receives s v g decl
  newSpell : ∀ {s} {f : Spell}, Leads s s → holds s (.scope f.scope) → spell f.decl →
    Leads s (s.newSpell f).2 ∧ holds (s.newSpell f).2 (.value (s.newSpell f).1)
  newMethod : ∀ {s} {f : Method}, Leads s s → holds s (.value f.receiver) →
    holds s (.value (.grimoire f.owner)) → spell f.decl → receives s f.receiver f.owner f.decl →
      Leads s (s.newMethod f).2 ∧ holds (s.newMethod f).2 (.value (s.newMethod f).1)
  newObject : ∀ {s} {o : Object}, Leads s s → holds s (.value (.grimoire o.grimoire)) →
    (∀ entry ∈ o.fields, holds s (.value entry.2)) →
    Evaluator.abstractFault? s o.grimoire = none ∨ stands s o.grimoire →
      Leads s (s.newObject o).2 ∧ holds (s.newObject o).2 (.value (.object (s.newObject o).1))
  newGrimoire : ∀ {s scope} {parent : Option (Ref .grimoire)} {decl : GrimoireDecl}, Leads s s →
    holds s (.scope scope) → (∀ p ∈ parent, holds s (.value (.grimoire p))) →
    (parent = none → decl.parent = none) → declares s scope decl → (∀ f ∈ decl.init, spell f) →
    (∀ f ∈ decl.methods, spell f ∧ (f.name.name = "close" → closer f)) →
      let new := s.newGrimoire ⟨decl.name.name, parent, decl.init, decl.table, scope, decl.arcane⟩
      Leads s new.2 ∧ holds new.2 (.value new.1)
  newSpace : ∀ {s} {n : Space}, Leads s s → holds s (.scope n.scope) →
    Leads s (s.newSpace n).2 ∧ holds (s.newSpace n).2 (.value (s.newSpace n).1)
  opened : ∀ {s r}, Leads s s → holds s (.scope r) →
    Leads s (s.opened r) ∧ holds (s.opened r) (.scope s.fresh)
  entered : ∀ {s v g decl}, Leads s s → holds s (.value v) → holds s (.value (.grimoire g)) →
    receives s v g decl → Leads s (s.entered v g) ∧ holds (s.entered v g) (.scope s.fresh)
  define : ∀ {s r name v}, Leads s s → holds s (.scope r) → holds s (.value v) →
    binds s r name v → Leads s { s with scopes := s.scopes.define r name v }
  declareGlobal : ∀ {s r} (name : String), Leads s s → holds s (.scope r) →
    Leads s { s with scopes := s.scopes.declareGlobal r name }
  setField : ∀ {s r} (name : String) {v : Value}, Leads s s → holds s (.value (.object r)) →
    holds s (.value v) → Leads s (s.setField r name v)
  raise : ∀ {m : Machine} {f : Failure}, Leads m.store m.store → fits m → m.Says place f →
    (∀ i ∈ items f, holds m.store i) → Leads m.store (m.store.newFailure f).2 ∧
      holds (m.store.newFailure f).2 (.value (.caught (m.store.newFailure f).1))

section Families

variable {ι α : Type}

/-- Those who are to raise an alarm break off, with different words. -/
def BreaksOff (alarm : ι × ι) (x : ι → Eval α) (m : Machine) : Prop :=
  ∃ m₁ m₂, x alarm.1 m = .error .outOfFuel m₁ ∧ x alarm.2 m = .error .outOfFuel m₂ ∧
    m₁.output ≠ m₂.output

end Families

namespace BreaksOff

variable {ι α β : Type} {alarm : ι × ι} {m m' : Machine}

theorem step {x y : ι → Eval α} (h : ∀ i, x i m = y i m') (hy : BreaksOff alarm y m') :
    BreaksOff alarm x m :=
  have ⟨m₁, m₂, h₁, h₂, hne⟩ := hy
  ⟨m₁, m₂, (h _).trans h₁, (h _).trans h₂, hne⟩

theorem bind {x : ι → Eval α} (hx : BreaksOff alarm x m) (k : ι → α → Eval β) :
    BreaksOff alarm (fun i => x i >>= k i) m := by
  obtain ⟨m₁, m₂, h₁, h₂, hne⟩ := hx
  refine ⟨m₁, m₂, ?_, ?_, hne⟩
  · simp only [Bind.bind, EStateM.bind, h₁]
  · simp only [Bind.bind, EStateM.bind, h₂]

/-- An alarm is not caught. -/
theorem caught {x : ι → Eval α} (hx : BreaksOff alarm x m) :
    BreaksOff alarm (fun i => Eval.caught (x i)) m := by
  obtain ⟨m₁, m₂, h₁, h₂, hne⟩ := hx
  refine ⟨m₁, m₂, ?_, ?_, hne⟩
  · simp only [Eval.caught, h₁]
  · simp only [Eval.caught, h₂]

/-- Nor is it lost at the end of a bracket that leaves the output alone. -/
theorem bracket {σ : Type} {save : Machine → σ} {enter : Machine → Machine}
    {leave : σ → Machine → Machine} {x : ι → Eval α} (hx : BreaksOff alarm x (enter m))
    (ho : ∀ m', (leave (save m) m').output = m'.output) :
    BreaksOff alarm (fun i => Eval.bracket save enter leave (x i)) m := by
  obtain ⟨m₁, m₂, h₁, h₂, hne⟩ := hx
  refine ⟨leave (save m) m₁, leave (save m) m₂, ?_, ?_, ?_⟩
  · simp only [Eval.bracket, h₁]
  · simp only [Eval.bracket, h₂]
  · simpa only [ho] using hne

end BreaksOff

namespace Logic

variable {ι α : Type} [Bearing α] (L : Logic ι)

/-- What may become of a machine. -/
structure Goes (m m' : Machine) : Prop where
  stays : m.Stays m'
  leads : L.Leads m.store m'.store

/-- The machine is in order, whatever scope it is in. -/
structure Suits (m : Machine) : Prop where
  orderly : L.Leads m.store m.store
  fits : L.fits m

structure Admits (m : Machine) : Prop extends L.Suits m where
  scope : L.Knows m.store m.scope

/-- An outcome in `m` that the logic allows. What is given or raised is known. -/
structure Allows (m : Machine) (r : EStateM.Result Halt Machine α) : Prop where
  goes : L.Goes m (endState r)
  ends : L.ends → ∀ m', r ≠ .error .outOfFuel m'
  result : ∀ a m', r = .ok a m' → L.Knows m'.store a
  raised : ∀ f m', r = .error (.raised f) m' → L.Knows m'.store f

/-- Code may bind the name to anything. -/
def Frees (m : Machine) (name : String) : Prop := ∀ v, L.binds m.store m.scope name v

/-- If a grimoire has the name of a value's type, an object of it may stand in for the value. -/
def Wraps (m : Machine) (v : Value) : Prop :=
  v.standsAlone = true →
    ∀ g, m.store.scopes.get? m.scope (m.store.kind v) = some (.grimoire g) → L.stands m.store g

end Logic

/-- The members of the family come to agree on an outcome that is allowed, unless an alarm is
raised. -/
def Abides {ι α : Type} [Bearing α] (L : Logic ι) (x : ι → Eval α) (m : Machine) : Prop :=
  (∃ alarm ∈ L.alarm, BreaksOff alarm x m) ∨ ∃ r, (∀ᶠ i in L.family, x i m = r) ∧ L.Allows m r

namespace Logic

variable {ι α : Type} [Bearing α] {L : Logic ι} {m m' m'' : Machine} {s : Store}

theorem Goes.trans (h : L.Goes m m') (h' : L.Goes m' m'') : L.Goes m m'' :=
  ⟨h.stays.trans h'.stays, L.trans h.leads h'.leads⟩

theorem Goes.orderly (h : L.Goes m m') : L.Leads m'.store m'.store := L.settled h.leads

theorem Goes.suits (h : L.Goes m m') (hm : L.Suits m) : L.Suits m' :=
  ⟨h.orderly, L.fits_later hm.fits h.stays h.leads⟩

theorem Goes.admits (h : L.Goes m m') (hm : L.Admits m) : L.Admits m' :=
  ⟨h.suits hm.toSuits, h.stays.scope ▸ hm.scope.later h.leads⟩

theorem Goes.place (h : L.Goes m m') {pos : Pos} (hp : L.place (m.located pos)) :
    L.place (m'.located pos) := by
  rwa [Machine.located, h.stays.file]

theorem Admits.binds (hm : L.Admits m) (h : L.Goes m m') {name : String} {v : Value}
    (hb : L.binds m.store m.scope name v) : L.binds m'.store m'.scope name v :=
  h.stays.scope ▸ L.binds_later h.leads (knows_scope.1 hm.scope) hb

theorem Admits.frees (hm : L.Admits m) (h : L.Goes m m') {name : String} (hb : L.Frees m name) :
    L.Frees m' name :=
  fun v => hm.binds h (hb v)

/-- A change of the store alone. -/
theorem goes_store (h : L.Leads m.store s) : L.Goes m { m with store := s } :=
  ⟨m.stays_store s, h⟩

theorem goes_refl (h : L.Leads m.store m.store) : L.Goes m m := ⟨.refl m, h⟩

namespace Allows

theorem ok {a : α} (h : L.Goes m m') (ha : L.Knows m'.store a) : L.Allows m (.ok a m') where
  goes := h
  ends _ _ hr := by cases hr
  result b m'' hb := by
    cases hb
    exact ha
  raised f m'' hf := by cases hf

theorem error {f : Ref .failure} (h : L.Goes m m') (hf : L.Knows m'.store f) :
    L.Allows m (.error (.raised f) m' : EStateM.Result Halt Machine α) where
  goes := h
  ends _ _ hr := by cases hr
  result b m'' hb := by cases hb
  raised g m'' hg := by
    cases hg
    exact hf

theorem spent (h : L.Goes m m') (he : ¬ L.ends) :
    L.Allows m (.error .outOfFuel m' : EStateM.Result Halt Machine α) where
  goes := h
  ends hr := absurd hr he
  result b m'' hb := by cases hb
  raised g m'' hg := by cases hg

/-- Whatever becomes of what stopped is allowed where the stop was. -/
theorem stopped {β : Type} [Bearing β] {e : Halt} {m₀ : Machine}
    (hr : L.Allows m₀ (.error e m' : EStateM.Result Halt Machine β)) (h : L.Goes m m'')
    (hs : m''.store = m'.store) : L.Allows m (.error e m'' : EStateM.Result Halt Machine α) where
  goes := h
  ends he _ hr' := by
    cases hr'
    exact hr.ends he m' rfl
  result b _ hb := by cases hb
  raised f _ hf := by
    cases hf
    exact hs ▸ hr.raised f m' rfl

/-- What a later state allows, an earlier one does too. -/
theorem earlier {r : EStateM.Result Halt Machine α} (hr : L.Allows m' r) (h : L.Goes m m') :
    L.Allows m r :=
  ⟨h.trans hr.goes, hr.ends, hr.result, hr.raised⟩

end Allows

end Logic

end Spellbook
