import Spellbook.Proofs.Evaluation.Observers
import Spellbook.Proofs.Regime.Basic

/-! Regimes as logics. All that a regime looks at is done in steps, and everything else leaves alone
what it looks at. So evaluators comply with it if the code does by itself no more than it permits. -/
namespace Spellbook

open Estate Region Refers

def Stmt.isLoad : Stmt → Bool
  | .load .. => true
  | _ => false

def Code.binds : Code → List String
  | .stmt s => s.binds ++ catches (.stmt s)
  | c => c.names

theorem Code.mem_binds_of_frees {c : Code} {name : String} (h : name ∈ c.frees) :
    name ∈ c.binds := by
  cases c with
  | stmt s => exact List.mem_append_left _ h
  | expr | spell => exact h

theorem Code.mem_binds_of_catches {c : Code} {name : String} (h : name ∈ c.catches) :
    name ∈ c.binds := by
  cases c with
  | stmt s => exact List.mem_append_right _ h
  | expr | spell => cases h

/-- What the code does by itself is within the rules. -/
structure Rules.Permits (R : Rules) (w : World) (c : Code) (m : Machine) : Prop where
  binds : ∀ name ∈ c.binds, R.binds m.store m.scope name
  declares : ∀ decl, c = .stmt (.grimoire decl) → R.declares m.store m.scope decl
  wraps : ∀ fuel vs m', (evaluator w fuel).exprs c.bases m = .ok vs m' →
    ∀ v ∈ vs.getLast?, R.Wraps m' v

namespace Regime

variable (R : Regime) {ι : Type} (alarm : ι × ι)

/-- What is known is there, and the store is in order. -/
def logic : Logic ι where
  holds s i := whole.Holds s i
  Leads := R.Leads
  trans := Leads.trans
  settled h := h.orderly.refl
  later h hl := Holds.later h hl.grows
  plain h := holds_plain h
  reads hs hi h := hs.grows.closed.reads hi h
  newArray hs hxs := hs.orderly.makes (whole.logic.newArray hs.grows hxs) rfl
  newTuple hs hxs := hs.orderly.makes (whole.logic.newTuple hs.grows hxs) rfl
  newMap hs ht := hs.orderly.makes (whole.logic.newMap hs.grows ht) rfl
  newError hs hf := hs.orderly.makes (whole.logic.newError hs.grows hf) rfl
  setElement i _ hs hr hv :=
    hs.orderly.alike (whole.logic.setElement i hs.grows hr hv) (.of_eq rfl rfl rfl rfl)
  setEntry hs hr hn hv :=
    hs.orderly.alike (whole.logic.setEntry hs.grows hr hn hv) (.of_eq rfl rfl rfl rfl)
  toQuorum := .everyone alarm
  ends := False
  fits _ := True
  place _ := True
  spell _ := True
  closer _ := True
  binds s r name _ := R.binds s r name
  receives := R.receives
  stands := R.stands
  declares := R.declares
  fits_later _ _ _ := trivial
  binds_later hl hr hb := hl.binds _ _ hr hb
  receives_later hl hv hg hr := hl.receives _ _ _ hv hg hr
  home hs hr hb := hs.orderly.binds_home hr hb
  inward hs hr hb := R.inward hs.orderly hr hb
  exports {s s' r name v} hs hr hl hv := by
    have hfresh := (hs.orderly.opened hr).2
    have hparent : (s'.scopes.scope s.fresh).parent = some r :=
      (hl.parent _ hfresh).trans (congrArg Scope.parent (Store.scope_fresh s r))
    exact R.outward hl.orderly (hfresh.later hl.grows) hparent
      (hl.plain _ hfresh (R.plain_fresh s r) (name, v) hv)
  ofSpell _ _ := trivial
  ofMethod hs _ h := ⟨trivial, R.ofMethod hs.orderly h⟩
  ofGrimoire _ _ := ⟨trivial, fun _ => trivial⟩
  ofObject hs ho h := R.ofObject hs.orderly ho (Store.mem_lineage_of_findMethod? _ h)
    (Store.owns_of_findMethod? h)
  ofInit hs ho h := ⟨trivial, R.ofObject hs.orderly ho (Store.mem_lineage_of_findInit? _ h)
    (Store.owns_of_findInit? h)⟩
  ofSuper hs hr hsuper hself h := R.ofSuper hs.orderly hr hsuper hself
    (Store.mem_lineage_of_findMethod? _ h) (Store.owns_of_findMethod? h)
  newSpell hs hr h := hs.orderly.makes (whole.logic.newSpell hs.grows hr h) rfl
  newMethod hs hv hg _ hr := hs.orderly.newMethod (holds_method.2 ⟨hg, hv⟩) hr
  newObject hs hg hf hw := hs.orderly.newObject (holds_object.2
    ⟨hg, holds_list.2 fun entry he => holds_pair.2 ⟨holds_plain rfl, hf entry he⟩⟩) hw
  newGrimoire hs hr hp hnone hd _ _ := hs.orderly.newGrimoire (holds_option.2 hp) hr hnone hd
  newSpace hs hr := hs.orderly.makes (whole.logic.newSpace hs.grows hr) rfl
  opened hs hr := hs.orderly.opened hr
  entered hs hv hg hr := hs.orderly.entered hv hg hr
  define hs hr hv hb := hs.orderly.define hr hv hb
  declareGlobal name hs hr :=
    hs.orderly.alike (whole.logic.declareGlobal name hs.grows hr) (.declareGlobal _ _ _)
  setField name _ hs hr hv :=
    hs.orderly.alike (whole.logic.setField name hs.grows hr hv) (.setField _ _ _ _)
  raise hs hf htold hi := hs.orderly.makes (whole.logic.raise hs.grows hf htold hi) rfl

/-- The states that the regime admits. -/
def ground : Ground (R.logic alarm) where
  here := R.Admits
  admits h := ⟨⟨h.orderly.refl, trivial⟩, knows_scope.2 h.scope⟩
  later h hg := h.later ⟨hg.stays.toKeeps, hg.leads⟩

end Regime

/-- The members of the family come to agree on an outcome that the regime allows, unless an alarm is
raised. -/
abbrev Complies (R : Regime) {ι α : Type} [Bearing α] (alarm : ι × ι) (x : ι → Eval α)
    (m : Machine) : Prop :=
  Abides (R.logic alarm) x m

/-- The evaluators comply wherever the regime admits the state, and one of them is the evaluator
alone. -/
structure Regime.Governs (R : Regime) (w : World) {ι : Type} (alarm : ι × ι) (E : ι → Evaluator) :
    Prop where
  expr : ∀ e, (R.ground alarm).Takes E e
  stmt : ∀ s, (R.ground alarm).Does E s
  spell : ∀ start decl args {m}, R.Admits m → (R.logic alarm).Knows m.store args →
    Complies R alarm (fun i => (E i).spell start decl args) m
  turns : ∃ n, ∀ i, (E i).turns = n
  alone : ∃ i fuel, E i = evaluator w fuel

namespace Regime

variable {R : Regime} {ι : Type} {alarm : ι × ι} {E : ι → Evaluator} {w : World} {m m' : Machine}

theorem goes_of (h : (R.logic alarm).Goes m m') : R.Goes m m' := ⟨h.stays.toKeeps, h.leads⟩

/-- Where code is evaluated that binds no more names than it may. -/
def Governs.site (hE : R.Governs w alarm E) (c : Code) : Site (R.logic alarm) w E c where
  here m := R.Admits m ∧ ∀ name ∈ c.binds, R.binds m.store m.scope name
  admits h := (R.ground alarm).admits h.1
  later h hg :=
    ⟨(R.ground alarm).later h.1 hg, fun name hn => h.1.binds_later (goes_of hg) (h.2 name hn)⟩
  calls _ m := R.Orderly m.store
  nested h :=
    have ⟨hopened, hfresh⟩ := h.1.orderly.opened h.1.scope
    ⟨⟨hopened.orderly, hfresh, R.nested h.1.orderly h.1.scope h.1.here⟩,
      fun name hn => R.inward h.1.orderly h.1.scope (h.2 name hn)⟩
  expr e _ _ hm := hE.expr e hm.1
  stmt s _ _ hm := hE.stmt s hm.1
  place _ _ _ := trivial
  frees h name hn _ := h.2 name (Code.mem_binds_of_frees hn)
  catches h name hn _ := h.2 name (Code.mem_binds_of_catches hn)
  spells _ _ := ⟨trivial, fun _ => trivial⟩
  call h _ _ _ _ := h.1.orderly
  close h := h.1.orderly
  orderly h := h.refl
  onward _ hg := hg.leads.orderly
  starting h hr ha _ _ :=
    have ⟨hopened, hfresh⟩ := h.opened (knows_scope.1 hr)
    hE.spell _ _ _ ⟨hopened.orderly, hfresh, R.outside⟩ (ha.later hopened)
  receiving h hv hg ha hr _ _ :=
    have hv := knows_value.1 hv
    have hg := (knows_value (v := .grimoire _)).1 hg
    have ⟨hentered, hfresh⟩ := h.entered hv hg hr
    hE.spell _ _ _ ⟨hentered.orderly, hfresh, R.entered h hv hg hr⟩ (ha.later hentered)
  entering h _ _ _ _ :=
    have ⟨hopened, hfresh⟩ := h.1.orderly.opened h.1.scope
    .program (G := R.ground alarm) (fun s _ => hE.stmt s) false
      ⟨hopened.orderly, hfresh, R.outside⟩
  turns _ _ _ :=
    have ⟨n, hn⟩ := hE.turns
    ⟨id, n, .of_forall hn⟩

theorem Governs.at (hE : R.Governs w alarm E) {c : Code} (hm : R.Admits m)
    (hp : R.Permits w c m) : (hE.site c).At m where
  here := ⟨hm, hp.binds⟩
  declares := hp.declares
  wraps vs m' hok v hv := by
    obtain ⟨i, fuel, halone⟩ := hE.alone
    exact hp.wraps fuel vs m' (halone ▸ Filter.eventually_top.1 hok i) v hv

theorem Governs.evalExpr (hE : R.Governs w alarm E) {e : Expr} (hm : R.Admits m)
    (hp : R.Permits w (.expr e) m) : Complies R alarm (fun i => (E i).evalExpr w e) m :=
  .evalExpr (hE.site _) (hE.at hm hp)

theorem Governs.evalStmt (hE : R.Governs w alarm E) {s : Stmt} (hm : R.Admits m)
    (hp : R.Permits w (.stmt s) m) : Complies R alarm (fun i => (E i).evalStmt w s) m :=
  .evalStmt (hE.site _) (hE.at hm hp)

theorem Governs.body (hE : R.Governs w alarm E) {decl : SpellDecl} {args : List Value}
    (hm : R.Admits m) (ha : (R.logic alarm).Knows m.store args) (hp : R.Permits w (.spell decl) m) :
    Complies R alarm (fun i => (E i).body w decl args) m :=
  .body (fun e _ => hE.expr e) (fun s _ => hE.stmt s) hm trivial ha fun name hn _ =>
    hp.binds name hn

theorem Governs.run (hE : R.Governs w alarm E) (p : Program) {scope : Ref .scope}
    (hm : R.Admits { m with scope := scope }) : Complies R alarm (fun i => (E i).run p scope) m :=
  .run (fun s _ => hE.stmt s) hm.orderly.refl hm fun _ h =>
    .raised (h.leads.orderly.makes (i := .value (.caught _))
      (h.leads.grows.closed.newFailure (holds_plain rfl)) rfl)

end Regime

end Spellbook
