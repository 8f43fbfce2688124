import Spellbook.Proofs.Evaluation.Statements
import Spellbook.Proofs.Reach.Region

/-! Evaluation stays inside a region. What is written is in it, and so is what is given or raised, if
the scope that the evaluation starts in is inside and nothing leads out. -/
namespace Spellbook

open Bearing Estate Refers

instance : Refers Item where
  refs
    | .value v => refs v
    | .scope r => refs r

namespace Region

variable {R : Region} {s : Store}

theorem holds_failure {f : Failure} : R.Holds s f ↔ ∀ i ∈ items f, R.Holds s i := by
  have hlist : R.Holds s f ↔ ∀ o ∈ f.chain.filterMap Failure.object?, R.Holds s o := holds_list
  refine hlist.trans ⟨fun h i hi => ?_,
    fun h o ho => h _ (List.mem_flatMap.2 ⟨o, ho, List.mem_singleton.2 rfl⟩)⟩
  obtain ⟨o, ho, hi⟩ := List.mem_flatMap.1 hi
  exact List.mem_singleton.1 hi ▸ h o ho

namespace Closed

variable (hs : R.Closed s)

include hs

theorem reads {i j : Item} (hi : R.Holds s i) (h : s.Yields i j) : R.Holds s j := by
  cases h with
  | element hv => exact holds_array.1 (hs.array hi) _ hv
  | component hv => exact holds_array.1 (hs.tuple hi) _ hv
  | name he => exact (holds_entry.1 ((hs.map hi).mem he)).1
  | entry he => exact (holds_entry.1 ((hs.map hi).mem he)).2
  | field h => exact (holds_pair.1 ((hs.object hi).2.mem h)).2
  | grimoire r => exact (hs.object hi).1
  | parent h => exact holds_option.1 (hs.grimoire hi).2 _ h
  | declared r => exact (hs.grimoire hi).1
  | closure h => exact hs.spell? hi h
  | receiver h => exact (hs.method? hi h).2
  | owner h => exact (hs.method? hi h).1
  | space r => exact hs.space hi
  | bound h => exact (holds_pair.1 ((hs.scope hi).2.mem h)).2
  | around h => exact holds_option.1 (hs.scope hi).1 _ h
  | thrown h => exact holds_failure.1 (hs.failure hi) _ h
  | blamed h => exact holds_failure.1 (hs.failure hi) _ h
  | foreign => exact hi

theorem entered {v : Value} {g : Ref .grimoire} (hv : R.Holds s v) (hg : R.Holds s g) :
    R.Leads s (s.entered v g) ∧ R.Holds (s.entered v g) s.fresh := by
  obtain ⟨hopened, hfresh⟩ := hs.openScope (hs.grimoire hg).1
  have hnamed := hopened.closed.define "self" hfresh (hv.later hopened)
  have hstarted := hopened.trans hnamed
  unfold Store.entered Store.received
  cases hp : ((s.opened (s.grimoire g).scope).grimoire g).parent with
  | none => exact ⟨hstarted, hfresh.later hnamed⟩
  | some p =>
    have hparent : R.Holds s (Value.grimoire p) := holds_option.1 (hs.grimoire hg).2 p hp
    have hsuper := hnamed.closed.define "super" (hfresh.later hnamed) (hparent.later hstarted)
    exact ⟨hstarted.trans hsuper, (hfresh.later hnamed).later hsuper⟩

end Closed

variable (R)

/-- What is known is inside, and nothing leads out. -/
def logic : Logic Unit where
  holds s i := R.Holds s i
  Leads := R.Leads
  trans := Leads.trans
  settled h := h.closed.refl
  later h hl := Holds.later h hl
  plain h := holds_plain h
  reads hs hi h := hs.closed.reads hi h
  newArray hs hxs := hs.closed.newArray (holds_array.2 hxs)
  newTuple hs hxs := hs.closed.newTuple (holds_array.2 hxs)
  newMap hs ht := hs.closed.newMap (holds_list.2 fun e he => holds_entry.2 (ht e he))
  newError hs hf := by
    obtain ⟨name, message, rfl⟩ := hf
    exact hs.closed.newFailure (holds_plain rfl)
  setElement i _ hs hr hv := hs.closed.setElement i hr hv
  setEntry hs hr hn hv := hs.closed.setEntry hr (holds_entry.2 ⟨hn, hv⟩)
  family := ⊤
  proper := inferInstance
  alarm := none
  ends := False
  heard := nofun
  fits _ := True
  place _ := True
  spell _ := True
  closer _ := True
  binds _ _ _ _ := True
  receives _ _ _ _ := True
  stands _ _ := True
  declares _ _ _ := True
  fits_later _ _ _ := trivial
  binds_later _ _ _ := trivial
  receives_later _ _ _ _ := trivial
  home _ _ _ := trivial
  inward _ _ _ := trivial
  exports _ _ _ _ := trivial
  ofSpell _ _ := trivial
  ofMethod _ _ _ := ⟨trivial, trivial⟩
  ofGrimoire _ _ := ⟨trivial, fun _ => trivial⟩
  ofObject _ _ _ := trivial
  ofInit _ _ _ := ⟨trivial, trivial⟩
  ofSuper _ _ _ _ _ := trivial
  newSpell hs hr _ := hs.closed.newSpell hr
  newMethod hs hv hg _ _ := hs.closed.newMethod (holds_method.2 ⟨hg, hv⟩)
  newObject hs hg hf _ := hs.closed.newObject (holds_object.2
    ⟨hg, holds_list.2 fun entry he => holds_pair.2 ⟨holds_plain rfl, hf entry he⟩⟩)
  newGrimoire hs hr hp _ _ _ _ :=
    hs.closed.newGrimoire (holds_grimoire.2 ⟨hr, holds_option.2 hp⟩)
  newSpace hs hr := hs.closed.newSpace hr
  opened hs hr := hs.closed.openScope hr
  entered hs hv hg _ := hs.closed.entered hv hg
  define hs hr hv _ := hs.closed.define _ hr hv
  declareGlobal name hs hr := hs.closed.declareGlobal name hr
  setField name _ hs hr hv := hs.closed.setField name hr hv
  raise hs _ _ hf := hs.closed.newFailure (holds_failure.2 hf)

namespace Closed

variable {R : Region} (hs : R.Closed s)

include hs

theorem definer? {r d : Ref .scope} {name : String} (hr : R.Holds s r)
    (h : s.scopes.definer? r name = some d) : R.Holds s d :=
  knows_scope.1 (Estate.definer? (L := R.logic.toEstate) hs.refl (knows_scope.2 hr) h)

theorem get? {r : Ref .scope} {name : String} {v : Value} (hr : R.Holds s r)
    (h : s.scopes.get? r name = some v) : R.Holds s v :=
  knows_value.1 (Estate.get? (L := R.logic.toEstate) hs.refl (knows_scope.2 hr) h)

theorem lineage {r g : Ref .grimoire} (hr : R.Holds s r) (h : g ∈ s.lineage r) : R.Holds s g :=
  knows_value.1 (Estate.lineage (L := R.logic.toEstate) hs.refl (knows_value.2 hr) h)

end Closed

variable {R} in
theorem admits {m : Machine} (hc : R.Closed m.store) (hs : R.Holds m.store m.scope) :
    R.logic.Admits m :=
  ⟨⟨hc.refl, trivial⟩, knows_scope.2 hs⟩

end Region

/-- The evaluation stays inside the region. -/
abbrev Eval.Confined {α : Type} [Bearing α] (R : Region) (x : Eval α) (m : Machine) : Prop :=
  Abides R.logic (fun _ => x) m

/-- Whatever the evaluator evaluates stays inside the region. -/
structure Region.Trusts (R : Region) (E : Evaluator) : Prop where
  expr : ∀ e, R.logic.ground.Takes (fun _ => E) e
  stmt : ∀ s, R.logic.ground.Does (fun _ => E) s
  spell : ∀ start decl args {m}, R.logic.Admits m → R.logic.Knows m.store args →
    (E.spell start decl args).Confined R m

namespace Region

variable {R : Region} {E : Evaluator}

def Trusts.site (hE : R.Trusts E) (w : World) (c : Code) : Site R.logic w (fun _ => E) c where
  toGround := R.logic.ground
  calls _ m := R.Closed m.store
  nested h :=
    have ⟨hopened, hfresh⟩ := h.orderly.closed.openScope (knows_scope.1 h.scope)
    admits hopened.closed hfresh
  expr e _ := hE.expr e
  stmt s _ := hE.stmt s
  place _ _ _ := trivial
  frees _ _ _ _ := trivial
  catches _ _ _ _ := trivial
  spells _ _ := ⟨trivial, fun _ => trivial⟩
  call h _ _ _ _ := h.orderly.closed
  close h := h.orderly.closed
  orderly h := h.refl
  onward _ hg := hg.leads.closed
  starting h hr ha _ _ :=
    have ⟨hopened, hfresh⟩ := h.openScope (knows_scope.1 hr)
    hE.spell _ _ _ (admits hopened.closed hfresh) (ha.later hopened)
  receiving h hv hg ha _ _ _ :=
    have ⟨hentered, hfresh⟩ := h.entered (knows_value.1 hv) (knows_value (v := .grimoire _).1 hg)
    hE.spell _ _ _ (admits hentered.closed hfresh) (ha.later hentered)
  entering h _ _ _ _ :=
    have ⟨hopened, hfresh⟩ := h.orderly.closed.openScope (knows_scope.1 h.scope)
    .program (G := R.logic.ground) (fun s _ => hE.stmt s) false (admits hopened.closed hfresh)
  turns _ _ _ := ⟨id, E.turns, .of_forall fun _ => rfl⟩

theorem trusts_evaluator (R : Region) (w : World) (fuel : Nat) : R.Trusts (evaluator w fuel) := by
  induction fuel with
  | zero =>
    exact ⟨fun _ _ hm => .spent id hm.orderly, fun _ _ hm => .spent id hm.orderly,
      fun _ _ _ _ hm _ => .spent id hm.orderly⟩
  | succ fuel ih =>
    refine ⟨fun e m hm => ?_, fun s m hm => ?_, fun start decl args m hm ha => ?_⟩
    · exact .evalExpr (ih.site w _) ⟨hm, fun _ _ => trivial, fun _ _ _ _ _ _ _ _ => trivial⟩
    · exact .evalStmt (ih.site w _) ⟨hm, fun _ _ => trivial, fun _ _ _ _ _ _ _ _ => trivial⟩
    · exact .body (fun e _ => ih.expr e) (fun s _ => ih.stmt s) hm trivial ha fun _ _ _ => trivial

variable {m : Machine}

theorem Trusts.run (hE : R.Trusts E) (p : Program) {scope : Ref .scope} (hc : R.Closed m.store)
    (hs : R.Holds m.store scope) : (E.run p scope).Confined R m :=
  .run (fun s _ => hE.stmt s) hc.refl (admits hc hs) fun _ h =>
    .raised (h.leads.closed.newFailure (holds_plain rfl))

/-- A call stays inside whatever scope it is made from. -/
theorem Trusts.callValue (hE : R.Trusts E) (w : World) (pos : Pos) {callee : Value}
    {args : List Value} (hc : R.Closed m.store) (hf : R.Holds m.store callee)
    (ha : R.Holds m.store args) : (E.callValue w pos callee args).Confined R m :=
  .callValue (hE.site w (.stmt (.ignore pos))) ⟨⟨hc.refl, trivial⟩, trivial, fun _ _ => hc⟩
    (knows_value.2 hf) (knows_list.2 fun _ hv => knows_value.2 (ha.mem hv))

end Region

end Spellbook
