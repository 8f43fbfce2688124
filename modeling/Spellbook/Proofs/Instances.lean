import Spellbook.Proofs.Evaluation.Laws
import Spellbook.Proofs.Regime.Throughout

/-! Objects of abstract grimoires. A call makes no object of a grimoire that is arcane or leaves an
arcane method as it is. An object that stands in for a value may be one of such a grimoire, if that
has the name of the value's type. -/
namespace Spellbook

open Region Refers

theorem Bindings.exists_get? {α : Type} {b : Bindings α} {entry : String × α} (h : entry ∈ b) :
    ∃ v, b.get? entry.1 = some v := by
  induction b with
  | nil => cases h
  | cons first rest ih =>
    obtain ⟨n, w⟩ := first
    by_cases hn : n = entry.1
    · exact ⟨w, by simp [get?, hn]⟩
    · rcases List.mem_cons.1 h with rfl | h
      · exact absurd rfl hn
      · simpa [get?, hn] using ih h

theorem findSome?_congr {α β : Type} {f f' : α → Option β} {l : List α} (h : ∀ a ∈ l, f a = f' a) :
    l.findSome? f = l.findSome? f' := by
  induction l with
  | nil => rfl
  | cons a rest ih =>
    rw [List.findSome?_cons, List.findSome?_cons, h a List.mem_cons_self,
      ih fun b hb => h b (List.mem_cons_of_mem _ hb)]

namespace Store

variable {s s' : Store} {g : Ref .grimoire}

/-- Neither the grimoire is arcane nor, by its nearest declaration, any method along the lineage. -/
structure Concrete (s : Store) (g : Ref .grimoire) : Prop where
  plain : (s.grimoire g).arcane = false
  implemented : ∀ h ∈ s.lineage g, ∀ entry ∈ (s.grimoire h).methods, ∃ decl owner,
    s.findMethod? g entry.1 = some (decl, owner) ∧ decl.arcane = false

/-- A method that is declared somewhere along the lineage is found. -/
theorem findMethod?_of_mem {h : Ref .grimoire} {entry : String × SpellDecl}
    (hh : h ∈ s.lineage g) (he : entry ∈ (s.grimoire h).methods) :
    ∃ decl owner, s.findMethod? g entry.1 = some (decl, owner) := by
  cases hfound : s.findMethod? g entry.1 with
  | some found => exact ⟨found.1, found.2, rfl⟩
  | none =>
    have hnone := List.findSome?_eq_none_iff.1 hfound h hh
    obtain ⟨decl, hdecl⟩ := Bindings.exists_get? he
    simp [ownMethod?, hdecl] at hnone

theorem unimplemented?_eq_none : s.unimplemented? g = none ↔
    ∀ h ∈ s.lineage g, ∀ entry ∈ (s.grimoire h).methods, ∃ decl owner,
      s.findMethod? g entry.1 = some (decl, owner) ∧ decl.arcane = false := by
  simp only [unimplemented?, List.find?_eq_none, List.mem_mergeSort, List.mem_flatMap,
    List.mem_map, forall_exists_index, and_imp]
  refine ⟨fun hnone h hh entry he => ?_, fun hall name h hh entry he hname => ?_⟩
  · obtain ⟨decl, owner, hfound⟩ := findMethod?_of_mem hh he
    have harcane := hnone entry.1 h hh entry he rfl
    rw [hfound] at harcane
    exact ⟨decl, owner, hfound, Bool.eq_false_iff.2 harcane⟩
  · obtain ⟨decl, owner, hfound, harcane⟩ := hall h hh entry he
    subst hname
    simp only [hfound, harcane, Bool.false_eq_true, not_false_eq_true]

theorem concrete_iff : s.Concrete g ↔ Evaluator.abstractFault? s g = none := by
  have hfault : Evaluator.abstractFault? s g = if (s.grimoire g).arcane then
      some (.arcaneGrimoire (s.grimoire g).name)
    else (s.unimplemented? g).map (.unimplemented (s.grimoire g).name) := rfl
  rw [hfault]
  cases harcane : (s.grimoire g).arcane with
  | true => exact ⟨fun hg => absurd (harcane.symm.trans hg.plain) (by decide), fun h => by cases h⟩
  | false =>
    simp only [Bool.false_eq_true, if_false, Option.map_eq_none_iff, unimplemented?_eq_none]
    exact ⟨fun hg => hg.implemented, fun h => ⟨harcane, h⟩⟩

theorem Concrete.congr (hg : s.Concrete g)
    (h : ∀ r : Ref .grimoire, r.index ≤ g.index → s'.grimoire r = s.grimoire r) :
    s'.Concrete g := by
  have hlineage := lineage_congr h
  refine ⟨h g (Nat.le_refl _) ▸ hg.plain, fun a ha entry he => ?_⟩
  rw [hlineage] at ha
  rw [h a (le_of_mem_lineage ha)] at he
  obtain ⟨decl, owner, hfound, harcane⟩ := hg.implemented a ha entry he
  refine ⟨decl, owner, ?_, harcane⟩
  rw [← hfound, findMethod?, findMethod?, hlineage]
  refine findSome?_congr fun r hr => ?_
  rw [ownMethod?, ownMethod?, h r (le_of_mem_lineage hr)]

end Store

/-- All objects are of concrete grimoires, if those are that stand in for a value. -/
def Rules.concrete : Rules :=
  .ofStore (fun _ _ _ => True) Store.Concrete fun s =>
    ∀ o : Ref .object, whole.Holds s o → s.Concrete (s.object o).grimoire

theorem Rules.Step.concrete {s s' : Store} (h : Rules.concrete.Step s s')
    (hs : Rules.concrete.Orderly s) : Rules.concrete.store s' := by
  have hkept : ∀ g, whole.Holds s g → s.Concrete g → s'.Concrete g := fun g hg hc =>
    hc.congr fun r hr => h.grimoire_eq
      (holds_whole.2 (Nat.lt_of_le_of_lt hr (holds_whole.1 hg)))
  intro o ho
  rcases h.objects ho with ho | ⟨hg, hmade⟩
  · rw [h.object_grimoire ho]
    exact hkept _ (hs.closed.object ho).1 (hs.store o ho)
  · exact hkept _ hg (hmade.elim Store.concrete_iff.2 id)

def Regime.concrete : Regime := .ofStore fun hs h => Rules.Step.concrete h hs

/-- Every object there is belongs to a concrete grimoire. -/
def Store.AllConcrete (s : Store) : Prop :=
  ∀ o : Ref .object, s.InUse o.address → s.Concrete (s.object o).grimoire

/-- Where an attribute is read of a value that has none of its own, a grimoire with the name of the
value's type is concrete. -/
def StandsInConcrete (w : World) (c : Code) (m : Machine) : Prop :=
  ∀ fuel vs m', (evaluator w fuel).exprs c.bases m = .ok vs m' → ∀ v ∈ vs.getLast?,
    v.standsAlone = true → ∀ g,
      m'.store.scopes.get? m'.scope (m'.store.kind v) = some (.grimoire g) → m'.store.Concrete g

theorem StandsInConcrete.permits {w : World} {c : Code} {m : Machine}
    (h : StandsInConcrete w c m) : Rules.concrete.Permits w c m :=
  ⟨fun _ _ => trivial, fun _ _ => trivial, h⟩

theorem Regime.allConcrete {s : Store} (hs : Regime.concrete.Orderly s) : s.AllConcrete :=
  fun o ho => hs.store o (holds_whole.2 ho)

/-- No object belongs to a grimoire that is arcane or leaves a method arcane, between the runs of a
session and in the course of them, as long as none is made to stand in for a value. A call of such a
grimoire makes no object and fails. -/
theorem objects_concrete {s : Session} (hs : s.Under StandsInConcrete) (source : String)
    (scope : Ref .scope) (hscope : s.machine.store.InUse scope.address) :
    s.machine.store.AllConcrete ∧
      (∀ fuel, Throughout s.world fuel (parse source).program scope s.ready
          (StandsInConcrete s.world) →
        (Throughout s.world fuel (parse source).program scope s.ready
          fun _ m => m.store.AllConcrete) ∧
        (endState (runProgram s.world fuel (parse source).program scope s.ready)).store.AllConcrete) ∧
      ∀ (E : Evaluator) (m : Machine) g args, ¬ m.store.Concrete g →
        ∃ fault, E.instantiate g args m = .ok (.error fault) m := by
  have hin : s.InRegime .concrete := by
    refine hs.inRegime (fun o ho => ?_) fun w c m _ h => h.permits
    exact absurd (holds_whole.1 ho) (Nat.not_lt_zero _)
  refine ⟨Regime.allConcrete hin.orderly, fun fuel hrun => ?_, fun E m g args hg => ?_⟩
  · obtain ⟨hduring, hgoes⟩ := Regime.concrete.throughout (fun c m _ h => h.permits)
      (hin.admits (holds_whole.2 hscope)) hrun
    exact ⟨hduring.imp fun c m h => Regime.allConcrete h.1.orderly, Regime.allConcrete hgoes.orderly⟩
  · cases hfault : Evaluator.abstractFault? m.store g with
    | none => exact absurd (Store.concrete_iff.2 hfault) hg
    | some fault =>
      refine ⟨fault, ?_⟩
      simp only [Evaluator.instantiate, Eval.view, Bind.bind, EStateM.bind, hfault]
      rfl

/-! Reading attributes of what is at hand -/

/-- Names and literals, whose evaluation changes nothing. -/
def Expr.isStill : Expr → Bool
  | .literal .. | .name _ => true
  | _ => false

def Expr.glance (m : Machine) : Expr → Option Value
  | .literal _ value => some (.ofLiteral value)
  | .name id => m.store.scopes.get? m.scope id.name
  | _ => none

theorem Evaluator.glance_of_still {w : World} {fuel : Nat} {e : Expr} {m m' : Machine} {v : Value}
    (he : e.isStill = true) (h : (evaluator w fuel).expr e m = .ok v m') :
    m' = m ∧ e.glance m = some v := by
  cases fuel with
  | zero => cases h
  | succ fuel =>
    cases e with
    | literal pos value =>
      cases h
      exact ⟨rfl, rfl⟩
    | name id =>
      exact Eval.lookup_ok h
    | _ => cases he

theorem Evaluator.exprs_of_still {w : World} {fuel : Nat} {es : List Expr} {m m' : Machine}
    {vs : List Value} (he : ∀ e ∈ es, e.isStill = true)
    (h : (evaluator w fuel).exprs es m = .ok vs m') :
    m' = m ∧ ∀ v ∈ vs, ∃ e ∈ es, e.glance m = some v := by
  induction es generalizing vs with
  | nil =>
    cases h
    exact ⟨rfl, fun v hv => absurd hv List.not_mem_nil⟩
  | cons e rest ih =>
    obtain ⟨hfirst, hrest⟩ := List.forall_mem_cons.1 he
    simp only [exprs, Bind.bind, EStateM.bind] at h
    cases hv : (evaluator w fuel).expr e m with
    | error e m₁ =>
      rw [hv] at h
      cases h
    | ok v m₁ =>
      obtain ⟨rfl, hglance⟩ := glance_of_still hfirst hv
      rw [hv] at h
      cases hmore : (evaluator w fuel).exprs rest m₁ with
      | error e m₂ =>
        simp only [hmore] at h
        cases h
      | ok more m₂ =>
        simp only [hmore] at h
        cases h
        obtain ⟨rfl, hall⟩ := ih hrest hmore
        refine ⟨rfl, List.forall_mem_cons.2 ⟨⟨e, List.mem_cons_self, hglance⟩, fun u hu => ?_⟩⟩
        obtain ⟨e', he', heq⟩ := hall u hu
        exact ⟨e', List.mem_cons_of_mem _ he', heq⟩

/-- Whether code reads attributes of names and literals only, of which none needs an object of an
abstract grimoire to stand in for it. -/
def Code.readsConcrete (c : Code) (m : Machine) : Bool :=
  c.bases.all fun e => e.isStill && (e.glance m).all fun v => !v.standsAlone ||
    match m.store.scopes.get? m.scope (m.store.kind v) with
    | some (.grimoire g) => (Evaluator.abstractFault? m.store g).isNone
    | _ => true

theorem StandsInConcrete.of_readsConcrete {w : World} {c : Code} {m : Machine}
    (h : c.readsConcrete m = true) : StandsInConcrete w c m := by
  intro fuel vs m' hvs v hv ha g hg
  simp only [Code.readsConcrete, List.all_eq_true, Bool.and_eq_true] at h
  obtain ⟨rfl, hglance⟩ := Evaluator.exprs_of_still (fun e he => (h e he).1) hvs
  obtain ⟨e, he, hev⟩ := hglance v (List.mem_of_getLast? hv)
  have hcheck := (h e he).2
  rw [hev] at hcheck
  simp only [Option.all_some, ha, hg, Bool.not_true, Bool.false_or, Option.isNone_iff_eq_none]
    at hcheck
  exact Store.concrete_iff.2 hcheck

def World.bare : World := ⟨.none, ⟨"."⟩, 3, 8⟩

theorem Session.throughout_of_sentry {s : Session} {source : String} {scope : Ref .scope}
    {fuel : Nat} {P : Code → Machine → Prop} [∀ c m, Decidable (P c m)]
    (hscope : s.machine.store.InUse scope.address)
    (h : endsEarly ((watched s.world (sentry P "") fuel).run (parse source).program scope s.ready) =
      false) :
    Throughout s.world fuel (parse source).program scope s.ready P :=
  Spellbook.throughout_of_sentry hscope h

def Session.having (source : String) : Session :=
  ((Session.start .bare none).runText source Forest.outermost).2

theorem Session.under_having (source : String) {P : World → Code → Machine → Prop}
    (h : Throughout .bare fuelLimit (parse source).program Forest.outermost
      (Session.start .bare none).ready (P .bare)) : (having source).Under P :=
  .runText (.start .bare none) Store.closed_initial.2 h

theorem Session.under_free (source : String) : (having source).Under fun _ _ _ => True :=
  under_having source (throughout_true _ _ _ _ _)

def doubling : String := "grim Integer:\n    spell twice():\n        return self.value * 2\n"

def doubled : Session :=
  ((Session.start .bare none).runText (doubling ++ "x = (5).twice()\n") Forest.outermost).2

theorem doubled_under : doubled.Under StandsInConcrete := by
  refine Session.under_having _ ?_
  exact (throughout_of_sentry (P := fun c m => c.readsConcrete m = true) Store.outermost_initial
    (by decide +kernel)).imp fun c m => StandsInConcrete.of_readsConcrete

theorem doubled_next : doubled.machine.store.objects.size = 1 ∧
    endsEarly ((watched doubled.world (sentry (fun c m => c.readsConcrete m = true) "")
      fuelLimit).run (parse "x = (7).twice()\n").program Forest.outermost doubled.ready) = false := by
  decide +kernel

/-- The object is of a concrete grimoire, before and after another one is made. -/
theorem objects_concrete_doubled :
    doubled.machine.store.objects.size = 1 ∧ doubled.machine.store.AllConcrete ∧
      (endState (runProgram doubled.world fuelLimit (parse "x = (7).twice()\n").program
        Forest.outermost doubled.ready)).store.AllConcrete := by
  obtain ⟨hsize, hsentry⟩ := doubled_next
  have hscope := doubled_under.inUse_outermost
  obtain ⟨hbefore, hrun, _⟩ :=
    objects_concrete doubled_under "x = (7).twice()\n" Forest.outermost hscope
  refine ⟨hsize, hbefore, (hrun fuelLimit ?_).2⟩
  exact (Session.throughout_of_sentry hscope hsentry).imp
    fun c m => StandsInConcrete.of_readsConcrete

def arcaneDoubled : Session := .having ("arcane " ++ doubling ++ "print((5).twice())\n")

/-- Nothing keeps objects of an arcane grimoire from standing in for integers. -/
theorem not_objects_concrete :
    ¬ ∀ s : Session, s.Under (fun _ _ _ => True) → s.machine.store.AllConcrete := by
  intro h
  obtain ⟨hmade, harcane⟩ : arcaneDoubled.machine.store.InUse (Ref.address (⟨0⟩ : Ref .object)) ∧
      (arcaneDoubled.machine.store.grimoire
        (arcaneDoubled.machine.store.object ⟨0⟩).grimoire).arcane = true := by
    decide +kernel
  have hconcrete := h arcaneDoubled (Session.under_free _) ⟨0⟩ hmade
  rw [hconcrete.plain] at harcane
  cases harcane

end Spellbook
