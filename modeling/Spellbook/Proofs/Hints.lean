import Mathlib.Logic.Relation
import Spellbook.Proofs.Globals
import Spellbook.Proofs.Regime.Steps

/-! Hints and inheritance. A hint that spells a built-in type, in any case, is taken for that type,
and any other for a grimoire of that very name. An object satisfies the name of a grimoire or type
if its own grimoire or an ancestor has it. -/
namespace Spellbook

open Region Refers

/-! Ancestors -/

namespace Store

def Ascends (s : Store) : Ref .grimoire → Ref .grimoire → Prop :=
  Relation.ReflTransGen fun g p => (s.grimoire g).parent = some p

def Descending (s : Store) : Prop :=
  ∀ g p : Ref .grimoire, (s.grimoire g).parent = some p → p.index < g.index

variable {s s' : Store} {g a : Ref .grimoire}

theorem mem_lineage_self (s : Store) (g : Ref .grimoire) : g ∈ s.lineage g := by
  rw [lineage]
  exact List.mem_cons_self

theorem Ascends.of_mem_lineage (h : a ∈ s.lineage g) : s.Ascends g a := by
  obtain ⟨i⟩ := g
  induction i using Nat.strongRecOn with
  | _ i ih =>
    rw [lineage] at h
    rcases List.mem_cons.1 h with rfl | h
    · exact .refl
    · split at h
      · rename_i p hp
        split at h
        · rename_i hlt
          exact .head hp (ih p.index hlt h)
        · cases h
      · cases h

theorem Descending.mem_lineage_iff (hs : s.Descending) : a ∈ s.lineage g ↔ s.Ascends g a := by
  refine ⟨.of_mem_lineage, fun h => ?_⟩
  induction h using Relation.ReflTransGen.head_induction_on with
  | refl => exact s.mem_lineage_self a
  | head hp _ ih => exact mem_lineage_of_parent hp (hs _ _ hp) ih

end Store

theorem Rules.Step.descending {R : Rules} {s s' : Store} (h : R.Step s s')
    (hs : s.Descending) : s'.Descending := by
  cases h with
  | alike h =>
    intro g p hp
    rw [h.grimoire] at hp
    exact hs g p hp
  | @grimoire decl parent scope hparent =>
    intro g p hp
    simp only [Store.newGrimoire, Store.grimoire, Array.getD_eq_getD_getElem?,
      Array.getElem?_push] at hp
    split at hp
    · rename_i hnew
      have hp : parent = some p := hp
      rw [hnew]
      exact holds_whole.1 (holds_option.1 hparent p hp)
    · refine hs g p ?_
      rwa [Store.grimoire, Array.getD_eq_getD_getElem?]
  | object | method | bound | opened | entered => exact hs

def Regime.descending : Regime := .free Store.Descending fun _ hs h => h.descending hs

theorem Regime.descending_permissive : Regime.descending.Permissive :=
  permissive_free fun _ hs h => h.descending hs

theorem Store.descending_initial : Store.initial.Descending := by
  refine Store.initial_induct (P := Store.Descending) (fun g p h => ?_) fun s b hs => hs
  simp [grimoire, empty] at h

/-! What hints stand for -/

namespace Store

def Hint.builtins : List (String × Hint) :=
  [("int", .number), ("integer", .number), ("float", .number),
   ("str", .named "String"), ("string", .named "String"),
   ("bool", .named "Boolean"), ("boolean", .named "Boolean"),
   ("list", .named "Array"), ("array", .named "Array"),
   ("map", .named "Map"), ("dict", .named "Map"), ("hash", .named "Map"),
   ("tuple", .named "Tuple"), ("function", .named "Function"), ("spell", .named "Function"),
   ("any", .anything), ("object", .anything)]

def Hint.builtin? (name : String) : Option Hint :=
  builtins.lookup (String.ofList (name.toList.map Char.toLower))

theorem Hint.ofName_eq (name : String) : ofName name = (builtin? name).getD (.named name) := by
  unfold ofName builtin?
  generalize String.ofList (name.toList.map Char.toLower) = lower
  split
  case h_18 =>
    have hnone : builtins.lookup lower = none := by
      simp only [List.lookup_eq_none_iff, builtins, List.forall_mem_cons]
      simp_all
    rw [hnone]
    rfl
  all_goals rfl

def IsA (s : Store) (o : Ref .object) (name : String) : Prop :=
  ∃ g, s.Ascends (s.object o).grimoire g ∧ (s.grimoire g).name = name

theorem Descending.any_lineage_iff {s : Store} (hs : s.Descending) (o : Ref .object)
    (name : String) :
    ((s.lineage (s.object o).grimoire).any fun g => (s.grimoire g).name == name) = true ↔
      s.IsA o name := by
  simp only [List.any_eq_true, beq_iff_eq, hs.mem_lineage_iff, IsA]

end Store

/-- What hints ask of objects in a state, and what becomes of an argument that has one. -/
structure Machine.HonoursHints (m : Machine) : Prop where
  /-- The name of a grimoire is a hint for its objects and those of its descendants. -/
  grimoire : ∀ o name, Store.Hint.builtin? name = none →
    (m.store.satisfies (.object o) name = true ↔ m.store.IsA o name)
  /-- A name that spells a built-in hint is taken for that one, and the objects that satisfy it are
  those of grimoires that have the name of the type. -/
  type : ∀ o name kind, Store.Hint.builtin? name = some (.named kind) →
    (m.store.satisfies (.object o) name = true ↔ m.store.IsA o kind)
  number : ∀ o name, Store.Hint.builtin? name = some .number →
    m.store.satisfies (.object o) name = false
  anything : ∀ o name, Store.Hint.builtin? name = some .anything →
    m.store.satisfies (.object o) name = true
  taken : ∀ (E : Evaluator) (p : Param) rest o args hint, p.hint = some hint →
    m.store.satisfies (.object o) hint.name = true →
    E.bindParams (p :: rest) (.object o :: args) m =
      (do Eval.define p.name.name (.object o); E.bindParams rest args) m
  refused : ∀ (E : Evaluator) (p : Param) rest o args hint, p.hint = some hint →
    m.store.satisfies (.object o) hint.name = false →
    E.bindParams (p :: rest) (.object o :: args) m =
      .ok (.error (.badArgument p.name.name hint.name
        (m.store.grimoire (m.store.object o).grimoire).name)) m

theorem Machine.honoursHints {m : Machine} (hm : m.store.Descending) : m.HonoursHints where
  grimoire o name h := by
    unfold Store.satisfies
    rw [Store.Hint.ofName_eq, h]
    exact hm.any_lineage_iff o name
  type o name kind h := by
    unfold Store.satisfies
    rw [Store.Hint.ofName_eq, h]
    exact hm.any_lineage_iff o kind
  number o name h := by
    unfold Store.satisfies
    rw [Store.Hint.ofName_eq, h]
    rfl
  anything o name h := by
    unfold Store.satisfies
    rw [Store.Hint.ofName_eq, h]
    rfl
  taken E p rest o args hint hp h := by
    have hnone : Evaluator.hintFault? m.store p (.object o) = none := by
      simp only [Evaluator.hintFault?, hp, h, if_true]
    simp only [Evaluator.bindParams, Evaluator.argument, List.head?_cons, List.tail_cons, Eval.view,
      Bind.bind, EStateM.bind, hnone, EStateM.pure, Pure.pure]
  refused E p rest o args hint hp h := by
    have hsome : Evaluator.hintFault? m.store p (.object o) =
        some (.badArgument p.name.name hint.name (m.store.kind (.object o))) := by
      simp only [Evaluator.hintFault?, hp, h, Bool.false_eq_true, if_false]
    simp only [Evaluator.bindParams, Evaluator.argument, List.head?_cons, Eval.view,
      Bind.bind, EStateM.bind, hsome, EStateM.pure, Pure.pure]
    rfl

/-- All through a session, a name that does not spell a built-in hint asks for objects of the
grimoires that have it and of their descendants. One that does, in whatever case, asks for no more
than the built-in hint, also where a grimoire has that name. -/
theorem hints_ask_by_name {s : Session} (hs : s.Under fun _ _ _ => True) (source : String)
    (scope : Ref .scope) (hscope : s.machine.store.InUse scope.address) (fuel : Nat) :
    s.machine.HonoursHints ∧
      Throughout s.world fuel (parse source).program scope s.ready fun _ m => m.HonoursHints := by
  obtain ⟨hin, hduring⟩ :=
    Regime.descending_permissive.session Store.descending_initial hs source scope hscope fuel
  exact ⟨Machine.honoursHints hin.orderly.store,
    hduring.imp fun c m h => Machine.honoursHints h.orderly.store⟩

def listing : Session :=
  .having ("grim List:\n    spell first():\n        return 1\ngrim Chain(List):\n    ignore\n" ++
    "a = List()\nb = Chain()\n")

theorem listing_under : listing.Under fun _ _ _ => True := Session.under_free _

theorem listing_objects :
    (listing.machine.store.grimoire (listing.machine.store.object ⟨0⟩).grimoire).name = "List" ∧
      (listing.machine.store.grimoire (listing.machine.store.object ⟨1⟩).grimoire).name = "Chain" ∧
      listing.machine.store.satisfies (.object ⟨0⟩) "List" = false := by
  decide +kernel

/-- The descendant satisfies its own name. A parameter that asks for the name of its parent asks for
an array and refuses both objects. -/
theorem hints_ask_by_name_listing :
    listing.machine.store.satisfies (.object ⟨1⟩) "Chain" = true ∧
      ∀ E : Evaluator, E.bindParams [⟨⟨"x", 1, 9⟩, some ⟨"List", 1, 12⟩, none⟩] [.object ⟨0⟩]
        listing.machine = .ok (.error (.badArgument "x" "List" "List")) listing.machine := by
  obtain ⟨hlist, hchain, hrefused⟩ := listing_objects
  have hlaw := (hints_ask_by_name listing_under "" _ listing_under.inUse_outermost 0).1
  refine ⟨(hlaw.grimoire ⟨1⟩ "Chain" (by decide +kernel)).2 ⟨_, .refl, hchain⟩, fun E => ?_⟩
  rw [hlaw.refused E _ [] ⟨0⟩ [] ⟨"List", 1, 12⟩ rfl hrefused, hlist]

/-- The name of a grimoire may be no hint for its own objects. -/
theorem not_hints_by_name :
    ¬ ∀ s : Session, s.Under (fun _ _ _ => True) → ∀ (o : Ref .object) (name : String),
      name ∉ Store.Hint.builtins.map (·.1) →
      (s.machine.store.satisfies (.object o) name = true ↔ s.machine.store.IsA o name) := by
  intro h
  obtain ⟨hlist, -, hrefused⟩ := listing_objects
  have hsame := h listing listing_under ⟨0⟩ "List" (by decide +kernel)
  rw [hsame.2 ⟨_, .refl, hlist⟩] at hrefused
  cases hrefused

end Spellbook
