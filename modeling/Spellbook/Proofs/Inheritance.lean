import Mathlib.Order.Defs.Unbundled
import Spellbook.Proofs.Hints
import Spellbook.Proofs.Import.Effect
import Spellbook.Proofs.Instances
import Spellbook.Proofs.Origins
import Spellbook.Proofs.Program.Parser.Proceeds.Programs

/-! Inheritance. The lookups along the lineage of a grimoire agree with each other and with what the
texts declare that grimoires come from, however many grimoires there are of one name. -/
namespace Spellbook

open Region Refers

/-! Declarations -/

namespace GrimoireDecl

variable {decl : GrimoireDecl} {name : String}

/-- The spell that is declared under a name. Of several the last counts. -/
def spell? (decl : GrimoireDecl) (name : String) : Option SpellDecl :=
  (decl.init.toList ++ decl.methods).reverse.find? (·.name.name = name)

/-- The declaration stands in a text without errors. -/
def Written (decl : GrimoireDecl) : Prop :=
  ∃ source, (parse source).diagnostics = [] ∧ (parse source).program.Has (.grimoire decl)

theorem Written.parted (h : decl.Written) : decl.Parted := by
  obtain ⟨source, -, hdecl⟩ := h
  exact parted_of_has hdecl

theorem get?_table (decl : GrimoireDecl) (name : String) :
    decl.table.get? name = decl.methods.reverse.find? (·.name.name = name) := by
  unfold table
  induction decl.methods using List.reverseRecOn with
  | nil => rfl
  | append_singleton methods f ih =>
    simp only [List.foldl_append, List.foldl_cons, List.foldl_nil, Bindings.get?_set,
      List.reverse_append, List.reverse_cons, List.reverse_nil, List.nil_append,
      List.singleton_append, List.find?_cons, ih]
    by_cases hname : f.name.name = name
    · simp [hname]
    · simp [hname, Ne.symm hname]

theorem spell?_eq (decl : GrimoireDecl) (name : String) : decl.spell? name =
    (decl.table.get? name).or (decl.init.filter (·.name.name = name)) := by
  rw [spell?, List.reverse_append, List.find?_append, get?_table]
  cases decl.init with
  | none => rfl
  | some f => by_cases hname : f.name.name = name <;> simp [hname, Option.filter]

theorem Parted.table_init (h : decl.Parted) : decl.table.get? "init" = none := by
  rw [get?_table, List.find?_eq_none]
  intro f hf
  simpa using h.methods f (List.mem_reverse.1 hf)

theorem Parted.spell?_init (h : decl.Parted) : decl.spell? "init" = decl.init := by
  rw [spell?_eq, h.table_init, Option.none_or]
  cases hinit : decl.init with
  | none => rfl
  | some f => simp [Option.filter, h.init f hinit]

theorem Parted.spell?_of_ne (h : decl.Parted) (hname : name ≠ "init") :
    decl.spell? name = decl.table.get? name := by
  rw [spell?_eq]
  cases hinit : decl.init with
  | none => simp [Option.filter]
  | some f => simp [Option.filter, h.init f hinit, Ne.symm hname]

end GrimoireDecl

namespace Store

/-- The grimoire is what a declaration in a text without errors makes. -/
structure MadeFrom (s : Store) (g : Ref .grimoire) (decl : GrimoireDecl) : Prop where
  written : decl.Written
  makes : decl.Makes (s.grimoire g)

/-- The text that declares the grimoire has this spell in it under the name, or none. -/
def Spells (s : Store) (g : Ref .grimoire) (name : String) (found : Option SpellDecl) : Prop :=
  ∃ decl, s.MadeFrom g decl ∧ decl.spell? name = found

variable {s : Store} {g h p a : Ref .grimoire} {decl : GrimoireDecl} {name : String}

theorem MadeFrom.ownMethod? (hg : s.MadeFrom g decl) (name : String) :
    s.ownMethod? g name = decl.spell? name := by
  have hparted := hg.written.parted
  unfold Store.ownMethod?
  rw [hg.makes.methods, hg.makes.init]
  by_cases hname : name = "init"
  · subst hname
    rw [hparted.table_init, hparted.spell?_init]
    rfl
  · rw [hparted.spell?_of_ne hname]
    cases decl.table.get? name with
    | some f => rfl
    | none => exact if_neg hname

theorem MadeFrom.ownMethod?_init (hg : s.MadeFrom g decl) :
    s.ownMethod? g "init" = (s.grimoire g).init := by
  rw [hg.ownMethod?, hg.written.parted.spell?_init, hg.makes.init]

theorem MadeFrom.spells_iff (hg : s.MadeFrom g decl) {found : Option SpellDecl} :
    s.Spells g name found ↔ s.ownMethod? g name = found := by
  refine ⟨?_, fun hfound => ⟨decl, hg, (hg.ownMethod? name).symm.trans hfound⟩⟩
  rintro ⟨decl', hg', hfound⟩
  rw [hg'.ownMethod?, hfound]

/-! Chains -/

/-- From a grimoire to its parent, the parent of that, and so on to one that has none. -/
inductive Chain (s : Store) : Ref .grimoire → List (Ref .grimoire) → Prop where
  | top {g : Ref .grimoire} : (s.grimoire g).parent = none → Chain s g [g]
  | under {g p : Ref .grimoire} {rest : List (Ref .grimoire)} :
    (s.grimoire g).parent = some p → Chain s p rest → Chain s g (g :: rest)

theorem lineage_of_none (hp : (s.grimoire g).parent = none) : s.lineage g = [g] := by
  rw [lineage, hp]

theorem inherits_iff : s.inherits g a = true ↔ a ∈ s.lineage g := List.contains_iff_mem

theorem partialOrder_inherits (s : Store) :
    IsPartialOrder (Ref .grimoire) fun g a => s.inherits g a = true where
  refl g := inherits_iff.2 (s.mem_lineage_self g)
  trans _ _ _ hg ha := inherits_iff.2 (lineage_trans (inherits_iff.1 hg) (inherits_iff.1 ha))
  antisymm g a hg ha := by
    have hle := le_of_mem_lineage (inherits_iff.1 hg)
    have hge := le_of_mem_lineage (inherits_iff.1 ha)
    exact congrArg Ref.mk (Nat.le_antisymm hge hle)

namespace Descending

variable (hs : s.Descending)

include hs

theorem lineage_of_some (hp : (s.grimoire g).parent = some p) :
    s.lineage g = g :: s.lineage p := by
  rw [lineage, hp]
  simp only [hs g p hp, if_true]

theorem chain_lineage (g : Ref .grimoire) : s.Chain g (s.lineage g) := by
  obtain ⟨i⟩ := g
  induction i using Nat.strongRecOn with
  | _ i ih =>
    cases hp : (s.grimoire ⟨i⟩).parent with
    | none => exact lineage_of_none hp ▸ .top hp
    | some p => exact hs.lineage_of_some hp ▸ .under hp (ih p.index (hs _ _ hp))

theorem chain_iff {gs : List (Ref .grimoire)} : s.Chain g gs ↔ gs = s.lineage g := by
  refine ⟨fun hchain => ?_, fun hgs => hgs ▸ hs.chain_lineage g⟩
  induction hchain with
  | top hp => exact (lineage_of_none hp).symm
  | under hp _ ih => rw [hs.lineage_of_some hp, ih]

theorem nodup_lineage (g : Ref .grimoire) : (s.lineage g).Nodup := by
  obtain ⟨i⟩ := g
  induction i using Nat.strongRecOn with
  | _ i ih =>
    cases hp : (s.grimoire ⟨i⟩).parent with
    | none =>
      rw [lineage_of_none hp]
      simp
    | some p =>
      rw [hs.lineage_of_some hp]
      refine List.nodup_cons.2 ⟨fun hmem => ?_, ih p.index (hs _ _ hp)⟩
      exact Nat.not_lt_of_le (le_of_mem_lineage hmem) (hs _ _ hp)

theorem findMethod?_of_some (hp : (s.grimoire g).parent = some p) (name : String) :
    s.findMethod? g name = ((s.ownMethod? g name).map (·, g)).or (s.findMethod? p name) := by
  rw [findMethod?, hs.lineage_of_some hp, List.findSome?_cons]
  cases s.ownMethod? g name <;> rfl

theorem findMethod?_inherited {owner : Ref .grimoire} {f : SpellDecl}
    (hgh : s.inherits g h = true) (hfound : s.findMethod? h name = some (f, owner)) :
    ∃ f' owner', s.findMethod? g name = some (f', owner') ∧ s.inherits owner' owner = true := by
  have hascends := hs.mem_lineage_iff.1 (inherits_iff.1 hgh)
  have howner := mem_lineage_of_findMethod? s hfound
  induction hascends using Relation.ReflTransGen.head_induction_on with
  | refl => exact ⟨f, owner, hfound, inherits_iff.2 (s.mem_lineage_self owner)⟩
  | @head g p hp hph ih =>
    have hlater := hs.mem_lineage_iff.2 hph
    rw [hs.findMethod?_of_some hp]
    cases hown : s.ownMethod? g name with
    | none => exact ih (inherits_iff.2 hlater)
    | some f' =>
      refine ⟨f', g, rfl, inherits_iff.2 ?_⟩
      exact lineage_trans (mem_lineage_of_parent hp (hs _ _ hp) hlater) howner

end Descending

/-- The first of the grimoires that declares a spell under the name is `owner`. -/
def Nearest (s : Store) (gs : List (Ref .grimoire)) (name : String) (f : SpellDecl)
    (owner : Ref .grimoire) : Prop :=
  ∃ before after, gs = before ++ owner :: after ∧ (∀ g ∈ before, s.Spells g name none) ∧
    s.Spells owner name (some f)

end Store

/-! Arguments -/

def Param.passed (params : List Param) (args : List Value) : List (String × Value) :=
  (params.zip args).map fun entry => (entry.1.name.name, entry.2)

/-- There is a parameter for each argument. Either the hint of one refuses its argument, or all
arguments are bound before the other parameters take their defaults. -/
structure Evaluator.Binds (E : Evaluator) (params : List Param) (args : List Value) (m : Machine) :
    Prop where
  room : args.length ≤ params.length
  bound : (∃ p v fault m', (p, v) ∈ params.zip args ∧ hintFault? m'.store p v = some fault ∧
      E.bindParams params args m = .ok (.error fault) m') ∨
    E.bindParams params args m =
      E.bindParams (params.drop args.length) [] (m.defineAll (Param.passed params args))

section

variable (E : Evaluator) {p : Param} {params : List Param} {v : Value} {args : List Value}
  {m : Machine}

theorem Evaluator.bindParams_refused {fault : Fault} (h : hintFault? m.store p v = some fault) :
    E.bindParams (p :: params) (v :: args) m = .ok (.error fault) m := by
  simp only [bindParams, argument, List.head?_cons, Eval.view, Bind.bind, EStateM.bind,
    EStateM.pure, Pure.pure, h]

theorem Evaluator.bindParams_bound (h : hintFault? m.store p v = none) :
    E.bindParams (p :: params) (v :: args) m =
      E.bindParams params args (m.define p.name.name v) := by
  simp only [bindParams, argument, List.head?_cons, List.tail_cons, Eval.view, Bind.bind,
    EStateM.bind, EStateM.pure, Pure.pure, h]
  rfl

end

theorem Evaluator.binds (E : Evaluator) {params : List Param} {args : List Value}
    (hroom : args.length ≤ params.length) (m : Machine) : E.Binds params args m := by
  refine ⟨hroom, ?_⟩
  induction args generalizing params m with
  | nil => exact .inr (by simp [Param.passed, Machine.defineAll])
  | cons v args ih =>
    obtain _ | ⟨p, params⟩ := params
    · exact absurd hroom (Nat.not_succ_le_zero _)
    · cases hfault : hintFault? m.store p v with
      | some fault =>
        exact .inl ⟨p, v, fault, m, List.mem_cons_self, hfault, E.bindParams_refused hfault⟩
      | none =>
        obtain ⟨q, u, fault, m', hmem, hq, hrefused⟩ | hbound :=
          ih (Nat.le_of_succ_le_succ hroom) (m.define p.name.name v)
        · exact .inl ⟨q, u, fault, m', List.mem_cons_of_mem _ hmem, hq,
            (E.bindParams_bound hfault).trans hrefused⟩
        · exact .inr ((E.bindParams_bound hfault).trans hbound)

theorem Evaluator.Binds.of_ok {E : Evaluator} {params : List Param} {args : List Value}
    {m m' : Machine} (h : E.Binds params args m)
    (hok : E.bindParams params args m = .ok (.ok ()) m') :
    E.bindParams (params.drop args.length) [] (m.defineAll (Param.passed params args)) =
      .ok (.ok ()) m' := by
  obtain ⟨p, v, fault, m₁, -, -, hrefused⟩ | hbound := h.bound
  · rw [hok] at hrefused
    cases hrefused
  · exact hbound.symm.trans hok

def Arity.ofInit (init : Option (SpellDecl × Ref .grimoire)) : Arity :=
  init.elim (.exactly 0) fun f => .atMost f.1.params.length

/-! Coherence -/

/-- Lookups along the lineages of grimoires agree with each other and with the texts. -/
structure Store.Coherent (s : Store) : Prop where
  /-- Chains of parents come to an end without meeting a grimoire again. -/
  chain : ∀ g, ∃ gs, s.Chain g gs ∧ gs.Nodup
  inherits : ∀ g gs a, s.Chain g gs → (s.inherits g a = true ↔ a ∈ gs)
  order : IsPartialOrder (Ref .grimoire) fun g a => s.inherits g a = true
  made : ∀ g : Ref .grimoire, s.InUse g.address → ∃ decl, s.MadeFrom g decl
  found : ∀ g gs name f owner, s.InUse (Ref.address g) → s.Chain g gs →
    (s.findMethod? g name = some (f, owner) ↔ s.Nearest gs name f owner)
  missed : ∀ g gs name, s.InUse (Ref.address g) → s.Chain g gs →
    (s.findMethod? g name = none ↔ ∀ a ∈ gs, s.Spells a name none)
  inherited : ∀ g h name f owner, s.inherits g h = true →
    s.findMethod? h name = some (f, owner) →
      ∃ f' owner', s.findMethod? g name = some (f', owner') ∧ s.inherits owner' owner = true
  init : ∀ g, s.InUse (Ref.address g) → s.findMethod? g "init" = s.findInit? g
  arity : ∀ g, s.InUse (Ref.address g) →
    s.arity? (.grimoire g) = some (.ofInit (s.findMethod? g "init"))
  /-- All arguments that are accepted have a parameter of their own. -/
  accepted : ∀ g args, s.InUse (Ref.address g) →
    (∃ arity ∈ s.arity? (.grimoire g), arity.accepts args.length = true) →
      s.findMethod? g "init" = none ∧ args = [] ∨
      ∃ init owner, s.findMethod? g "init" = some (init, owner) ∧
        ∀ (E : Evaluator) m, E.Binds init.params args m

/-- Every grimoire comes from a text without errors and is younger than its parent. -/
structure Store.Lineal (s : Store) : Prop where
  descending : s.Descending
  made : ∀ g : Ref .grimoire, whole.Holds s g → ∃ decl, s.MadeFrom g decl

namespace Store.Lineal

variable {s : Store} {g a : Ref .grimoire} (h : s.Lineal) (hs : whole.Closed s)
  (hg : whole.Holds s g)

include h hs hg

theorem madeFrom_of_mem (ha : a ∈ s.lineage g) : ∃ decl, s.MadeFrom a decl :=
  h.made a (hs.lineage hg ha)

theorem findMethod?_iff {name : String} {f : SpellDecl} {owner : Ref .grimoire} :
    s.findMethod? g name = some (f, owner) ↔ s.Nearest (s.lineage g) name f owner := by
  rw [findMethod?, List.findSome?_eq_some_iff]
  constructor
  · rintro ⟨before, owner', after, heq, hfound, hbefore⟩
    obtain ⟨f', hown, hpair⟩ := Option.map_eq_some_iff.1 hfound
    cases hpair
    refine ⟨before, after, heq, fun b hb => ?_, ?_⟩
    · obtain ⟨decl, hdecl⟩ := h.madeFrom_of_mem hs hg (heq ▸ List.mem_append_left _ hb)
      exact hdecl.spells_iff.2 (Option.map_eq_none_iff.1 (hbefore b hb))
    · have hmem : owner ∈ s.lineage g := heq ▸ List.mem_append_right _ List.mem_cons_self
      obtain ⟨decl, hdecl⟩ := h.madeFrom_of_mem hs hg hmem
      exact hdecl.spells_iff.2 hown
  · rintro ⟨before, after, heq, hbefore, decl, hdecl, hspell⟩
    refine ⟨before, owner, after, heq, ?_, fun b hb => ?_⟩
    · rw [hdecl.ownMethod?, hspell]
      rfl
    · obtain ⟨decl', hdecl', hnone⟩ := hbefore b hb
      rw [hdecl'.ownMethod?, hnone]
      rfl

theorem findMethod?_eq_none_iff {name : String} :
    s.findMethod? g name = none ↔ ∀ a ∈ s.lineage g, s.Spells a name none := by
  rw [findMethod?, List.findSome?_eq_none_iff]
  refine forall₂_congr fun a ha => ?_
  obtain ⟨decl, hdecl⟩ := h.madeFrom_of_mem hs hg ha
  rw [hdecl.spells_iff, Option.map_eq_none_iff]

theorem findMethod?_init : s.findMethod? g "init" = s.findInit? g := by
  refine findSome?_congr fun a ha => ?_
  obtain ⟨decl, hdecl⟩ := h.madeFrom_of_mem hs hg ha
  rw [hdecl.ownMethod?_init]

theorem arity?_grimoire : s.arity? (.grimoire g) = some (.ofInit (s.findMethod? g "init")) := by
  rw [h.findMethod?_init hs hg, arity?]
  cases s.findInit? g <;> rfl

theorem length_le_of_accepts {init : SpellDecl} {owner : Ref .grimoire} {args : List Value}
    (hinit : s.findMethod? g "init" = some (init, owner))
    (haccepted : ∃ arity ∈ s.arity? (.grimoire g), arity.accepts args.length = true) :
    args.length ≤ init.params.length := by
  obtain ⟨arity, harity, haccepts⟩ := haccepted
  rw [h.arity?_grimoire hs hg, hinit] at harity
  cases harity
  exact of_decide_eq_true haccepts

omit hg in
theorem coherent : s.Coherent where
  chain g := ⟨_, h.descending.chain_lineage g, h.descending.nodup_lineage g⟩
  inherits g gs a hchain := by
    rw [h.descending.chain_iff.1 hchain, inherits_iff]
  order := partialOrder_inherits s
  made g hg := h.made g (holds_whole.2 hg)
  found g gs name f owner hg hchain := by
    rw [h.descending.chain_iff.1 hchain]
    exact h.findMethod?_iff hs (holds_whole.2 hg)
  missed g gs name hg hchain := by
    rw [h.descending.chain_iff.1 hchain]
    exact h.findMethod?_eq_none_iff hs (holds_whole.2 hg)
  inherited _ _ _ _ _ hgh hfound := h.descending.findMethod?_inherited hgh hfound
  init _ hg := h.findMethod?_init hs (holds_whole.2 hg)
  arity _ hg := h.arity?_grimoire hs (holds_whole.2 hg)
  accepted g args hg haccepted := by
    cases hinit : s.findMethod? g "init" with
    | none =>
      obtain ⟨arity, harity, haccepts⟩ := haccepted
      rw [h.arity?_grimoire hs (holds_whole.2 hg), hinit] at harity
      cases harity
      exact .inl ⟨rfl, List.length_eq_zero_iff.1 (eq_of_beq haccepts)⟩
    | some found =>
      have hroom := h.length_le_of_accepts hs (holds_whole.2 hg) hinit haccepted
      exact .inr ⟨found.1, found.2, rfl, fun E m => E.binds hroom m⟩

end Store.Lineal

/-! Calls -/

namespace Evaluator

variable {E : Evaluator} {w : World} {pos : Pos} {g : Ref .grimoire} {args : List Value} {v : Value}
  {m m' : Machine}

theorem callValue_grimoire_ok (h : E.callValue w pos (.grimoire g) args m = .ok v m') :
    (∃ arity ∈ m.store.arity? (.grimoire g), arity.accepts args.length = true) ∧
      ∃ frames m₁, E.instantiate g args { m with frames := frames } = .ok (.ok v) m₁ := by
  obtain ⟨_, _, hview, h⟩ := Eval.of_bind_eq_ok h
  cases hview
  dsimp only at h
  cases harity : m.store.arity? (.grimoire g) with
  | none =>
    rw [harity] at h
    cases h
  | some arity =>
    rw [harity] at h
    dsimp only at h
    split at h
    · rename_i haccepts
      refine ⟨⟨arity, rfl, haccepts⟩, ?_⟩
      obtain ⟨_, _, hview, h⟩ := Eval.of_bind_eq_ok h
      cases hview
      obtain ⟨_, _, hlook, h⟩ := Eval.of_bind_eq_ok h
      cases hlook
      split at h
      · cases h
      · obtain ⟨_, _, hlook, h⟩ := Eval.of_bind_eq_ok h
        cases hlook
        obtain ⟨result, m₁, hcall, h⟩ := Eval.of_bind_eq_ok h
        simp only [Eval.inCall, Eval.bracket] at hcall
        split at hcall
        · rename_i hrun
          cases hcall
          cases result with
          | error fault => cases h
          | ok u =>
            cases h
            exact ⟨_, _, hrun⟩
        · cases hcall
    · cases h

theorem findInit?_newObject (s : Store) (o : Object) (g : Ref .grimoire) :
    (s.newObject o).2.findInit? g = s.findInit? g := by
  have hlineage : (s.newObject o).2.lineage g = s.lineage g := Store.lineage_congr fun _ _ => rfl
  rw [Store.findInit?, hlineage]
  rfl

theorem instantiate_eq (E : Evaluator) (args : List Value) (hg : abstractFault? m.store g = none) :
    E.instantiate g args m = (match m.store.findInit? g with
      | none => pure (.ok (.object ⟨m.store.objects.size⟩))
      | some (init, owner) => do
        match ← E.invokeMethod .call init ⟨.object ⟨m.store.objects.size⟩, owner⟩ args with
        | .error fault => pure (.error fault)
        | .ok _ => pure (.ok (.object ⟨m.store.objects.size⟩)) : Eval (Except Fault Value))
      { m with store := (m.store.newObject ⟨g, []⟩).2 } := by
  simp only [instantiate, Eval.view, Eval.create, Bind.bind, EStateM.bind, hg]
  rw [findInit?_newObject]
  cases m.store.findInit? g <;> rfl

/-- A method that ends with a value has been started in the scope that it has been entered by. -/
theorem invokeMethod_ok {start : Start} {decl : SpellDecl} {receiver : Receiver}
    (h : E.invokeMethod start decl receiver args m = .ok (.ok v) m') :
    ∃ m₁, E.spell start decl args
      { m with
        store := m.store.entered receiver.value receiver.owner, scope := m.store.fresh,
        owner := some receiver.owner } = .ok (.ok v) m₁ := by
  cases harcane : decl.arcane with
  | true =>
    simp only [invokeMethod, invoke, harcane, if_true] at h
    cases h
  | false =>
    rw [invokeMethod_eq E start receiver args m harcane] at h
    simp only [Eval.bracket] at h
    split at h
    · rename_i hrun
      cases h
      exact ⟨_, hrun⟩
    · cases h

theorem instantiate_ok (h : E.instantiate g args m = .ok (.ok v) m') :
    v = .object ⟨m.store.objects.size⟩ ∧
      ∀ init owner, m.store.findInit? g = some (init, owner) → ∃ r m₁,
        E.spell .call init args
          { m with
            store := (m.store.newObject ⟨g, []⟩).2.entered v owner, scope := m.store.fresh,
            owner := some owner } = .ok (.ok r) m₁ := by
  cases hfault : abstractFault? m.store g with
  | some fault =>
    simp only [instantiate, Eval.view, Bind.bind, EStateM.bind, hfault] at h
    cases h
  | none =>
    rw [instantiate_eq E args hfault] at h
    cases hinit : m.store.findInit? g with
    | none =>
      rw [hinit] at h
      cases h
      exact ⟨rfl, fun _ _ hnone => by cases hnone⟩
    | some found =>
      rw [hinit] at h
      obtain ⟨result, m₁, hcall, h⟩ := Eval.of_bind_eq_ok h
      cases result with
      | error fault => cases h
      | ok r =>
        cases h
        refine ⟨rfl, fun init owner heq => ?_⟩
        cases heq
        exact ⟨r, invokeMethod_ok hcall⟩

theorem spell_ok {fuel : Nat} {start : Start} {decl : SpellDecl} {r : Value}
    (h : (evaluator w fuel).spell start decl args m = .ok (.ok r) m') :
    ∃ less m₁, fuel = less + 1 ∧
      (evaluator w less).bindParams decl.params args m = .ok (.ok ()) m₁ := by
  cases fuel with
  | zero => cases h
  | succ less =>
    obtain ⟨bound, m₁, hbind, h⟩ :=
      Eval.of_bind_eq_ok (x := (evaluator w less).bindParams decl.params args) h
    cases bound with
    | error fault => cases h
    | ok _ => exact ⟨less, m₁, rfl, hbind⟩

end Evaluator

/-- Grimoires are coherent in a state, and calls of them agree with that: one that makes an object
has accepted its arguments and bound all of them to parameters of the `init` that is found, in the
scope that this starts in. -/
structure Machine.Coherent (m : Machine) : Prop where
  store : m.store.Coherent
  call : ∀ w fuel pos (g : Ref .grimoire) args v m', m.store.InUse g.address →
    (evaluator w fuel).callValue w pos (.grimoire g) args m = .ok v m' →
      (∃ arity ∈ m.store.arity? (.grimoire g), arity.accepts args.length = true) ∧
      v = .object ⟨m.store.objects.size⟩ ∧
      ∀ init owner, m.store.findMethod? g "init" = some (init, owner) →
        ∃ (less : Nat) (start m₁ : Machine), fuel = less + 1 ∧
          start.store = (m.store.newObject ⟨g, []⟩).2.entered v owner ∧
          start.scope = m.store.fresh ∧
          (evaluator w less).bindParams (init.params.drop args.length) []
            (start.defineAll (Param.passed init.params args)) = .ok (.ok ()) m₁

theorem Machine.coherent {m : Machine} (hs : whole.Closed m.store) (h : m.store.Lineal) :
    m.Coherent where
  store := h.coherent hs
  call w fuel pos g args v m' hg hcall := by
    obtain ⟨haccepted, frames, m₁, hmade⟩ := Evaluator.callValue_grimoire_ok hcall
    obtain ⟨hv, hstarted⟩ := Evaluator.instantiate_ok hmade
    refine ⟨haccepted, hv, fun init owner hinit => ?_⟩
    have hroom := h.length_le_of_accepts hs (holds_whole.2 hg) hinit haccepted
    rw [h.findMethod?_init hs (holds_whole.2 hg)] at hinit
    obtain ⟨r, m₂, hspell⟩ := hstarted init owner hinit
    obtain ⟨less, m₃, hfuel, hbound⟩ := Evaluator.spell_ok hspell
    exact ⟨less, _, m₃, hfuel, rfl, rfl, ((evaluator w less).binds hroom _).of_ok hbound⟩

/-! Runs -/

/-- Only what stands in a text without errors declares a grimoire. -/
def Rules.lineal : Rules :=
  .ofStore (fun _ _ decl => decl.Written) (fun _ _ => True) Store.Lineal

theorem Rules.Step.lineal {s s' : Store} (h : Rules.lineal.Step s s') (hs : s.Lineal) :
    s'.Lineal where
  descending := h.descending hs.descending
  made g hg := by
    obtain hold | ⟨decl, hmakes, -, -, hwritten⟩ := h.grimoires hg
    · obtain ⟨decl, hdecl⟩ := hs.made g hold
      exact ⟨decl, hdecl.written, (h.grimoire_eq hold).symm ▸ hdecl.makes⟩
    · exact ⟨decl, hwritten, hmakes⟩

def Regime.lineal : Regime := .ofStore fun hs h => Rules.Step.lineal h hs.store

def Code.Written (c : Code) : Prop :=
  ∃ source, (parse source).diagnostics = [] ∧ (parse source).program.HasCode c

theorem Code.Written.permits {w : World} {c : Code} {m : Machine} (h : c.Written) :
    Rules.lineal.Permits w c m where
  binds _ _ := trivial
  declares decl hc := by
    subst hc
    exact h
  wraps _ _ _ _ _ _ _ _ _ := trivial

def Law.written : Law :=
  ⟨fun _ c => c.Written, fun decl => (Code.spell decl).Written, fun _ _ => True, fun _ => True⟩

theorem Law.sound_written (w : World) : Law.written.Sound w where
  expr := fun ⟨source, hsource, hc⟩ he => ⟨source, hsource, hc.expr he⟩
  stmt := fun ⟨source, hsource, hc⟩ hs => ⟨source, hsource, hc.stmt hs⟩
  spell := fun ⟨source, hsource, hc⟩ hd => ⟨source, hsource, hc.spell hd⟩
  names _ _ _ := trivial
  catches _ _ _ := trivial
  place _ _ := trivial
  load := fun _ _ hsource _ hs => ⟨_, hsource, Program.Has.top hs⟩

theorem lineal_throughout (w : World) (fuel : Nat) {source : String} {scope : Ref .scope}
    {m : Machine} (hsource : (parse source).diagnostics = [])
    (hfollows : Machine.Follows Law.written { m with scope := scope })
    (hadmits : Regime.lineal.Admits { m with scope := scope }) :
    (Throughout w fuel (parse source).program scope m fun _ m => m.Coherent) ∧
      Law.written.Allows m (endState (runProgram w fuel (parse source).program scope m)) ∧
      Regime.lineal.Goes m (endState (runProgram w fuel (parse source).program scope m)) := by
  obtain ⟨hwritten, hallows⟩ := Law.throughout (Law.sound_written w) (fun _ hd _ => hd) hfollows
    (fun s hs => ⟨source, hsource, Program.Has.top hs⟩)
    (throughout_true w fuel (parse source).program scope m)
  obtain ⟨hlineal, hgoes⟩ := Regime.lineal.throughout (fun c m _ h => Code.Written.permits h)
    hadmits (hwritten.imp fun c m h => h.1.fits)
  exact ⟨hlineal.imp fun c m h => Machine.coherent h.1.orderly.closed h.1.orderly.store, hallows,
    hgoes⟩

theorem Store.lineal_initial : Store.initial.Lineal where
  descending := Store.descending_initial
  made _ hg := absurd (holds_whole.1 hg) (Nat.not_lt_zero _)

theorem Session.Under.lineal {s : Session} (hs : s.Under fun _ _ _ => True) :
    (s.machine.store.Follows Law.written ∧ s.machine.frames = []) ∧ s.InRegime .lineal := by
  induction hs with
  | start w file =>
    exact ⟨⟨Store.follows_initial fun _ => trivial, rfl⟩,
      ⟨Store.closed_initial.1, Store.lineal_initial⟩, rfl, Store.closed_initial.2⟩
  | world w _ ih => exact ⟨ih.1, ih.2.orderly, ih.2.owner, ih.2.outermost⟩
  | setFile file _ ih => exact ⟨ih.1, ih.2.orderly, ih.2.owner, ih.2.outermost⟩
  | scopeNamed name _ ih =>
    obtain ⟨⟨hfollows, hframes⟩, hin⟩ := ih
    unfold Session.scopeNamed
    split
    · exact ⟨⟨hfollows, hframes⟩, hin⟩
    · have hopened := (hin.orderly.opened hin.outermost).1
      exact ⟨⟨hfollows.openScope Forest.outermost, hframes⟩, hopened.orderly, hin.owner,
        hin.outermost.later hopened.grows⟩
  | @runText s source scope _ hscope _ ih =>
    obtain ⟨⟨hfollows, hframes⟩, hin⟩ := ih
    unfold Session.runText
    dsimp only
    split
    · rename_i hsource
      have hready : Machine.Follows Law.written { s.ready with scope := scope } :=
        Session.follows_ready ⟨hfollows, hframes⟩ (holds_whole.1 hscope)
      obtain ⟨-, hallows, hgoes⟩ :=
        lineal_throughout s.world fuelLimit hsource hready (hin.admits hscope)
      rw [← Session.run_machine] at hallows hgoes
      exact ⟨⟨hallows.store, hallows.keeps.frames.trans hframes⟩, hgoes.orderly,
        hgoes.keeps.owner.trans hin.owner, hin.outermost.later hgoes.grows⟩
    · exact ⟨⟨hfollows, hframes⟩, hin.orderly, hin.owner, hin.outermost⟩

/-- Inheritance is coherent in all sessions, whatever texts without errors declare their grimoires:
between the runs, in the course of each and at its end. Chains of parents are finite and come to no
grimoire twice, to inherit is a partial order, a method is the one of the first grimoire on the chain
whose text declares it, and an heir finds what its ancestor finds or a spell of a nearer grimoire.
The `init` of a call is the one that is found as a method, and all arguments that are accepted are
bound to its parameters. -/
theorem inheritance_coherent {s : Session} (hs : s.Under fun _ _ _ => True) (source : String)
    (hsource : (parse source).diagnostics = []) (scope : Ref .scope)
    (hscope : s.machine.store.InUse scope.address) (fuel : Nat) :
    s.machine.Coherent ∧
      (Throughout s.world fuel (parse source).program scope s.ready fun _ m => m.Coherent) ∧
      (endState (runProgram s.world fuel (parse source).program scope s.ready)).Coherent := by
  obtain ⟨hfollows, hin⟩ := hs.lineal
  have hready : Machine.Follows Law.written { s.ready with scope := scope } :=
    Session.follows_ready hfollows hscope
  obtain ⟨hduring, -, hgoes⟩ := lineal_throughout s.world fuel hsource hready
    (hin.admits (holds_whole.2 hscope))
  exact ⟨Machine.coherent hin.orderly.closed hin.orderly.store, hduring,
    Machine.coherent hgoes.orderly.closed hgoes.orderly.store⟩

/-- A session with two grimoires of one name, of which the younger inherits from the older one
through a third. -/
def dynasty : Session :=
  .having ("grim A:\n    init(x, y = 2):\n        self.x = x\n" ++
    "grim B(A):\n    spell f():\n        return 2\ngrim A(B):\n    ignore\na = A(5)\n")

theorem dynasty_under : dynasty.Under fun _ _ _ => True := Session.under_free _

theorem dynasty_found :
    (dynasty.machine.store.grimoires.toList.map (·.name)) = ["A", "B", "A"] ∧
      dynasty.machine.store.InUse (Ref.address (⟨2⟩ : Ref .grimoire)) ∧
      (dynasty.machine.store.findMethod? ⟨2⟩ "f").map (·.2) = some ⟨1⟩ ∧
      (dynasty.machine.store.findMethod? ⟨2⟩ "init").map (·.2) = some ⟨0⟩ ∧
      dynasty.machine.store.arity? (.grimoire ⟨2⟩) = some (.atMost 2) ∧
      (parse "b = A(7)\n").diagnostics.length = 0 := by
  decide +kernel

/-- A call that passes one argument binds it to a parameter of the `init` of the eldest. -/
theorem inheritance_coherent_dynasty :
    dynasty.machine.Coherent ∧
      (∃ init, dynasty.machine.store.findMethod? ⟨2⟩ "init" = some (init, ⟨0⟩) ∧
        ∀ (E : Evaluator) m, E.Binds init.params [.int 7] m) ∧
      (endState (runProgram dynasty.world fuelLimit (parse "b = A(7)\n").program Forest.outermost
        dynasty.ready)).Coherent := by
  obtain ⟨-, hyoungest, -, howner, harity, hsource⟩ := dynasty_found
  obtain ⟨hbefore, -, hafter⟩ := inheritance_coherent dynasty_under "b = A(7)\n"
    (List.length_eq_zero_iff.1 hsource) Forest.outermost dynasty_under.inUse_outermost fuelLimit
  refine ⟨hbefore, ?_, hafter⟩
  obtain ⟨hnone, -⟩ | ⟨init, owner, hfound, hbinds⟩ :=
    hbefore.store.accepted ⟨2⟩ [.int 7] hyoungest ⟨_, harity, rfl⟩
  · rw [hnone] at howner
    cases howner
  · rw [hfound] at howner
    cases howner
    exact ⟨init, hfound, hbinds⟩

end Spellbook
