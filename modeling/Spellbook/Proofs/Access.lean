import Spellbook.Proofs.Bookkeeping
import Spellbook.Proofs.Instances

/-! Looking up private spells. Which spell a name resolves to depends on the value, and whether it may
be had on no more than the grimoire whose method is running. -/
namespace Spellbook

def IsPrivate (name : String) : Prop := ∃ rest, name.toList = '_' :: '_' :: rest

theorem IsPrivate.ne {name other : String} (h : IsPrivate name) (ho : other.toList.head? ≠ some '_') :
    other ≠ name := by
  rintro rfl
  obtain ⟨rest, hrest⟩ := h
  exact ho (by rw [hrest]; rfl)

namespace Store

theorem findMethod?_congr {s s' : Store} (h : s'.grimoires = s.grimoires) (r : Ref .grimoire)
    (name : String) : s'.findMethod? r name = s.findMethod? r name := by
  have hsame : ∀ g : Ref .grimoire, s'.grimoire g = s.grimoire g := fun g => by
    rw [grimoire, grimoire, h]
  rw [findMethod?, findMethod?, lineage_congr fun g _ => hsame g]
  exact findSome?_congr fun g _ => by rw [ownMethod?, ownMethod?, hsame g]

/-- The method that an object has under a name, unless a field of it has the name. -/
def methodOf? (s : Store) (r : Ref .object) (name : String) : Option (SpellDecl × Ref .grimoire) :=
  if (s.field? r name).isSome then none else s.findMethod? (s.object r).grimoire name

def declOf? (s : Store) : Value → Option SpellDecl
  | .spell r => (s.spell? r).map (·.decl)
  | .method r => (s.method? r).map (·.decl)
  | _ => none

end Store

namespace Machine

/-- The spell that an attribute resolves to: of an object, or of the one that stands in for a value
or has been raised, or of a grimoire. -/
def attrSpell? (m : Machine) (v : Value) (name : String) : Option (SpellDecl × Ref .grimoire) :=
  match v with
  | .object r => m.store.methodOf? r name
  | .grimoire r => m.store.findMethod? r name
  | .error r | .caught r => (m.store.failure r).object?.bind fun o => m.store.methodOf? o name
  | .int _ | .float _ | .bool _ | .str _ | .array _ =>
    match m.store.scopes.get? m.scope (m.store.kind v) with
    | some (.grimoire g) => m.store.findMethod? g name
    | _ => none
  | _ => none

def superSpell? (m : Machine) (name : String) : Option (SpellDecl × Ref .grimoire) :=
  match m.store.scopes.get? m.scope "super", m.store.scopes.get? m.scope "self" with
  | some (.grimoire parent), some _ => m.store.findMethod? parent name
  | _, _ => none

/-- A lookup that resolves to a spell gives that spell if `reach` declares it, and fails if not. -/
structure Gated (m : Machine) (reach : Option (Ref .grimoire)) (name : String)
    (found : SpellDecl × Ref .grimoire) (r : EStateM.Result Halt Machine Value) : Prop where
  given : reach = some found.2 → ∃ v m', r = .ok v m' ∧ m'.store.declOf? v = some found.1
  refused : reach ≠ some found.2 → ∃ f m', r = .error (.raised f) m' ∧
    (m'.store.failure f).name = "AttributeError" ∧
    (m'.store.failure f).message = "private method '" ++ name ++
      "' is not accessible outside grimoire " ++ (m.store.grimoire found.2).name

/-- Code that is evaluated here gets at the private spells that one grimoire declares, and at no
others. -/
structure Guards (w : World) (m : Machine) (reach : Option (Ref .grimoire)) : Prop where
  attr : ∀ fuel e v m' (id : Ident) found, (evaluator w fuel).expr e m = .ok v m' →
    IsPrivate id.name → m'.attrSpell? v id.name = some found →
      m'.Gated reach id.name found ((evaluator w (fuel + 1)).expr (.attr e id) m)
  super : ∀ fuel pos (id : Ident) found, IsPrivate id.name → m.superSpell? id.name = some found →
    m.Gated reach id.name found ((evaluator w (fuel + 1)).expr (.super pos id) m)

end Machine

section Lookups

variable {w : World} {m : Machine} {id : Ident} {found : SpellDecl × Ref .grimoire}

theorem Eval.accessFault?_private {s : Store} {name : String} (hp : IsPrivate name)
    (running : Option (Ref .grimoire)) (owner : Ref .grimoire) :
    accessFault? s running name owner =
      if running = some owner then none
      else some (.privateMethod name (s.grimoire owner).name) := by
  obtain ⟨rest, hrest⟩ := hp
  simp only [accessFault?, hrest]

theorem Eval.checkAccess_given (hp : IsPrivate id.name) {owner : Ref .grimoire}
    (ho : m.owner = some owner) : checkAccess w id owner m = .ok () m := by
  simp only [checkAccess, look, Bind.bind, EStateM.bind, accessFault?_private hp, ho, if_true]
  rfl

theorem Eval.checkAccess_refused (hp : IsPrivate id.name) {owner : Ref .grimoire}
    (ho : m.owner ≠ some owner) : checkAccess w id owner m =
      (fail w id.pos (.privateMethod id.name (m.store.grimoire owner).name) : Eval Unit) m := by
  simp only [checkAccess, look, Bind.bind, EStateM.bind, accessFault?_private hp, ho, if_false]

theorem Machine.gated_of_checked {k : Unit → Eval Value} (hp : IsPrivate id.name)
    (hk : ∃ v m', k () m = .ok v m' ∧ m'.store.declOf? v = some found.1) :
    m.Gated m.owner id.name found ((Eval.checkAccess w id found.2 >>= k) m) where
  given ho := by
    simp only [Bind.bind, EStateM.bind, Eval.checkAccess_given hp ho]
    exact hk
  refused ho := by
    simp only [Bind.bind, EStateM.bind, Eval.checkAccess_refused hp ho]
    refine ⟨_, _, rfl, ?_⟩
    simp only [Store.failure, Array.getD_eq_getD_getElem?, Array.getElem?_push_size,
      Option.getD_some]
    exact ⟨rfl, rfl⟩

theorem Machine.gated_bound (hp : IsPrivate id.name) (receiver : Value) :
    m.Gated m.owner id.name found (Eval.bound w receiver id found m) := by
  refine gated_of_checked hp ⟨_, _, rfl, ?_⟩
  simp [Store.declOf?, Store.method?]

theorem Machine.gated_member (hp : IsPrivate id.name) {r : Ref .object}
    (h : m.store.methodOf? r id.name = some found) :
    m.Gated m.owner id.name found (Eval.member w r id m) := by
  unfold Store.methodOf? at h
  split at h
  · cases h
  · rename_i hfield
    have hnone : m.store.field? r id.name = none := by simpa using hfield
    have hmember : Eval.member w r id m = Eval.bound w (.object r) id found m := by
      simp only [Eval.member, Eval.view, Bind.bind, EStateM.bind, hnone, h]
    exact hmember ▸ gated_bound hp _

theorem Machine.gated_unbound (hp : IsPrivate id.name) {r : Ref .grimoire}
    (h : m.store.findMethod? r id.name = some found) :
    m.Gated m.owner id.name found (Eval.unbound w r id m) := by
  have hunbound : Eval.unbound w r id m = (do
      Eval.checkAccess w id found.2
      Eval.create fun s => s.newSpell ⟨found.1, (s.grimoire found.2).scope⟩ : Eval Value) m := by
    simp only [Eval.unbound, Eval.view, Bind.bind, EStateM.bind, h]
  rw [hunbound]
  refine gated_of_checked hp ⟨_, _, rfl, ?_⟩
  simp [Store.declOf?, Store.spell?]

theorem Machine.gated_wrapped (hp : IsPrivate id.name) {v : Value} (ha : v.standsAlone = true)
    {g : Ref .grimoire}
    (hg : m.store.scopes.get? m.scope (m.store.kind v) = some (.grimoire g))
    (h : m.store.findMethod? g id.name = some found) :
    m.Gated m.owner id.name found (Eval.wrappedMember w v id m) := by
  let new := m.store.newObject ⟨g, [(Eval.wrappedField v, v)]⟩
  have hobject : new.2.object new.1 = ⟨g, [(Eval.wrappedField v, v)]⟩ := m.store.object_newObject _
  have hother : Eval.wrappedField v ≠ id.name := by
    refine hp.ne ?_
    unfold Eval.wrappedField
    split <;> decide
  have hfield : new.2.field? new.1 id.name = none := by
    simp [Store.field?, hobject, Bindings.get?, hother]
  have hmethod : new.2.methodOf? new.1 id.name = some found := by
    have hsame : new.2.grimoires = m.store.grimoires := rfl
    rw [Store.methodOf?, hfield, hobject]
    exact (Store.findMethod?_congr hsame g id.name).trans h
  have hmember : Eval.wrappedMember w v id m = Eval.member w new.1 id { m with store := new.2 } := by
    simp only [Eval.wrappedMember, Eval.wrapped?, Eval.get?, Eval.look, Eval.view, Eval.create,
      Bind.bind, EStateM.bind, hg]
    rfl
  have hgated := gated_member (w := w) (m := { m with store := new.2 }) hp hmethod
  rw [hmember]
  generalize Eval.member w new.1 id { m with store := new.2 } = r at hgated ⊢
  exact ⟨hgated.given, hgated.refused⟩

theorem Machine.gated_raised (hp : IsPrivate id.name) (v : Value) {r : Ref .failure}
    {o : Ref .object} (ho : (m.store.failure r).object? = some o)
    (h : m.store.methodOf? o id.name = some found) :
    m.Gated m.owner id.name found (Eval.errorMember w v r id m) := by
  have hmessage : id.name ≠ "message" := (hp.ne (by decide)).symm
  have hname : id.name ≠ "name" := (hp.ne (by decide)).symm
  have htype : id.name ≠ "type" := (hp.ne (by decide)).symm
  have hmember : Eval.errorMember w v r id m = Eval.member w o id m := by
    simp only [Eval.errorMember, Eval.view, Bind.bind, EStateM.bind, ho]
  exact hmember ▸ gated_member hp h

theorem Machine.gated_attr (hp : IsPrivate id.name) {v : Value}
    (h : m.attrSpell? v id.name = some found) :
    m.Gated m.owner id.name found (Eval.attr w v id m) := by
  cases v with
  | object r => exact gated_member hp h
  | grimoire r => exact gated_unbound hp h
  | error r | caught r =>
    obtain ⟨o, ho, hmethod⟩ := Option.bind_eq_some_iff.1 h
    exact gated_raised hp _ ho hmethod
  | int | float | bool | str | array =>
    simp only [attrSpell?] at h
    split at h
    · rename_i g hg
      exact gated_wrapped hp rfl hg h
    · cases h
  | none | tuple | map | spell | builtin | method | space => cases h

theorem Machine.gated_super (hp : IsPrivate id.name) (pos : Pos)
    (h : m.superSpell? id.name = some found) :
    m.Gated m.owner id.name found (Eval.parentMethod w pos id m) := by
  unfold superSpell? at h
  split at h
  · rename_i parent receiver hsuper hself
    have hparent : Eval.parentMethod w pos id m = Eval.bound w receiver id found m := by
      simp only [Eval.parentMethod, Eval.get?, Eval.look, Eval.view, Bind.bind, EStateM.bind,
        hsuper, hself, h]
    exact hparent ▸ gated_bound hp _
  · cases h

/-- Only the grimoire whose method is running gets at its private spells. -/
theorem Machine.guards (w : World) (m : Machine) : m.Guards w m.owner where
  attr fuel e v m' id found hv hp h := by
    have hkeeps := Settles.keeps
      ((covers_evaluator w fuel m).expr e ⟨.refl m, m.store.declares_any⟩)
    rw [hv] at hkeeps
    have howner : m'.owner = m.owner := hkeeps.owner
    have hattr : (evaluator w (fuel + 1)).expr (.attr e id) m = Eval.attr w v id m' := by
      simp only [evaluator, Evaluator.evalExpr, Bind.bind, EStateM.bind, hv]
    rw [hattr, ← howner]
    exact gated_attr hp h
  super _ pos _ _ hp h := gated_super hp pos h

end Lookups

end Spellbook
