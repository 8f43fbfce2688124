import Spellbook.Proofs.Reach.Confined
import Spellbook.Session

/-! Evaluation has local effects. What was there before and cannot be got at from the scope that
something is evaluated in, or from what is called and its arguments, is the same afterwards. -/
namespace Spellbook

open Refers

variable {α β : Type}

/-- A chain of references leads to the address from something that `x` refers to. -/
def Store.Exposes [Refers α] (s : Store) (x : α) (a : Address) : Prop := ∃ b ∈ refs x, s.Reaches b a

/-- The action leaves alone whatever is there before and cannot be got at from `x`. -/
def Eval.TouchesOnly [Refers β] (act : Eval α) (m : Machine) (x : β) : Prop :=
  ∀ a, m.store.InUse a → ¬ m.store.Exposes x a → m.store.SameAt (endState (act m)).store a

/-- All that can be got at from `x`, and what comes to be from now on. -/
def Store.region [Refers α] (s : Store) (x : α) : Region := ⟨s.Exposes x, s.size⟩

theorem Store.closed_region [Refers α] (s : Store) (x : α) : (s.region x).Closed s where
  base κ := Nat.le_refl _
  parts a ha b hb := by
    rcases ha with ⟨r, hr, hreach⟩ | ⟨hle, hlt⟩
    · exact .inl ⟨r, hr, hreach.tail hb⟩
    · exact absurd hlt (Nat.not_lt_of_le hle)

theorem Store.region_holds [Refers α] [Refers β] (s : Store) {x : α} {y : β}
    (h : ∀ a ∈ refs y, a ∈ refs x) : (s.region x).Holds s y :=
  fun a ha => .inl ⟨a, h a ha, .refl⟩

theorem Machine.admitted (m : Machine) : (m.store.region m.scope).logic.Admits m :=
  Region.admits (m.store.closed_region m.scope) (m.store.region_holds fun _ h => h)

theorem Eval.Confined.touchesOnly [Bearing α] [Refers β] {act : Eval α} {m : Machine} {x : β}
    (h : Confined (m.store.region x) act m) : act.TouchesOnly m x :=
  fun a ha hx => (Abides.allows h).goes.leads.same a ha hx

/-- Expressions, statements and programs touch only what can be got at from the scope that they are
evaluated in. A call touches only what can be got at from what is called and the arguments: so it
changes no variables of the caller, and no containers that it was given no path to. -/
theorem effects_local (w : World) (fuel : Nat) (m : Machine) :
    (∀ e, ((evaluator w fuel).expr e).TouchesOnly m m.scope) ∧
      (∀ s, ((evaluator w fuel).stmt s).TouchesOnly m m.scope) ∧
      (∀ p scope, (runProgram w fuel p scope).TouchesOnly m scope) ∧
      ∀ pos (callee : Value) (args : List Value),
        ((evaluator w fuel).callValue w pos callee args).TouchesOnly m (callee, args) := by
  have hE := fun R : Region => R.trusts_evaluator w fuel
  refine ⟨fun e => ?_, fun s => ?_, fun p scope => ?_, fun pos callee args => ?_⟩
  · exact Eval.Confined.touchesOnly ((hE _).expr e m.admitted)
  · exact Eval.Confined.touchesOnly ((hE _).stmt s m.admitted)
  · refine Eval.Confined.touchesOnly ((hE _).run p (m.store.closed_region scope) ?_)
    exact m.store.region_holds fun _ h => h
  · refine Eval.Confined.touchesOnly ((hE _).callValue w pos (m.store.closed_region _) ?_ ?_)
    · exact m.store.region_holds fun _ h => List.mem_append_left _ h
    · exact m.store.region_holds fun _ h => List.mem_append_right _ h

/-- A list of addresses that no reference leads out of has all that can be got at. -/
theorem Store.not_exposes [Refers α] {s : Store} {x : α} {a : Address} (known : List Address)
    (hx : ∀ b ∈ refs x, b ∈ known) (hparts : ∀ b ∈ known, ∀ c ∈ s.parts b, c ∈ known)
    (ha : a ∉ known) : ¬ s.Exposes x a := by
  rintro ⟨b, hb, hreach⟩
  have hknown : ∀ c, s.Reaches b c → c ∈ known := by
    intro c hc
    induction hc with
    | refl => exact hx b hb
    | tail _ hpart ih => exact hparts _ ih _ hpart
  exact ha (hknown a hreach)

def sharing : Session :=
  let world : World := ⟨.none, ⟨"."⟩, 3, 8⟩
  let session := (Session.start world none).runText
    "spell fill(xs):\n    xs[0] = 5\n" Forest.outermost
  let (scope, session) := session.2.scopeNamed "local"
  (session.runText "lent = [1]\nown = [2]\n" scope).2

def fillLent : Eval Value :=
  (evaluator sharing.world 5).callValue sharing.world ⟨1, 1⟩ (.spell ⟨0⟩) [.array ⟨0⟩]

/-- The array that was passed has changed. The other one has not, and neither has the scope that both
of them are bound in. -/
theorem effects_local_sharing :
    (endState (fillLent sharing.machine)).store.array ⟨0⟩ = #[.int 5] ∧
      sharing.machine.store.SameAt (endState (fillLent sharing.machine)).store ⟨.array, 1⟩ ∧
      sharing.machine.store.SameAt (endState (fillLent sharing.machine)).store ⟨.scope, 1⟩ := by
  have hcall := (effects_local sharing.world 5 sharing.machine).2.2.2 ⟨1, 1⟩ (.spell ⟨0⟩)
    [.array ⟨0⟩]
  have hhidden : ∀ a ∉ ([⟨.spell, 0⟩, ⟨.scope, 0⟩, ⟨.array, 0⟩] : List Address),
      ¬ sharing.machine.store.Exposes (Value.spell ⟨0⟩, [Value.array ⟨0⟩]) a :=
    fun a ha => Store.not_exposes _ (by decide) (by decide +kernel) ha
  refine ⟨by decide +kernel, ?_, ?_⟩
  · exact hcall _ (by decide +kernel) (hhidden _ (by decide))
  · exact hcall _ (by decide +kernel) (hhidden _ (by decide))

end Spellbook
