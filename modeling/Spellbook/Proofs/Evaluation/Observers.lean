import Spellbook.Proofs.Evaluation.Statements
import Spellbook.Session

/-! What holds all through a run. An observer is told of all code that is about to be evaluated, and
is not heard as long as the code and the state are as expected. -/
namespace Spellbook

/-- The evaluator with an observer, who is told of all code before it is evaluated. -/
def watched (w : World) (watch : Code → Eval Unit) : Nat → Evaluator
  | 0 => .spent
  | fuel + 1 =>
    ⟨fun e => do
        watch (.expr e)
        (watched w watch fuel).evalExpr w e,
      fun s => do
        watch (.stmt s)
        (watched w watch fuel).evalStmt w s,
      fun _ decl args => do
        watch (.spell decl)
        (watched w watch fuel).body w decl args,
      fuel⟩

/-- `P` holds of whatever a run comes to evaluate, in the state in which it does: an observer is not
heard who says nothing where `P` holds. -/
def Throughout (w : World) (fuel : Nat) (p : Program) (scope : Ref .scope) (m : Machine)
    (P : Code → Machine → Prop) : Prop :=
  ∀ watch : Code → Eval Unit, (∀ c m, P c m → watch c m = .ok () m) →
    (watched w watch fuel).run p scope m = runProgram w fuel p scope m

/-- An observer who ends the run with a word where `P` does not hold. -/
def sentry (P : Code → Machine → Prop) [∀ c m, Decidable (P c m)] (word : String) (c : Code) :
    Eval Unit := fun m =>
  if P c m then .ok () m else .error .outOfFuel { m with output := m.output ++ word }

/-- Whether something has run out of fuel. -/
def endsEarly {σ α : Type} : EStateM.Result Halt σ α → Bool
  | .error .outOfFuel _ => true
  | _ => false

section Observers

variable {w : World} {fuel : Nat} {p : Program} {scope : Ref .scope} {m : Machine}
  {P Q : Code → Machine → Prop}

theorem Throughout.imp (h : Throughout w fuel p scope m P) (hpq : ∀ c m, P c m → Q c m) :
    Throughout w fuel p scope m Q :=
  fun watch hwatch => h watch fun c m hp => hwatch c m (hpq c m hp)

theorem watched_mute (w : World) (watch : Code → Eval Unit) (hw : ∀ c m, watch c m = .ok () m)
    (fuel : Nat) : watched w watch fuel = evaluator w fuel := by
  have hskip : ∀ {α : Type} (c : Code) (act : Eval α), (do watch c; act) = act := by
    intro α c act
    funext m
    simp only [Bind.bind, EStateM.bind, hw]
  induction fuel with
  | zero => rfl
  | succ fuel ih => simp only [watched, evaluator, ih, hskip]

theorem throughout_true (w : World) (fuel : Nat) (p : Program) (scope : Ref .scope) (m : Machine) :
    Throughout w fuel p scope m fun _ _ => True := by
  intro watch hwatch
  rw [watched_mute w watch (fun c m => hwatch c m trivial), runProgram]

variable [∀ c m, Decidable (P c m)]

theorem sentry_silent {c : Code} (word : String) (h : P c m) : sentry P word c m = .ok () m :=
  if_pos h

theorem sentry_speaks {c : Code} (word : String) (h : ¬ P c m) :
    sentry P word c m = .error .outOfFuel { m with output := m.output ++ word } :=
  if_neg h

theorem Throughout.sentry (h : Throughout w fuel p scope m P) (word : String) :
    (watched w (sentry P word) fuel).run p scope m = runProgram w fuel p scope m :=
  h _ fun _ _ hp => sentry_silent word hp

theorem not_throughout (hplain : endsEarly (runProgram w fuel p scope m) = false)
    (hstopped : endsEarly ((watched w (Spellbook.sentry P "") fuel).run p scope m) = true) :
    ¬ Throughout w fuel p scope m P := by
  intro h
  rw [h.sentry "", hplain] at hstopped
  cases hstopped

end Observers

/-! Families of observers -/

/-- Observers who say nothing where code is admitted and `P` holds. -/
def Quiet (A P : Code → Machine → Prop) : Type :=
  { watch : Code → Eval Unit // ∀ c m, A c m → P c m → watch c m = .ok () m }

namespace Quiet

variable (A P : Code → Machine → Prop)

def mute : Quiet A P := ⟨fun _ => pure (), fun _ _ _ _ => rfl⟩

theorem watched_mute (w : World) (fuel : Nat) : watched w (mute A P).1 fuel = evaluator w fuel :=
  Spellbook.watched_mute w _ (fun _ _ => rfl) fuel

variable [∀ c m, Decidable (P c m)]

def sentry (word : String) : Quiet A P :=
  ⟨Spellbook.sentry P word, fun _ _ _ hp => sentry_silent word hp⟩

def alarm : Quiet A P × Quiet A P := (sentry A P "", sentry A P "!")

end Quiet

namespace Abides

variable {A P : Code → Machine → Prop} [∀ c m, Decidable (P c m)] {L : Logic (Quiet A P)}
  {m : Machine} (halarm : L.alarm = some (Quiet.alarm A P))

include halarm

/-- Where `P` does not hold, the sentries raise an alarm. -/
theorem told {α : Type} [Bearing α] {c : Code} {x : Quiet A P → Eval α}
    (hm : L.Leads m.store m.store) (hc : P c m → A c m) (hx : P c m → Abides L x m) :
    Abides L (fun i => do i.1 c; x i) m := by
  by_cases hp : P c m
  · refine .of_eq hm (fun i => ?_) (hx hp)
    simp only [Bind.bind, EStateM.bind, i.2 c m (hc hp) hp]
  · have hends : ∀ word, (do (Quiet.sentry A P word).1 c; x (.sentry A P word)) m =
        .error .outOfFuel { m with output := m.output ++ word } := by
      intro word
      simp only [Quiet.sentry, Bind.bind, EStateM.bind, sentry_speaks word hp]
    refine .inl ⟨_, halarm, _, _, hends "", hends "!", ?_⟩
    simp [String.ext_iff]

variable {w : World} {fuel : Nat} {p : Program} {scope : Ref .scope}

/-- If no alarm is raised, all observers are silent where code is admitted and `P` holds. -/
theorem throughout (hrun : Abides L (fun i => (watched w i.1 fuel).run p scope) m)
    (hsilent : ¬ BreaksOff (Quiet.alarm A P) (fun i => (watched w i.1 fuel).run p scope) m) :
    (Throughout w fuel p scope m fun c m => A c m ∧ P c m) ∧
      L.Allows m (runProgram w fuel p scope m) := by
  rcases hrun with ⟨alarm, ha, hbreaks⟩ | ⟨r, hr, hallows⟩
  · obtain rfl := Option.some.inj (halarm.symm.trans ha)
    exact absurd hbreaks hsilent
  · rw [L.heard _ halarm, Filter.eventually_top] at hr
    have hplain : runProgram w fuel p scope m = r := by
      rw [runProgram, ← Quiet.watched_mute A P]
      exact hr (.mute A P)
    refine ⟨fun watch hwatch => ?_, hplain ▸ hallows⟩
    exact (hr ⟨watch, fun c m hc hp => hwatch c m ⟨hc, hp⟩⟩).trans hplain.symm

omit halarm in
/-- If there is nothing to say anywhere, no alarm is raised. -/
theorem settled {α : Type} [Bearing α] {L : Logic (Quiet A fun _ _ => True)}
    (halarm : L.alarm = some (Quiet.alarm A fun _ _ => True))
    {x : Quiet A (fun _ _ => True) → Eval α} (hx : Abides L x m) :
    ∃ r, (∀ i, x i m = r) ∧ L.Allows m r := by
  obtain ⟨r, hr, hallows⟩ := hx.agreed fun alarm ha => by
    obtain rfl := Option.some.inj (halarm.symm.trans ha)
    exact Subtype.ext (by funext c m; simp [Quiet.alarm, Quiet.sentry, Spellbook.sentry])
  rw [L.heard _ halarm, Filter.eventually_top] at hr
  exact ⟨r, hr, hallows⟩

omit halarm in
/-- Sentries that have nothing to say end alike. -/
theorem silent (h : Throughout w fuel p scope m P) :
    ¬ BreaksOff (Quiet.alarm A P) (fun i => (watched w i.1 fuel).run p scope) m := by
  rintro ⟨m₁, m₂, h₁, h₂, hne⟩
  have hsame := (h.sentry "").trans (h.sentry "!").symm
  exact absurd (EStateM.Result.error.inj (h₁.symm.trans (hsame.trans h₂))).2
    fun heq => hne (heq ▸ rfl)

end Abides

/-! Before anything has run -/

theorem Store.initial_induct {P : Store → Prop} (hempty : P Store.empty)
    (hdefine : ∀ (s : Store) (b : Builtin), P s →
      P { s with scopes := s.scopes.define Forest.outermost b.name (.builtin b) }) :
    P Store.initial := by
  have hfold : ∀ (bs : List Builtin) (f : Forest Value), P { Store.empty with scopes := f } →
      P { Store.empty with
        scopes := bs.foldl (fun f b => f.define Forest.outermost b.name (.builtin b)) f } := by
    intro bs
    induction bs with
    | nil => exact fun f hf => hf
    | cons b rest ih => exact fun f hf => ih _ (hdefine _ b hf)
  exact hfold Builtin.all _ hempty

theorem Store.outermost_initial : Forest.outermost.index < Store.initial.scopes.scopes.size :=
  Store.initial_induct (P := fun s => Forest.outermost.index < s.scopes.scopes.size) Nat.one_pos
    fun s b hs => (s.scopes.size_define Forest.outermost b.name (.builtin b)).symm ▸ hs

end Spellbook
