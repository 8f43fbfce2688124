import Spellbook.Proofs.Evaluation.Observers
import Spellbook.Proofs.Failures.Reliable

/-! Every failure has a place. Whatever leaves an expression or a statement says where it arose, in
every state that a session can be in. Only the end of a whole program may have nothing to say. -/
namespace Spellbook

/-- Whatever an action raises in a state is located. -/
def Eval.Locates {α : Type} (act : Eval α) (m : Machine) : Prop :=
  ∀ r m', act m = .error (.raised r) m' → (m'.store.failure r).IsLocated

/-- Someone who is told of failures, and not heard as long as they are located. -/
structure Listener where
  tell : Failure → Eval Unit
  silent : ∀ f m, f.IsLocated → tell f m = .ok () m

def Eval.overheard {α : Type} (l : Listener) (act : Eval α) : Eval α := do
  match ← caught act with
  | .ok a => return a
  | .error r =>
    l.tell (← view fun s => s.failure r)
    throw (.raised r)

/-- The evaluator with a listener, who is told of whatever leaves an expression or a statement. -/
def overheard (w : World) (l : Listener) : Nat → Evaluator
  | 0 => .spent
  | fuel + 1 =>
    ⟨fun e => Eval.overheard l ((overheard w l fuel).evalExpr w e),
      fun s => Eval.overheard l ((overheard w l fuel).evalStmt w s),
      fun _ decl args => (overheard w l fuel).body w decl args, fuel⟩

/-! Listeners are not heard -/

def Listener.deaf : Listener := ⟨fun _ => pure (), fun _ _ _ => rfl⟩

instance : Nonempty Listener := ⟨.deaf⟩

theorem Eval.overheard_deaf {α : Type} (act : Eval α) : overheard .deaf act = act := by
  funext m
  simp only [overheard, Bind.bind, EStateM.bind, caught]
  cases act m with
  | ok a m' => rfl
  | error e m' => cases e <;> rfl

theorem overheard_deaf (w : World) (fuel : Nat) : overheard w .deaf fuel = evaluator w fuel := by
  induction fuel with
  | zero => rfl
  | succ fuel ih => simp only [overheard, evaluator, ih, Eval.overheard_deaf]

theorem Reliable.overheard {α : Type} [Bearing α] {x : Listener → Eval α} {m : Machine}
    (hx : Reliable x m) : Reliable (fun l => Eval.overheard l (x l)) m := by
  refine hx.caught.bind fun result m' h hresult => ?_
  cases result with
  | ok a => exact .pure h.orderly hresult
  | error r =>
    refine .of_eq (y := fun _ => MonadExcept.throw (.raised r)) h.orderly (fun l => ?_)
      (.throw h.orderly hresult)
    have hsilent := l.silent _ m' (Store.Backs.located (hresult _ List.mem_cons_self _ rfl))
    simp only [Bind.bind, EStateM.bind, Eval.view, hsilent]

theorem trusted_overheard (w : World) (fuel : Nat) : Trusted fun l => overheard w l fuel := by
  induction fuel with
  | zero =>
    exact ⟨fun _ _ hm => .spent id hm.orderly, fun _ _ hm => .spent id hm.orderly,
      fun _ _ _ _ _ hm _ => .spent id hm.orderly, 0, fun _ => rfl⟩
  | succ fuel ih =>
    exact ⟨fun he _ hm => Reliable.overheard (ih.evalExpr hm.orderly.inOrder he),
      fun hs _ hm => Reliable.overheard (ih.evalStmt hm.orderly.inOrder hs),
      fun _ _ _ _ hd hm ha => ih.body hm.orderly.inOrder hd ha, fuel, fun _ => rfl⟩

/-- What a reliable evaluation has raised is located. -/
theorem located_of_knows {ι : Type} [Nonempty ι] {s : Store} {r : Ref .failure}
    (h : (tracing ι).Knows s r) : (s.failure r).IsLocated :=
  Store.Backs.located (h _ List.mem_cons_self _ rfl)

theorem Reliable.locates {α : Type} [Bearing α] {x : Listener → Eval α} {m : Machine}
    (hx : Reliable x m) : (x .deaf).Locates m := by
  obtain ⟨result, hresult, hallows⟩ := hx.agreed
  intro r m' h
  exact located_of_knows (hallows.raised r m' ((hresult .deaf).symm.trans h))

/-! Programs -/

/-- The statements of a program end with a `stop` or a `skip` that no loop has taken. -/
def Evaluator.EndsAstray (E : Evaluator) (p : Program) (scope : Ref .scope) (m : Machine) : Prop :=
  ∃ flow m', Eval.inScope scope (E.program p true) m = .ok flow m' ∧ (flow = .stop ∨ flow = .skip)

def Flow.conclude : Flow → Eval Value
  | .value v => pure v
  | .give v => pure v
  | .stop => Eval.raise (.plain Fault.strayControl.message)
  | .skip => Eval.raise (.plain Fault.strayControl.message)

theorem Evaluator.run_eq (E : Evaluator) (p : Program) (scope : Ref .scope) :
    E.run p scope = Eval.inScope scope (E.program p true) >>= Flow.conclude := rfl

theorem Flow.conclude_leads (flow : Flow) {m : Machine} (hm : m.store.InOrder) :
    m.store.Leads (endState (flow.conclude m)).store := by
  cases flow with
  | value v => exact hm.refl
  | give v => exact hm.refl
  | stop => exact hm.newFailure _
  | skip => exact hm.newFailure _

theorem Flow.failure_of_conclude {flow : Flow} {m m' : Machine} {r : Ref .failure}
    (h : flow.conclude m = .error (.raised r) m') : (flow = .stop ∨ flow = .skip) ∧
      m'.store.failure r = .plain Fault.strayControl.message := by
  have hnew : ∀ f : Failure, (m.store.newFailure f).2.failure (m.store.newFailure f).1 = f := by
    intro f
    simp only [Store.failure, Store.newFailure, Array.getD_eq_getD_getElem?,
      Array.getElem?_push_size, Option.getD_some]
  cases flow with
  | value v => cases h
  | give v => cases h
  | stop =>
    cases h
    exact ⟨.inl rfl, hnew _⟩
  | skip =>
    cases h
    exact ⟨.inr rfl, hnew _⟩

theorem run_located {ι : Type} [Nonempty ι] {E : ι → Evaluator} (hE : Trusted E) (source : String)
    (scope : Ref .scope) {m : Machine} (hm : m.store.InOrder) :
    ∃ result, (∀ i, (E i).run (parse source).program scope m = result) ∧
      m.store.Leads (endState result).store ∧
      ∀ r m', result = .error (.raised r) m' → (m'.store.failure r).IsLocated ∨
        (m'.store.failure r = .plain Fault.strayControl.message ∧
          ∀ i, (E i).EndsAstray (parse source).program scope m) := by
  have hprogram : Reliable (fun i => Eval.inScope scope ((E i).program (parse source).program true))
      m := .inScope hm.refl (hE.program (m := { m with scope := scope }) hm true)
  obtain ⟨result, hresult, hallows⟩ := hprogram.agreed
  have hleads := hallows.goes.leads
  -- The statements are reliable, and what follows them depends on how they end alone.
  cases result with
  | error e m' =>
    refine ⟨.error e m', fun i => ?_, hleads, fun r m'' h => .inl ?_⟩
    · simp only [Evaluator.run_eq, Bind.bind, EStateM.bind, hresult]
    · cases h
      exact located_of_knows (hallows.raised r m' rfl)
  | ok flow m' =>
    refine ⟨flow.conclude m', fun i => ?_, hleads.trans (flow.conclude_leads hleads.inOrder),
      fun r m'' h => .inr ?_⟩
    · simp only [Evaluator.run_eq, Bind.bind, EStateM.bind, hresult]
    · obtain ⟨hflow, hfailure⟩ := Flow.failure_of_conclude h
      exact ⟨hfailure, fun i => ⟨flow, m', hresult i, hflow⟩⟩

/-! Sessions -/

def Session.ready (s : Session) : Machine := { s.machine with output := "" }

/-- The sessions there are. Texts are run in any scope, and between them the world may change. -/
inductive Session.Reached : Session → Prop where
  | start (w : World) (file : Option String) : Reached (.start w file)
  | world {s : Session} (w : World) : Reached s → Reached { s with world := w }
  | setFile {s : Session} (file : String) : Reached s → Reached (s.setFile file)
  | scopeNamed {s : Session} (name : String) : Reached s → Reached (s.scopeNamed name).2
  | runText {s : Session} (source : String) (scope : Ref .scope) :
      Reached s → Reached (s.runText source scope).2

theorem Store.inOrder_initial : Store.initial.InOrder := by
  refine initial_induct ⟨⟨nofun, nofun, nofun, nofun⟩, ?_, nofun, nofun, nofun, nofun, nofun⟩
    fun s b hs => (hs.define Forest.outermost b.name (v := .builtin b) trivial).inOrder
  -- There is one scope, in which nothing is bound.
  intro scope hscope entry he
  obtain rfl := List.mem_singleton.1 (Array.mem_toList_iff.2 hscope)
  cases he

theorem runProgram_leads (w : World) (fuel : Nat) (source : String) (scope : Ref .scope)
    {m : Machine} (hm : m.store.InOrder) :
    m.store.Leads (endState (runProgram w fuel (parse source).program scope m)).store := by
  obtain ⟨result, hresult, hleads, _⟩ := run_located (trusted_overheard w fuel) source scope hm
  rw [runProgram, ← overheard_deaf, hresult]
  exact hleads

theorem Session.run_machine (s : Session) (p : Program) (scope : Ref .scope) :
    (s.run p scope).2.machine = endState (runProgram s.world fuelLimit p scope s.ready) := by
  unfold Session.run Session.ready
  dsimp only
  cases runProgram s.world fuelLimit p scope { s.machine with output := "" } with
  | ok v m => rfl
  | error e m => cases e <;> rfl

theorem Session.raised_of_runText {s : Session} {source : String} {scope : Ref .scope} {f : Failure}
    (h : (s.runText source scope).1 = .failed f) : ∃ r m',
      runProgram s.world fuelLimit (parse source).program scope s.ready = .error (.raised r) m' ∧
        m'.store.failure r = f := by
  unfold Session.runText Session.run at h
  dsimp only at h
  split at h
  · split at h <;> cases h
    rename_i r m' hrun
    exact ⟨r, m', hrun, rfl⟩
  · cases h

theorem Session.Reached.inOrder {s : Session} (hs : s.Reached) : s.machine.store.InOrder := by
  induction hs with
  | start w file => exact Store.inOrder_initial
  | world w _ ih => exact ih
  | setFile file _ ih => exact ih
  | scopeNamed name _ ih =>
    unfold Session.scopeNamed
    split
    · exact ih
    · exact (ih.openScope Forest.outermost).inOrder
  | @runText s source scope _ ih =>
    have hready : s.ready.store.InOrder := ih
    unfold Session.runText
    dsimp only
    split
    · rw [Session.run_machine]
      exact (runProgram_leads s.world fuelLimit source scope hready).inOrder
    · exact ih

/-- Any failure that leaves an expression or a statement is located, be it evaluated in the state
that a session has reached or in the course of a run: a listener is not heard who is told of all such
failures and says nothing of those that are located. So what a run fails with is located, unless the
statements of the program end with a `stop` or a `skip` of their own. -/
theorem failures_located {s : Session} (hs : s.Reached) (source : String) (scope : Ref .scope) :
    (∀ fuel (m : Machine), m.store = s.machine.store →
      (∀ e, (parse source).program.HasExpr e → ((evaluator s.world fuel).expr e).Locates m) ∧
        ∀ t, (parse source).program.Has t → ((evaluator s.world fuel).stmt t).Locates m) ∧
      (∀ (l : Listener) fuel, (overheard s.world l fuel).run (parse source).program scope s.ready =
        runProgram s.world fuel (parse source).program scope s.ready) ∧
      ∀ f, (s.runText source scope).1 = .failed f → f.IsLocated ∨
        (f = .plain "stop or skip used outside of a loop" ∧
          (evaluator s.world fuelLimit).EndsAstray (parse source).program scope s.ready) := by
  have horder : s.ready.store.InOrder := hs.inOrder
  refine ⟨fun fuel m hm => ?_, fun l fuel => ?_, fun f hf => ?_⟩
  · rw [← overheard_deaf]
    have hE := trusted_overheard s.world fuel
    have hadmits : (tracing Listener).Admits m := tracing_admits (hm ▸ hs.inOrder)
    exact ⟨fun e he => Reliable.locates (hE.expr ⟨source, he⟩ hadmits),
      fun t ht => Reliable.locates (hE.stmt ⟨source, ht⟩ hadmits)⟩
  · obtain ⟨result, hresult, _⟩ :=
      run_located (trusted_overheard s.world fuel) source scope horder
    rw [runProgram, ← overheard_deaf, hresult, hresult]
  · obtain ⟨r, m', hrun, rfl⟩ := Session.raised_of_runText hf
    obtain ⟨result, hresult, _, hraised⟩ :=
      run_located (trusted_overheard s.world fuelLimit) source scope horder
    rw [runProgram, ← overheard_deaf, hresult] at hrun
    rcases hraised r m' hrun with hlocated | ⟨hplain, hastray⟩
    · exact .inl hlocated
    · exact .inr ⟨hplain, overheard_deaf s.world fuelLimit ▸ hastray .deaf⟩

instance (f : Failure) : Decidable f.IsLocated :=
  decidable_of_iff (f.location?.any Location.isKnown = true) (Option.any_eq_true _ _)

/-- A listener who ends the run when a failure is not located. -/
def Listener.alarm : Listener where
  tell f := if f.IsLocated then pure () else throw .outOfFuel
  silent f m hf := by
    rw [if_pos hf]
    rfl

def keeping : Session :=
  ((Session.start ⟨.none, ⟨"."⟩, 50, 8⟩ none).runText
    "attempt:\n    raise \"lost\"\nensnare as e:\n    kept = e\n" Forest.outermost).2

/-- What was kept can be raised again without an alarm, and still says where it was raised first. -/
theorem failures_located_kept :
    (overheard keeping.world .alarm fuelLimit).run (parse "raise kept\n").program
        Forest.outermost keeping.ready =
      runProgram keeping.world fuelLimit (parse "raise kept\n").program Forest.outermost
        keeping.ready ∧
      ∃ f, (keeping.runText "raise kept\n" Forest.outermost).1 = .failed f ∧
        f.location? = some ⟨none, 2, 5⟩ ∧ f.IsLocated := by
  have hkeeping : keeping.Reached := .runText _ _ (.start _ _)
  obtain ⟨_, hsilent, hlocated⟩ := failures_located hkeeping "raise kept\n" Forest.outermost
  have hfails : (match (keeping.runText "raise kept\n" Forest.outermost).1 with
      | .failed f => f.location?
      | _ => none) = some ⟨none, 2, 5⟩ := by
    decide +kernel
  refine ⟨hsilent .alarm fuelLimit, ?_⟩
  split at hfails
  · rename_i f hf
    refine ⟨f, hf, hfails, ?_⟩
    rcases hlocated f hf with h | ⟨rfl, _⟩
    · exact h
    · cases hfails
  · cases hfails

end Spellbook
