import Spellbook.Proofs.Bookkeeping

/-! How many spells are under way at a time. The limit on calls counts the calls; spells that close a
resource come on top of it. -/
namespace Spellbook

/-- The evaluator with an observer. Whenever a spell is about to run, the observer is given what has
started it and the spells around it, the innermost first. -/
def observed (w : World) (watch : List Start → Eval Unit) : Nat → List Start → Evaluator
  | 0, _ => .spent
  | fuel + 1, running =>
    ⟨fun e => (observed w watch fuel running).evalExpr w e,
      fun s => (observed w watch fuel running).evalStmt w s,
      fun start decl args => do
        watch (start :: running)
        (observed w watch fuel (start :: running)).body w decl args,
      fuel⟩

/-- The calls among the spells under way are within the limit, and on record. -/
structure Fits (w : World) (running : List Start) (m : Machine) : Prop where
  limit : running.count .call ≤ w.maxDepth
  frames : running.count .call ≤ m.frames.length

def abreast (E E' : Evaluator) : Bool → Evaluator
  | true => E
  | false => E'

theorem abreast_self (E : Evaluator) : abreast E E = fun _ => E :=
  funext fun b => by cases b <;> rfl

variable {w : World} {watch : List Start → Eval Unit} {running : List Start} {m m' : Machine}

theorem Fits.later (h : Fits w running m) (hp : m.Precedes m') : Fits w running m' :=
  ⟨h.limit, hp.frames ▸ h.frames⟩

theorem Fits.call (h : Fits w running m) {frame : Frame} (hlt : m.frames.length < w.maxDepth)
    (hp : Machine.Precedes { m with frames := frame :: m.frames } m') :
    Fits w (.call :: running) m' := by
  have hframes : m'.frames.length = m.frames.length + 1 := congrArg List.length hp.frames
  have hcalls := h.frames
  constructor
  · rw [List.count_cons_self]
    omega
  · rw [List.count_cons_self]
    omega

theorem Fits.close (h : Fits w running m) : Fits w (.close :: running) m :=
  ⟨h.limit, h.frames⟩

theorem covers_observed (hw : ∀ running m, Fits w running m → watch running m = .ok () m)
    (fuel : Nat) (hf : Fits w running m) :
    Covers ⊤ (abreast (observed w watch fuel running) (evaluator w fuel)) m w := by
  induction fuel generalizing running m with
  | zero =>
    have hspent : abreast (observed w watch 0 running) (evaluator w 0) = fun _ => .spent :=
      funext fun b => by cases b <;> rfl
    rw [hspent]
    exact .spent m w
  | succ fuel ih =>
    have hspell : ∀ start decl args m', Fits w (start :: running) m' → Settles .any ⊤ (fun b =>
        (abreast (observed w watch (fuel + 1) running) (evaluator w (fuel + 1)) b).spell start decl
          args) m' := by
      intro start decl args m' hfit
      refine .of_eq m'.store.declares_any (fun b => ?_) ((ih hfit).body decl args)
      cases b with
      | true => simp only [abreast, observed, Bind.bind, EStateM.bind, hw _ m' hfit]
      | false => rfl
    refine ⟨fun e m' ⟨hp, _⟩ => ?_, fun s m' ⟨hp, _⟩ => ?_, ⟨?_, ?_⟩, fuel, ?_⟩
    · refine .of_eventually (.of_forall fun b => ?_) ((ih (hf.later hp)).evalExpr e)
      cases b <;> rfl
    · refine .of_eventually (.of_forall fun b => ?_) ((ih (hf.later hp)).evalStmt s)
      cases b <;> rfl
    · exact fun decl args _ m' _ hlt hp _ => hspell .call decl args m' (hf.call hlt hp)
    · exact fun decl args m' _ _ hp _ => hspell .close decl args m' (hf.later hp).close
    · exact .of_forall fun b => by cases b <;> rfl

theorem callValue_tooDeep (E : Evaluator) (pos : Pos) {callee : Value} {args : List Value}
    {arity : Arity} (hc : m.store.arity? callee = some arity) (ha : arity.accepts args.length = true)
    (hb : ∀ b, callee ≠ .builtin b) (hd : w.maxDepth ≤ m.frames.length) :
    E.callValue w pos callee args m = (Eval.fail w pos .tooDeep : Eval Value) m := by
  have hrecord : ∀ name run,
      Evaluator.onRecord w pos name run m = (Eval.fail w pos .tooDeep : Eval Value) m := by
    intro name run
    simp only [Evaluator.onRecord, Eval.look, Bind.bind, EStateM.bind, hd, if_true]
  simp only [Evaluator.callValue, Eval.view, Bind.bind, EStateM.bind, hc, ha, if_true]
  cases callee with
  | builtin b => exact absurd rfl (hb b)
  | spell r =>
    obtain ⟨f, hf, _⟩ := Option.map_eq_some_iff.1 hc
    simp only [Evaluator.activate, Evaluator.activation?, Eval.view, Bind.bind, EStateM.bind, hf,
      Option.map_some, hrecord]
  | method r =>
    obtain ⟨f, hf, _⟩ := Option.map_eq_some_iff.1 hc
    simp only [Evaluator.activate, Evaluator.activation?, Eval.view, Bind.bind, EStateM.bind, hf,
      Option.map_some, hrecord]
  | grimoire r =>
    simp only [Evaluator.activate, Evaluator.activation?, Eval.view, Bind.bind, EStateM.bind, hrecord]
  | none | bool | int | float | str | array | tuple | map | object | space | error | caught =>
    cases hc

theorem fail_message (w : World) (pos : Pos) (fault : Fault) (m : Machine) {α : Type} :
    ∃ r m', (Eval.fail w pos fault : Eval α) m = .error (.raised r) m' ∧
      (m'.store.failure r).message = fault.message := by
  refine ⟨_, _, rfl, ?_⟩
  simp only [Store.failure, Array.getD_eq_getD_getElem?, Array.getElem?_push_size,
    Option.getD_some, Failure.message]

/-- The spells under way are never more than the limit on calls and the resources that are being
closed: an observer is not heard that says nothing within these bounds. Where the calls on record
reach the limit, the next one fails. -/
theorem activations_bounded (w : World) (watch : List Start → Eval Unit)
    (hw : ∀ running m, running.length ≤ w.maxDepth + running.count .close →
      running.count .call ≤ m.frames.length → watch running m = .ok () m)
    (fuel : Nat) (p : Program) (scope : Ref .scope) (m : Machine) :
    (observed w watch fuel []).run p scope m = runProgram w fuel p scope m ∧
      ∀ (E : Evaluator) pos callee args arity (m : Machine), m.store.arity? callee = some arity →
        arity.accepts args.length = true → (∀ b, callee ≠ .builtin b) →
        w.maxDepth ≤ m.frames.length → ∃ r m',
          E.callValue w pos callee args m = .error (.raised r) m' ∧
            (m'.store.failure r).message = "maximum recursion depth exceeded" := by
  have hlength : ∀ running : List Start,
      running.length = running.count .call + running.count .close := by
    intro running
    induction running with
    | nil => rfl
    | cons start rest ih => cases start <;> simp [ih] <;> omega
  refine ⟨?_, fun E pos callee args arity m hc ha hb hd => ?_⟩
  · have hfits : ∀ running m, Fits w running m → watch running m = .ok () m := by
      intro running m hf
      have hlimit := hf.limit
      exact hw running m (by rw [hlength]; omega) hf.frames
    have hnone : Fits w [] m := ⟨Nat.zero_le _, Nat.zero_le _⟩
    obtain ⟨r, hr, _⟩ := Abides.agreed ((covers_observed hfits fuel hnone).run p scope) nofun
    have hsame := Filter.eventually_top.1 hr
    exact (hsame true).trans (hsame false).symm
  · rw [callValue_tooDeep E pos hc ha hb hd]
    exact fail_message w pos .tooDeep m

/-- An observer that ends the run at the first activation that is not allowed. -/
def warden (allowed : List Start → Bool) (running : List Start) : Eval Unit :=
  if allowed running then pure () else throw .outOfFuel

theorem warden_allowed {allowed : List Start → Bool} {running : List Start}
    (h : allowed running = true) (m : Machine) : warden allowed running m = .ok () m := by
  simp only [warden, h, if_true]
  rfl

def World.shallow : World := ⟨.none, ⟨"."⟩, 1, 8⟩

/-- A resource whose closing calls a spell. -/
def closingCall : Program :=
  let pos : Pos := ⟨1, 1⟩
  let f : SpellDecl := ⟨⟨"f", pos⟩, [], [.give pos none], false⟩
  let close : SpellDecl :=
    ⟨⟨"close", pos⟩, [], [.expr (.call pos (.name ⟨"f", pos⟩) [])], false⟩
  ⟨[.spell f, .grimoire ⟨⟨"R", pos⟩, none, none, [close], false⟩,
    .within pos (.call pos (.name ⟨"R", pos⟩) []) none [.ignore pos]]⟩

theorem activations_bounded_shallow :
    (observed .shallow (warden fun running => running.length ≤ 1 + running.count .close) 9 []).run
        closingCall Forest.outermost (.initial none) =
      runProgram .shallow 9 closingCall Forest.outermost (.initial none) := by
  exact (activations_bounded .shallow _ (fun _ m h _ => warden_allowed (decide_eq_true h) m) 9
    closingCall Forest.outermost (.initial none)).1

def succeeded {ε σ α : Type} : EStateM.Result ε σ α → Bool
  | .ok _ _ => true
  | .error _ _ => false

/-- The limit on calls alone does not bound the spells under way. -/
theorem not_activations_within_limit :
    ¬ ∀ (w : World) (watch : List Start → Eval Unit),
      (∀ running m, running.length ≤ w.maxDepth → watch running m = .ok () m) →
      ∀ fuel p scope m, (observed w watch fuel []).run p scope m = runProgram w fuel p scope m := by
  intro h
  have hsame := h .shallow (warden fun running => running.length ≤ 1)
    (fun _ m h => warden_allowed (decide_eq_true h) m) 9 closingCall Forest.outermost
    (.initial none)
  have hplain : succeeded (runProgram .shallow 9 closingCall Forest.outermost (.initial none)) :=
    by decide +kernel
  rw [← hsame] at hplain
  revert hplain
  decide +kernel

end Spellbook
