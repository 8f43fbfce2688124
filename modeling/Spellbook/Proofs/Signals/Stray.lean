import Spellbook.Proofs.Activation
import Spellbook.Proofs.Import.Record
import Spellbook.Proofs.Located
import Spellbook.Proofs.Signals.Containment

/-! Stray signals. A spell or a program that ends with a signal for a loop fails with a message of
its own. That takes a `stop` or a `skip` that stands in no loop: without one, runs are the same
whatever is done in the place of that failure. -/
namespace Spellbook

/-! Doing something else about stray signals -/

/-- What is done about a spell, and about a program, that ends with a signal for a loop. -/
structure Stray where
  spell : SpellDecl → Eval (Except Fault Value)
  program : Eval Value

namespace Evaluator

variable (E : Evaluator)

def bodyOr (stray : Eval (Except Fault Value)) (decl : SpellDecl) (args : List Value) :
    Eval (Except Fault Value) := do
  match ← E.bindParams decl.params args with
  | .error fault => return .error fault
  | .ok () =>
    match ← E.block decl.body with
    | .value v | .give v => return .ok v
    | .stop | .skip => stray

def runOr (stray : Eval Value) (p : Program) (scope : Ref .scope) : Eval Value := do
  match ← Eval.inScope scope (E.program p true) with
  | .value v | .give v => return v
  | .stop | .skip => stray

end Evaluator

def rerouted (w : World) (stray : Stray) : Nat → Evaluator
  | 0 => .spent
  | fuel + 1 =>
    ⟨fun e => (rerouted w stray fuel).evalExpr w e, fun s => (rerouted w stray fuel).evalStmt w s,
      fun _ decl args => (rerouted w stray fuel).bodyOr (stray.spell decl) decl args, fuel⟩

def Stray.failing (w : World) : Stray :=
  ⟨fun decl => Eval.fail w decl.name.pos .strayControl,
    Eval.raise (.plain Fault.strayControl.message)⟩

theorem rerouted_failing (w : World) (fuel : Nat) :
    rerouted w (.failing w) fuel = evaluator w fuel := by
  induction fuel with
  | zero => rfl
  | succ fuel ih =>
    simp only [rerouted, evaluator, ih]
    rfl

/-! Without loose signals there are no stray ones -/

theorem contains_rerouted (w : World) (stray : Stray) (fuel : Nat) (x : Signal) :
    (rerouted w stray fuel).Contains x := by
  induction fuel with
  | zero => exact fun _ _ => .throw _
  | succ fuel ih => exact fun s hs => Signal.NeverEnds.evalStmt ih hs

theorem Signal.NeverEnds.bind_congr {α : Type} {act : Eval Flow} {k k' : Flow → Eval α}
    (h : Signal.loop.NeverEnds act) (hk : ∀ flow, flow.isSignal .loop = false → k flow = k' flow) :
    (act >>= k) = act >>= k' := by
  funext m
  cases hr : act m with
  | ok flow m' => simp only [Bind.bind, EStateM.bind, hr, hk flow (h m flow m' hr)]
  | error e m' => simp only [Bind.bind, EStateM.bind, hr]

namespace Evaluator

variable {E : Evaluator}

theorem bodyOr_eq (hE : E.Contains .loop) (w : World) (stray : Eval (Except Fault Value))
    {decl : SpellDecl} (args : List Value) (hd : ∀ s ∈ decl.body, ¬ Signal.loop.Loose s) :
    E.bodyOr stray decl args = E.body w decl args := by
  unfold bodyOr body
  congr 1
  funext bound
  cases bound with
  | error fault => rfl
  | ok _ =>
    refine (Signal.NeverEnds.block hE hd).bind_congr fun flow hflow => ?_
    cases flow with
    | value v => rfl
    | give v => rfl
    | stop => cases hflow
    | skip => cases hflow

theorem runOr_eq (hE : E.Contains .loop) (stray : Eval Value) {p : Program} (scope : Ref .scope)
    (hp : ∀ s ∈ p.statements, ¬ Signal.loop.Loose s) :
    E.runOr stray p scope = E.run p scope := by
  have hprogram : Signal.loop.NeverEnds (Eval.inScope scope (E.program p true)) :=
    .inScope scope (Signal.NeverEnds.program hE true hp)
  refine hprogram.bind_congr fun flow hflow => ?_
  cases flow with
  | value v => rfl
  | give v => rfl
  | stop => cases hflow
  | skip => cases hflow

end Evaluator

/-! Programs without loose signals -/

/-- Every `stop` and `skip` of the program stands in the body of a loop, and in no spell inside that
body unless the loop is in the spell too. -/
structure Program.Enclosed (p : Program) : Prop where
  top : ∀ s ∈ p.statements, ¬ Signal.loop.Loose s
  spells : ∀ s, p.Has s → ∀ decl ∈ s.spells, ∀ t ∈ decl.body, ¬ Signal.loop.Loose t

/-- Programs whose signals are enclosed, with all that they import. -/
structure World.Sheltered (w : World) (T : Program → Prop) : Prop where
  enclosed : ∀ {q}, T q → q.Enclosed
  load : ∀ {q pos name binder source}, T q → q.Has (.load pos name binder) →
    w.Offers (w.locate name) source → T (parse source).program

def shelteredDemand (T : Program → Prop) : Demand :=
  ⟨fun decl => ∀ s ∈ decl.body, ¬ Signal.loop.Loose s ∧ ∃ q, T q ∧ q.Has s, fun _ => True, False⟩

structure Shelters {ι : Type} [Nonempty ι] (T : Program → Prop) (E : ι → Evaluator) (m : Machine)
    (w : World) : Prop where
  expr : ∀ e, ExprSettles (shelteredDemand T) ⊤ E m e
  stmt : ∀ s q, T q → q.Has s → StmtSettles (shelteredDemand T) ⊤ E m s
  spells : SpellsSettle (shelteredDemand T) ⊤ E m w
  turns : ∃ turns, ∀ i, (E i).turns = turns

namespace Shelters

variable {ι : Type} [Nonempty ι] {T : Program → Prop} {E : ι → Evaluator} {m : Machine} {w : World}

theorem evalExpr (h : Shelters T E m w) (e : Expr) (hm : m.store.Declares (shelteredDemand T)) :
    Settles (shelteredDemand T) ⊤ (fun i => (E i).evalExpr w e) m :=
  .evalExpr (fun e' _ => h.expr e') h.spells hm

theorem evalStmt (hT : w.Sheltered T) (h : ∀ m, Shelters T E m w) {s : Stmt} {q : Program}
    (hq : T q) (hs : q.Has s) (hm : m.store.Declares (shelteredDemand T)) :
    Settles (shelteredDemand T) ⊤ (fun i => (E i).evalStmt w s) m := by
  refine .evalStmt (fun e _ => (h m).expr e) (fun t ht => ?_) (h m).spells (fun decl hd => ⟨?_, ?_⟩)
    ?_ (fun _ => ⟨id, ?_⟩) hm
  · exact (h m).stmt t q hq (hs.inside (List.mem_append_left _ ht))
  · intro t ht
    have hinside : t ∈ s.children :=
      List.mem_append_right _ (List.mem_flatMap.2 ⟨decl, hd, ht⟩)
    exact ⟨(hT.enclosed hq).spells s hs decl hd t ht, q, hq, hs.inside hinside⟩
  · exact fun _ => trivial
  · rintro pos name binder rfl - source hread hclean m' - - t ht
    exact (h m').stmt t _ (hT.load hq hs ⟨hread, hclean⟩) (.top ht)
  · obtain ⟨turns, hturns⟩ := (h m).turns
    exact ⟨turns, .of_forall hturns⟩

theorem body (h : Shelters T E m w) {decl : SpellDecl} (args : List Value)
    (hd : (shelteredDemand T).spell decl) (hm : m.store.Declares (shelteredDemand T)) :
    Settles (shelteredDemand T) ⊤ (fun i => (E i).body w decl args) m := by
  refine .body (fun e _ => h.expr e) (fun s hs => ?_) args hm
  obtain ⟨_, q, hq, hhas⟩ := hd s hs
  exact h.stmt s q hq hhas

theorem run (h : Shelters T E m w) {p : Program} (hp : T p) (scope : Ref .scope)
    (hm : m.store.Declares (shelteredDemand T)) :
    Settles (shelteredDemand T) ⊤ (fun i => (E i).run p scope) m :=
  .run (fun s hs => h.stmt s p hp (.top hs)) scope hm

theorem spent (m : Machine) (w : World) : Shelters T (fun _ : ι => .spent) m w where
  expr _ _ h := .spent id h.2
  stmt _ _ _ _ _ h := .spent id h.2
  spells :=
    { call := fun _ _ _ _ _ _ _ hs => .spent id hs
      close := fun _ _ _ _ _ _ hs => .spent id hs }
  turns := ⟨0, fun _ => rfl⟩

end Shelters

variable {w : World} {T : Program → Prop}

theorem shelters_rerouted (hT : w.Sheltered T) (stray : Stray) (fuel : Nat) (m : Machine) :
    Shelters T (abreast (rerouted w stray fuel) (evaluator w fuel)) m w := by
  induction fuel generalizing m with
  | zero => exact abreast_self .spent ▸ .spent m w
  | succ fuel ih =>
    have hspell : ∀ start decl args m', (shelteredDemand T).spell decl →
        m'.store.Declares (shelteredDemand T) → Settles (shelteredDemand T) ⊤ (fun b =>
          (abreast (rerouted w stray (fuel + 1)) (evaluator w (fuel + 1)) b).spell start decl
            args) m' := by
      intro start decl args m' hd hs
      refine .of_eventually (.of_forall fun b => ?_) ((ih m').body args hd hs)
      cases b with
      | true =>
        have hcontains := contains_rerouted w stray fuel .loop
        exact Evaluator.bodyOr_eq hcontains w _ args fun s hmem => (hd s hmem).1
      | false => rfl
    refine ⟨fun e m' ⟨_, hs⟩ => ?_, fun s q hq hhas m' ⟨_, hs⟩ => ?_, ⟨?_, ?_⟩, fuel, ?_⟩
    · refine .of_eventually (.of_forall fun b => ?_) ((ih m').evalExpr e hs)
      cases b <;> rfl
    · refine .of_eventually (.of_forall fun b => ?_) (Shelters.evalStmt hT ih hq hhas hs)
      cases b <;> rfl
    · exact fun decl args _ m' hd _ _ hs => hspell .call decl args m' hd hs
    · exact fun decl args m' hd _ _ hs => hspell .close decl args m' hd hs
    · intro b
      cases b <;> rfl

/-- A program that is enclosed with all that it imports runs the same whatever is done about stray
signals, and leaves no other spells behind than those of such programs. -/
theorem World.Sheltered.run (hT : w.Sheltered T) (stray : Stray) (fuel : Nat) {p : Program}
    (hp : T p) (scope : Ref .scope) {m : Machine} (hm : m.store.Declares (shelteredDemand T)) :
    (rerouted w stray fuel).runOr stray.program p scope m = runProgram w fuel p scope m ∧
      (endState (runProgram w fuel p scope m)).store.Declares (shelteredDemand T) := by
  obtain ⟨r, hr, ho⟩ := Abides.agreed ((shelters_rerouted hT stray fuel m).run hp scope hm) nofun
  have hsame := Filter.eventually_top.1 hr
  have hplain : runProgram w fuel p scope m = r := hsame false
  rw [Evaluator.runOr_eq (contains_rerouted w stray fuel .loop) _ scope (hT.enclosed hp).top, hplain]
  exact ⟨hsame true, ho.goes.leads⟩

/-! Sessions -/

/-- The session has run these texts in the world. -/
inductive Session.Ran (w : World) : Session → List String → Prop where
  | start (file : Option String) : Ran w (.start w file) []
  | setFile {s : Session} {texts : List String} (file : String) :
      Ran w s texts → Ran w (s.setFile file) texts
  | scopeNamed {s : Session} {texts : List String} (name : String) :
      Ran w s texts → Ran w (s.scopeNamed name).2 texts
  | runText {s : Session} {texts : List String} (source : String) (scope : Ref .scope) :
      Ran w s texts → Ran w (s.runText source scope).2 (source :: texts)

theorem Session.Ran.world_eq {s : Session} {texts : List String} (hs : s.Ran w texts) :
    s.world = w := by
  induction hs with
  | start file => rfl
  | setFile file _ ih => exact ih
  | scopeNamed name _ ih =>
    unfold Session.scopeNamed
    split <;> exact ih
  | @runText s _ source scope _ ih =>
    unfold Session.runText Session.run
    dsimp only
    split
    · split <;> exact ih
    · exact ih

theorem Session.Ran.declares {s : Session} {texts : List String} (hs : s.Ran w texts)
    (hT : w.Sheltered T) (htexts : ∀ t ∈ texts, T (parse t).program) :
    s.machine.store.Declares (shelteredDemand T) := by
  induction hs with
  | start file => exact Store.declares_initial _
  | setFile file _ ih => exact ih htexts
  | scopeNamed name _ ih =>
    unfold Session.scopeNamed
    split
    · exact ih htexts
    · exact (ih htexts).of_eq rfl
  | @runText s _ source scope hs ih =>
    obtain ⟨hsource, hrest⟩ := List.forall_mem_cons.1 htexts
    unfold Session.runText
    dsimp only
    split
    · rw [Session.run_machine, hs.world_eq]
      exact (hT.run (.failing w) fuelLimit hsource scope (m := s.ready) (ih hrest)).2
    · exact ih hrest

/-- Statements in which no signal is loose never end with one, whatever state they are run in. So
what is done about a stray `stop` or `skip` makes no difference to a text, if none is loose in it, in
the texts that the session has run before, in what they import, and in the spells of all these. -/
theorem signals_contained (w : World) :
    (∀ (x : Signal) fuel last body m flow m', (∀ s ∈ body, ¬ x.Loose s) →
      (evaluator w fuel).blockAfter last body m = .ok flow m' → flow.isSignal x = false) ∧
    ∀ (s : Session) texts, s.Ran w texts → ∀ source scope,
      (∀ t ∈ source :: texts, ∀ q, (parse t).program.Reaches w q → q.Enclosed) →
      ∀ stray fuel,
        (rerouted w stray fuel).runOr stray.program (parse source).program scope s.ready =
          runProgram w fuel (parse source).program scope s.ready := by
  refine ⟨fun x fuel last body m flow m' hbody h => ?_, fun s texts hs source scope henclosed => ?_⟩
  · rw [← rerouted_failing] at h
    have hcontains := contains_rerouted w (.failing w) fuel x
    exact Signal.NeverEnds.blockAfter hcontains last hbody m flow m' h
  · intro stray fuel
    let T : Program → Prop := fun q => ∃ t ∈ source :: texts, (parse t).program.Reaches w q
    have hT : w.Sheltered T := by
      refine ⟨fun ⟨t, ht, hq⟩ => henclosed t ht _ hq, fun ⟨t, ht, hq⟩ hhas hoffers => ?_⟩
      exact ⟨t, ht, hq.load hhas hoffers.1 hoffers.2⟩
    have hknown : ∀ t ∈ texts, T (parse t).program :=
      fun t ht => ⟨t, List.mem_cons_of_mem _ ht, .self⟩
    have hsource : T (parse source).program := ⟨source, List.mem_cons_self, .self⟩
    exact (hT.run stray fuel hsource scope (m := s.ready) (hs.declares hT hknown)).1

/-! A text with signals of all kinds -/

def Code.isEnclosed : Code → Bool
  | .spell decl => decl.body.all fun s => decide (¬ Signal.loop.Loose s)
  | _ => true

theorem Program.enclosed_of_within {p : Program} (depth : Nat)
    (h : (∀ s ∈ p.statements, ¬ Signal.loop.Loose s) ∧
      passesWithin Code.isEnclosed depth p.statements = true) : p.Enclosed := by
  refine ⟨h.1, fun s hs decl hd t ht => ?_⟩
  have hcode : p.HasCode (.spell decl) := ⟨s, hs, hd⟩
  exact of_decide_eq_true (List.all_eq_true.1 (hcode.passes Code.isEnclosed depth h.2) t ht)

/-- One signal ends a turn of the loop around it, and another one the call. -/
def signalling : String :=
  "spell f():\n    for x in [1, 2]:\n        if x < 2:\n            skip\n        return x\nf()\n"

/-- What comes after the last turn ends no turn. -/
def strayStop : String := "for x in []:\n    ignore\nelse:\n    stop\n"

def Stray.ending : Stray := ⟨fun _ => throw .outOfFuel, throw .outOfFuel⟩

def valueOf? {α : Type} : EStateM.Result Halt Machine α → Option α
  | .ok v _ => some v
  | .error _ _ => none

def Outcome.failure? : Outcome → Option Failure
  | .failed f => some f
  | _ => none

/-- The signals of the first text stay in their loop and their call, and so nothing comes of doing
something else about stray ones. The stray signal of the second text is a failure. -/
theorem signals_contained_signalling :
    ((rerouted .shallow .ending 12).runOr Stray.ending.program (parse signalling).program
        Forest.outermost (Session.start .shallow none).ready =
      runProgram .shallow 12 (parse signalling).program Forest.outermost
        (Session.start .shallow none).ready) ∧
    valueOf? (runProgram .shallow 12 (parse signalling).program Forest.outermost
      (Session.start .shallow none).ready) = some (.int 2) ∧
    (∃ s ∈ (parse strayStop).program.statements, Signal.loop.Loose s) ∧
    (run .shallow strayStop).1.failure?.map Failure.message =
      some "stop or skip used outside of a loop" := by
  have henclosed : (parse signalling).program.Enclosed :=
    Program.enclosed_of_within 4 (by decide +kernel)
  have hreached : ∀ t ∈ [signalling], ∀ q, (parse t).program.Reaches .shallow q → q.Enclosed := by
    intro t ht q hq
    obtain rfl := List.mem_singleton.1 ht
    cases hq with
    | self => exact henclosed
    | load _ _ hread _ => cases hread
  refine ⟨?_, by decide +kernel, by decide +kernel, by decide +kernel⟩
  exact (signals_contained .shallow).2 _ [] (.start none) signalling Forest.outermost hreached
    .ending 12

end Spellbook
