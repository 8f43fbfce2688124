import Spellbook.Proofs.Bookkeeping
import Spellbook.Proofs.Import.Effect
import Spellbook.Proofs.Termination

/-! Which files are on record as imported. A file goes on record when its statements are about to
run, and nothing takes it off: so an import that fails later has left it there, and the next one does
nothing. An import that fails before that leaves no trace. -/
namespace Spellbook

def World.locate (w : World) (name : String) : Path := (Import.ofText name).locate w.files w.base

/-- There is a text to import under the path, and it has no errors. -/
def World.Offers (w : World) (path : Path) (source : String) : Prop :=
  w.files.read path = .ok source ∧ (parse source).diagnostics = []

def importsAfter {α : Type} (r : EStateM.Result Halt Machine α) : List Path := (endState r).imported

theorem importsAfter_bind {α β : Type} {x : Eval α} {k : α → Eval β} {m : Machine}
    (h : ∀ a m', importsAfter (k a m') = m'.imported) :
    importsAfter ((x >>= k) m) = importsAfter (x m) := by
  cases hx : x m with
  | ok a m' =>
    simp only [Bind.bind, EStateM.bind, hx, h]
    rfl
  | error e m' =>
    simp only [Bind.bind, EStateM.bind, hx]
    rfl

def Machine.leaving (m' m : Machine) : Machine :=
  { m' with scope := m.scope, owner := m.owner, file := m.file }

namespace Evaluator

variable {w : World} {E : Evaluator} {m : Machine} {pos : Pos} {name : String}
  {binder : Option Ident} {path : Path} {source : String}

/-! What an import does -/

theorem load_before (h : (w.locate name).isAmong m.imported = true) :
    E.load w pos name binder m = .ok () m := by
  simp only [World.locate] at h
  simp only [load, Eval.look, Bind.bind, EStateM.bind, h, if_true]
  rfl

theorem load_fresh (h : (w.locate name).isAmong m.imported = false) :
    E.load w pos name binder m = (do
      let scope ← E.loadModule w pos name (w.locate name)
      bindImport w pos name (Import.ofText name).grimoire binder scope) m := by
  simp only [World.locate] at h ⊢
  simp only [load, Eval.look, Bind.bind, EStateM.bind, h, Bool.false_eq_true, if_false]

theorem loadModule_refused (w : World) (pos : Pos) (name : String)
    (h : ∀ source, ¬ w.Offers path source) :
    ∃ f : Machine → Failure, ∀ (E : Evaluator) m,
      E.loadModule w pos name path m = Eval.raise (f m) m := by
  cases hread : w.files.read path with
  | error e =>
    simp only [loadModule, hread]
    exact ⟨_, fun _ _ => rfl⟩
  | ok source =>
    cases hclean : (parse source).diagnostics with
    | nil => exact absurd ⟨hread, hclean⟩ (h source)
    | cons d rest =>
      simp only [loadModule, hread, hclean]
      exact ⟨_, fun _ _ => rfl⟩

theorem loadModule_offered (h : w.Offers path source) :
    E.loadModule w pos name path = E.runModule w pos name path (parse source).program := by
  simp only [loadModule, h.1, h.2]

def concludeModule (w : World) (pos : Pos) (name : String) (m : Machine) :
    EStateM.Result Halt Machine Flow → EStateM.Result Halt Machine (Ref .scope)
  | .ok _ m' => .ok (m.store.scopes.push m.scope).1 (m'.leaving m)
  | .error (.raised r) m' =>
    loadFailure w pos ("error while importing '" ++ name ++ "'") (some (m'.store.failure r)) []
      (m'.leaving m)
  | .error .outOfFuel m' => .error .outOfFuel (m'.leaving m)

/-- A module is run by running its statements once, in a state in which it is on record. -/
theorem runModule_eq (E : Evaluator) (p : Program) :
    E.runModule w pos name path p m =
      concludeModule w pos name m (E.program p false (m.entering path)) := by
  simp only [runModule, Eval.look, Eval.push, Eval.create, Eval.caught, Eval.inFile,
    Eval.inScope, Eval.ownedBy, Eval.bracket, Bind.bind, EStateM.bind, Eval.modify_eq]
  unfold Machine.entering
  cases E.program p false _ with
  | ok flow m' => rfl
  | error e m' => cases e <;> rfl

/-! The files on record after it -/

theorem importsAfter_bindGrimoires (all : List (String × Value)) (m : Machine) :
    importsAfter (bindGrimoires all m) = m.imported := by
  rw [bindGrimoires_eq]
  exact Machine.imported_defineAll _ _

theorem importsAfter_bindImport (g : Option String) (scope : Ref .scope) :
    importsAfter (bindImport w pos name g binder scope m) = m.imported := by
  cases g with
  | none =>
    cases binder with
    | none => exact importsAfter_bindGrimoires _ m
    | some id => rfl
  | some g =>
    simp only [bindImport, Bind.bind, EStateM.bind, Eval.view]
    cases m.store.scopes.getLocal? scope g with
    | none => rfl
    | some v => cases v <;> rfl

theorem importsAfter_concludeModule (r : EStateM.Result Halt Machine Flow) :
    importsAfter (concludeModule w pos name m r) = importsAfter r := by
  cases r with
  | ok flow m' => rfl
  | error e m' => cases e <;> rfl

theorem importsAfter_load (E : Evaluator) (hfresh : (w.locate name).isAmong m.imported = false)
    (h : w.Offers (w.locate name) source) :
    importsAfter (E.load w pos name binder m) =
      importsAfter (E.program (parse source).program false (m.entering (w.locate name))) := by
  calc importsAfter (E.load w pos name binder m)
      = importsAfter (E.loadModule w pos name (w.locate name) m) := by
        rw [load_fresh hfresh]
        exact importsAfter_bind fun scope m' => importsAfter_bindImport _ scope
    _ = importsAfter (E.program (parse source).program false (m.entering (w.locate name))) := by
        rw [loadModule_offered h, runModule_eq, importsAfter_concludeModule]

theorem load_refused (E : Evaluator) (pos : Pos) (binder : Option Ident)
    (hfresh : (w.locate name).isAmong m.imported = false)
    (h : ∀ source, ¬ w.Offers (w.locate name) source) :
    ∃ r n, E.load w pos name binder m = .error (.raised r) n ∧ n.imported = m.imported := by
  obtain ⟨f, hf⟩ := loadModule_refused w pos name h
  rw [load_fresh hfresh]
  simp only [Bind.bind, EStateM.bind, hf]
  exact ⟨_, _, rfl, rfl⟩

end Evaluator

theorem suffix_importsAfter_program (w : World) (fuel : Nat) (p : Program) (runMain : Bool)
    (m : Machine) : m.imported <:+ importsAfter ((evaluator w fuel).program p runMain m) :=
  have hstmts := fun s (_ : s ∈ p.statements) => (covers_evaluator w fuel m).stmt s
  (Settles.keeps (.program hstmts runMain m.store.declares_any)).imported

theorem Evaluator.stmt_load_before {w : World} {name : String} {m : Machine}
    (h : (w.locate name).isAmong m.imported = true) (fuel : Nat) (pos : Pos)
    (binder : Option Ident) :
    (evaluator w (fuel + 1)).stmt (.load pos name binder) m = .ok (.value .none) m := by
  change (((evaluator w fuel).load w pos name binder) >>= fun _ => pure Evaluator.done) m = _
  simp only [Bind.bind, EStateM.bind, Evaluator.load_before h]
  rfl

theorem Evaluator.importsAfter_stmt_load {w : World} {name : String} {m : Machine} (fuel : Nat)
    (pos : Pos) (binder : Option Ident) :
    importsAfter ((evaluator w (fuel + 1)).stmt (.load pos name binder) m) =
      importsAfter ((evaluator w fuel).load w pos name binder m) :=
  importsAfter_bind fun _ _ => rfl

/-! Imports that fail -/

/-- An import that fails is one of a file that was not on record. If there was a text to run, the
file is on record from then on, and no import of it, under whatever name and by whatever form, does
anything any more. If there was none, the file is not on record, and an import of it fails again. -/
theorem failed_imports_remembered (w : World) (fuel : Nat) (pos : Pos) (name : String)
    (binder : Option Ident) (m m' : Machine) (r : Ref .failure)
    (h : (evaluator w fuel).stmt (.load pos name binder) m = .error (.raised r) m') :
    (w.locate name).isAmong m.imported = false ∧
    (∀ source, w.Offers (w.locate name) source → w.locate name ∈ m'.imported ∧
      ∀ n, m'.imported <:+ n.imported → ∀ fuel pos name' binder, w.locate name' = w.locate name →
        (evaluator w (fuel + 1)).stmt (.load pos name' binder) n = .ok (.value .none) n) ∧
    ((∀ source, ¬ w.Offers (w.locate name) source) → m'.imported = m.imported ∧
      ∀ n, (w.locate name).isAmong n.imported = false → ∀ fuel pos name' binder,
        w.locate name' = w.locate name → ∃ r n',
          (evaluator w (fuel + 1)).stmt (.load pos name' binder) n = .error (.raised r) n' ∧
            n'.imported = n.imported) := by
  cases fuel with
  | zero => cases h
  | succ fuel =>
    have hrecord : m'.imported = importsAfter ((evaluator w fuel).load w pos name binder m) := by
      rw [← Evaluator.importsAfter_stmt_load, h]
      rfl
    have hfresh : (w.locate name).isAmong m.imported = false := by
      refine Bool.eq_false_iff.2 fun hbefore => ?_
      rw [Evaluator.stmt_load_before hbefore] at h
      cases h
    refine ⟨hfresh, fun source hsource => ?_, fun hnone => ⟨?_, ?_⟩⟩
    · have hmem : w.locate name ∈ m'.imported := by
        rw [hrecord, Evaluator.importsAfter_load _ hfresh hsource]
        exact (suffix_importsAfter_program w fuel _ false _).subset List.mem_cons_self
      refine ⟨hmem, fun n hn fuel pos name' binder hname => ?_⟩
      refine Evaluator.stmt_load_before ?_ fuel pos binder
      rw [hname]
      exact Machine.isAmong_mono hn (Path.isAmong_of_mem hmem)
    · obtain ⟨_, n, hload, hn⟩ :=
        Evaluator.load_refused (evaluator w fuel) pos binder hfresh hnone
      rw [hrecord, hload]
      exact hn
    · intro n hnew fuel pos name' binder hname
      rw [← hname] at hnew hnone
      obtain ⟨r, n', hload, hn⟩ :=
        Evaluator.load_refused (evaluator w fuel) pos binder hnew hnone
      refine ⟨r, n', ?_, hn⟩
      change ((evaluator w fuel).load w pos name' binder >>= fun _ => pure Evaluator.done) n = _
      simp only [Bind.bind, EStateM.bind, hload]

def World.faulty : World :=
  ⟨Snapshot.files ⟨[], [(⟨"./lib.crl"⟩, .ok "x = 1 / 0\n")]⟩, ⟨"."⟩, 3, 8⟩

def hasRaised {α : Type} : EStateM.Result Halt Machine α → Bool
  | .error (.raised _) _ => true
  | _ => false

theorem importFaulty_raises : ∃ r m',
    (evaluator .faulty 6).stmt (.load ⟨1, 1⟩ "lib" none) (.initial none) =
      .error (.raised r) m' := by
  have hraised : hasRaised
      ((evaluator .faulty 6).stmt (.load ⟨1, 1⟩ "lib" none) (.initial none)) = true := by
    decide +kernel
  cases hrun : (evaluator .faulty 6).stmt (.load ⟨1, 1⟩ "lib" none) (.initial none) with
  | ok flow m' =>
    rw [hrun] at hraised
    cases hraised
  | error e m' =>
    cases e with
    | raised r => exact ⟨r, m', rfl⟩
    | outOfFuel =>
      rw [hrun] at hraised
      cases hraised

theorem offers_faulty : World.faulty.Offers (World.faulty.locate "lib") "x = 1 / 0\n" :=
  ⟨rfl, by decide +kernel⟩

/-- The module has failed, and an import that gives it a name binds nothing. -/
theorem failed_imports_remembered_faulty : ∃ r m',
    (evaluator .faulty 6).stmt (.load ⟨1, 1⟩ "lib" none) (.initial none) =
      .error (.raised r) m' ∧
    ∀ fuel pos id, (evaluator .faulty (fuel + 1)).stmt (.load pos "lib.crl" (some id)) m' =
      .ok (.value .none) m' := by
  obtain ⟨r, m', hraised⟩ := importFaulty_raises
  have h := (failed_imports_remembered _ _ _ _ _ _ _ _ hraised).2.1 _ offers_faulty
  exact ⟨r, m', hraised, fun fuel pos id => h.2 m' List.suffix_rfl fuel pos "lib.crl" (some id) rfl⟩

/-- A file whose import has failed may be on record. -/
theorem not_failed_imports_forgotten :
    ¬ ∀ (w : World) (fuel : Nat) (pos : Pos) (name : String) (binder : Option Ident)
      (m m' : Machine) (r : Ref .failure),
      (evaluator w fuel).stmt (.load pos name binder) m = .error (.raised r) m' →
      (w.locate name).isAmong m'.imported = false := by
  intro h
  obtain ⟨r, m', hraised⟩ := importFaulty_raises
  have hforgotten := h _ _ _ _ _ _ _ _ hraised
  have hrecord : (World.faulty.locate "lib").isAmong
      (importsAfter ((evaluator .faulty 6).stmt (.load ⟨1, 1⟩ "lib" none) (.initial none))) =
        true := by
    decide +kernel
  rw [hraised] at hrecord
  exact Bool.false_ne_true (hforgotten.symm.trans hrecord)

end Spellbook
