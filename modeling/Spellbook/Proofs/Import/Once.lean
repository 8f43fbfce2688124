import Mathlib.Data.List.TakeWhile
import Spellbook.Proofs.Activation
import Spellbook.Proofs.Import.Record
import Spellbook.Proofs.Located

/-! The statements of a file are run at most once in a session. They are started when the file goes
on record, no file goes on record twice, and once it is there the session takes the same course
whatever the text of the file is. -/
namespace Spellbook

/-! Forms of an import -/

namespace Import

variable {c : Char} {before last stem suffix : List Char}

theorem ne_of_mem_reverse (h : c ∉ last) : ∀ x ∈ last.reverse, (x != c) = true :=
  fun _ hx => bne_iff_ne.2 fun heq => h (heq ▸ List.mem_reverse.1 hx)

theorem splitLast?_append (h : c ∉ last) :
    splitLast? c (before ++ c :: last) = some (before, last) := by
  have hlast := ne_of_mem_reverse h
  simp [splitLast?, List.takeWhile_append_of_pos hlast, List.dropWhile_append_of_pos hlast]

theorem splitLast?_absent (h : c ∉ last) : splitLast? c last = none := by
  simp only [splitLast?, List.dropWhile_eq_nil_iff.2 (ne_of_mem_reverse h)]

/-- The text can stand before the name of a file: it is empty, or ends with a slash. -/
def IsDirectory (dir : String) : Prop := dir = "" ∨ ∃ d, dir = d ++ "/"

theorem splitDirectory_append {dir : String} (hdir : IsDirectory dir) (h : '/' ∉ last) :
    splitDirectory (dir.toList ++ last) = (dir.toList, last) := by
  rcases hdir with rfl | ⟨d, rfl⟩
  · simp [splitDirectory, splitLast?_absent h]
  · have hsplit : (d ++ "/").toList ++ last = d.toList ++ '/' :: last := by simp
    simp only [splitDirectory, hsplit, splitLast?_append h]
    simp

theorem splitName_bare (h : '.' ∉ stem) : splitName stem = (stem, none) := by
  simp only [splitName, splitLast?_absent h]

theorem splitName_dotted (hstem : stem ≠ []) (h : '.' ∉ suffix) :
    (splitName (stem ++ '.' :: suffix)).1 = stem := by
  simp only [splitName, splitLast?_append h, hstem, if_false]
  split <;> rfl

/-- The text has neither dots nor slashes. -/
def IsBare (name : String) : Prop := '.' ∉ name.toList ∧ '/' ∉ name.toList

theorem file_bare {dir stem : String} (hdir : IsDirectory dir) (hstem : IsBare stem) :
    (ofText (dir ++ stem)).file = ⟨dir ++ stem ++ "." ++ sourceExtension⟩ := by
  simp only [ofText, String.toList_append, splitDirectory_append hdir hstem.2,
    splitName_bare hstem.1, String.ofList_toList]

theorem file_dotted {dir stem suffix : String} (hdir : IsDirectory dir) (hne : stem ≠ "")
    (hstem : IsBare stem) (hsuffix : IsBare suffix) :
    (ofText (dir ++ stem ++ "." ++ suffix)).file = ⟨dir ++ stem ++ "." ++ sourceExtension⟩ := by
  have hslash : '/' ∉ stem.toList ++ '.' :: suffix.toList := by
    simp [hstem.2, hsuffix.2]
  have hsplit : (dir ++ stem ++ "." ++ suffix).toList =
      dir.toList ++ (stem.toList ++ '.' :: suffix.toList) := by
    simp
  have hname : (splitName (stem.toList ++ '.' :: suffix.toList)).1 = stem.toList :=
    splitName_dotted (by simpa using hne) hsuffix.1
  simp only [ofText, hsplit, splitDirectory_append hdir hslash, hname, String.ofList_toList]

end Import

theorem World.locate_dotted (w : World) {dir stem suffix : String} (hdir : Import.IsDirectory dir)
    (hne : stem ≠ "") (hstem : Import.IsBare stem) (hsuffix : Import.IsBare suffix) :
    w.locate (dir ++ stem ++ "." ++ suffix) = w.locate (dir ++ stem) := by
  simp only [locate, Import.locate, Import.file_dotted hdir hne hstem hsuffix,
    Import.file_bare hdir hstem]

/-! What an import does with the evaluator -/

/-- An import of a new file depends on the evaluator only by what the statements of the file do in a
state in which the file is on record. -/
theorem Evaluator.load_congr {w : World} {E E' : Evaluator} {pos : Pos} {name : String}
    {binder : Option Ident} {m : Machine} (hfresh : (w.locate name).isAmong m.imported = false)
    (h : ∀ source, w.Offers (w.locate name) source →
      E.program (parse source).program false (m.entering (w.locate name)) =
        E'.program (parse source).program false (m.entering (w.locate name))) :
    E.load w pos name binder m = E'.load w pos name binder m := by
  have hmodule : E.loadModule w pos name (w.locate name) m =
      E'.loadModule w pos name (w.locate name) m := by
    by_cases hoffers : ∃ source, w.Offers (w.locate name) source
    · obtain ⟨source, hsource⟩ := hoffers
      rw [loadModule_offered hsource, loadModule_offered hsource, runModule_eq, runModule_eq,
        h source hsource]
    · obtain ⟨f, hf⟩ := loadModule_refused w pos name fun source hs => hoffers ⟨source, hs⟩
      rw [hf, hf]
  rw [load_fresh hfresh, load_fresh hfresh]
  simp only [Bind.bind, EStateM.bind, hmodule]

/-! Worlds that differ in one file -/

/-- The world with something else in the place of one file. -/
def World.rewritten (w : World) (path : Path) (text : Except ReadError String) : World :=
  { w with files := { w.files with
      read := fun q => if q.same path then text else w.files.read q } }

theorem Path.same_eq_false {p q : Path} {paths : List Path} (hp : p.isAmong paths = false)
    (hq : q.isAmong paths = true) : p.same q = false := by
  refine Bool.eq_false_iff.2 fun hsame => ?_
  have hparts : p.parts = q.parts := eq_of_beq hsame
  have heq : p.same = q.same := funext fun r => by simp only [same, hparts]
  rw [isAmong, heq] at hp
  exact Bool.false_ne_true (hp.symm.trans hq)

namespace Evaluator

variable {path : Path} {text : Except ReadError String} {m : Machine}

/-- Imports look at no file that is on record. -/
theorem load_rewritten (w : World) (E : Evaluator) (pos : Pos) (name : String)
    (binder : Option Ident) (h : path.isAmong m.imported = true) :
    E.load (w.rewritten path text) pos name binder m = E.load w pos name binder m := by
  have hlocate : (w.rewritten path text).locate name = w.locate name := rfl
  cases hnew : (w.locate name).isAmong m.imported with
  | true => rw [load_before hnew, load_before (hlocate ▸ hnew)]
  | false =>
    have hread : (w.rewritten path text).files.read (w.locate name) =
        w.files.read (w.locate name) := by
      simp only [World.rewritten, Path.same_eq_false hnew h, Bool.false_eq_true, if_false]
    have hmodule : E.loadModule (w.rewritten path text) pos name (w.locate name) =
        E.loadModule w pos name (w.locate name) := by
      simp only [loadModule, hread]
      rfl
    rw [load_fresh hnew, load_fresh (hlocate ▸ hnew), hlocate, hmodule]
    rfl

theorem turnOver_rewritten (w : World) (E : Evaluator) (pattern : Pattern) (body : List Stmt)
    (otherwise : Option (List Stmt)) (values : List Value) :
    E.turnOver (w.rewritten path text) pattern body otherwise values =
      E.turnOver w pattern body otherwise values := by
  induction values with
  | nil => rfl
  | cons v rest ih =>
    simp only [turnOver, ih]
    rfl

theorem evalStmt_rewritten (w : World) (E : Evaluator) (s : Stmt)
    (h : path.isAmong m.imported = true) :
    E.evalStmt (w.rewritten path text) s m = E.evalStmt w s m := by
  cases s with
  | load pos name binder =>
    simp only [evalStmt, Bind.bind, EStateM.bind, load_rewritten w E pos name binder h]
  | each pos pattern iterable body otherwise =>
    simp only [evalStmt, iterate, turnOver_rewritten]
    rfl
  | give pos value => cases value <;> rfl
  | _ => rfl

end Evaluator

theorem covers_rewritten (w : World) {path : Path} (text : Except ReadError String) (fuel : Nat)
    {m : Machine} (h : path.isAmong m.imported = true) :
    Covers ⊤ (abreast (evaluator (w.rewritten path text) fuel) (evaluator w fuel)) m w := by
  induction fuel generalizing m with
  | zero => exact abreast_self .spent ▸ .spent m w
  | succ fuel ih =>
    have hlater : ∀ {m' : Machine}, m.imported <:+ m'.imported → path.isAmong m'.imported = true :=
      fun hp => Machine.isAmong_mono hp h
    have hspell : ∀ start decl args m', m.imported <:+ m'.imported → Settles .any ⊤ (fun b =>
        (abreast (evaluator (w.rewritten path text) (fuel + 1)) (evaluator w (fuel + 1)) b).spell
          start decl args) m' := by
      intro start decl args m' hp
      refine .of_eventually (.of_forall fun b => ?_) ((ih (hlater hp)).body decl args)
      cases b <;> rfl
    refine ⟨fun e m' ⟨hp, _⟩ => ?_, fun s m' ⟨hp, _⟩ => ?_, ⟨?_, ?_⟩, fuel, ?_⟩
    · refine .of_eventually (.of_forall fun b => ?_) ((ih (hlater hp.imported)).evalExpr e)
      cases b <;> rfl
    · refine .of_eq m'.store.declares_any (fun b => ?_) ((ih (hlater hp.imported)).evalStmt s)
      cases b with
      | true => exact Evaluator.evalStmt_rewritten w _ s (hlater hp.imported)
      | false => rfl
    · exact fun decl args _ m' _ _ hp _ => hspell .call decl args m' hp.imported
    · exact fun decl args m' _ _ hp _ => hspell .close decl args m' hp.imported
    · exact .of_forall fun b => by cases b <;> rfl

/-! Once -/

/-- What becomes of the record: nothing is taken off, no file goes on it twice, and the texts of the
files on it make no difference. -/
structure StartsOnce {α : Type} (x : World → Eval α) (w : World) (m : Machine) : Prop where
  kept : m.imported <:+ importsAfter (x w m)
  distinct : Path.Distinct m.imported → Path.Distinct (importsAfter (x w m))
  unread : ∀ path text, path.isAmong m.imported = true → x (w.rewritten path text) m = x w m

theorem Settles.agree {α : Type} [Bearing α] {x : Bool → Eval α} {m : Machine}
    (h : Settles .any ⊤ x m) : x true m = x false m := by
  obtain ⟨r, hr, _⟩ := Abides.agreed h nofun
  have hsame := Filter.eventually_top.1 hr
  exact (hsame true).trans (hsame false).symm

theorem startsOnce {α : Type} [Bearing α] {x : World → Eval α} {w : World} {m : Machine}
    (hx : Settles .any (⊤ : Filter Unit) (fun _ => x w) m)
    (hr : ∀ path text, path.isAmong m.imported = true → x (w.rewritten path text) m = x w m) :
    StartsOnce x w m :=
  have hstays := (Abides.allows hx).goes.stays
  ⟨hstays.imported, hstays.distinct, hr⟩

theorem startsOnce_expr (w : World) (fuel : Nat) (m : Machine) (e : Expr) :
    StartsOnce (fun w => (evaluator w fuel).expr e) w m :=
  startsOnce ((covers_evaluator w fuel m).expr e ⟨.refl m, m.store.declares_any⟩)
    fun _ text h =>
      Settles.agree ((covers_rewritten w text fuel h).expr e ⟨.refl m, m.store.declares_any⟩)

theorem startsOnce_stmt (w : World) (fuel : Nat) (m : Machine) (s : Stmt) :
    StartsOnce (fun w => (evaluator w fuel).stmt s) w m :=
  startsOnce ((covers_evaluator w fuel m).stmt s ⟨.refl m, m.store.declares_any⟩)
    fun _ text h =>
      Settles.agree ((covers_rewritten w text fuel h).stmt s ⟨.refl m, m.store.declares_any⟩)

theorem startsOnce_run (w : World) (fuel : Nat) (m : Machine) (p : Program) (scope : Ref .scope) :
    StartsOnce (fun w => runProgram w fuel p scope) w m :=
  startsOnce ((covers_evaluator w fuel m).run p scope)
    fun _ text h => Settles.agree ((covers_rewritten w text fuel h).run p scope)

namespace Session

theorem Reached.distinct {s : Session} (hs : s.Reached) : Path.Distinct s.machine.imported := by
  induction hs with
  | start w file => exact .nil
  | world w _ ih => exact ih
  | setFile file _ ih => exact ih
  | scopeNamed name _ ih =>
    unfold Session.scopeNamed
    split <;> exact ih
  | @runText s source scope _ ih =>
    unfold Session.runText
    dsimp only
    split
    · rw [Session.run_machine]
      exact (startsOnce_run s.world fuelLimit s.ready _ scope).distinct ih
    · exact ih

theorem runText_rewritten (s : Session) {path : Path} (text : Except ReadError String)
    (source : String) (scope : Ref .scope) (h : path.isAmong s.machine.imported = true) :
    (runText { s with world := s.world.rewritten path text } source scope).1 =
        (s.runText source scope).1 ∧
      (runText { s with world := s.world.rewritten path text } source scope).2.machine =
        (s.runText source scope).2.machine := by
  have hrun : runProgram (s.world.rewritten path text) fuelLimit (parse source).program scope
      { s.machine with output := "" } = runProgram s.world fuelLimit (parse source).program scope
      { s.machine with output := "" } :=
    (startsOnce_run s.world fuelLimit s.ready _ scope).unread path text h
  simp only [runText, run, hrun]
  split
  · split <;> exact ⟨rfl, rfl⟩
  · exact ⟨rfl, rfl⟩

end Session

/-- No file has its statements started twice. All forms that an import can take with one stem name
one file. An import of a file on record does nothing; one of any other file runs its statements in a
state in which it is on record, and does nothing else with the evaluator. No evaluation takes a file
off the record, puts one there twice, or depends on the text of one that is there: so it is in every
session, however many texts it has run. -/
theorem modules_run_once (w : World) :
    (∀ dir stem name, Import.IsDirectory dir → stem ≠ "" → Import.IsBare stem →
      Import.IsBare name →
      w.locate (dir ++ stem ++ ".crl") = w.locate (dir ++ stem) ∧
        w.locate (dir ++ stem ++ "." ++ name) = w.locate (dir ++ stem)) ∧
    (∀ (E : Evaluator) pos name binder (m : Machine),
      ((w.locate name).isAmong m.imported = true → E.load w pos name binder m = .ok () m) ∧
      ((w.locate name).isAmong m.imported = false → ∀ E' : Evaluator,
        (∀ source, w.Offers (w.locate name) source →
          E.program (parse source).program false (m.entering (w.locate name)) =
            E'.program (parse source).program false (m.entering (w.locate name))) →
        E.load w pos name binder m = E'.load w pos name binder m)) ∧
    (∀ fuel m, (∀ e, StartsOnce (fun w => (evaluator w fuel).expr e) w m) ∧
      (∀ s, StartsOnce (fun w => (evaluator w fuel).stmt s) w m) ∧
      ∀ p scope, StartsOnce (fun w => runProgram w fuel p scope) w m) ∧
    ∀ s : Session, s.Reached → Path.Distinct s.machine.imported ∧
      ∀ source scope path text, path.isAmong s.machine.imported = true →
        (Session.runText { s with world := s.world.rewritten path text } source scope).1 =
            (s.runText source scope).1 ∧
          (Session.runText { s with world := s.world.rewritten path text } source scope).2.machine =
            (s.runText source scope).2.machine := by
  refine ⟨fun dir stem name hdir hne hstem hname => ⟨?_, ?_⟩, fun E pos name binder m => ⟨?_, ?_⟩,
    fun fuel m => ⟨?_, ?_, ?_⟩, fun s hs => ⟨hs.distinct, ?_⟩⟩
  · have hcrl : Import.IsBare sourceExtension := ⟨by decide, by decide⟩
    have hdot : ".crl" = "." ++ sourceExtension := rfl
    rw [hdot, ← String.append_assoc]
    exact w.locate_dotted hdir hne hstem hcrl
  · exact w.locate_dotted hdir hne hstem hname
  · exact Evaluator.load_before
  · exact fun hfresh E' => Evaluator.load_congr hfresh
  · exact startsOnce_expr w fuel m
  · exact startsOnce_stmt w fuel m
  · exact startsOnce_run w fuel m
  · exact fun source scope path text h => s.runText_rewritten text source scope h

def World.circling : World :=
  let a := "import \"b.crl\" as b\nprint(\"a\")\n"
  let b := "import \"a.A\"\nprint(\"b\")\n"
  ⟨Snapshot.files ⟨[], [(⟨"./a.crl"⟩, .ok a), (⟨"./b.crl"⟩, .ok b)]⟩, ⟨"."⟩, 3, 8⟩

def circling : Session :=
  ((Session.start .circling none).runText "import \"a\"\n" Forest.outermost).2

/-- Both files have been run, each of them once. The first is left alone from then on, even if it is
replaced. -/
theorem modules_run_once_circling :
    (circling.machine.output = "b\na\n" ∧
      circling.machine.imported = [⟨"./b.crl"⟩, ⟨"./a.crl"⟩]) ∧
    Path.Distinct circling.machine.imported ∧
    World.circling.locate "a.A" = World.circling.locate "a" ∧
    ∀ text source scope, (Session.runText
        { circling with world := circling.world.rewritten ⟨"./a.crl"⟩ text } source scope).1 =
      (circling.runText source scope).1 := by
  have hrun : circling.machine.output = "b\na\n" ∧
      circling.machine.imported = [⟨"./b.crl"⟩, ⟨"./a.crl"⟩] := by
    decide +kernel
  have hreached : circling.Reached := .runText _ _ (.start _ _)
  obtain ⟨hforms, _, _, hsession⟩ := modules_run_once .circling
  obtain ⟨hdistinct, hunread⟩ := hsession circling hreached
  have hbare : Import.IsBare "a" ∧ Import.IsBare "A" :=
    ⟨⟨by decide, by decide⟩, ⟨by decide, by decide⟩⟩
  refine ⟨hrun, hdistinct, ?_, fun text source scope => ?_⟩
  · exact (hforms "" "a" "A" (.inl rfl) (by decide) hbare.1 hbare.2).2
  · refine (hunread source scope ⟨"./a.crl"⟩ text ?_).1
    rw [hrun.2]
    decide

end Spellbook
