import Spellbook.Files.Snapshot
import Spellbook.Proofs.Evaluation.Laws
import Spellbook.Proofs.Located

/-! Which file a report names. Nodes know their line and column, and the machine knows the file
whose statements are running. The two belong together unless a spell is started while another file
is running than the one it was declared in. -/
namespace Spellbook

abbrev Origin := Option String → String → Prop

namespace Origin

variable (o : Origin)

def Holds (file : Option String) (c : Code) : Prop :=
  ∃ text, o file text ∧ (parse text).program.HasCode c

def Right (l : Location) : Prop :=
  ∃ c, o.Holds l.file c ∧ ∃ pos ∈ c.places, l = ⟨l.file, pos.line, pos.col⟩

def Covers (w : World) : Prop :=
  ∀ path text, w.files.read path = .ok text → o (some path.text) text

/-- A spell starts while a file is running that it was declared in. -/
def AtHome (c : Code) (m : Machine) : Prop := ∀ decl, c = .spell decl → o.Holds m.file c

/-- The calls under way and all failures so far speak of no other places than those of code in the
files they name. -/
structure Reported (m : Machine) : Prop where
  frames : ∀ frame ∈ m.frames, o.Right frame.location
  failures : ∀ f ∈ m.store.failures, f.Tells o.Right

/-- All through a run and after it, what is evaluated stands in the file that is running, and
whatever is reported names the file it stands in. -/
structure Named (w : World) (fuel : Nat) (p : Program) (scope : Ref .scope) (m : Machine) :
    Prop where
  during : Throughout w fuel p scope m fun c m => o.Holds m.file c ∧ o.Reported m
  after : o.Reported (endState (runProgram w fuel p scope m))

/-- Texts may come from any file there is. -/
def blurred : Origin := fun file text => (∃ t, o file t) ∧ ∃ f, o f text

/-- Code is evaluated in its own file, and speaks of that file. -/
def law : Law := ⟨o.Holds, fun decl => ∃ file, o.Holds file (.spell decl), fun _ _ => True, o.Right⟩

variable {o} {w : World} {m : Machine}

theorem Covers.mono {o' : Origin} (h : ∀ file text, o file text → o' file text)
    (hw : o.Covers w) : o'.Covers w :=
  fun path text hread => h _ _ (hw path text hread)

theorem le_blurred (file : Option String) (text : String) (h : o file text) :
    o.blurred file text :=
  ⟨⟨text, h⟩, ⟨file, h⟩⟩

theorem sound_law (hw : o.Covers w) : o.law.Sound w where
  expr := fun ⟨text, ho, hc⟩ he => ⟨text, ho, hc.expr he⟩
  stmt := fun ⟨text, ho, hc⟩ hs => ⟨text, ho, hc.stmt hs⟩
  spell := fun ⟨text, ho, hc⟩ hd => ⟨_, text, ho, hc.spell hd⟩
  names _ _ _ := trivial
  catches _ _ _ := trivial
  place := fun hc hp => ⟨_, hc, _, hp, rfl⟩
  load := fun _ hread _ _ hs => ⟨_, hw _ _ hread, Program.Has.top hs⟩

theorem Reported.of_follows (hm : m.Follows o.law) : o.Reported m :=
  ⟨hm.frames, hm.store.failures⟩

theorem blurred_start {c : Code} {decl : SpellDecl} (hc : o.blurred.law.Admits m c)
    (hd : o.blurred.law.spell decl) : o.blurred.Holds m.file (.spell decl) := by
  obtain ⟨text, ⟨hfile, _⟩, _⟩ := hc.fits
  obtain ⟨_, text', ⟨_, htext⟩, hdecl⟩ := hd
  exact ⟨text', ⟨hfile, htext⟩, hdecl⟩

end Origin

/-! Sessions -/

def Session.HasScope (s : Session) (scope : Ref .scope) : Prop :=
  scope.index < s.machine.store.scopes.scopes.size

/-- The sessions whose texts come from the files that were running, and in whose runs `P` holds
throughout. -/
inductive Session.From (o : Origin) (P : Code → Machine → Prop) : Session → Prop where
  | start {w : World} (file : Option String) : o.Covers w → From o P (.start w file)
  | world {s : Session} {w : World} : From o P s → o.Covers w → From o P { s with world := w }
  | setFile {s : Session} (file : String) : From o P s → From o P (s.setFile file)
  | scopeNamed {s : Session} (name : String) : From o P s → From o P (s.scopeNamed name).2
  | runText {s : Session} {source : String} {scope : Ref .scope} :
      From o P s → o s.machine.file source → s.HasScope scope →
      Throughout s.world fuelLimit (parse source).program scope s.ready P →
      From o P (s.runText source scope).2

variable {o o' : Origin} {P : Code → Machine → Prop} {s : Session}

theorem Session.From.mono (hs : s.From o P) (h : ∀ file text, o file text → o' file text) :
    s.From o' P := by
  induction hs with
  | start file hw => exact .start file (hw.mono h)
  | world _ hw ih => exact .world ih (hw.mono h)
  | setFile file _ ih => exact .setFile file ih
  | scopeNamed name _ ih => exact .scopeNamed name ih
  | runText _ ho hscope hrun ih => exact .runText ih (h _ _ ho) hscope hrun

theorem Session.runText_world (s : Session) (source : String) (scope : Ref .scope) :
    (s.runText source scope).2.world = s.world := by
  unfold Session.runText Session.run
  dsimp only
  split
  · split <;> rfl
  · rfl

theorem Session.From.covers (hs : s.From o P) : o.Covers s.world := by
  induction hs with
  | start file hw => exact hw
  | world _ hw _ => exact hw
  | setFile file _ ih => exact ih
  | scopeNamed name _ ih =>
    unfold Session.scopeNamed
    split
    · exact ih
    · exact ih
  | runText _ _ _ _ ih => rwa [Session.runText_world]

theorem Session.follows_ready {L : Law} {scope : Ref .scope}
    (hs : s.machine.store.Follows L ∧ s.machine.frames = []) (hscope : s.HasScope scope) :
    Machine.Follows L { s.ready with scope := scope } :=
  ⟨hscope, hs.1, fun _ h => absurd (hs.2 ▸ h) List.not_mem_nil⟩

section Runs

variable {source : String} {scope : Ref .scope}
  (hstart : ∀ {m c decl}, o.law.Admits m c → o.law.spell decl → P (.spell decl) m →
    o.law.fits m.file (.spell decl))

include hstart

/-- A run in which no spell starts away from home, in a state that follows the law. -/
theorem Origin.law_throughout {w : World} {fuel : Nat} {m : Machine} (hw : o.Covers w)
    (ho : o m.file source) (hm : Machine.Follows o.law { m with scope := scope })
    (hrun : Throughout w fuel (parse source).program scope m P) :
    (Throughout w fuel (parse source).program scope m fun c m => o.law.Admits m c ∧ P c m) ∧
      o.law.Allows m (endState (runProgram w fuel (parse source).program scope m)) :=
  Law.throughout (Origin.sound_law hw) hstart hm (fun _ hs => ⟨source, ho, .top hs⟩) hrun

theorem Session.From.follows (hs : s.From o P) :
    s.machine.store.Follows o.law ∧ s.machine.frames = [] := by
  induction hs with
  | start file hw => exact ⟨Store.follows_initial fun _ => trivial, rfl⟩
  | world _ _ ih => exact ih
  | setFile file _ ih => exact ih
  | scopeNamed name _ ih =>
    unfold Session.scopeNamed
    split
    · exact ih
    · exact ⟨ih.1.openScope Forest.outermost, ih.2⟩
  | @runText s source scope hs ho hscope hrun ih =>
    have hallows := (Origin.law_throughout (m := s.ready) hstart hs.covers ho
      (Session.follows_ready ih hscope) hrun).2
    unfold Session.runText
    dsimp only
    split
    · rw [Session.run_machine]
      exact ⟨hallows.store, hallows.keeps.frames.trans ih.2⟩
    · exact ih

theorem Session.From.named (hs : s.From o P) (ho : o s.machine.file source)
    (hscope : s.HasScope scope) {fuel : Nat}
    (hrun : Throughout s.world fuel (parse source).program scope s.ready P) :
    o.Named s.world fuel (parse source).program scope s.ready := by
  have hready := Session.follows_ready (hs.follows hstart) hscope
  obtain ⟨hduring, hallows⟩ :=
    Origin.law_throughout (m := s.ready) hstart hs.covers ho hready hrun
  refine ⟨hduring.imp fun c m hc => ⟨hc.1.fits, .of_follows hc.1.follows⟩, ?_, ?_⟩
  · exact hallows.keeps.frames ▸ hready.frames
  · exact hallows.store.failures

end Runs

theorem Origin.Named.outcome {source : String} {scope : Ref .scope}
    (h : o.Named s.world fuelLimit (parse source).program scope s.ready) {f : Failure}
    (hf : (s.runText source scope).1 = .failed f) : f.Tells o.Right := by
  obtain ⟨r, m', hrun, rfl⟩ := Session.raised_of_runText hf
  have hfailures := h.after.failures
  rw [hrun] at hfailures
  rw [Store.failure, Array.getD_eq_getD_getElem?]
  cases hr : m'.store.failures[r.index]? with
  | none => exact Failure.tells_plain ""
  | some f => exact hfailures f (Array.mem_of_getElem? hr)

/-- Whatever a session reports, in the course of a run or at its end, has the line and column of
code in one of its texts, and names a file that one of its texts comes from. The file is the one
that the code stands in, as long as no spell starts while another file is running than its own. -/
theorem failures_name_origin (o : Origin) (s : Session) (source : String) (scope : Ref .scope)
    (ho : o s.machine.file source) (hscope : s.HasScope scope) :
    (s.From o (fun _ _ => True) → ∀ fuel,
      o.blurred.Named s.world fuel (parse source).program scope s.ready) ∧
    (s.From o o.AtHome → ∀ fuel,
      Throughout s.world fuel (parse source).program scope s.ready o.AtHome →
      o.Named s.world fuel (parse source).program scope s.ready) ∧
    ∀ o' : Origin, o'.Named s.world fuelLimit (parse source).program scope s.ready →
      ∀ f, (s.runText source scope).1 = .failed f → f.Tells o'.Right := by
  refine ⟨fun hs fuel => ?_, fun hs fuel hrun => ?_, fun o' h f hf => h.outcome hf⟩
  · exact (hs.mono Origin.le_blurred).named (fun hc hd _ => Origin.blurred_start hc hd)
      (Origin.le_blurred _ _ ho) hscope (throughout_true _ _ _ _ _)
  · exact hs.named (fun _ _ hp => hp _ rfl) ho hscope hrun

/-! Two files -/

def World.origin (w : World) : Origin :=
  fun file text => ∃ path, file = some path.text ∧ w.files.read path = .ok text

theorem World.covers_origin (w : World) : w.origin.Covers w := fun path _ h => ⟨path, rfl, h⟩

def World.pair (main lib : String) : World :=
  ⟨Snapshot.files ⟨[], [(⟨"./main.crl"⟩, .ok main), (⟨"./lib.crl"⟩, .ok lib)]⟩, ⟨"."⟩, 3, 8⟩

theorem World.origin_pair {main lib : String} {file : Option String} {text : String}
    (h : (World.pair main lib).origin file text) :
    (file = some "./main.crl" ∧ text = main) ∨ (file = some "./lib.crl" ∧ text = lib) := by
  obtain ⟨path, rfl, hread⟩ := h
  simp only [World.pair, Snapshot.files, List.find?_cons] at hread
  split at hread
  · rename_i hpath
    obtain rfl := eq_of_beq hpath
    cases hread
    exact .inl ⟨rfl, rfl⟩
  · split at hread
    · rename_i hpath
      obtain rfl := eq_of_beq hpath
      cases hread
      exact .inr ⟨rfl, rfl⟩
    · cases hread

def World.hasty : World := .pair "import \"lib\"\n" "spell f():\n    return 1 / 0\nf()\n"

def World.borrowing : World :=
  .pair "import \"lib\" as lib\nlib.f()\n" "PI = 3\n\nspell f():\n    return 1 / 0\n"

def World.session (w : World) : Session := .start w (some "./main.crl")

theorem World.hasScope_session (w : World) : w.session.HasScope Forest.outermost :=
  Store.outermost_initial

def Outcome.places : Outcome → List Location
  | .failed f => f.chain.flatMap Failure.places
  | _ => []

theorem Outcome.exists_of_places {outcome : Outcome} {l : Location} {more : List Location}
    (h : outcome.places = l :: more) :
    ∃ f, outcome = .failed f ∧ f.chain.flatMap Failure.places = l :: more := by
  cases outcome with
  | failed f => exact ⟨f, rfl, h⟩
  | _ => cases h

theorem hasty_home : Throughout World.hasty fuelLimit (parse "import \"lib\"\n").program
    Forest.outermost World.hasty.session.ready World.hasty.origin.AtHome := by
  have hsentry : Throughout World.hasty fuelLimit (parse "import \"lib\"\n").program
      Forest.outermost World.hasty.session.ready
      fun c m => c.isSpell = true → m.file = some "./lib.crl" :=
    throughout_of_sentry Store.outermost_initial (by decide +kernel)
  have hnone : ∀ c, (parse "import \"lib\"\n").program.HasCode c → (!c.isSpell) = true :=
    fun c hc => hc.passes (!·.isSpell) 1 (by decide +kernel)
  have hfollows : Machine.Follows World.hasty.origin.law World.hasty.session.ready :=
    ⟨Store.outermost_initial, Store.follows_initial fun _ => trivial, nofun⟩
  refine (Origin.law_throughout (fun _ hd hp => ?_) World.hasty.covers_origin
    ⟨⟨"./main.crl"⟩, rfl, rfl⟩ hfollows hsentry).1.imp fun c m hc decl _ => hc.1.fits
  obtain ⟨file, text, hfile, hdecl⟩ := hd
  rcases World.origin_pair hfile with ⟨_, rfl⟩ | ⟨rfl, _⟩
  · cases hnone _ hdecl
  · rw [hp rfl]
    exact ⟨text, hfile, hdecl⟩

/-- The import fails at its place in the program, because of what the module has done at places of
its own. -/
theorem failures_name_origin_hasty :
    ∃ f, (World.hasty.session.runText "import \"lib\"\n" Forest.outermost).1 = .failed f ∧
      f.chain.flatMap Failure.places = [⟨some "./main.crl", 1, 1⟩, ⟨some "./lib.crl", 2, 14⟩,
        ⟨some "./lib.crl", 3, 2⟩] ∧ f.Tells World.hasty.origin.Right := by
  have hplaces : (World.hasty.session.runText "import \"lib\"\n" Forest.outermost).1.places =
      [⟨some "./main.crl", 1, 1⟩, ⟨some "./lib.crl", 2, 14⟩, ⟨some "./lib.crl", 3, 2⟩] := by
    decide +kernel
  obtain ⟨f, hf, hplaces⟩ := Outcome.exists_of_places hplaces
  obtain ⟨_, hnamed, hfailed⟩ := failures_name_origin World.hasty.origin World.hasty.session
    "import \"lib\"\n" Forest.outermost ⟨⟨"./main.crl"⟩, rfl, rfl⟩ (World.hasScope_session _)
  refine ⟨f, hf, hplaces, hfailed _ (hnamed ?_ fuelLimit hasty_home) f hf⟩
  exact .start _ World.hasty.covers_origin

/-- What a spell of a module fails with names the file of the program that calls it, which has no
such line. -/
theorem not_failures_name_origin :
    ¬ ∀ (o : Origin) (s : Session) (source : String) (scope : Ref .scope),
      s.From o (fun _ _ => True) → o s.machine.file source → s.HasScope scope →
      ∀ f, (s.runText source scope).1 = .failed f → f.Tells o.Right := by
  intro h
  have hplaces : (World.borrowing.session.runText "import \"lib\" as lib\nlib.f()\n"
      Forest.outermost).1.places = [⟨some "./main.crl", 4, 14⟩, ⟨some "./main.crl", 2, 6⟩] := by
    decide +kernel
  obtain ⟨f, hf, hplaces⟩ := Outcome.exists_of_places hplaces
  have htells := h World.borrowing.origin World.borrowing.session _ _
    (.start _ World.borrowing.covers_origin) ⟨⟨"./main.crl"⟩, rfl, rfl⟩
    (World.hasScope_session _) f hf
  have hright : World.borrowing.origin.Right ⟨some "./main.crl", 4, 14⟩ := by
    have hmem : ⟨some "./main.crl", 4, 14⟩ ∈ f.chain.flatMap Failure.places := by simp [hplaces]
    obtain ⟨g, hg, hl⟩ := List.mem_flatMap.1 hmem
    exact htells g hg _ hl
  obtain ⟨c, ⟨text, horigin, hc⟩, pos, hpos, heq⟩ := hright
  obtain ⟨_, rfl⟩ | ⟨hlib, _⟩ := World.origin_pair horigin
  · have hlines : (c.places.all fun pos => pos.line ≤ 2) = true :=
      hc.passes (·.places.all (·.line ≤ 2)) 1 (by decide +kernel)
    have hline : pos.line ≤ 2 := by simpa using List.all_eq_true.1 hlines pos hpos
    rw [← (Location.mk.inj heq).2.1] at hline
    omega
  · exact absurd hlib (by decide)

end Spellbook
