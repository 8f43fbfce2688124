import Mathlib
import Spellbook.Proofs.Evaluation.Demands
import Spellbook.Proofs.Files.Finite
import Spellbook.Session

/-! Programs without loops end. What decreases is the number of files that are yet to be imported,
then the room for calls, then the size of what is evaluated. -/
namespace Spellbook

open Filter

/-! Programs without loops -/

/-- No statement is a loop with a condition, and no spell is one that closes resources. -/
def Program.LoopFree (p : Program) : Prop :=
  ∀ s, p.Has s → s.isLoop = false ∧ ∀ decl ∈ s.spells, decl.name.name ≠ "close"

def loopFreeWithin : Nat → List Stmt → Bool
  | 0, ss => ss.isEmpty
  | depth + 1, ss =>
    ss.all (fun s => !s.isLoop && s.spells.all (·.name.name != "close")) &&
      loopFreeWithin depth (ss.flatMap Stmt.children)

theorem Program.loopFree_of_within {p : Program} (depth : Nat)
    (h : loopFreeWithin depth p.statements = true) : p.LoopFree := by
  have hlevel : ∀ s, p.Has s → ∃ depth ss, loopFreeWithin (depth + 1) ss = true ∧ s ∈ ss := by
    have hpos : ∀ depth ss s, loopFreeWithin depth ss = true → s ∈ ss →
        ∃ depth ss, loopFreeWithin (depth + 1) ss = true ∧ s ∈ ss := by
      intro depth ss s hd hs
      cases depth with
      | zero =>
        rw [List.isEmpty_iff.1 hd] at hs
        cases hs
      | succ depth => exact ⟨depth, ss, hd, hs⟩
    intro s hs
    induction hs with
    | top hs => exact hpos depth _ _ h hs
    | inside _ hs ih =>
      obtain ⟨depth, ss, hd, hmem⟩ := ih
      exact hpos depth _ _ (Bool.and_eq_true_iff.1 hd).2 (List.mem_flatMap.2 ⟨_, hmem, hs⟩)
  intro s hs
  obtain ⟨depth, ss, hd, hmem⟩ := hlevel s hs
  have hfree := List.all_eq_true.1 (Bool.and_eq_true_iff.1 hd).1 s hmem
  simpa using hfree

/-- The program itself and what is imported, directly or not. -/
inductive Program.Reaches (w : World) (p : Program) : Program → Prop where
  | self : Reaches w p p
  | load {q : Program} {pos : Pos} {name source : String} {binder : Option Ident} :
    Reaches w p q → q.Has (.load pos name binder) →
    w.files.read ((Import.ofText name).locate w.files w.base) = .ok source →
    (parse source).diagnostics = [] → Reaches w p (parse source).program

/-! The measure -/

namespace Machine

/-- How many files are yet to be imported. -/
def awaited (known : List Path) (m : Machine) : Nat :=
  known.countP fun p => !p.isAmong m.imported

/-- How many more calls may be under way. -/
def room (w : World) (m : Machine) : Nat := w.maxDepth - m.frames.length

/-- The order in which machines get closer to the end of a run. -/
def Lower (w : World) (known : List Path) : Machine → Machine → Prop :=
  InvImage (Prod.Lex (· < ·) (· < ·)) fun m => (m.awaited known, m.room w)

variable {w : World} {known : List Path} {m m' m'' : Machine}

theorem lower_wf (w : World) (known : List Path) : WellFounded (Lower w known) :=
  InvImage.wf _ (Prod.lex Nat.lt_wfRel Nat.lt_wfRel).wf

theorem awaited_le (h : m.imported <:+ m'.imported) : m'.awaited known ≤ m.awaited known := by
  refine List.countP_mono_left fun p _ hp => ?_
  simp only [Bool.not_eq_true'] at hp ⊢
  exact Bool.eq_false_iff.2 fun hamong => Bool.eq_false_iff.1 hp (isAmong_mono h hamong)

theorem awaited_lt {path : Path} (hknown : path.isAmong known = true)
    (hnew : path.isAmong m.imported = false) (h : m.imported <:+ m'.imported)
    (hmem : path ∈ m'.imported) : m'.awaited known < m.awaited known := by
  obtain ⟨q, hq, hsame⟩ := List.any_eq_true.1 hknown
  have hparts : path.parts = q.parts := eq_of_beq hsame
  have heq : path.same = q.same := funext fun r => by simp only [Path.same, hparts]
  have hold : q.isAmong m.imported = false := by
    rw [← hnew, Path.isAmong, Path.isAmong, heq]
  have hin : q.isAmong m'.imported = true :=
    List.any_eq_true.2 ⟨path, hmem, beq_iff_eq.2 hparts.symm⟩
  obtain ⟨before, behind, rfl⟩ := List.append_of_mem hq
  have hbefore : m'.awaited before ≤ m.awaited before := awaited_le h
  have hbehind : m'.awaited behind ≤ m.awaited behind := awaited_le h
  simp only [awaited] at hbefore hbehind ⊢
  rw [List.countP_append, List.countP_append, List.countP_cons_of_neg (by simp [hin]),
    List.countP_cons_of_pos (by simp [hold])]
  omega

theorem lower_of_awaited (h : m'.awaited known < m.awaited known) : Lower w known m' m :=
  .left _ _ h

theorem lower_of_call {frame : Frame} (hlt : m.frames.length < w.maxDepth)
    (h : Precedes { m with frames := frame :: m.frames } m') : Lower w known m' m := by
  have hframes : m'.frames.length = m.frames.length + 1 := congrArg List.length h.frames
  have hroom : m'.room w < m.room w := by
    simp only [room]
    omega
  have hawaited : m'.awaited known ≤ m.awaited known := awaited_le h.imported
  rcases Nat.lt_or_eq_of_le hawaited with hfewer | hsame
  · exact .left _ _ hfewer
  · exact Prod.lex_iff.2 (.inr ⟨hsame, hroom⟩)

theorem Precedes.lower_trans (h : m.Precedes m') (hl : Lower w known m'' m') :
    Lower w known m'' m := by
  have hroom : m'.room w = m.room w := by simp only [room, h.frames]
  have hawaited : m'.awaited known ≤ m.awaited known := awaited_le h.imported
  rcases Prod.lex_iff.1 hl with hfewer | ⟨hsame, hless⟩
  · exact .left _ _ (Nat.lt_of_lt_of_le hfewer hawaited)
  · simp only [hroom] at hsame hless
    rcases Nat.lt_or_eq_of_le hawaited with hfewer | heq
    · exact .left _ _ (hsame ▸ hfewer)
    · exact Prod.lex_iff.2 (.inr ⟨hsame.trans heq, hless⟩)

end Machine

/-! Runs -/

namespace Program

/-- The statement is one of the program's, or of what it imports. -/
def Runs (w : World) (p : Program) (s : Stmt) : Prop := ∃ q, p.Reaches w q ∧ q.Has s

/-- The run has to end. The spells that it comes to know are those of the program and of what it
imports, and none of them closes resources. -/
def demand (w : World) (p : Program) : Demand :=
  ⟨fun decl => ∀ s ∈ decl.body, p.Runs w s, fun _ => False, True⟩

structure Ends (w : World) (p : Program) (m : Machine) : Prop where
  expr : ∀ e, ExprSettles (p.demand w) atTop (evaluator w) m e
  stmt : ∀ s, p.Runs w s → StmtSettles (p.demand w) atTop (evaluator w) m s

end Program

variable {w : World} {p : Program} {known : List Path} {m : Machine}

theorem Settles.shift {d : Demand} {α : Type} [Bearing α] {x y : Nat → Eval α}
    (h : ∀ n, y (n + 1) = x n) (hx : Settles d atTop x m) : Settles d atTop y m := by
  obtain ⟨r, hr, ho⟩ := Abides.agreed hx nofun
  obtain ⟨least, hleast⟩ := eventually_atTop.1 hr
  refine .inr ⟨r, eventually_atTop.2 ⟨least + 1, fun n hn => ?_⟩, ho⟩
  obtain ⟨n, rfl⟩ := Nat.exists_eq_add_of_lt hn
  rw [h]
  exact hleast _ (Nat.le_add_right least n)

theorem spells_end (ih : ∀ m', Machine.Lower w known m' m → p.Ends w m') :
    SpellsSettle (p.demand w) atTop (evaluator w) m w where
  call decl args frame m' hd hlt hp hs := by
    have hends := ih m' (Machine.lower_of_call hlt hp)
    refine Settles.shift (fun n => rfl) (.body (fun e _ => hends.expr e) (fun s hs => ?_) args hs)
    exact hends.stmt s (hd s hs)
  close _ _ _ _ hc := hc.elim

theorem expr_ends (ih : ∀ m', Machine.Lower w known m' m → p.Ends w m') (e : Expr) :
    ExprSettles (p.demand w) atTop (evaluator w) m e := by
  intro m' ⟨hp, hs⟩
  refine Settles.shift (fun n => rfl) (.evalExpr (fun e' he => ?_) ((spells_end ih).later hp) hs)
  exact (expr_ends ih e').later hp
termination_by sizeOf e
decreasing_by exact Expr.sizeOf_lt_of_mem_parts he

theorem module_ends (hknown : w.files.Listed known)
    (ih : ∀ m', Machine.Lower w known m' m → p.Ends w m') {pos : Pos} {name : String}
    {binder : Option Ident} (hs : p.Runs w (.load pos name binder)) :
    ModuleSettles (p.demand w) atTop (evaluator w) m w name := by
  intro hnew source hread hparsed m' hp hmem s hmod
  obtain ⟨q, hq, hhas⟩ := hs
  have hlower : Machine.Lower w known m' m :=
    Machine.lower_of_awaited (Machine.awaited_lt (hknown _ source hread) hnew hp.imported hmem)
  exact (ih m' hlower).stmt s ⟨_, hq.load hhas hread hparsed, .top hmod⟩

theorem stmt_ends (hknown : w.files.Listed known) (hfree : ∀ q, p.Reaches w q → q.LoopFree)
    (ih : ∀ m', Machine.Lower w known m' m → p.Ends w m') (s : Stmt) (hruns : p.Runs w s) :
    StmtSettles (p.demand w) atTop (evaluator w) m s := by
  intro m' ⟨hp, hs⟩
  obtain ⟨q, hq, hhas⟩ := hruns
  obtain ⟨hloop, hclose⟩ := hfree q hq s hhas
  have ih' : ∀ m'', Machine.Lower w known m'' m' → p.Ends w m'' :=
    fun m'' hl => ih m'' (hp.lower_trans hl)
  refine Settles.shift (fun n => rfl) (.evalStmt (fun e _ => expr_ends ih' e) (fun s' hs' => ?_)
    (spells_end ih') (fun decl hd => ⟨fun s' hs' => ?_, ?_⟩) ?_ ?_ hs)
  · have hinside : p.Runs w s' := ⟨q, hq, hhas.inside (List.mem_append_left _ hs')⟩
    exact (stmt_ends hknown hfree ih s' hinside).later hp
  · exact ⟨q, hq, hhas.inside (List.mem_append_right _ (List.mem_flatMap.2 ⟨decl, hd, hs'⟩))⟩
  · exact hclose decl hd
  · rintro pos name binder rfl
    exact module_ends hknown ih' ⟨q, hq, hhas⟩
  · exact fun h => absurd h (by simp only [hloop]; decide)
termination_by sizeOf s
decreasing_by exact Stmt.sizeOf_lt_of_mem_blocks hs'

theorem Program.ends (hknown : w.files.Listed known)
    (hfree : ∀ q, p.Reaches w q → q.LoopFree) (m : Machine) : p.Ends w m := by
  induction m using (Machine.lower_wf w known).induction with
  | _ m ih => exact ⟨expr_ends ih, stmt_ends hknown hfree ih⟩

theorem Store.declares_initial (d : Demand) : Store.initial.Declares d := by
  constructor <;> intro x hx <;> cases Array.not_mem_empty _ hx

/-- A program ends, with a value or a failure, if neither it nor what it imports has a loop with a
condition or a spell that closes resources. -/
theorem loopFree_ends (w : World) (hfiles : w.files.Finite) (p : Program)
    (hfree : ∀ q, p.Reaches w q → q.LoopFree) (file : Option String) :
    ∃ least r, (∀ m, r ≠ .error .outOfFuel m) ∧ ∀ fuel, least ≤ fuel →
      runProgram w fuel p Forest.outermost (.initial file) = r := by
  obtain ⟨known, hknown⟩ := hfiles
  have hends := Program.ends hknown hfree (.initial file)
  have hrun : Settles (p.demand w) atTop (fun fuel => runProgram w fuel p Forest.outermost)
      (.initial file) :=
    .run (fun s hs => hends.stmt s ⟨p, .self, .top hs⟩) Forest.outermost (Store.declares_initial _)
  obtain ⟨r, hr, ho⟩ := Abides.agreed hrun nofun
  obtain ⟨least, hleast⟩ := eventually_atTop.1 hr
  exact ⟨least, r, ho.ends trivial, hleast⟩

/-- A world with one file, which imports itself. -/
def World.circular : World :=
  ⟨Snapshot.files ⟨[], [(⟨"./a.crl"⟩, .ok "import \"a\"\n")]⟩, ⟨"."⟩, 3, 8⟩

/-- A program that calls itself, and imports a file that imports itself. -/
def endlessCalls : Program := (parse "import \"a\"\nspell f():\n    f()\nf()\n").program

theorem read_circular {path : Path} {source : String}
    (h : World.circular.files.read path = .ok source) : source = "import \"a\"\n" := by
  simp only [World.circular, Snapshot.files, List.find?_cons] at h
  split at h
  · cases h
    rfl
  · cases h

theorem loopFree_ends_endlessCalls :
    ∃ least r, (∀ m, r ≠ .error .outOfFuel m) ∧ ∀ fuel, least ≤ fuel →
      runProgram .circular fuel endlessCalls Forest.outermost (.initial none) = r := by
  refine loopFree_ends .circular (Snapshot.finite_files _) endlessCalls (fun q hq => ?_) none
  cases hq with
  | self => exact Program.loopFree_of_within 2 (by decide +kernel)
  | load _ _ hread _ =>
    obtain rfl := read_circular hread
    exact Program.loopFree_of_within 1 (by decide +kernel)

end Spellbook
