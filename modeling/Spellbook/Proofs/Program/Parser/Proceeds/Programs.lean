import Spellbook.Proofs.Program.Parser.Proceeds.Statements

/-! The knots are tied: statements and programs proceed from every state of a text, with any fuel
above the weight of the tokens, and are read from it. Whatever is done around each statement, as long
as it proceeds, the statements that are made of such statements proceed too. -/
namespace Spellbook.Parser

open State

/-- Statements with something done around each of them, at whatever depth. -/
def stmtBy (watch : Parse Stmt → Parse Stmt) : Nat → Parse Stmt
  | 0 => outOfFuel
  | fuel + 1 => watch (stmtOf ⟨fuel, exprAt fuel .lowest, stmtBy watch fuel⟩)

theorem stmtBy_id : stmtBy id = stmt := by
  funext fuel
  induction fuel with
  | zero => rfl
  | succ fuel ih => simp only [stmtBy, stmt, id_eq, ih]

variable {ι : Type} {d : Demand ι} {k : Nat} {f : ι → Nat} {s : State}

theorem exprsProceed_exprAt {text : String} {spends : Prop} {g : ι → Nat}
    (hg : Enough spends (k + 1) g) (stmt : ι → Parse Stmt) :
    ExprsProceed text spends k fun i => ⟨g i, exprAt (g i) .lowest, stmt i⟩ where
  fuel := hg
  expr j hj := operandsProceed_exprAt hg text j (Nat.lt_succ_of_le hj) .lowest

theorem proceeds_stmtBy (hd : d.fails) (hn : ¬ d.flat) (watch : ι → Parse Stmt → Parse Stmt)
    (hwatch : ∀ (x : ι → Parse Stmt) j s Q, Proceeds d j x s Q →
      Proceeds d j (fun i => watch i (x i)) s Q) (hf : Enough d.spends (k + 1) f) :
    ∀ j < k, ∀ s, s.Within d.text (j + 1) → Proceeds d j (fun i => stmtBy (watch i) (f i)) s
      (Made (Stmt.All (Stmt.ReadFrom d.text))) := by
  induction k generalizing f with
  | zero => exact fun j hj => absurd hj (Nat.not_lt_zero j)
  | succ k ih =>
    intro j hj s hs
    obtain ⟨hspends, rfl⟩ | ⟨g, rfl, hg⟩ := hf.pred
    · exact .outOfFuel hspends
    · have hparts : PartsProceed d j
          fun i => ⟨g i, exprAt (g i) .lowest, stmtBy (watch i) (g i)⟩ :=
        ⟨exprsProceed_exprAt (hg.mono (by omega)) _, fun i hi => ih hg i (by omega)⟩
      exact hwatch _ j s _ (.stmtOf hd hn hparts hs)

theorem proceeds_stmt (hd : d.fails) (hn : ¬ d.flat) (hf : Enough d.spends (k + 1) f) :
    ∀ j < k, ∀ s, s.Within d.text (j + 1) →
      Proceeds d j (fun i => stmt (f i)) s (Made (Stmt.All (Stmt.ReadFrom d.text))) := by
  intro j hj s hs
  have h := proceeds_stmtBy hd hn (fun _ => id) (fun _ _ _ _ h => h) hf j hj s hs
  simpa only [stmtBy_id] using h

/-- With enough fuel statements are read to their end, and all that have it read them alike. -/
theorem proceeds_statements {text : String} (ends stray : Kind → Bool) {n : ι → Nat}
    (heof : ends .eof = true) (hdedent : ends .dedent = true ∨ stray .dedent = true)
    (hf : ∀ i, k + 1 < f i) (hfuel : ∀ i, k < n i) (hs : s.Within text k) :
    Proceeds (.total text) k (fun i => statements (stmt (f i)) ends stray (n i)) s
      fun body s' => (∀ a ∈ body, a.All (Stmt.ReadFrom text)) ∧ ends s'.cur.kind = true := by
  have hstmt : ∀ j < k, ∀ s, s.Within text (j + 1) →
      Proceeds { Demand.total text with fails := True } j (fun i => stmt (f i)) s
        (Made (Stmt.All (Stmt.ReadFrom text))) :=
    proceeds_stmt (d := { Demand.total text with fails := True }) trivial not_false (.inl hf)
  exact .statements ends stray not_false hstmt heof hdedent False.elim (.inl hfuel) hs

/-- What a text is read to: statements that are read from it, and complaints that say of a lexical
error what its token says. -/
structure Reading (source : String) (body : List Stmt) (s : State) : Prop where
  run : ∀ fuel, budget source.length ≤ fuel → program fuel (State.start source) = .ok body s
  eof : s.cur.kind = .eof
  rest : s.ahead = []
  parse : parse source = ⟨⟨body⟩, collect s.found.reverse (lexErrorsOf source)⟩
  read : ∀ a ∈ body, a.All (Stmt.ReadFrom source)
  quotes : ∀ d ∈ s.found, d.Quotes (tokensOf source)

theorem found_start (source : String) : (State.start source).found = [] := by
  unfold State.start State.ofTokens
  split <;> rfl

/-- The budget is enough for every text, and so is all above it: the text is read to its end in the
same way. -/
theorem reading (source : String) : ∃ body s, Reading source body s := by
  have hbudget : 4 * source.length + 3 + 1 < budget source.length := by
    simp only [budget]
    omega
  obtain ⟨r, hr, hallowed⟩ := proceeds_statements (· == .eof) isTopSeparator
    (f := fun fuel : { fuel // budget source.length ≤ fuel } => fuel.1) (n := fun fuel => fuel.1)
    rfl (.inr rfl) (fun fuel => Nat.lt_of_lt_of_le hbudget fuel.2)
    (fun fuel => Nat.lt_of_succ_lt (Nat.lt_of_lt_of_le hbudget fuel.2)) (within_start source)
  have hall : ∀ fuel, budget source.length ≤ fuel → program fuel (State.start source) = r :=
    fun fuel hfuel => hr ⟨fuel, hfuel⟩ (.inl trivial)
  match r, hallowed with
  | .error (.complaint _) _, hallowed => exact hallowed.1.elim
  | .error .outOfFuel _, hallowed => exact hallowed.elim
  | .ok body s, ⟨hstep, hs, hread, hend⟩ =>
    have heof : s.cur.kind = .eof := eq_of_beq hend
    refine ⟨body, s, hall, heof, hs.eof_iff.1 heof, ?_, hread, fun d hd => ?_⟩
    · simp only [parse, hall _ (Nat.le_refl _)]
    · refine (hstep.quotes d hd).resolve_left fun hfirst => ?_
      rw [found_start] at hfirst
      cases hfirst

end Spellbook.Parser

namespace Spellbook

theorem readFrom_of_has {source : String} {s : Stmt} (h : (parse source).program.Has s) :
    s.All (Stmt.ReadFrom source) := by
  obtain ⟨body, _, hreading⟩ := Parser.reading source
  rw [hreading.parse] at h
  induction h with
  | inside _ hs ih => exact ih.child hs
  | top hs => exact hreading.read _ hs

/-- A parsed program keeps the `init` of every grimoire apart. -/
theorem parted_of_has {source : String} {decl : GrimoireDecl}
    (h : (parse source).program.Has (.grimoire decl)) : decl.Parted :=
  (readFrom_of_has h).self.parted decl rfl

theorem all_of_hasExpr {P : Expr → Prop} (hP : ∀ text e, e.ReadFrom text → P e) {source : String}
    {e : Expr} (h : (parse source).program.HasExpr e) : e.All P := by
  induction h with
  | tree hs he => exact ((readFrom_of_has hs).self.trees _ he).all hP
  | part _ he ih => exact ih.part he

theorem proper_of_hasExpr {source : String} {e : Expr} (h : (parse source).program.HasExpr e) :
    e.All Expr.Proper :=
  all_of_hasExpr (fun _ _ => Expr.ReadFrom.proper) h

theorem placed_of_hasExpr {source : String} {e : Expr} (h : (parse source).program.HasExpr e) :
    e.All Expr.Placed :=
  all_of_hasExpr (fun _ _ => Expr.ReadFrom.isPlaced) h

theorem placed_of_has {source : String} {s : Stmt} (h : (parse source).program.Has s) :
    s.All Stmt.Placed :=
  (readFrom_of_has h).imp fun _ hs =>
    ⟨hs.isKnown, fun e he => (hs.trees e he).all fun _ _ => Expr.ReadFrom.isPlaced⟩

end Spellbook
