import Spellbook.Proofs.Program.Parser.Mirrors.Statements
import Spellbook.Proofs.Token.Bodies

/-! One body in two layouts: on the line of its colon, or alone on a line below. Whatever stands
around it is read alike, and so is the body itself. -/
namespace Spellbook

/-- The tokens of one statement of one line, without the end of the line. -/
structure IsSimpleLine (line : List Token) : Prop where
  solid : ∀ t ∈ line, t.kind.isSolid = true
  undivided : ∀ t ∈ line, t.kind ≠ .symbol .semicolon
  first : ∃ t ∈ line.head?, t.kind.opensBody = false
  last : ∀ t ∈ line.getLast?, t.kind ≠ .symbol .colon

namespace Parser

theorem State.next_view_congr {s t : State} (h : s.view = t.view) : s.next.view = t.next.view := by
  obtain ⟨hcur, hahead⟩ := List.cons.inj h
  cases hs : s.ahead with
  | nil =>
    rw [hs] at hahead
    have ht : t.ahead = [] := List.map_eq_nil_iff.1 hahead.symm
    simpa [next, hs, ht] using h
  | cons c cs =>
    cases ht : t.ahead with
    | nil => simp [hs, ht] at hahead
    | cons d ds => simpa [next, hs, ht, view, tokens] using hahead

theorem State.cur_of_view_eq {s t : State} (h : s.view = t.view) : Like Token.bare s.cur t.cur :=
  (List.cons.inj h).1.symm

section Around

variable {D D' : List Token} {n : Nat} {s t : State}

/-- Before a colon outside of brackets that different tokens follow, or behind those. -/
def Around (D D' : List Token) (n : Nat) (s t : State) : Prop :=
  (∃ X, s.view = X ++ .colon :: D ∧ t.view = X ++ .colon :: D' ∧
    (X.map (·.kind)).foldl Lexer.nestingAfter n = 0) ∨ s.view = t.view

def AtColon (D D' : List Token) (s t : State) : Prop :=
  s.view = .colon :: D ∧ t.view = .colon :: D'

theorem AtColon.kind (h : AtColon D D' s t) : s.cur.kind = .symbol .colon :=
  State.kind_of_view h.1

theorem Around.same (h : Around D D' n s t) : Like Token.bare s.cur t.cur := by
  obtain ⟨X, hs, ht, -⟩ | h := h
  · cases X <;> exact (State.cur_of_view ht).trans (State.cur_of_view hs).symm
  · exact State.cur_of_view_eq h

theorem Around.next (h : Around D D' n s t) :
    (n = 0 ∧ AtColon D D' s t) ∨
      Around D D' (Lexer.nestingAfter n s.cur.kind) s.next t.next := by
  obtain ⟨X, hs, ht, hn⟩ | h := h
  · cases X with
    | nil => exact .inl ⟨hn, hs, ht⟩
    | cons x X =>
      rw [State.kind_of_view hs]
      exact .inr (.inl ⟨X, State.next_view hs (by simp), State.next_view ht (by simp), hn⟩)
  · exact .inr (.inr (State.next_view_congr h))

theorem Around.follows (h : Around D D' n s t) (hnot : s.cur.kind = .keyword .not_) :
    t.ahead.head?.map (·.kind) = s.ahead.head?.map (·.kind) := by
  obtain ⟨X, hs, ht, -⟩ | h := h
  · cases X with
    | nil =>
      rw [State.kind_of_view hs] at hnot
      cases hnot
    | cons x X =>
      rw [State.head_of_view hs, State.head_of_view ht]
      cases X <;> rfl
  · obtain ⟨b, bs, hb⟩ : ∃ b bs, t.view = b :: bs := ⟨_, _, rfl⟩
    rw [State.head_of_view hb, State.head_of_view (h.trans hb)]

end Around

/-- Nothing has been reported to the second parser, and the two are around a colon that different
tokens follow. -/
def BodyPairing.around (D D' : List Token) : BodyPairing where
  rel n s t := t.found = [] ∧ Around D D' n s t
  cur h _ := h.2.same
  follows h hnot := by rw [h.2.follows hnot]
  take := by
    rintro n s t ⟨hfound, h⟩ htaken
    obtain ⟨rfl, hcolon⟩ | hnext := h.next
    · rw [hcolon.kind] at htaken
      cases htaken
    · exact ⟨t.next_found.trans hfound, hnext⟩
  same h := h.2.same
  pass := by
    rintro s t ⟨hfound, h⟩ hkind
    obtain ⟨-, hcolon⟩ | hnext := h.next
    · rw [hcolon.kind] at hkind
      simp at hkind
    · refine ⟨t.next_found.trans hfound, ?_⟩
      obtain hk | hk := hkind <;> rwa [hk] at hnext
  marked s t := t.found = [] ∧ AtColon D D' s t
  body := by
    rintro s t ⟨hfound, h⟩ hkind
    obtain ⟨-, hcolon⟩ | hnext := h.next
    · exact .inl ⟨hfound, hcolon⟩
    · -- Behind any other colon the tokens are the same for as long as a block opens.
      rw [hkind] at hnext
      have hfound' : t.next.next.next.found = [] := by simpa using hfound
      refine .inr ⟨⟨t.next_found.trans hfound, hnext⟩, fun hline hindent => ⟨hfound', ?_⟩⟩
      obtain ⟨-, hcolon⟩ | hnext₂ := Around.next hnext
      · cases hcolon.kind.symm.trans hline
      · rw [hline] at hnext₂
        obtain ⟨-, hcolon⟩ | hnext₃ := Around.next hnext₂
        · cases hcolon.kind.symm.trans hindent
        · rw [hindent] at hnext₃
          exact hnext₃

/-! The two layouts -/

/-- The tokens behind the colon of a body that stands on its line. -/
def inlineBody (line more : List Token) : List Token := line ++ .lineEnd :: more

/-- The tokens behind the colon of a body that stands on a line below. -/
def blockBody (line more : List Token) : List Token :=
  .lineEnd :: .indent :: (line ++ .lineEnd :: .dedent :: more)

def Pairing.clean (P : Pairing) : Pairing where
  rel n s t := P.rel n s t ∧ t.found = []
  cur h := P.cur h.1
  follows h := P.follows h.1
  take h htaken := ⟨P.take h.1 htaken, (State.next_found _).trans h.2⟩

theorem not_ok_of_look {α : Type} {C : Kind → Prop} {k : Token → Parse α}
    (h : ∀ c : Token, C c.kind → Fails (k c)) {s s' : State} {a : α}
    (hok : (cur >>= k) s = .ok a s') : ¬ C s.cur.kind :=
  fun hC => h s.cur hC s a s' hok

theorem endsStatement_of_endStatement {s s' : State} {a : Unit} (h : endStatement s = .ok a s') :
    endsStatement s.cur.kind = true := by
  refine Bool.not_eq_false _ ▸ not_ok_of_look (C := (endsStatement · = false)) (fun c hc => ?_) h
  split
  · simp [‹c.kind = _›, endsStatement] at hc
  · simp [‹c.kind = _›, endsStatement] at hc
  · simp [‹c.kind = _›, endsStatement] at hc
  · simp [‹c.kind = _›, endsStatement] at hc
  · exact fails_unexpected _

theorem endsStatement_of_isSolid {k : Kind} (hk : k.isSolid = true) (hne : k ≠ .symbol .semicolon) :
    endsStatement k = false := by
  unfold endsStatement
  split
  · cases hk
  · exact absurd rfl hne
  · cases hk
  · cases hk
  · rfl

section Line

variable {line more more' : List Token} {f g : Nat} {s t : State}

theorem Pairing.ends_line (hmore : more ≠ []) (hmore' : more' ≠ []) :
    (Pairing.line (fun x => x.kind ≠ .symbol .semicolon) .lineEnd .lineEnd more more' rfl
      rfl).clean.Ends fun s t => s.view = more ∧ t.view = more' ∧ t.found = [] where
  iff := by
    rintro s t ⟨⟨line, hline, hs, ht⟩, -⟩
    cases line <;> rw [State.kind_of_view hs, State.kind_of_view ht]
  take := by
    rintro s t ⟨⟨line, hline, hs, ht⟩, hfound⟩ a s' hok
    have htake : ∀ u : State, u.cur.kind = .newline → endStatement u = .ok () u.next := by
      intro u hu
      simp [endStatement, Parser.cur, Bind.bind, EStateM.bind, hu, advance_eq, Pure.pure,
        EStateM.pure]
    cases line with
    | nil =>
      rw [htake s (State.kind_of_view hs)] at hok
      cases hok
      exact ⟨(), t.next, htake t (State.kind_of_view ht), rfl, State.next_view hs hmore,
        State.next_view ht hmore', t.next_found.trans hfound⟩
    | cons x line =>
      obtain ⟨hsolid, hx⟩ := hline x List.mem_cons_self
      have hends := endsStatement_of_endStatement hok
      rw [State.kind_of_view hs, endsStatement_of_isSolid hsolid hx] at hends
      cases hends

theorem mirrors_line (hline : IsSimpleLine line) (hmore : more ≠ []) (hmore' : more' ≠ [])
    (hfg : f ≤ g) :
    Mirrors (fun s t => s.view = inlineBody line more ∧ t.view = inlineBody line more' ∧
        t.found = [])
      (fun s t => s.view = more ∧ t.view = more' ∧ t.found = []) (stmt f) (stmt g)
      (Like Stmt.bare) := by
  cases f with
  | zero => exact .of_fails fails_outOfFuel
  | succ f =>
    obtain ⟨g, rfl⟩ := Nat.exists_eq_add_one.2 (Nat.lt_of_lt_of_le (Nat.succ_pos f) hfg)
    have hle := Nat.le_of_succ_le_succ hfg
    refine (Mirrors.lineStmt (p := .ofFuel f) (q := .ofFuel g) (Pairing.ends_line hmore hmore')
      (fun Q n => operandsMirror_exprAt hle Q n .lowest) hle).before ?_
    rintro s t ⟨hs, ht, hfound⟩
    refine ⟨⟨⟨line, fun x hx => ⟨hline.solid x hx, hline.undivided x hx⟩, hs, ht⟩, hfound⟩, ?_⟩
    obtain ⟨x, hx, hopens⟩ := hline.first
    obtain ⟨rest, rfl⟩ := List.head?_eq_some_iff.1 hx
    rw [State.kind_of_view hs, hopens]

/-- The line starts with a token that is written out and is none of those that `block`, `statements`
and `cases` tell apart. -/
theorem kind_of_inlineBody (hline : IsSimpleLine line) (hs : s.view = inlineBody line more) :
    s.cur.kind.isSolid = true ∧ s.cur.kind ≠ .symbol .semicolon ∧
      s.cur.kind.opensBody = false := by
  obtain ⟨x, hx, hopens⟩ := hline.first
  obtain ⟨rest, rfl⟩ := List.head?_eq_some_iff.1 hx
  rw [State.kind_of_view hs]
  exact ⟨hline.solid x List.mem_cons_self, hline.undivided x List.mem_cons_self, hopens⟩

theorem views_of_blockBody (h : s.view = .colon :: blockBody line more) :
    s.next.view = blockBody line more ∧
      s.next.next.view = .indent :: inlineBody line (.dedent :: more) ∧
      s.next.next.next.view = inlineBody line (.dedent :: more) := by
  have h₁ := State.next_view h (List.cons_ne_nil _ _)
  have h₂ := State.next_view h₁ (List.cons_ne_nil _ _)
  exact ⟨h₁, h₂, State.next_view h₂ (by simp [inlineBody])⟩

theorem exists_fuel {a : Stmt} (h : stmt f s = .ok a t) : ∃ f', f = f' + 1 := by
  cases f with
  | zero => exact absurd h (fails_outOfFuel _ _ _)
  | succ f => exact ⟨f, rfl⟩

/-! How blocks run -/

theorem expect_eq {c : Kind} (h : s.cur.kind = c) : expect c s = .ok s.cur s.next := by
  simp [expect, check, Bind.bind, EStateM.bind, h, advance_eq]

theorem of_expect {c : Kind} {a : Token} (h : expect c s = .ok a t) :
    s.cur.kind = c ∧ t = s.next := by
  by_cases hc : s.cur.kind = c
  · rw [expect_eq hc] at h
    cases h
    exact ⟨hc, rfl⟩
  · simp only [expect, check, Bind.bind, EStateM.bind, beq_iff_eq, hc, if_false] at h
    exact absurd h (fails_unexpected _ _ _ _)

theorem block_inline {p : Parts} (hcolon : s.cur.kind = .symbol .colon)
    (hline : s.next.cur.kind ≠ .newline) :
    block p s = (p.stmt >>= fun a => pure [a]) s.next := by
  simp [block, Bind.bind, EStateM.bind, expect_eq hcolon, check, hline]

theorem block_below {p : Parts} (hcolon : s.cur.kind = .symbol .colon)
    (hline : s.next.cur.kind = .newline) (hindent : s.next.next.cur.kind = .indent) :
    block p s = (do
      let body ← statements p.stmt endsBlock isSeparator p.fuel
      let _ ← accept .dedent
      return body) s.next.next.next := by
  simp [block, Bind.bind, EStateM.bind, expect_eq hcolon, check, hline, hindent, advance_eq]

theorem separates_of_isSolid {k : Kind} (hk : k.isSolid = true) (hne : k ≠ .symbol .semicolon) :
    endsBlock k = false ∧ isSeparator k = false ∧ k ≠ .indent := by
  refine ⟨?_, ?_, fun h => by simp [h, Kind.isSolid] at hk⟩
  · unfold endsBlock
    split
    · cases hk
    · cases hk
    · rfl
  · unfold isSeparator
    split
    · cases hk
    · exact absurd rfl hne
    · rfl

theorem statements_ok {x : Parse Stmt} {a : Stmt} {m : Nat} (hk : s.cur.kind.isSolid = true)
    (hne : s.cur.kind ≠ .symbol .semicolon) (hx : x s = .ok a t) :
    statements x endsBlock isSeparator (m + 1) s =
      (statements x endsBlock isSeparator m >>= fun more => pure (a :: more)) t := by
  obtain ⟨hends, hsep, hindent⟩ := separates_of_isSolid hk hne
  simp [statements, Parser.cur, Bind.bind, EStateM.bind, hends, hsep, hindent, outcome, hx]

theorem statements_error {x : Parse Stmt} {d : Diagnostic} {m : Nat}
    (hk : s.cur.kind.isSolid = true) (hne : s.cur.kind ≠ .symbol .semicolon)
    (hx : x s = .error (.complaint d) t) :
    statements x endsBlock isSeparator (m + 1) s = (do
      report d
      synchronize
      statements x endsBlock isSeparator m) t := by
  obtain ⟨hends, hsep, hindent⟩ := separates_of_isSolid hk hne
  simp [statements, Parser.cur, Bind.bind, EStateM.bind, hends, hsep, hindent, outcome, hx]

theorem statements_outOfFuel {x : Parse Stmt} {m : Nat} (hk : s.cur.kind.isSolid = true)
    (hne : s.cur.kind ≠ .symbol .semicolon) (hx : x s = .error .outOfFuel t) :
    statements x endsBlock isSeparator (m + 1) s = .error .outOfFuel t := by
  obtain ⟨hends, hsep, hindent⟩ := separates_of_isSolid hk hne
  simp [statements, Parser.cur, Bind.bind, EStateM.bind, hends, hsep, hindent, outcome, hx]

theorem statements_dedent {x : Parse Stmt} (hdedent : s.cur.kind = .dedent) (m : Nat) :
    statements x endsBlock isSeparator (m + 1) s = .ok [] s := by
  simp [statements, Parser.cur, Bind.bind, EStateM.bind, hdedent, endsBlock, Pure.pure,
    EStateM.pure]

theorem accept_dedent (hdedent : s.cur.kind = .dedent) : accept .dedent s = .ok true s.next := by
  simp [accept, check, Bind.bind, EStateM.bind, hdedent, advance_eq, Pure.pure, EStateM.pure]

/-- No state is paired with any other. What is asked of one parser alone is all that is left. -/
def BodyPairing.never : BodyPairing where
  rel _ _ _ := False
  cur := nofun
  follows := nofun
  take := nofun
  same := nofun
  pass := nofun
  marked _ _ := False
  body := nofun

theorem silent_statements (f m : Nat) :
    Silent (statements (stmt f) endsBlock isSeparator m) := by
  have hmarked : BodyPairing.never.ReadsMarked := ⟨fun _ _ _ h => h.elim, fun _ _ _ h => h.elim⟩
  refine (Echoes.statements (P := .never) (Echoes.stmt hmarked (Nat.lt_succ_self f)) _ _
    (fun k hk => ?_) (Nat.le_refl m)).silent
  unfold isSeparator at hk
  split at hk
  · exact .inl rfl
  · exact .inr (.inr rfl)
  · cases hk

theorem not_line_of_cases {p : Parts} {default : Option (List Stmt)}
    {r : List (Expr × List Stmt) × Option (List Stmt)} (h : cases p default f s = .ok r t) :
    ¬ (s.cur.kind.isSolid = true ∧ s.cur.kind.opensBody = false) := by
  cases f with
  | zero => exact absurd h (fails_outOfFuel _ _ _)
  | succ f =>
    refine not_ok_of_look (C := fun k => k.isSolid = true ∧ k.opensBody = false)
      (fun c hc => ?_) h
    split
    case h_6 => exact fails_unexpected _
    all_goals simp [‹c.kind = _›, Kind.isSolid, Kind.opensBody] at hc

section Marked

variable (hline : IsSimpleLine line) (hmore : more ≠ [])

include hline hmore

theorem readsMarked_inline :
    (BodyPairing.around (inlineBody line more) (blockBody line more)).ReadsMarked where
  block := by
    rintro f g hfg s t ⟨hfound, hs, ht⟩ a s' hok -
    have hs₁ := State.next_view hs (by simp [inlineBody])
    obtain ⟨ht₁, ht₂, ht₃⟩ := views_of_blockBody ht
    obtain ⟨hsolid, -, -⟩ := kind_of_inlineBody hline hs₁
    rw [block_inline (State.kind_of_view hs) fun h => by simp [h, Kind.isSolid] at hsolid] at hok
    obtain ⟨b, s₂, hstmt, hpure⟩ := bind_eq_ok.1 hok
    cases hpure
    obtain ⟨b', t₄, hstmt', hlike, hs₂, ht₄, hfound₄⟩ :=
      mirrors_line hline hmore (List.cons_ne_nil _ _) (Nat.le_of_lt hfg) _ _
        ⟨hs₁, ht₃, by simpa using hfound⟩ b s' hstmt
    -- The block has its statement and no more, so that two rounds are enough.
    obtain ⟨f, rfl⟩ := exists_fuel hstmt
    obtain ⟨g, rfl⟩ : ∃ g', g = g' + 2 := ⟨g - 2, by omega⟩
    obtain ⟨hsolid', hsemi', -⟩ := kind_of_inlineBody hline ht₃
    have hbody : statements (stmt (g + 2)) endsBlock isSeparator (g + 2) t.next.next.next =
        .ok [b'] t₄ := by
      rw [statements_ok hsolid' hsemi' hstmt']
      exact bind_eq_ok.2 ⟨[], t₄, statements_dedent (State.kind_of_view ht₄) g, rfl⟩
    refine ⟨[b'], t₄.next, ?_, by simp only [Like, Stmt.bareAll, hlike],
      t₄.next_found.trans hfound₄, .inr (hs₂.trans (State.next_view ht₄ hmore).symm)⟩
    rw [block_below (State.kind_of_view ht) (State.kind_of_view ht₁) (State.kind_of_view ht₂)]
    exact bind_eq_ok.2 ⟨[b'], t₄, hbody,
      bind_eq_ok.2 ⟨true, t₄.next, accept_dedent (State.kind_of_view ht₄), rfl⟩⟩
  cases := by
    rintro f s t ⟨-, hs, -⟩ r s' hok
    obtain ⟨hsolid, -, -⟩ := kind_of_inlineBody hline (State.next_view hs (by simp [inlineBody]))
    obtain ⟨_, s₁, hcolon, hok⟩ := bind_eq_ok.1 hok
    obtain ⟨_, s₂, hnewline, -⟩ := bind_eq_ok.1 hok
    obtain ⟨-, rfl⟩ := of_expect hcolon
    rw [(of_expect hnewline).1] at hsolid
    cases hsolid

theorem readsMarked_block :
    (BodyPairing.around (blockBody line more) (inlineBody line more)).ReadsMarked where
  block := by
    rintro f g hfg s t ⟨hfound, hs, ht⟩ a s' hok hclean
    have ht₁ := State.next_view ht (by simp [inlineBody])
    obtain ⟨hs₁, hs₂, hs₃⟩ := views_of_blockBody hs
    obtain ⟨hsolid, hsemi, -⟩ := kind_of_inlineBody hline hs₃
    rw [block_below (State.kind_of_view hs) (State.kind_of_view hs₁) (State.kind_of_view hs₂)]
      at hok
    obtain ⟨body, s₅, hbody, hok⟩ := bind_eq_ok.1 hok
    obtain ⟨_, s₆, hdedent, hpure⟩ := bind_eq_ok.1 hok
    cases hpure
    have hfound₅ : s₅.found = [] := (Keeps.accept .dedent).silent _ _ _ hdedent hclean
    -- The first statement of the block is that of the line, and the second round finds its end.
    obtain ⟨f, rfl⟩ : ∃ f', f = f' + 1 := by
      cases f with
      | zero => exact absurd hbody (fails_outOfFuel _ _ _)
      | succ f => exact ⟨f, rfl⟩
    cases hstmt : stmt (f + 1) s.next.next.next with
    | error halt s₄ =>
      cases halt with
      | complaint d =>
        rw [Parts.ofFuel, statements_error hsolid hsemi hstmt] at hbody
        refine absurd hfound₅ (Loud.report d (k := fun _ => do
          synchronize
          statements (stmt (f + 1)) endsBlock isSeparator f) ?_ _ _ _ hbody)
        exact Silent.bind (fun _ _ _ hok h => by cases hok; exact h) fun _ => silent_statements _ _
      | outOfFuel => cases (statements_outOfFuel hsolid hsemi hstmt).symm.trans hbody
    | ok b s₄ =>
      obtain ⟨b', t₂, hstmt', hlike, hs₄, ht₂, hfound₂⟩ :=
        mirrors_line hline (List.cons_ne_nil _ _) hmore (Nat.le_of_lt hfg) _ _
          ⟨hs₃, ht₁, by simpa using hfound⟩ b s₄ hstmt
      rw [Parts.ofFuel, statements_ok hsolid hsemi hstmt] at hbody
      obtain ⟨rest, s₄', hrest, hpure⟩ := bind_eq_ok.1 hbody
      cases hpure
      obtain ⟨f, rfl⟩ : ∃ f', f = f' + 1 := by
        cases f with
        | zero => exact absurd hrest (fails_outOfFuel _ _ _)
        | succ f => exact ⟨f, rfl⟩
      rw [statements_dedent (State.kind_of_view hs₄)] at hrest
      cases hrest
      rw [accept_dedent (State.kind_of_view hs₄)] at hdedent
      cases hdedent
      refine ⟨[b'], t₂, ?_, by simp only [Like, Stmt.bareAll, hlike], hfound₂,
        .inr ((State.next_view hs₄ hmore).trans ht₂.symm)⟩
      obtain ⟨hsolid', -, -⟩ := kind_of_inlineBody hline ht₁
      rw [block_inline (State.kind_of_view ht) fun h => by simp [h, Kind.isSolid] at hsolid']
      exact bind_eq_ok.2 ⟨b', t₂, hstmt', rfl⟩
  cases := by
    rintro f s t ⟨-, hs, -⟩ r s' hok
    obtain ⟨hs₁, hs₂, hs₃⟩ := views_of_blockBody hs
    obtain ⟨hsolid, -, hopens⟩ := kind_of_inlineBody hline hs₃
    obtain ⟨_, s₁, hcolon, hok⟩ := bind_eq_ok.1 hok
    obtain ⟨-, rfl⟩ := of_expect hcolon
    obtain ⟨_, s₂, hnewline, hok⟩ := bind_eq_ok.1 hok
    obtain ⟨-, rfl⟩ := of_expect hnewline
    obtain ⟨_, s₃, hindent, hcases⟩ := bind_eq_ok.1 hok
    obtain ⟨-, rfl⟩ := of_expect hindent
    exact not_line_of_cases hcases ⟨hsolid, hopens⟩

end Marked

end Line

end Parser

end Spellbook
