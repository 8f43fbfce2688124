import Spellbook.Proofs.Token.Steps

/-! INDENT and DEDENT on every text, well-formed or not. The width stack is strictly increasing from
0 in every state, and its height says how many blocks the tokens so far have left open. -/
namespace Spellbook

/-- The complaint about a width that no open block has. -/
def Token.isUneven (t : Token) : Bool :=
  t.kind == .illegal && t.literal == some (.str Flaw.unevenDedent.reason)

/-- An INDENT, or a complaint that opens a block in its place. -/
def Token.opens (t : Token) : Bool := t.kind == .indent || t.isUneven

def Token.closes (t : Token) : Bool := t.kind == .dedent

/-- The list leads from `before` open levels to `after`, and closes none that is not open. -/
structure Accounts {α : Type} (opens closes : α → Bool) (before : Nat) (xs : List α)
    (after : Nat) : Prop where
  total : before + xs.countP opens = after + xs.countP closes
  part : ∀ p, p <+: xs → p.countP closes ≤ before + p.countP opens

namespace Accounts

variable {α : Type} {opens closes : α → Bool} {n k j : Nat} {xs ys : List α} {x : α}

theorem nil (n : Nat) : Accounts opens closes n [] n where
  total := rfl
  part p hp := by simp [List.prefix_nil.1 hp]

theorem append (h : Accounts opens closes n xs k) (h' : Accounts opens closes k ys j) :
    Accounts opens closes n (xs ++ ys) j where
  total := by
    have hx := h.total
    have hy := h'.total
    simp only [List.countP_append]
    omega
  part p hp := by
    have hx := h.total
    by_cases hlen : p.length ≤ xs.length
    · exact h.part p (List.prefix_of_prefix_length_le hp (List.prefix_append xs ys) hlen)
    · obtain ⟨q, rfl⟩ := List.prefix_of_prefix_length_le (List.prefix_append xs ys) hp (by omega)
      have hq := h'.part q ((List.prefix_append_right_inj xs).1 hp)
      simp only [List.countP_append]
      omega

theorem single (h : n + (opens x).toNat = k + (closes x).toNat) :
    Accounts opens closes n [x] k := by
  have ho : [x].countP opens = (opens x).toNat := by cases ho : opens x <;> simp [ho]
  have hc : [x].countP closes = (closes x).toNat := by cases hc : closes x <;> simp [hc]
  refine ⟨by omega, fun p hp => ?_⟩
  obtain rfl | rfl : p = [] ∨ p = [x] := by simpa using List.prefix_cons_iff.1 hp
  · simp
  · omega

theorem other (ho : opens x = false) (hc : closes x = false) : Accounts opens closes n [x] n :=
  single (by simp [ho, hc])

theorem opened (ho : opens x = true) (hc : closes x = false) :
    Accounts opens closes n [x] (n + 1) :=
  single (by simp [ho, hc])

theorem closed (hc : closes x = true) (ho : opens x = false) :
    Accounts opens closes (n + 1) [x] n :=
  single (by simp [ho, hc])

theorem replicate (hc : closes x = true) (ho : opens x = false) (n k : Nat) :
    Accounts opens closes (n + k) (List.replicate k x) n := by
  induction k with
  | zero => exact nil n
  | succ k ih =>
    have h : Accounts opens closes (n + k + 1) ([x] ++ List.replicate k x) n :=
      (closed hc ho).append ih
    simpa [List.replicate_succ, Nat.add_assoc] using h

theorem cons_iff : Accounts opens closes n (x :: xs) k ↔ (closes x).toNat ≤ n + (opens x).toNat ∧
    Accounts opens closes (n + (opens x).toNat - (closes x).toNat) xs k := by
  have hcount : ∀ (p : α → Bool) (ys : List α), (x :: ys).countP p = (p x).toNat + ys.countP p := by
    intro p ys
    cases hp : p x <;> simp [hp, Nat.add_comm]
  constructor
  · intro h
    have hfirst := h.part [x] (by simp)
    have htotal := h.total
    simp only [hcount, List.countP_nil] at hfirst htotal
    refine ⟨by omega, by omega, fun p hp => ?_⟩
    have hpart := h.part (x :: p) (by simpa using hp)
    simp only [hcount] at hpart
    omega
  · rintro ⟨hfirst, h⟩
    have hsingle : Accounts opens closes n [x] (n + (opens x).toNat - (closes x).toNat) :=
      single (by omega)
    exact hsingle.append h

instance decidable (opens closes : α → Bool) : (n : Nat) → (xs : List α) → (k : Nat) →
    Decidable (Accounts opens closes n xs k)
  | n, [], k => decidable_of_iff (n = k) ⟨fun h => h ▸ nil n, fun h => by simpa using h.total⟩
  | n, x :: xs, k =>
    have := decidable opens closes (n + (opens x).toNat - (closes x).toNat) xs k
    decidable_of_iff _ cons_iff.symm

end Accounts

abbrev BlockAccounts := Accounts Token.opens Token.closes

/-! Illegal tokens say what their errors say -/

/-- The token is illegal if it stands for an error, and then carries the complaint. -/
structure Lexed.Honest (l : Lexed) : Prop where
  illegal : l.token.kind = .illegal ↔ l.error.isSome = true
  reason : ∀ e ∈ l.error, l.token.literal = some (.str e.flaw.reason)

theorem Flaw.length_unexpectedChar (c : Char) : (Flaw.unexpectedChar c).reason.length = 24 := by
  show ("unexpected character '" ++ String.singleton c ++ "'").length = 24
  rw [String.length_append, String.length_append, String.length_singleton]
  decide

theorem Flaw.reason_unexpectedChar_inj {c c' : Char}
    (h : (Flaw.unexpectedChar c).reason = (Flaw.unexpectedChar c').reason) : c = c' := by
  change "unexpected character '" ++ String.singleton c ++ "'" =
    "unexpected character '" ++ String.singleton c' ++ "'" at h
  simpa only [String.append_left_inj, String.append_right_inj, String.singleton_inj] using h

theorem Flaw.reason_inj {f g : Flaw} (h : f.reason = g.reason) : f = g := by
  have hlength := congrArg String.length h
  cases f with
  | unexpectedChar c =>
    rw [length_unexpectedChar] at hlength
    cases g with
    | unexpectedChar c' => rw [reason_unexpectedChar_inj h]
    | _ => exact absurd hlength (by decide)
  | _ =>
    cases g with
    | unexpectedChar c' =>
      rw [length_unexpectedChar] at hlength
      exact absurd hlength (by decide)
    | _ => first | rfl | exact absurd hlength (by decide)

theorem Lexed.Honest.isUneven_iff {l : Lexed} (h : l.Honest) :
    l.token.isUneven = true ↔ ∃ e ∈ l.error, e.flaw = .unevenDedent := by
  simp only [Token.isUneven, Bool.and_eq_true, beq_iff_eq]
  constructor
  · intro ⟨hk, hl⟩
    obtain ⟨e, he⟩ := Option.isSome_iff_exists.1 (h.illegal.1 hk)
    have hreason := h.reason e he
    rw [hl] at hreason
    simp only [Option.some.injEq, Literal.str.injEq] at hreason
    exact ⟨e, he, Flaw.reason_inj hreason.symm⟩
  · intro ⟨e, he, hf⟩
    have hsome : l.error.isSome = true := by simp [Option.mem_def.1 he]
    exact ⟨h.illegal.2 hsome, by rw [h.reason e he, hf]⟩

/-- A scanned token is illegal if it has a flaw, and is never a matter of blocks. -/
structure Scan.Honest (t : Scan) : Prop where
  illegal : t.kind = .illegal ↔ t.flaw.isSome = true
  reason : ∀ f ∈ t.flaw, t.literal = some (.str f.reason) ∧ f ≠ .unevenDedent
  indent : t.kind ≠ .indent
  dedent : t.kind ≠ .dedent

namespace Scan

theorem honest_plain {t : Scan} (hf : t.flaw = none)
    (hk : t.kind ∉ [.illegal, .indent, .dedent]) : t.Honest := by
  simp only [List.mem_cons, List.not_mem_nil, or_false, not_or] at hk
  exact ⟨by simp [hf, hk.1], by simp [hf], hk.2.1, hk.2.2⟩

theorem honest_string {kind : Kind} (hk : kind ∉ [.illegal, .indent, .dedent])
    (opening : List Char) (q : Char) (cs : List Char) :
    (Scan.string kind opening q cs).Honest := by
  have hbody : ∀ (b : Body) opening, (b.toScan kind opening).Honest := by
    intro b opening
    by_cases hb : b.closed
    · exact honest_plain (by simp [Body.toScan, hb]) (by simpa [Body.toScan, hb] using hk)
    · simp only [Body.toScan, hb, Bool.false_eq_true, if_false]
      exact ⟨by simp, by simp, by simp, by simp⟩
  simp only [Scan.string]
  split <;> exact hbody _ _

theorem honest_number (cs : List Char) : (number cs).Honest := by
  simp only [number]
  split
  · split <;> exact honest_plain rfl (by simp)
  · exact honest_plain rfl (by simp)

theorem honest_word (cs : List Char) : (word cs).Honest := by
  simp only [word]
  split <;> exact honest_plain rfl (by simp)

end Scan

theorem honest_scan (c : Char) (cs : List Char) : (scan c cs).Honest := by
  simp only [scan]
  split
  · exact Scan.honest_string (by simp) _ _ _
  · split
    · exact Scan.honest_string (by simp) _ _ _
    · split
      · exact Scan.honest_plain rfl (by simp)
      · split
        · exact Scan.honest_number _
        · split
          · exact Scan.honest_word _
          · split
            · exact Scan.honest_plain rfl (by simp)
            · exact ⟨by simp [Scan.unexpected], by simp [Scan.unexpected],
                by simp [Scan.unexpected], by simp [Scan.unexpected]⟩

structure Lexed.Plain (l : Lexed) : Prop extends l.Honest where
  opens : l.token.opens = false
  closes : l.token.closes = false

namespace Lexer

theorem honest_mark {kind : Kind} (hk : kind ≠ .illegal) (pos : Pos) : (mark kind pos).Honest :=
  ⟨by simp [mark, hk], by simp [mark]⟩

theorem plain_lineEnd (pos : Pos) : (lineEnd pos).Plain :=
  ⟨⟨by simp [lineEnd], by simp [lineEnd]⟩, rfl, rfl⟩

theorem plain_openComment (s : Lexer) (text : List Char) : (s.openComment text).Plain := by
  have hne : Flaw.openComment.reason ≠ Flaw.unevenDedent.reason := fun h =>
    nomatch Flaw.reason_inj h
  refine ⟨⟨by simp [openComment], by simp [openComment]⟩, ?_, rfl⟩
  simp [openComment, Token.opens, Token.isUneven, hne]

theorem plain_place (s : Lexer) (c : Char) (cs : List Char) : (s.place (scan c cs)).Plain := by
  have h := honest_scan c cs
  have hplaced : (s.place (scan c cs)).Honest := by
    constructor
    · simpa [place] using h.illegal
    · intro e he
      simp only [place, Option.mem_def, Option.map_eq_some_iff] at he
      obtain ⟨f, hf, rfl⟩ := he
      exact (h.reason f hf).1
  have huneven : (s.place (scan c cs)).token.isUneven = false := by
    refine Bool.eq_false_iff.2 fun hu => ?_
    obtain ⟨e, he, hf⟩ := hplaced.isUneven_iff.1 hu
    simp only [place, Option.mem_def, Option.map_eq_some_iff] at he
    obtain ⟨f, hflaw, rfl⟩ := he
    exact (h.reason f hflaw).2 hf
  have hindent : (s.place (scan c cs)).token.kind ≠ .indent := h.indent
  have hdedent : (s.place (scan c cs)).token.kind ≠ .dedent := h.dedent
  exact ⟨hplaced, by simp [Token.opens, hindent, huneven], by simp [Token.closes, hdedent]⟩

/-- What a step can do: look at the indentation of a line, end the text, or find one token at most
and leave the widths alone. -/
theorem step_cases (s : Lexer) :
    s.step = (s.layout.1, some s.layout.2) ∨ s.step = (s.skipBlanks.finish, none) ∨
      ∃ found next, s.step = (found, some next) ∧ next.indents = s.indents ∧
        (found = [] ∨ ∃ l, found = [l] ∧ l.Plain) := by
  cases hstart : s.atStart with
  | true => exact .inl (step_look hstart)
  | false =>
    obtain ⟨-, hstep⟩ | ⟨found, next, hstep, hmove⟩ := step_moves hstart
    · exact .inr (.inl hstep)
    · refine .inr (.inr ⟨found, next, hstep, ?_⟩)
      cases hmove with
      | inside | lineComment | blockComment => exact ⟨rfl, .inl rfl⟩
      | newline =>
        refine ⟨rfl, ?_⟩
        split
        · exact .inr ⟨_, rfl, plain_lineEnd _⟩
        · exact .inl rfl
      | openComment => exact ⟨rfl, .inr ⟨_, rfl, plain_openComment _ _⟩⟩
      | token => exact ⟨rfl, .inr ⟨_, rfl, plain_place _ _ _⟩⟩

/-- What the look at a line can do: find an unfinished comment or nothing, or compare widths. -/
theorem layout_cases (s : Lexer) :
    (∃ (s' : Lexer) (width : Nat), s.layout = s'.applyIndent width ∧ s'.indents = s.indents) ∨
      ∃ found next, s.layout = (found, next) ∧ next.indents = s.indents ∧
        (found = [] ∨ ∃ l, found = [l] ∧ l.Plain) := by
  simp only [layout]
  split
  · exact .inr ⟨_, _, rfl, rfl, .inl rfl⟩
  · split
    · split
      · exact .inr ⟨_, _, rfl, rfl, .inr ⟨_, rfl, plain_openComment _ _⟩⟩
      · split
        · exact .inr ⟨_, _, rfl, rfl, .inl rfl⟩
        · exact .inl ⟨_, _, rfl, rfl⟩
    · exact .inl ⟨_, _, rfl, rfl⟩

theorem Finds.honest {s : Lexer} {l : Lexed} (h : s.Finds l) : l.Honest := by
  cases h with
  | lineEnd => exact (plain_lineEnd _).toHonest
  | indent | dedent => exact honest_mark (by decide) _
  | uneven => exact ⟨by simp [unevenDedent], by simp [unevenDedent]⟩
  | openComment => exact (plain_openComment _ _).toHonest
  | token => exact (plain_place _ _ _).toHonest

theorem honest_run (s : Lexer) : ∀ l ∈ s.run, l.Honest := by
  intro l hl
  obtain ⟨m, -, hm | rfl⟩ := mem_run hl
  · exact hm.honest
  · exact honest_mark (by decide) _

end Lexer

/-! The width stack -/

/-- Widths of open blocks, the innermost first: each is greater than the one around it, and the
outermost is 0. -/
structure Stacked (indents : List Nat) : Prop where
  sorted : indents.Pairwise (· > ·)
  last : indents.getLast? = some 0

theorem Stacked.cons {width w : Nat} {ws : List Nat} (h : Stacked (w :: ws)) (hlt : w < width) :
    Stacked (width :: w :: ws) where
  sorted := by
    have hsorted := h.sorted
    simp only [List.pairwise_cons] at hsorted ⊢
    refine ⟨?_, hsorted⟩
    intro v hv
    obtain rfl | hv := List.mem_cons.1 hv
    · exact hlt
    · have hvw := hsorted.1 v hv
      omega
  last := by simpa using h.last

/-- A line keeps the blocks that are not wider than it is. There always is one: the whole text. -/
theorem Stacked.kept {indents : List Nat} (h : Stacked indents) (width : Nat) :
    ∃ w ws, indents.dropWhile (width < ·) = w :: ws ∧ w ≤ width ∧ Stacked (w :: ws) := by
  induction indents with
  | nil => simpa using h.last
  | cons v rest ih =>
    by_cases hv : width < v
    · have hrest : Stacked rest := by
        refine ⟨h.sorted.tail, ?_⟩
        cases rest with
        | nil =>
          have hzero : v = 0 := by simpa using h.last
          omega
        | cons u rest => simpa using h.last
      simpa [List.dropWhile_cons, hv] using ih hrest
    · exact ⟨v, rest, by simp [hv], by omega, h⟩

namespace Lexer

def openBlocks (s : Lexer) : Nat := s.indents.length - 1

/-- The tokens found lead from the blocks open in one state to those open in the next. -/
structure Settled (s : Lexer) (found : List Lexed) (next : Lexer) : Prop where
  accounts : BlockAccounts s.openBlocks (found.map (·.token)) next.openBlocks
  stacked : Stacked next.indents

theorem Settled.few {s next : Lexer} {found : List Lexed} (hs : Stacked s.indents)
    (hi : next.indents = s.indents) (hfound : found = [] ∨ ∃ l, found = [l] ∧ l.Plain) :
    Settled s found next := by
  refine ⟨?_, hi ▸ hs⟩
  obtain rfl | ⟨l, rfl, hl⟩ := hfound
  · simpa [openBlocks, hi] using Accounts.nil _
  · simpa [openBlocks, hi] using Accounts.other hl.opens hl.closes

theorem settled_applyIndent {s : Lexer} (hs : Stacked s.indents) (width : Nat) :
    Settled s (s.applyIndent width).1 (s.applyIndent width).2 := by
  have hdedent : ∀ pos, (mark .dedent pos).token.closes = true ∧
      (mark .dedent pos).token.opens = false := fun _ => ⟨rfl, rfl⟩
  have hindent : ∀ pos, (mark .indent pos).token.opens = true ∧
      (mark .indent pos).token.closes = false := fun _ => ⟨rfl, rfl⟩
  have huneven : ∀ pos, (unevenDedent pos).token.opens = true ∧
      (unevenDedent pos).token.closes = false :=
    fun _ => ⟨by simp [Token.opens, Token.isUneven, unevenDedent], rfl⟩
  obtain ⟨w, ws, hkept, hle, hstacked⟩ := hs.kept width
  have hlength : (s.indents.dropWhile (width < ·)).length ≤ s.indents.length :=
    (List.dropWhile_suffix _).length_le
  rw [hkept, List.length_cons] at hlength
  simp only [applyIndent, hkept]
  -- A wider line opens a block. Any other closes the wider blocks, and then its width is that of the
  -- block it is in, or the mark of an uneven line opens one for it.
  split
  · rename_i hdeeper
    cases hi : s.indents with
    | nil => simp [hi] at hlength
    | cons v vs =>
      have hv : v < width := by simpa [hi] using hdeeper
      refine ⟨?_, (hi ▸ hs).cons hv⟩
      simpa [openBlocks, hi] using Accounts.opened (hindent _).1 (hindent _).2
  · have hclosed := fun pos => Accounts.replicate (hdedent pos).1 (hdedent pos).2 ws.length
      (s.indents.length - (w :: ws).length)
    have hopen : ws.length + (s.indents.length - (w :: ws).length) = s.openBlocks := by
      simp only [openBlocks, List.length_cons]
      omega
    rw [hopen] at hclosed
    split
    · refine ⟨?_, hstacked⟩
      simpa [openBlocks] using hclosed _
    · rename_i hne
      have hlt : w < width := by
        simp only [List.headD_cons] at hne
        omega
      refine ⟨?_, hstacked.cons hlt⟩
      have hall := (hclosed ⟨s.pos.line, width + 1⟩).append
        (Accounts.opened (huneven ⟨s.pos.line, width + 1⟩).1 (huneven _).2)
      simpa [openBlocks] using hall

theorem settled_layout {s : Lexer} (hs : Stacked s.indents) : Settled s s.layout.1 s.layout.2 := by
  obtain ⟨s', width, h, hi⟩ | ⟨found, next, h, hi, hfound⟩ := s.layout_cases
  · have happly := settled_applyIndent (hi ▸ hs : Stacked s'.indents) width
    rw [h]
    exact ⟨by simpa [openBlocks, hi] using happly.accounts, happly.stacked⟩
  · rw [h]
    exact .few hs hi hfound

theorem accounts_finish (s : Lexer) : BlockAccounts s.openBlocks (s.finish.map (·.token)) 0 := by
  have hline : BlockAccounts s.openBlocks
      ((if s.hasTokens then [lineEnd s.pos] else []).map (·.token)) s.openBlocks := by
    split
    · exact .other rfl rfl
    · exact .nil _
  have hclosed : BlockAccounts (0 + s.openBlocks) _ 0 :=
    .replicate (x := (mark .dedent s.pos).token) rfl rfl 0 s.openBlocks
  have hend : BlockAccounts 0 [(mark .eof s.pos).token] 0 := .other rfl rfl
  rw [Nat.zero_add] at hclosed
  simpa [finish, openBlocks] using (hline.append hclosed).append hend

theorem settled_step {s next : Lexer} {found : List Lexed} (hs : Stacked s.indents)
    (h : s.step = (found, some next)) : Settled s found next := by
  obtain h' | h' | ⟨found', next', h', hi, hfound⟩ := s.step_cases
  · rw [h] at h'
    simp only [Prod.mk.injEq, Option.some.injEq] at h'
    rw [h'.1, h'.2]
    exact settled_layout hs
  · simp [h] at h'
  · rw [h] at h'
    simp only [Prod.mk.injEq, Option.some.injEq] at h'
    rw [h'.1, h'.2]
    exact .few hs hi hfound

theorem accounts_end {s : Lexer} {found : List Lexed} (h : s.step = (found, none)) :
    BlockAccounts s.openBlocks (found.map (·.token)) 0 := by
  obtain h' | h' | ⟨found', next', h', _⟩ := s.step_cases
  · simp [h] at h'
  · simp only [h, Prod.mk.injEq, and_true] at h'
    rw [h']
    exact accounts_finish s.skipBlanks
  · simp [h] at h'

theorem accounts_run {s : Lexer} (hs : Stacked s.indents) :
    BlockAccounts s.openBlocks (s.run.map (·.token)) 0 := by
  fun_induction run s with
  | case1 s found h => exact accounts_end h
  | case2 s found next h ih =>
    have hstep := settled_step hs h
    rw [List.map_append]
    exact hstep.accounts.append (ih hstep.stacked)

/-- The states that the lexer goes through on a text. -/
inductive Reached (source : String) : Lexer → Prop where
  | start : Reached source (start source.toList)
  | step {s next : Lexer} {found : List Lexed} :
    Reached source s → s.step = (found, some next) → Reached source next

theorem stacked_start (cs : List Char) : Stacked (start cs).indents := by
  simp only [start]
  exact ⟨List.pairwise_singleton _ _, rfl⟩

theorem Reached.stacked {source : String} {s : Lexer} (h : Reached source s) :
    Stacked s.indents := by
  induction h with
  | start => exact stacked_start _
  | step _ hstep ih => exact (settled_step ih hstep).stacked

end Lexer

theorem countP_isUneven (ls : List Lexed) (h : ∀ l ∈ ls, l.Honest) :
    (ls.map (·.token)).countP Token.isUneven =
      (ls.filterMap (·.error)).countP (·.flaw == .unevenDedent) := by
  induction ls with
  | nil => rfl
  | cons l ls ih =>
    have ih := ih fun l' hl' => h l' (List.mem_cons_of_mem l hl')
    have hiff := (h l List.mem_cons_self).isUneven_iff
    cases he : l.error with
    | none =>
      have hl : l.token.isUneven = false := by simpa [he] using hiff
      simpa [he, hl] using ih
    | some e =>
      have hl : l.token.isUneven = (e.flaw == .unevenDedent) := by
        rw [Bool.eq_iff_iff, hiff]
        simp [he]
      simp [he, hl, ih, List.countP_cons]

theorem countP_opens (ts : List Token) : ts.countP Token.opens =
    ts.countP (·.kind == .indent) + ts.countP Token.isUneven := by
  induction ts with
  | nil => rfl
  | cons t ts ih =>
    by_cases hi : t.kind = .indent
    · have hu : t.isUneven = false := by simp [Token.isUneven, hi]
      simp [ih, Token.opens, hi, hu]
      omega
    · simp [List.countP_cons, ih, Token.opens, hi]
      omega

/-- In the tokens of any text there are as many DEDENTs as INDENTs and complaints about uneven
widths, and no stretch from the start has more of them. The widths of the open blocks increase
strictly from 0 in every state of the lexer. -/
theorem dedents_accounted (source : String) :
    (tokensOf source).countP (·.kind == .dedent) = (tokensOf source).countP (·.kind == .indent) +
        (lexErrorsOf source).countP (·.flaw == .unevenDedent) ∧
      (∀ p, p <+: tokensOf source → p.countP (·.kind == .dedent) ≤
        p.countP (·.kind == .indent) + p.countP Token.isUneven) ∧
      ∀ s, Lexer.Reached source s →
        s.indents.reverse.Pairwise (· < ·) ∧ s.indents.reverse.head? = some 0 := by
  have haccounts : BlockAccounts 0 (tokensOf source) 0 :=
    Lexer.accounts_run (Lexer.stacked_start source.toList)
  have huneven := countP_isUneven (lex source) (Lexer.honest_run _)
  refine ⟨?_, fun p hp => ?_, fun s hs => ?_⟩
  · have htotal := haccounts.total
    rw [countP_opens] at htotal
    simp only [Nat.zero_add] at htotal
    rw [lexErrorsOf, ← huneven]
    exact htotal.symm
  · have hpart := haccounts.part p hp
    rw [countP_opens, Nat.zero_add] at hpart
    exact hpart
  · have hstacked := hs.stacked
    exact ⟨List.pairwise_reverse.2 hstacked.sorted, by simpa using hstacked.last⟩

/-- A line between two open widths, and one below both. -/
theorem dedents_accounted_uneven :
    ((tokensOf "a\n    b\n  c\nd").take 8).countP (·.kind == .dedent) = 1 ∧
      ((tokensOf "a\n    b\n  c\nd").take 8).countP (·.kind == .dedent) ≤
        ((tokensOf "a\n    b\n  c\nd").take 8).countP (·.kind == .indent) +
          ((tokensOf "a\n    b\n  c\nd").take 8).countP Token.isUneven :=
  ⟨by decide +kernel, (dedents_accounted _).2.1 _ (List.take_prefix 8 _)⟩

end Spellbook
