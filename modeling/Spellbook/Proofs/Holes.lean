import Mathlib.Data.List.Forall2
import Spellbook.Proofs.Program.Parser.Mirrors.Expressions

/-! What is read of the holes of a template. All characters of a template belong to one of its
parts, and the first line of a hole is that of its expression, without anything behind it. The lines
below it are not looked at, but for a lexical error at the start of the next one. -/
namespace Spellbook

open Spellbook.Parser

/-- These are the tokens of the expression. Whatever stands behind them and is not written out, the
parser takes them all and makes this expression of them, places apart. -/
def Spells (fuel : Nat) (line : List Token) (e : Expr) : Prop :=
  ∀ c more, c.kind.isSolid = false → ∃ e' s',
    exprAt fuel .lowest (.ofTokens (line ++ c :: more)) = .ok e' s' ∧ e'.bare = e.bare ∧
      s'.view = (c :: more).map Token.bare

/-- The tokens of a text are those of an expression, with an end behind them. -/
structure Holds (Ends : List Token → Prop) (fuel : Nat) (text : String) (e : Expr)
    (line rest : List Token) : Prop where
  tokens : tokensOf text = line ++ rest
  written : ∀ t ∈ line, t.kind.isSolid = true
  spelled : Spells fuel line e
  ends : Ends rest

def EndsFirstLine (rest : List Token) : Prop :=
  ∃ t more, rest = t :: more ∧
    (t.kind = .eof ∨ t.kind = .newline ∧ ∀ u ∈ more.head?, u.kind ≠ .illegal)

def EndsText (rest : List Token) : Prop := rest.map (·.kind) = [.newline, .eof]

/-- The text that characters of a template stand for, outside of its holes. A doubled brace is one
brace, and a closing one may stand alone. -/
inductive Unbraced : List Char → List Char → Prop where
  | nil : Unbraced [] []
  | opening {cs ds : List Char} : Unbraced cs ds → Unbraced ('\x7b' :: '\x7b' :: cs) ('\x7b' :: ds)
  | closing {cs ds : List Char} : Unbraced cs ds → Unbraced ('\x7d' :: '\x7d' :: cs) ('\x7d' :: ds)
  | other {c : Char} {cs ds : List Char} : c ≠ '\x7b' →
    (c = '\x7d' → ∀ more, cs ≠ '\x7d' :: more) → Unbraced cs ds → Unbraced (c :: cs) (c :: ds)

inductive Part.WrittenAs (Ends : List Token → Prop) (fuel : Nat) : Part → List Char → Prop where
  | text {cs ds : List Char} : Unbraced cs ds → ds ≠ [] →
    WrittenAs Ends fuel (.text (String.ofList ds)) cs
  | hole {e : Expr} {hole : List Char} {line rest : List Token} :
    Holds Ends fuel (String.ofList (Text.trim hole)) e line rest →
    WrittenAs Ends fuel (.hole e) ('\x7b' :: hole ++ ['\x7d'])

def Expr.Assembles (Ends : List Token → Prop) (fuel : Nat) (content : List Char) (pos : Pos)
    (e : Expr) : Prop :=
  ∃ parts chunks, e = .template pos parts ∧ content = chunks.flatten ∧
    List.Forall₂ (Part.WrittenAs Ends fuel) parts chunks

/-! Holes -/

section hole

variable {fuel : Nat} {pos : Pos} {source : List Char} {e : Expr} {s s' : State}

theorem view_ofTokens {ts : List Token} (h : ts ≠ []) :
    (State.ofTokens ts).view = ts.map Token.bare := by
  obtain ⟨t, ts, rfl⟩ := List.exists_cons_of_ne_nil h
  rfl

theorem hole_eq_ok : hole (exprAt fuel) pos source s = .ok e s' ↔
    s' = s ∧ ∃ s₁, exprAt fuel .lowest (.start (String.ofList (Text.trim source))) = .ok e s₁ ∧
      s₁.atLineEnd = true := by
  unfold hole
  cases hrun : exprAt fuel .lowest (State.start (String.ofList (Text.trim source))) with
  | error halt s₁ =>
    constructor
    · intro h
      cases halt <;> cases h
    · rintro ⟨-, s₂, h, -⟩
      cases h
  | ok e₁ s₁ =>
    dsimp only
    split
    · rename_i hend
      constructor
      · intro h
        cases h
        exact ⟨rfl, s₁, rfl, hend⟩
      · rintro ⟨rfl, s₂, h, -⟩
        cases h
        rfl
    · rename_i hend
      constructor
      · intro h
        cases h
      · rintro ⟨-, s₂, h, hend'⟩
        cases h
        exact absurd hend' hend

theorem exists_line {ts : List Token} (h : ∃ t ∈ ts, t.kind.isSolid = false) :
    ∃ line c more, ts = line ++ c :: more ∧ (∀ t ∈ line, t.kind.isSolid = true) ∧
      c.kind.isSolid = false := by
  induction ts with
  | nil => simp at h
  | cons t ts ih =>
    cases ht : t.kind.isSolid with
    | false => exact ⟨[], t, ts, rfl, by simp, ht⟩
    | true =>
      obtain ⟨line, c, more, rfl, hline, hc⟩ := ih (by simpa [ht] using h)
      exact ⟨t :: line, c, more, rfl, List.forall_mem_cons.2 ⟨ht, hline⟩, hc⟩

theorem exists_line_tokensOf (text : String) : ∃ line c more, tokensOf text = line ++ c :: more ∧
    (∀ t ∈ line, t.kind.isSolid = true) ∧ c.kind.isSolid = false := by
  obtain ⟨before, last, htokens, heof, -⟩ := endsWithEof_tokensOf text
  exact exists_line ⟨last, by simp [htokens], by simp [heof, Kind.isSolid]⟩

theorem isSolid_of_atLineEnd (h : s.atLineEnd = true) : s.cur.kind.isSolid = false := by
  unfold State.atLineEnd at h
  split at h
  · rename_i hk
    simp [hk, Kind.isSolid]
  · rename_i hk
    simp [hk, Kind.isSolid]
  · cases h

theorem atLineEnd_iff {rest : List Token} (h : s.view = rest.map Token.bare) :
    s.atLineEnd = true ↔ EndsFirstLine rest := by
  cases rest with
  | nil => cases h
  | cons t more =>
    have hkind : s.cur.kind = t.kind := State.kind_of_view (b := t.bare) h
    have hnext : s.ahead.head?.map (·.kind) = more.head?.map (·.kind) := by
      rw [State.head_of_view (b := t.bare) h, List.head?_map, Option.map_map]
      rfl
    have hlegal : ((more.head?.map (·.kind)) != some Kind.illegal) = true ↔
        ∀ u ∈ more.head?, u.kind ≠ .illegal := by
      cases more <;> simp
    constructor
    · intro hend
      refine ⟨t, more, rfl, ?_⟩
      unfold State.atLineEnd at hend
      split at hend
      · exact .inl (hkind.symm.trans ‹_›)
      · rw [hnext, hlegal] at hend
        exact .inr ⟨hkind.symm.trans ‹_›, hend⟩
      · cases hend
    · rintro ⟨_, _, heq, hend⟩
      cases heq
      obtain hk | ⟨hk, hend⟩ := hend
      · simp [State.atLineEnd, hkind, hk]
      · simp only [State.atLineEnd, hkind, hk, hnext]
        exact hlegal.2 hend

/-- An expression that takes a line up to what is not written out is taken from the same line in front
of another end, and with more fuel. -/
theorem exprAt_line {fuel' : Nat} (hle : fuel ≤ fuel') {line more more' : List Token} {c c' : Token}
    {t s' : State} (hs : s.view = line ++ c :: more) (ht : t.view = line ++ c' :: more')
    (hline : ∀ x ∈ line, x.kind.isSolid = true) (hc : c.kind.isSolid = false)
    (hc' : c'.kind.isSolid = false) (hrun : exprAt fuel .lowest s = .ok e s')
    (hstop : s'.cur.kind.isSolid = false) :
    s'.view = c :: more ∧ ∃ e' t', exprAt fuel' .lowest t = .ok e' t' ∧ e'.bare = e.bare ∧
      t'.view = c' :: more' := by
  have hpaired : (Pairing.line (fun _ => True) c c' more more' hc hc').rel 0 s t :=
    ⟨line, fun x hx => ⟨hline x hx, trivial⟩, hs, ht⟩
  obtain ⟨e', t', hrun', he, line', hline', hs', ht'⟩ :=
    operandsMirror_exprAt hle _ 0 .lowest _ _ hpaired e s' hrun
  -- What is left of the line would be written out.
  cases line' with
  | nil => exact ⟨hs', e', t', hrun', he, ht'⟩
  | cons x line' =>
    rw [State.kind_of_view hs', (hline' x List.mem_cons_self).1] at hstop
    cases hstop

theorem isSolid_bare {line : List Token} (hline : ∀ t ∈ line, t.kind.isSolid = true) :
    ∀ t ∈ line.map Token.bare, t.kind.isSolid = true := by
  intro t ht
  obtain ⟨u, hu, rfl⟩ := List.mem_map.1 ht
  exact hline u hu

/-- From a line to its end: the parser that stops there has taken the line, and takes it in front of
any other end. -/
theorem spells_of_exprAt {line more : List Token} {c : Token} {text : String}
    (htokens : tokensOf text = line ++ c :: more) (hline : ∀ t ∈ line, t.kind.isSolid = true)
    (hc : c.kind.isSolid = false) (hrun : exprAt fuel .lowest (.start text) = .ok e s)
    (hs : s.cur.kind.isSolid = false) :
    Spells fuel line e ∧ s.view = (c :: more).map Token.bare := by
  have hview : ∀ (c : Token) more, (State.ofTokens (line ++ c :: more)).view =
      line.map Token.bare ++ c.bare :: more.map Token.bare := by
    intro c more
    simp [view_ofTokens]
  have hpass : ∀ (c' : Token) more', c'.kind.isSolid = false → s.view = (c :: more).map Token.bare ∧
      ∃ e' s', exprAt fuel .lowest (.ofTokens (line ++ c' :: more')) = .ok e' s' ∧
        e'.bare = e.bare ∧ s'.view = (c' :: more').map Token.bare := by
    intro c' more' hc'
    rw [State.start, htokens] at hrun
    exact exprAt_line (Nat.le_refl fuel) (hview c more) (hview c' more') (isSolid_bare hline) hc hc'
      hrun hs
  exact ⟨fun c' more' hc' => (hpass c' more' hc').2, (hpass c more hc).1⟩

theorem holds_of_hole (h : hole (exprAt fuel) pos source s = .ok e s') : s' = s ∧
    ∃ line rest, Holds EndsFirstLine fuel (String.ofList (Text.trim source)) e line rest := by
  obtain ⟨hs, s₁, hrun, hend⟩ := hole_eq_ok.1 h
  obtain ⟨line, c, more, htokens, hline, hc⟩ :=
    exists_line_tokensOf (String.ofList (Text.trim source))
  obtain ⟨hspells, hview⟩ :=
    spells_of_exprAt htokens hline hc hrun (isSolid_of_atLineEnd hend)
  exact ⟨hs, line, c :: more, htokens, hline, hspells, (atLineEnd_iff hview).1 hend⟩

theorem hole_of_holds {line rest : List Token}
    (h : Holds EndsFirstLine fuel (String.ofList (Text.trim source)) e line rest) :
    ∃ e', hole (exprAt fuel) pos source s = .ok e' s ∧ e'.bare = e.bare := by
  obtain ⟨c, more, rfl, hend⟩ := h.ends
  have hc : c.kind.isSolid = false := by
    obtain hk | ⟨hk, -⟩ := hend <;> simp [hk, Kind.isSolid]
  obtain ⟨e', s', hrun, he, hview⟩ := h.spelled c more hc
  refine ⟨e', hole_eq_ok.2 ⟨rfl, s', ?_, (atLineEnd_iff hview).2 h.ends⟩, he⟩
  rw [State.start, h.tokens]
  exact hrun

end hole

/-! Templates -/

theorem Unbraced.eq_nil {cs : List Char} (h : Unbraced cs []) : cs = [] := by
  cases h
  rfl

theorem forall₂_textPart {Ends : List Token → Prop} {fuel : Nat} {cs ds : List Char}
    {parts : List Part} {chunks : List (List Char)} (h : Unbraced cs ds)
    (hparts : List.Forall₂ (Part.WrittenAs Ends fuel) parts chunks) :
    ∃ chunks', cs ++ chunks.flatten = chunks'.flatten ∧
      List.Forall₂ (Part.WrittenAs Ends fuel) (textPart ds ++ parts) chunks' := by
  cases ds with
  | nil =>
    obtain rfl := h.eq_nil
    exact ⟨chunks, rfl, hparts⟩
  | cons d ds => exact ⟨cs :: chunks, rfl, .cons (.text h (by simp)) hparts⟩

/-- The parts behind collected text: more text, and then a part for each piece of what follows. -/
theorem templateParts_eq_ok {fuel count : Nat} {pos : Pos} {collected cs : List Char} {s s' : State}
    {parts : List Part}
    (h : templateParts (exprAt fuel) pos count collected cs s = .ok parts s') :
    s' = s ∧ ∃ first text more chunks, cs = first ++ chunks.flatten ∧ Unbraced first text ∧
      parts = textPart (collected ++ text) ++ more ∧
      List.Forall₂ (Part.WrittenAs EndsFirstLine fuel) more chunks := by
  fun_induction templateParts (exprAt fuel) pos count collected cs generalizing s parts with
  | case1 count collected =>
    cases h
    exact ⟨rfl, [], [], [], [], rfl, .nil, by simp, .nil⟩
  | case2 => cases h
  | case3 count collected cs ih =>
    obtain ⟨hs, first, text, more, chunks, rfl, hfirst, rfl, hmore⟩ := ih h
    exact ⟨hs, '\x7b' :: '\x7b' :: first, '\x7b' :: text, more, chunks, rfl, .opening hfirst,
      by simp, hmore⟩
  | case4 count collected cs ih =>
    obtain ⟨hs, first, text, more, chunks, rfl, hfirst, rfl, hmore⟩ := ih h
    exact ⟨hs, '\x7d' :: '\x7d' :: first, '\x7d' :: text, more, chunks, rfl, .closing hfirst,
      by simp, hmore⟩
  | case5 => cases h
  | case6 => exact absurd h ((fails_failAt _ _).bind _ s parts s')
  | case7 count collected cs hne source rest hhole _ hblank =>
    rename_i ih
    obtain ⟨e, s₁, hrun, h⟩ := bind_eq_ok.1 h
    obtain ⟨parts', s₂, hrun', h⟩ := bind_eq_ok.1 h
    cases h
    obtain ⟨rfl, line, after, hholds⟩ := holds_of_hole hrun
    obtain ⟨hs, first, text, more, chunks, rfl, hfirst, rfl, hmore⟩ := ih hrun'
    obtain ⟨chunks', hflat, hall⟩ := forall₂_textPart hfirst hmore
    refine ⟨hs, [], [], _, ('\x7b' :: source ++ ['\x7d']) :: chunks', ?_, .nil, by simp,
      .cons (.hole hholds) hall⟩
    rw [eq_of_holeText hhole, hflat]
    simp
  | case8 count collected c cs hopen hclose hbrace ih =>
    obtain ⟨hs, first, text, more, chunks, rfl, hfirst, rfl, hmore⟩ := ih h
    refine ⟨hs, c :: first, c :: text, more, chunks, rfl, .other hbrace ?_ hfirst, by simp, hmore⟩
    rintro rfl more' rfl
    exact hclose _ rfl rfl

theorem assembles_of_template {fuel : Nat} {s s' : State} {e : Expr}
    (h : template (exprAt fuel) s = .ok e s') :
    s' = s.next ∧ e.Assembles EndsFirstLine fuel s.cur.content s.cur.pos := by
  obtain ⟨token, s₁, hadvance, h⟩ := bind_eq_ok.1 h
  rw [advance_eq] at hadvance
  cases hadvance
  obtain ⟨parts, s₂, hparts, h⟩ := bind_eq_ok.1 h
  cases h
  obtain ⟨hs, first, text, more, chunks, hcontent, hfirst, rfl, hmore⟩ :=
    templateParts_eq_ok hparts
  obtain ⟨chunks', hflat, hall⟩ := forall₂_textPart hfirst hmore
  exact ⟨hs, _, chunks', rfl, hcontent.trans hflat, hall⟩

/-- Of every template that is accepted, all characters belong to one of its parts, and the first line
of a hole is that of its expression and of nothing else, without lexical errors. A hole is accepted
exactly if it is so and no lexical error starts the line below. What else stands there makes no
difference. -/
theorem holes_read_by_line (fuel : Nat) :
    (∀ s e s', template (exprAt fuel) s = .ok e s' →
      s' = s.next ∧ e.Assembles EndsFirstLine fuel s.cur.content s.cur.pos) ∧
    ∀ pos source e s,
      (∃ e', hole (exprAt fuel) pos source s = .ok e' s ∧ e'.bare = e.bare) ↔
        ∃ line rest, Holds EndsFirstLine fuel (String.ofList (Text.trim source)) e line rest := by
  refine ⟨fun s e s' h => assembles_of_template h, fun pos source e s => ⟨?_, ?_⟩⟩
  · rintro ⟨e', hrun, he⟩
    obtain ⟨-, line, rest, hholds⟩ := holds_of_hole hrun
    refine ⟨line, rest, hholds.tokens, hholds.written, fun c more hc => ?_, hholds.ends⟩
    obtain ⟨e₁, s₁, hrun₁, he₁, hs₁⟩ := hholds.spelled c more hc
    exact ⟨e₁, s₁, hrun₁, he₁.trans he, hs₁⟩
  · rintro ⟨line, rest, hholds⟩
    exact hole_of_holds hholds

def twoLines : String := "f\"\x7bx\ny\x7d\""

def isOneHole : EStateM.Result Halt State Expr → Bool
  | .ok (.template _ [.hole _]) _ => true
  | _ => false

theorem template_twoLines : ∃ pos e s',
    template (exprAt 4) (State.start twoLines) = .ok (.template pos [.hole e]) s' := by
  have hrun : isOneHole (template (exprAt 4) (State.start twoLines)) = true := by decide +kernel
  unfold isOneHole at hrun
  split at hrun
  · exact ⟨_, _, _, ‹_›⟩
  · cases hrun

theorem holes_read_by_line_twoLines : ∃ e s',
    template (exprAt 4) (State.start twoLines) = .ok e s' ∧
      e.Assembles EndsFirstLine 4 "\x7bx\ny\x7d".toList ⟨1, 1⟩ := by
  obtain ⟨pos, e, s', hrun⟩ := template_twoLines
  have hassembles := ((holes_read_by_line 4).1 _ _ s' hrun).2
  have hcontent : (State.start twoLines).cur.content = "\x7bx\ny\x7d".toList := by decide +kernel
  have hpos : (State.start twoLines).cur.pos = ⟨1, 1⟩ := by decide +kernel
  rw [hcontent, hpos] at hassembles
  exact ⟨_, s', hrun, hassembles⟩

/-- The second line of a hole is dropped without a complaint. -/
theorem not_holes_read_whole : ¬ ∀ fuel s e s', template (exprAt fuel) s = .ok e s' →
    e.Assembles EndsText fuel s.cur.content s.cur.pos := by
  intro hall
  obtain ⟨pos, e, s', hrun⟩ := template_twoLines
  obtain ⟨parts, chunks, heq, hcontent, hparts⟩ := hall _ _ _ s' hrun
  obtain ⟨-, rfl⟩ : _ ∧ [Part.hole e] = parts := by simpa using heq
  have hline : (State.start twoLines).cur.content = "\x7bx\ny\x7d".toList := by decide +kernel
  rw [hline] at hcontent
  cases hparts with
  | cons hpart hnone =>
    cases hnone
    cases hpart with
    | @hole _ hole line rest hholds =>
      have hchars : hole ++ ['\x7d'] = "x\ny".toList ++ ['\x7d'] := by simpa using hcontent.symm
      obtain rfl := List.append_cancel_right hchars
      have hkinds : (tokensOf (String.ofList (Text.trim "x\ny".toList))).map (·.kind) =
          [.ident, .newline, .ident, .newline, .eof] := by decide +kernel
      have hends : rest.map (·.kind) = [.newline, .eof] := hholds.ends
      rw [hholds.tokens, List.map_append, hends] at hkinds
      have hsplit : line.map (·.kind) ++ [.newline, .eof] =
          [.ident, .newline, .ident] ++ [Kind.newline, .eof] := hkinds
      have hfirst := List.append_cancel_right hsplit
      have hnewline : Kind.newline ∈ line.map (·.kind) := by simp [hfirst]
      obtain ⟨t, ht, hk⟩ := List.mem_map.1 hnewline
      have hwritten := hholds.written t ht
      rw [hk] at hwritten
      cases hwritten

end Spellbook
