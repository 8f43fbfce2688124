import Spellbook.Proofs.Token.Steps

/-! Tokens with text of their own stand in the source at their places: what the lexer has read and
what it has yet to read always make up the source, and it knows its place by what it has read. -/
namespace Spellbook

/-- The kinds of tokens that are written out in the text. -/
def Kind.isSolid : Kind → Bool
  | .illegal | .eof | .newline | .indent | .dedent => false
  | _ => true

/-- The token is a piece of the text, and its place is where that piece begins. -/
structure Token.StandsIn (text : String) (t : Token) : Prop where
  nonempty : t.lexeme.toList ≠ []
  piece : ∃ before after, text.toList = before ++ t.lexeme.toList ++ after ∧
    t.pos = Pos.start.advance before

namespace Scan

theorem eq_of_quote? {cs : List Char} {q : Char} (h : quote? cs = some q) :
    cs = q :: cs.drop 1 := by
  unfold quote? at h
  split at h <;> cases h <;> rfl

theorem eq_of_isPrefixOf {taken cs : List Char} (h : taken.isPrefixOf cs = true) :
    taken ++ cs.drop taken.length = cs := by
  obtain ⟨rest, rfl⟩ := List.isPrefixOf_iff_prefix.1 h
  simp

theorem stringBody_text (q : Char) (triple multiline : Bool) (cs : List Char) :
    (stringBody q triple multiline cs).text ++ (stringBody q triple multiline cs).rest = cs := by
  fun_induction stringBody q triple multiline cs with
  | case1 => rfl
  | case2 => rfl
  | case3 c cs hc htriple =>
    simp only [Bool.and_eq_true, decide_eq_true_eq] at htriple
    have hcs := eq_of_isPrefixOf htriple.2
    simp only [List.cons_append, List.nil_append, List.length_cons, List.length_nil] at hcs
    simp [htriple.1, hcs]
  | case4 => rfl
  | case5 => rfl
  | case6 _ _ _ _ _ ih => simpa [Body.push] using ih
  | case7 _ _ _ _ _ _ ih => simpa [Body.push] using ih

theorem toScan_text (kind : Kind) (opening : List Char) (b : Body) :
    (b.toScan kind opening).text ++ (b.toScan kind opening).rest =
      opening ++ (b.text ++ b.rest) := by
  unfold Body.toScan
  split <;> simp

theorem string_text (kind : Kind) (opening : List Char) (q : Char) (cs : List Char) :
    (Scan.string kind opening q cs).text ++ (Scan.string kind opening q cs).rest =
      opening ++ cs := by
  unfold Scan.string
  split
  · rename_i h
    have hcs := eq_of_isPrefixOf h
    simp only [List.cons_append, List.nil_append, List.length_cons, List.length_nil] at hcs
    rw [toScan_text, stringBody_text, List.append_assoc]
    exact congrArg (opening ++ ·) hcs
  · rw [toScan_text, stringBody_text]

theorem number_text (cs : List Char) : (number cs).text ++ (number cs).rest = cs := by
  unfold number
  dsimp only
  split
  · rename_i d more hmore
    split
    · simp only [List.append_assoc, List.cons_append, List.takeWhile_append_dropWhile]
      rw [← hmore, List.takeWhile_append_dropWhile]
    · exact List.takeWhile_append_dropWhile
  · exact List.takeWhile_append_dropWhile

theorem word_text (cs : List Char) : (word cs).text ++ (word cs).rest = cs := by
  unfold word
  dsimp only
  split <;> exact List.takeWhile_append_dropWhile

end Scan

open Scan in
theorem scan_text (c : Char) (cs : List Char) : (scan c cs).text ++ (scan c cs).rest = c :: cs := by
  unfold scan
  split
  · exact string_text _ _ _ _
  · split
    · rename_i q hq
      have hcs : cs = q :: cs.drop 1 := by
        split at hq
        · exact eq_of_quote? hq
        · cases hq
      rw [string_text]
      exact congrArg (c :: ·) hcs.symm
    · split
      · rfl
      · split
        · exact number_text _
        · split
          · exact word_text _
          · split
            · rename_i s hs
              exact eq_of_isPrefixOf (by simpa using List.find?_some hs)
            · rfl

theorem scan_text_ne_nil (c : Char) (cs : List Char) : (scan c cs).text ≠ [] := by
  intro h
  have htext := congrArg List.length (scan_text c cs)
  have hrest := length_scan_rest c cs
  simp only [h, List.nil_append, List.length_cons] at htext
  omega

namespace Lexer

/-- The lexer has read the beginning of the text, and is at the place behind it. -/
def Within (text : List Char) (s : Lexer) : Prop :=
  ∃ before, text = before ++ s.rest ∧ s.pos = Pos.start.advance before

variable {text : List Char} {s : Lexer}

theorem Within.skip (h : s.Within text) {taken rest : List Char} (hrest : s.rest = taken ++ rest) :
    (s.skip taken rest).Within text := by
  obtain ⟨before, htext, hpos⟩ := h
  refine ⟨before ++ taken, by rw [htext, hrest, List.append_assoc]; rfl, ?_⟩
  simp only [Lexer.skip, hpos, Pos.advance_append]

theorem Within.skipBlanks (h : s.Within text) : s.skipBlanks.Within text :=
  h.skip List.takeWhile_append_dropWhile.symm

theorem commentBody_text (cs : List Char) :
    (commentBody cs).1 ++ ((commentBody cs).2.getD []) = cs := by
  fun_induction commentBody cs with
  | case1 => rfl
  | case2 => rfl
  | case3 c cs _ text rest hbody ih =>
    rw [hbody] at ih
    simpa using ih

theorem applyIndent_within (h : s.Within text) (width : Nat) :
    (s.applyIndent width).2.Within text := by
  unfold applyIndent
  dsimp only
  split
  · exact h
  · split <;> exact h

theorem Within.comment (h : s.Within text) {cs comment : List Char} {rest : Option (List Char)}
    (hcs : s.rest = '/' :: '*' :: cs) (hbody : commentBody cs = (comment, rest)) :
    (s.skip ('/' :: '*' :: comment) (rest.getD [])).Within text := by
  have htext := commentBody_text cs
  rw [hbody] at htext
  exact h.skip (by rw [hcs, ← htext]; rfl)

theorem Look.within {found : List Lexed} {next : Lexer} (hlook : Look s found next)
    (h : s.Within text) : next.Within text := by
  have hblanks := h.skipBlanks
  cases hlook with
  | blank => exact h
  | openComment hr hbody | comment hr hbody => exact hblanks.comment hr hbody
  | behind hr hbody _ hbehind =>
    refine applyIndent_within ?_ _
    rw [hbehind]
    exact hblanks.comment hr hbody
  | row _ _ hinside =>
    refine applyIndent_within ?_ _
    rw [hinside]
    exact hblanks

theorem Move.within {found : List Lexed} {next : Lexer} (hmove : Move s found next)
    (h : s.Within text) : next.Within text := by
  have hblanks := h.skipBlanks
  cases hmove with
  | inside hr => exact hblanks.skip hr
  | newline hr => exact hblanks.skip hr
  | lineComment hr =>
    refine hblanks.skip ?_
    rw [hr, List.cons_append, List.cons_append, List.takeWhile_append_dropWhile]
  | openComment hr hbody | blockComment hr hbody => exact hblanks.comment hr hbody
  | token hr => exact hblanks.skip (hr.trans (scan_text _ _).symm)

theorem isSolid_applyIndent (s : Lexer) (width : Nat) :
    ∀ l ∈ (s.applyIndent width).1, l.token.kind.isSolid = false := by
  intro l hl
  obtain rfl | rfl | rfl := mem_applyIndent hl <;> rfl

theorem isSolid_layout (s : Lexer) : ∀ l ∈ s.layout.1, l.token.kind.isSolid = false := by
  have hlook := look_layout s
  generalize s.layout.1 = found, s.layout.2 = next at hlook
  cases hlook with
  | blank | comment => exact List.forall_mem_nil _
  | openComment => exact List.forall_mem_singleton.2 rfl
  | behind | row => exact isSolid_applyIndent _ _

theorem isSolid_finish (s : Lexer) : ∀ l ∈ s.finish, l.token.kind.isSolid = false := by
  intro l hl
  obtain rfl | rfl | rfl := mem_finish hl <;> rfl

theorem place_standsIn {source : String} (h : s.Within source.toList) {c : Char} {cs : List Char}
    (hrest : s.rest = c :: cs) : (s.place (scan c cs)).token.StandsIn source := by
  obtain ⟨before, htext, hpos⟩ := h
  refine ⟨by simpa [place] using scan_text_ne_nil c cs, before, (scan c cs).rest, ?_, hpos⟩
  rw [htext, hrest, ← scan_text c cs]
  simp [place]

theorem Finds.standsIn {source : String} {l : Lexed} (hl : s.Finds l)
    (h : s.Within source.toList) (hsolid : l.token.kind.isSolid = true) :
    l.token.StandsIn source := by
  cases hl with
  | lineEnd | indent | dedent | uneven | openComment => cases hsolid
  | token hrest => exact place_standsIn h.skipBlanks hrest

theorem step_within {source : String} (h : s.Within source.toList) :
    (∀ l ∈ s.step.1, l.token.kind.isSolid = true → l.token.StandsIn source) ∧
      ∀ next ∈ s.step.2, next.Within source.toList := by
  refine ⟨fun l hl hsolid => ?_, fun next hnext => ?_⟩
  · obtain hfinds | ⟨-, rfl⟩ := finds_step s l hl
    · exact hfinds.standsIn h hsolid
    · cases hsolid
  · obtain hlook | hmove := step_goesOn hnext
    · exact hlook.within h
    · exact hmove.within h

theorem run_standsIn {source : String} (h : s.Within source.toList) :
    ∀ l ∈ s.run, l.token.kind.isSolid = true → l.token.StandsIn source := by
  fun_induction run s with
  | case1 s found hstep =>
    have hfound := (step_within h).1
    rwa [hstep] at hfound
  | case2 s found next hstep ih =>
    have hwithin := step_within h
    rw [hstep] at hwithin
    exact List.forall_mem_append.2 ⟨hwithin.1, ih (hwithin.2 next rfl)⟩

end Lexer

theorem standsIn_of_mem_tokensOf {source : String} {t : Token} (h : t ∈ tokensOf source)
    (ht : t.kind.isSolid = true) : t.StandsIn source := by
  obtain ⟨l, hl, rfl⟩ := List.mem_map.1 h
  exact Lexer.run_standsIn ⟨[], rfl, rfl⟩ l hl ht

end Spellbook
