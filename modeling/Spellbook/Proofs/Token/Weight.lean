import Spellbook.Proofs.Token.Feed

/-! How much there is to read in the tokens of a text. A template weighs as much as all that can be
made of the texts in its holes, so that the tokens of a hole weigh less than the template. -/
namespace Spellbook

/-- The text that a literal stands for, or a complaint. -/
def Token.content (t : Token) : List Char :=
  match t.literal with
  | some (.str s) => s.toList
  | _ => []

/-- Every token is read once, and the text of a template once more. -/
def Token.weight (t : Token) : Nat :=
  if t.kind = .template then 4 * t.content.length + 1 else 1

def weigh : List Token → Nat
  | [] => 0
  | t :: ts => t.weight + weigh ts

@[simp]
theorem weigh_nil : weigh [] = 0 := rfl

@[simp]
theorem weigh_cons (t : Token) (ts : List Token) : weigh (t :: ts) = t.weight + weigh ts := rfl

@[simp]
theorem weigh_append (ts more : List Token) : weigh (ts ++ more) = weigh ts + weigh more := by
  induction ts with
  | nil => simp
  | cons t ts ih =>
    simp only [List.cons_append, weigh_cons, ih]
    omega

theorem Token.weight_pos (t : Token) : 0 < t.weight := by
  simp only [Token.weight]
  split <;> omega

theorem Token.weight_eq_one {t : Token} (h : t.kind ≠ .template) : t.weight = 1 := if_neg h

theorem weigh_eq_length {ts : List Token} (h : ∀ t ∈ ts, t.kind ≠ .template) :
    weigh ts = ts.length := by
  induction ts with
  | nil => rfl
  | cons t ts ih =>
    rw [List.forall_mem_cons] at h
    simp [Token.weight_eq_one h.1, ih h.2, Nat.add_comm]

namespace Scan

theorem length_unescape (c : Char) : (unescape c).length ≤ 1 := by
  unfold unescape
  split <;> simp

theorem length_stringBody_value (q : Char) (triple multiline : Bool) (cs : List Char) :
    (stringBody q triple multiline cs).value.length ≤
      (stringBody q triple multiline cs).text.length := by
  fun_induction stringBody q triple multiline cs with
  | case1 | case2 | case3 | case4 | case5 => simp
  | case6 =>
    rename_i e more _ _ _ ih
    have hescape := length_unescape e
    simp only [Body.push, List.length_append, List.length_cons, List.length_nil]
    omega
  | case7 _ _ _ _ _ _ ih =>
    simp only [Body.push, List.length_append, List.length_cons, List.length_nil]
    omega

theorem weight_string (s : Lexer) (kind : Kind) {opening : List Char} (ho : opening ≠ [])
    (q : Char) (cs : List Char) :
    (s.place (Scan.string kind opening q cs)).token.weight ≤
      4 * (Scan.string kind opening q cs).text.length := by
  have hopening : 0 < opening.length := List.length_pos_iff.2 ho
  have hbody : ∀ (b : Body) (more : List Char), b.value.length ≤ b.text.length →
      (s.place (b.toScan kind (opening ++ more))).token.weight ≤
        4 * (b.toScan kind (opening ++ more)).text.length := by
    intro b more hvalue
    simp only [Body.toScan, Token.weight, Lexer.place]
    split <;> split <;> simp_all [Token.content] <;> omega
  simp only [Scan.string]
  split
  · exact hbody _ _ (length_stringBody_value _ _ _ _)
  · simpa using hbody _ [] (length_stringBody_value _ _ _ _)

theorem weight_scan (s : Lexer) (c : Char) (cs : List Char) :
    (s.place (scan c cs)).token.weight ≤ 4 * (scan c cs).text.length := by
  have hplain : (scan c cs).kind ≠ .template →
      (s.place (scan c cs)).token.weight ≤ 4 * (scan c cs).text.length := by
    intro hkind
    have hpos : 0 < (scan c cs).text.length := List.length_pos_iff.2 (scan_text_ne_nil c cs)
    have hone : (s.place (scan c cs)).token.weight = 1 := Token.weight_eq_one hkind
    omega
  revert hplain
  simp only [scan]
  split
  · intro _
    exact weight_string s _ (by simp) _ _
  · split
    · intro _
      exact weight_string s _ (by simp) _ _
    · intro hplain
      apply hplain
      split
      · simp
      · split
        · simp only [number]
          split
          · split <;> simp
          · simp
        · split
          · simp only [word]
            split <;> simp
          · split <;> simp [unexpected]

end Scan

namespace Lexer

/-- What is still to come weighs no more than this: a character can make four tokens, and every open
block has to be closed. -/
def bound (s : Lexer) : Nat := 4 * s.rest.length + s.indents.length + 2

theorem weigh_replicate_dedent (n : Nat) (pos : Pos) :
    weigh ((List.replicate n (mark .dedent pos)).map (·.token)) = n := by
  rw [weigh_eq_length, List.length_map, List.length_replicate]
  intro t ht
  rw [List.map_replicate] at ht
  simp [List.eq_of_mem_replicate ht, mark]

theorem weigh_applyIndent (s : Lexer) {width : Nat} {taken : Nat} (h : 0 < width → 0 < taken) :
    weigh ((s.applyIndent width).1.map (·.token)) + (s.applyIndent width).2.bound ≤
      s.bound + 4 * taken := by
  have hdropped : (s.indents.dropWhile (width < ·)).length ≤ s.indents.length :=
    (List.dropWhile_suffix _).length_le
  have hhead : (s.indents.dropWhile (width < ·)).headD 0 ≤ width := by
    have hnot := List.head?_dropWhile_not (fun w => decide (width < w)) s.indents
    cases hkept : s.indents.dropWhile (width < ·) with
    | nil => simp
    | cons w ws =>
      rw [hkept] at hnot
      simpa using hnot
  simp only [applyIndent]
  split
  · have htaken := h (by omega)
    simp only [bound, List.map_cons, List.map_nil, weigh_cons, weigh_nil, List.length_cons]
    have hone : (mark .indent ⟨s.pos.line, width + 1⟩).token.weight = 1 := rfl
    omega
  · split
    · rw [weigh_replicate_dedent]
      simp only [bound]
      omega
    · have htaken := h (by omega)
      have hone : (unevenDedent ⟨s.pos.line, width + 1⟩).token.weight = 1 := rfl
      rw [List.map_append, weigh_append, weigh_replicate_dedent]
      simp only [bound, List.map_cons, List.map_nil, weigh_cons, weigh_nil, List.length_cons]
      omega

theorem length_of_width_pos {blanks : List Char} (h : 0 < widthOf blanks) : 0 < blanks.length := by
  cases blanks with
  | nil => simp [widthOf] at h
  | cons c cs => simp

theorem weigh_openComment (s : Lexer) (text : List Char) :
    weigh ([s.openComment text].map (·.token)) = 1 := rfl

theorem weigh_look {s next : Lexer} {found : List Lexed} (hlook : Look s found next) :
    weigh (found.map (·.token)) + next.bound ≤ s.bound := by
  have hall := congrArg List.length
    (List.takeWhile_append_dropWhile (p := isInlineBlank) (l := s.rest))
  rw [List.length_append] at hall
  have hwidth : 0 < widthOf (s.rest.takeWhile isInlineBlank) →
      0 < (s.rest.takeWhile isInlineBlank).length := length_of_width_pos
  cases hlook with
  | blank => simp [bound]
  | openComment hr =>
    have hlength := congrArg List.length hr
    rw [weigh_openComment]
    simp only [bound, skipBlanks, skip, List.length_cons, List.length_nil] at hlength ⊢
    omega
  | comment hr hbody =>
    have hlength := congrArg List.length hr
    have hrest := length_commentBody hbody
    simp only [bound, skipBlanks, skip, List.length_cons, List.map_nil, weigh_nil] at hlength ⊢
    omega
  | @behind _ _ _ m hr hbody _ hm =>
    have hlength := congrArg List.length hr
    have hrest := length_commentBody hbody
    have happly := weigh_applyIndent m hwidth
    subst hm
    simp only [bound, skipBlanks, skip, List.length_cons, applyIndent_rest] at hlength happly ⊢
    omega
  | @row m _ _ hm =>
    have happly := weigh_applyIndent m hwidth
    subst hm
    simp only [bound, skipBlanks, skip, applyIndent_rest] at happly ⊢
    omega

theorem weigh_lineEnd (b : Bool) (pos : Pos) :
    weigh ((if b then [lineEnd pos] else []).map (·.token)) ≤ 1 := by
  cases b with
  | true => exact Nat.le_refl _
  | false => exact Nat.zero_le _

theorem weigh_finish (s : Lexer) : weigh (s.finish.map (·.token)) ≤ s.bound := by
  have hline := weigh_lineEnd s.hasTokens s.pos
  have hend : weigh ([mark .eof s.pos].map (·.token)) = 1 := rfl
  simp only [finish, List.map_append, weigh_append, weigh_replicate_dedent, hend, bound]
  omega

theorem weigh_move {s next : Lexer} {found : List Lexed} (hmove : Move s found next) :
    weigh (found.map (·.token)) + next.bound ≤ s.bound := by
  have hblanks : s.skipBlanks.rest.length ≤ s.rest.length := length_skipBlanks s
  have hindents : s.skipBlanks.indents = s.indents := rfl
  cases hmove with
  | inside hr =>
    have hlength := congrArg List.length hr
    simp only [List.length_cons, List.map_nil, weigh_nil, bound, skip, hindents] at hlength ⊢
    omega
  | newline hr =>
    have hlength := congrArg List.length hr
    have hline := weigh_lineEnd s.hasTokens s.skipBlanks.pos
    simp only [List.length_cons, bound, skip, hindents] at hlength ⊢
    omega
  | @lineComment cs hr =>
    have hlength := congrArg List.length hr
    have hline := Scan.length_dropWhile_le (· != '\n') cs
    simp only [List.length_cons, List.map_nil, weigh_nil, bound, skip, hindents] at hlength ⊢
    omega
  | openComment hr =>
    have hlength := congrArg List.length hr
    rw [weigh_openComment]
    simp only [List.length_cons, List.length_nil, bound, skip, hindents] at hlength ⊢
    omega
  | blockComment hr hbody =>
    have hlength := congrArg List.length hr
    have hrest := length_commentBody hbody
    simp only [List.length_cons, List.map_nil, weigh_nil, bound, skip, hindents] at hlength ⊢
    omega
  | @token c cs hr =>
    have hlength := congrArg List.length (hr.trans (scan_text c cs).symm)
    have hweight := Scan.weight_scan s.skipBlanks c cs
    rw [List.length_append] at hlength
    simp only [List.map_cons, List.map_nil, weigh_cons, weigh_nil, bound, skip, hindents]
    omega

theorem weigh_step (s : Lexer) :
    weigh (s.step.1.map (·.token)) + s.step.2.elim 0 bound ≤ s.bound := by
  cases hstart : s.atStart with
  | true =>
    rw [step_look hstart]
    exact weigh_look (look_layout s)
  | false =>
    obtain ⟨-, hstep⟩ | ⟨found, next, hstep, hmove⟩ := step_moves hstart
    · have hfinish := weigh_finish s.skipBlanks
      have hblanks : s.skipBlanks.rest.length ≤ s.rest.length := length_skipBlanks s
      have hindents : s.skipBlanks.indents = s.indents := rfl
      rw [hstep]
      simp only [bound, hindents, Option.elim_none] at hfinish ⊢
      omega
    · rw [hstep]
      exact weigh_move hmove

theorem weigh_run (s : Lexer) : weigh (s.run.map (·.token)) ≤ s.bound := by
  fun_induction run s with
  | case1 s found h =>
    have hstep := weigh_step s
    simpa [h] using hstep
  | case2 s found next h ih =>
    have hstep := weigh_step s
    simp only [h, Option.elim_some] at hstep
    rw [List.map_append, weigh_append]
    omega

end Lexer

theorem weigh_tokensOf (source : String) : weigh (tokensOf source) ≤ 4 * source.length + 3 := by
  have hbound : (Lexer.start source.toList).bound = 4 * source.length + 3 := by
    simp [Lexer.bound, Lexer.start, String.length_toList]
  exact hbound ▸ Lexer.weigh_run (Lexer.start source.toList)

end Spellbook
