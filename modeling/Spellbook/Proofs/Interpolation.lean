import Spellbook.Eval
import Spellbook.Proofs.Holes
import Spellbook.Proofs.Token.Trim
import Spellbook.Proofs.Program.Parser.Lines

/-! Templates put together from texts and expressions. Whatever the texts are, the template that is
written with them has these texts and the expressions as its parts, and its value is the texts with
those of the values between them. -/
namespace Spellbook

open Spellbook.Parser

/-- A character as it is written in the text of a template. -/
def writtenChar : Char → List Char
  | '\x7b' => ['\x7b', '\x7b']
  | '\x7d' => ['\x7d', '\x7d']
  | '"' => ['\\', '"']
  | '\\' => ['\\', '\\']
  | '\n' => ['\\', 'n']
  | '\t' => ['\\', 't']
  | '\r' => ['\\', 'r']
  | '\x00' => ['\\', '0']
  | c => [c]

/-- A text as it is written in a template. -/
def written (text : String) : List Char := text.toList.flatMap writtenChar

/-- What stands between the quotes of a template: a text, and holes with a text behind each. -/
def bodyOf (first : String) (holes : List (String × String)) : List Char :=
  written first ++ holes.flatMap fun h => '\x7b' :: h.1.toList ++ '\x7d' :: written h.2

def templateOf (first : String) (holes : List (String × String)) : String :=
  String.ofList ('f' :: '"' :: bodyOf first holes ++ ['"'])

/-- The text is a single expression, with nothing behind it. -/
def IsExpression (text : String) (e : Expr) : Prop :=
  ∃ fuel s, exprAt fuel .lowest (.start text) = .ok e s ∧ EndsText s.tokens

/-- A text that may stand in a hole as it is. -/
def FitsHole (text : String) : Prop := ∀ c ∈ text.toList, c ∉ ['\x7b', '\x7d', '"', '\\', '\n']

/-- The parts of a template: a text, and holes with a text behind each. Empty texts are no parts. -/
def partsOf (first : List Char) : List (Expr × String) → List Part
  | [] => textPart first
  | (e, text) :: more => textPart first ++ .hole e :: partsOf text.toList more

/-- The expressions are evaluated one after the other. The texts are those of their values, each
taken before the next expression is evaluated. -/
inductive Prints (w : World) (fuel : Nat) : List Expr → List String → Machine → Machine → Prop where
  | nil (m : Machine) : Prints w fuel [] [] m m
  | cons {e : Expr} {v : Value} {es : List Expr} {texts : List String} {m m₁ m₂ : Machine} :
    (evaluator w fuel).expr e m = .ok v m₁ → Prints w fuel es texts m₁ m₂ →
    Prints w fuel (e :: es) (m₁.store.print v :: texts) m m₂

/-- The text of a template with these texts in the place of its holes. -/
def filled (first : String) (holes : List (String × String)) (texts : List String) : String :=
  first ++ String.join (List.zipWith (fun h text => text ++ h.2) holes texts)

/-! The expressions in the holes -/

section hole

variable {text : String} {e : Expr}

/-- The tokens of an expression that stands alone: a line of them, and the end of the text. -/
theorem IsExpression.tokens (h : IsExpression text e) : ∃ fuel s line c more,
    exprAt fuel .lowest (.start text) = .ok e s ∧ s.cur.kind.isSolid = false ∧
      tokensOf text = line ++ c :: more ∧ (∀ t ∈ line, t.kind.isSolid = true) ∧
      EndsText (c :: more) ∧ s.view = (c :: more).map Token.bare := by
  obtain ⟨fuel, s, hrun, hends⟩ := h
  have hcur : s.cur.kind = .newline := (List.cons.inj hends).1
  have hstop : s.cur.kind.isSolid = false := by
    rw [hcur]
    rfl
  obtain ⟨line, c, more, htokens, hline, hc⟩ := exists_line_tokensOf text
  obtain ⟨-, hview⟩ := spells_of_exprAt htokens hline hc hrun hstop
  refine ⟨fuel, s, line, c, more, hrun, hstop, htokens, hline, ?_, hview⟩
  have hkinds := congrArg (List.map (·.kind)) hview
  simp only [State.view, List.map_map] at hkinds
  exact hkinds.symm.trans hends

theorem exprAt_enough {fuel fuel' : Nat} (source : List Char) (h : 4 * source.length + 3 < fuel)
    (h' : 4 * source.length + 3 < fuel') :
    exprAt fuel .lowest (.start (String.ofList (Text.trim source))) =
      exprAt fuel' .lowest (.start (String.ofList (Text.trim source))) := by
  have henough : Enough False (4 * source.length + 3) fun b : Bool => if b then fuel else fuel' :=
    .inl fun b => by cases b <;> assumption
  obtain ⟨r, hr, -⟩ := operandsProceed_exprAt henough _ (4 * source.length + 2) (by omega) .lowest _
    (within_hole source)
  exact (hr true (.inl trivial)).trans (hr false (.inl trivial)).symm

theorem view_start (source : String) :
    (State.start source).view = (tokensOf source).map Token.bare := by
  rw [State.view, tokens_start]

theorem bare_tokensOf_expression {line : List Token} {c : Token} {more : List Token}
    (hline : '\n' ∉ text.toList) (htokens : tokensOf text = line ++ c :: more)
    (hsolid : ∀ t ∈ line, t.kind.isSolid = true) (hends : EndsText (c :: more)) :
    (tokensOf (String.ofList (Text.trim text.toList))).map Token.bare =
      line.map Token.bare ++ c.bare :: more.map Token.bare := by
  have hkinds : ∀ t ∈ tokensOf text, t.kind.isSolid = true ∨ t.kind = .newline ∨ t.kind = .eof := by
    intro t ht
    rw [htokens] at ht
    refine (List.mem_append.1 ht).imp (hsolid t) fun hmem => ?_
    have hkind : t.kind ∈ [Kind.newline, .eof] := hends ▸ List.mem_map_of_mem hmem
    simpa using hkind
  have hneither : ∀ k : Kind, k = .illegal ∨ k = .indent → ∀ t ∈ tokensOf text, t.kind ≠ k := by
    rintro k hk t ht rfl
    obtain h | h | h := hkinds t ht <;> obtain hk | hk := hk <;> rw [hk] at h <;> cases h
  rw [bare_tokensOf_trim hline, String.ofList_toList, htokens, List.map_append, List.map_cons] <;>
    rw [String.ofList_toList]
  · exact hneither _ (.inl rfl)
  · exact fun t ht => hneither _ (.inr rfl) t (List.mem_of_mem_head? ht)

theorem IsExpression.trimmed (h : IsExpression text e) (hline : '\n' ∉ text.toList) {fuel : Nat}
    (hfuel : 4 * text.toList.length + 3 < fuel) : ∃ e' s,
      exprAt fuel .lowest (.start (String.ofList (Text.trim text.toList))) = .ok e' s ∧
        e'.bare = e.bare ∧ EndsText s.tokens := by
  obtain ⟨fuel', s, line, c, more, hrun, hstop, htokens, hsolid, hends, -⟩ := h.tokens
  have hc : c.kind.isSolid = false := by
    have hkind : c.kind = .newline := (List.cons.inj hends).1
    rw [hkind]
    rfl
  have hview : (State.start text).view = line.map Token.bare ++ c.bare :: more.map Token.bare := by
    rw [view_start, htokens, List.map_append, List.map_cons]
  have hview' := (view_start _).trans (bare_tokensOf_expression hline htokens hsolid hends)
  obtain ⟨-, e', s', hrun', he, hrest⟩ := exprAt_line (Nat.le_max_left fuel' fuel) hview hview'
    (isSolid_bare hsolid) hc hc hrun hstop
  rw [exprAt_enough _ (Nat.lt_of_lt_of_le hfuel (Nat.le_max_right fuel' fuel)) hfuel] at hrun'
  refine ⟨e', s', hrun', he, ?_⟩
  have hkinds := congrArg (List.map (·.kind)) hrest
  simp only [State.view, List.map_map, ← List.map_cons] at hkinds
  exact hkinds.trans hends

theorem IsExpression.trim_ne_nil (h : IsExpression text e) (hline : '\n' ∉ text.toList) :
    Text.trim text.toList ≠ [] := by
  intro hnil
  obtain ⟨-, -, line, c, more, -, -, htokens, hsolid, hends, -⟩ := h.tokens
  have htrimmed := bare_tokensOf_expression hline htokens hsolid hends
  have hone : (tokensOf (String.ofList [])).length = 1 := by decide +kernel
  have hlength := congrArg List.length htrimmed
  have htwo := congrArg List.length hends
  simp only [hnil, List.length_map, List.length_append, List.length_cons, hone] at hlength htwo
  omega

theorem IsExpression.hole (h : IsExpression text e) (hline : '\n' ∉ text.toList) {fuel : Nat}
    (hfuel : 4 * text.toList.length + 3 < fuel) : ∃ e',
      IsExpression (String.ofList (Text.trim text.toList)) e' ∧
      (∀ e, IsExpression text e → e'.bare = e.bare) ∧
      ∀ pos s, hole (exprAt fuel) pos text.toList s = .ok e' s := by
  obtain ⟨e', s', hrun, -, hends⟩ := h.trimmed hline hfuel
  refine ⟨e', ⟨fuel, s', hrun, hends⟩, fun e₁ h₁ => ?_, fun pos s => ?_⟩
  · obtain ⟨e₂, s₂, hrun₂, he, -⟩ := h₁.trimmed hline hfuel
    rw [hrun] at hrun₂
    cases hrun₂
    exact he
  · refine hole_eq_ok.2 ⟨rfl, s', hrun, ?_⟩
    have hcur : s'.cur.kind = .newline := (List.cons.inj hends).1
    have hahead : s'.ahead.map (·.kind) = [.eof] := (List.cons.inj hends).2
    have hnext : s'.ahead.head?.map (·.kind) = some .eof := by rw [← List.head?_map, hahead]; rfl
    simp [State.atLineEnd, hcur, hnext]

end hole

/-! The characters -/

/-- A character of a text as the parser wants it: only braces are written twice. -/
def doubledChar : Char → List Char
  | '\x7b' => ['\x7b', '\x7b']
  | '\x7d' => ['\x7d', '\x7d']
  | c => [c]

def contentOf (first : String) (holes : List (String × String)) : List Char :=
  first.toList.flatMap doubledChar ++ holes.flatMap fun h =>
    '\x7b' :: h.1.toList ++ '\x7d' :: h.2.toList.flatMap doubledChar

/-- In a template these characters stand for that value, whatever follows. -/
def Carries (cs value : List Char) : Prop := ∀ more,
  Scan.stringBody '"' false true (cs ++ more) = (Scan.stringBody '"' false true more).push cs value

namespace Carries

variable {cs cs' value value' : List Char}

theorem append (h : Carries cs value) (h' : Carries cs' value') :
    Carries (cs ++ cs') (value ++ value') := by
  intro more
  rw [List.append_assoc, h, h']
  simp [Scan.Body.push]

theorem nil : Carries [] [] := fun _ => rfl

theorem plain {c : Char} (hquote : c ≠ '"') (hslash : c ≠ '\\') (hline : c ≠ '\n') :
    Carries [c] [c] := Scan.stringBody_plain hquote hslash hline

theorem flatMap {α : Type} {xs : List α} {f g : α → List Char}
    (h : ∀ x ∈ xs, Carries (f x) (g x)) : Carries (xs.flatMap f) (xs.flatMap g) := by
  induction xs with
  | nil => exact nil
  | cons x xs ih =>
    rw [List.flatMap_cons, List.flatMap_cons]
    exact (h x List.mem_cons_self).append (ih fun y hy => h y (List.mem_cons_of_mem x hy))

theorem writtenChar (c : Char) : Carries (writtenChar c) (doubledChar c) := by
  unfold Spellbook.writtenChar
  split
  · exact (plain (by decide) (by decide) (by decide)).append
      (plain (by decide) (by decide) (by decide))
  · exact (plain (by decide) (by decide) (by decide)).append
      (plain (by decide) (by decide) (by decide))
  iterate 6 exact Scan.stringBody_escape _
  · rename_i hopen hclose hquote hslash hline htab hreturn hnul
    have hplain : doubledChar c = [c] := by
      unfold doubledChar
      split <;> first | contradiction | rfl
    rw [hplain]
    exact plain hquote hslash hline

theorem written (text : String) : Carries (written text) (text.toList.flatMap doubledChar) :=
  flatMap fun c _ => writtenChar c

theorem source {text : String} (h : FitsHole text) : Carries text.toList text.toList := by
  have hall : Carries (text.toList.flatMap fun c => [c]) (text.toList.flatMap fun c => [c]) := by
    refine flatMap fun c hc => ?_
    have hne := h c hc
    simp only [List.mem_cons, List.not_mem_nil, or_false, not_or] at hne
    exact plain hne.2.2.1 hne.2.2.2.1 hne.2.2.2.2
  rwa [List.flatMap_singleton'] at hall

theorem template {first : String} {holes : List (String × String)}
    (h : ∀ x ∈ holes, FitsHole x.1) :
    Carries (bodyOf first holes) (contentOf first holes) := by
  refine (written first).append (flatMap fun x hx => ?_)
  have hopen : Carries ['\x7b'] ['\x7b'] := plain (by decide) (by decide) (by decide)
  have hclose : Carries ['\x7d'] ['\x7d'] := plain (by decide) (by decide) (by decide)
  exact (hopen.append (source (h x hx))).append (hclose.append (written x.2))

end Carries

theorem head_bodyOf (first : String) (holes : List (String × String)) :
    ∀ c ∈ (bodyOf first holes).head?, c ≠ '"' := by
  have hfirst : ∀ c : Char, ∃ d ds, writtenChar c = d :: ds ∧ d ≠ '"' := by
    intro c
    unfold writtenChar
    split
    iterate 8 exact ⟨_, _, rfl, by decide⟩
    exact ⟨_, _, rfl, by assumption⟩
  unfold bodyOf written
  cases first.toList with
  | nil => cases holes <;> simp
  | cons c cs =>
    obtain ⟨d, ds, hd, hne⟩ := hfirst c
    simpa [hd] using hne

theorem scan_templateOf (first : String) {holes : List (String × String)}
    (h : ∀ x ∈ holes, FitsHole x.1) :
    scan 'f' ('"' :: bodyOf first holes ++ ['"']) =
      ⟨.template, 'f' :: '"' :: bodyOf first holes ++ ['"'],
        some (.str (String.ofList (contentOf first holes))), none, []⟩ := by
  have hsingle : ['"', '"'].isPrefixOf (bodyOf first holes ++ ['"']) = false := by
    have hhead := head_bodyOf first holes
    cases hbody : bodyOf first holes with
    | nil => rfl
    | cons c cs =>
      rw [hbody] at hhead
      simp [List.isPrefixOf, Ne.symm (hhead c rfl)]
  show Scan.string .template ['f', '"'] '"' (bodyOf first holes ++ ['"']) = _
  rw [Scan.string, hsingle, if_neg Bool.false_ne_true]
  show (Scan.stringBody '"' false true _).toScan _ _ = _
  rw [Carries.template h, Scan.stringBody_close]
  simp [Scan.Body.push, Scan.Body.toScan]

theorem bare_tokensOf_templateOf (first : String) {holes : List (String × String)}
    (h : ∀ x ∈ holes, FitsHole x.1) :
    (tokensOf (templateOf first holes)).map Token.bare =
      [⟨.template, templateOf first holes, .start,
        some (.str (String.ofList (contentOf first holes)))⟩, Token.lineEnd, .eof] ∧
      lexErrorsOf (templateOf first holes) = [] := by
  have hscan := scan_templateOf first h
  rw [← List.append_nil ('"' :: bodyOf first holes ++ ['"'])] at hscan
  have hlexes := Lexes.scanned hscan (by decide) (by decide) fun h => absurd h (by decide)
  exact lex_line String.toList_ofList (by decide) (by decide) (by decide) (List.cons_ne_nil _ _)
    hlexes

/-! The parts -/

section parts

variable {operand : Operand} {pos : Pos} {fuel : Nat}

theorem templateParts_char (c : Char) (collected more : List Char) :
    templateParts operand pos (fuel + 1) collected (doubledChar c ++ more) =
      templateParts operand pos fuel (collected ++ [c]) more := by
  unfold doubledChar
  split
  · rfl
  · rfl
  · rename_i hopen hclose
    exact templateParts.eq_6 _ _ _ _ _ _ (fun _ h _ => hopen h) (fun _ h _ => hclose h) hopen

theorem templateParts_doubled (text rest collected : List Char) :
    templateParts operand pos (fuel + text.length) collected (text.flatMap doubledChar ++ rest) =
      templateParts operand pos fuel (collected ++ text) rest := by
  induction text generalizing collected with
  | nil => simp
  | cons c cs ih =>
    rw [List.flatMap_cons, List.append_assoc, List.length_cons, ← Nat.add_assoc, templateParts_char,
      ih]
    simp

theorem holeText_plain {cs : List Char} (h : ∀ c ∈ cs, c ≠ '\x7b' ∧ c ≠ '\x7d') (rest : List Char) :
    holeText 0 (cs ++ '\x7d' :: rest) = some (cs, rest) := by
  induction cs with
  | nil => rfl
  | cons c cs ih =>
    have hc := h c List.mem_cons_self
    have ih := ih fun d hd => h d (List.mem_cons_of_mem c hd)
    simp [holeText, hc.1, hc.2, ih]

theorem length_le_doubled (text : List Char) : text.length ≤ (text.flatMap doubledChar).length := by
  have hpos : ∀ c, 1 ≤ (doubledChar c).length := by
    intro c
    unfold doubledChar
    split <;> simp
  induction text with
  | nil => simp
  | cons c cs ih =>
    have hc := hpos c
    rw [List.flatMap_cons, List.length_append, List.length_cons]
    omega

theorem templateParts_hole {hole rest collected : List Char} {e : Expr} {s : State}
    {parts : List Part} (hplain : ∀ c ∈ hole, c ≠ '\x7b' ∧ c ≠ '\x7d')
    (hne : Text.trim hole ≠ []) (he : Parser.hole operand pos hole s = .ok e s)
    (hrest : templateParts operand pos fuel [] rest s = .ok parts s) :
    templateParts operand pos (fuel + 1) collected ('\x7b' :: (hole ++ '\x7d' :: rest)) s =
      .ok (textPart collected ++ .hole e :: parts) s := by
  have hopen : ∀ more, hole ++ '\x7d' :: rest ≠ '\x7b' :: more := by
    rintro more heq
    cases hole with
    | nil => simp at heq
    | cons c cs => exact (hplain c List.mem_cons_self).1 (List.cons.inj heq).1
  have hblank : (Text.trim hole).isEmpty = false := by simpa using hne
  rw [templateParts.eq_5 _ _ _ _ _ hopen, holeText_plain hplain]
  simp only [hblank, Bool.false_eq_true, if_false, Bind.bind, EStateM.bind, he, hrest]
  rfl

theorem templateParts_contentOf {first : String} {holes : List (String × String)} {es : List Expr}
    {s : State} (hplain : ∀ h ∈ holes, FitsHole h.1)
    (hholes : List.Forall₂ (fun h e => Text.trim h.1.toList ≠ [] ∧
      Parser.hole operand pos h.1.toList s = .ok e s) holes es)
    (hfuel : (contentOf first holes).length ≤ fuel) :
    templateParts operand pos fuel [] (contentOf first holes) s =
      .ok (partsOf first.toList (es.zip (holes.map (·.2)))) s := by
  induction hholes generalizing first fuel with
  | nil =>
    have hlength := length_le_doubled first.toList
    have hcontent : contentOf first [] = first.toList.flatMap doubledChar ++ [] := rfl
    rw [hcontent, List.append_nil] at hfuel
    obtain ⟨more, rfl⟩ := Nat.exists_eq_add_of_le' (Nat.le_trans hlength hfuel)
    rw [hcontent, templateParts_doubled, List.nil_append, templateParts.eq_1]
    rfl
  | @cons h e holes es he _ ih =>
    have hlength := length_le_doubled first.toList
    have hcontent : contentOf first (h :: holes) = first.toList.flatMap doubledChar ++
        '\x7b' :: (h.1.toList ++ '\x7d' :: contentOf h.2 holes) := by simp [contentOf]
    rw [hcontent] at hfuel ⊢
    simp only [List.length_append, List.length_cons] at hfuel
    obtain ⟨more, rfl⟩ : ∃ more, fuel = more + 1 + first.toList.length :=
      ⟨fuel - first.toList.length - 1, by omega⟩
    have hhole : ∀ c ∈ h.1.toList, c ≠ '\x7b' ∧ c ≠ '\x7d' := by
      intro c hc
      have hne := hplain h List.mem_cons_self c hc
      simp only [List.mem_cons, List.not_mem_nil, or_false, not_or] at hne
      exact ⟨hne.1, hne.2.1⟩
    have hmore : (contentOf h.2 holes).length ≤ more := by omega
    have hrest := ih (fun x hx => hplain x (List.mem_cons_of_mem h hx)) hmore
    rw [templateParts_doubled, List.nil_append, templateParts_hole hhole he.1 he.2 hrest]
    rfl

end parts

/-! The whole template -/

section whole

variable {first : String} {holes : List (String × String)}

/-- The expressions with which the holes are filled: what is read from each text without the blanks
around it, which up to places is what is read from the text. -/
def FilledBy (holes : List (String × String)) (es : List Expr) : Prop :=
  List.Forall₂ (fun h e => IsExpression (String.ofList (Text.trim h.1.toList)) e ∧
    ∀ e', IsExpression h.1 e' → e.bare = e'.bare) holes es

theorem length_hole_le (first : String) {h : String × String} (hh : h ∈ holes) :
    h.1.toList.length ≤ (templateOf first holes).length := by
  have hpart := List.sublist_flatten_of_mem
    (List.mem_map_of_mem (f := fun h => '\x7b' :: h.1.toList ++ '\x7d' :: written h.2) hh)
  have hlength := hpart.length_le
  rw [← List.flatMap_def] at hlength
  simp only [templateOf, bodyOf, String.length_ofList, List.length_append, List.length_cons]
    at hlength ⊢
  omega

theorem exists_filledBy (hplain : ∀ h ∈ holes, FitsHole h.1)
    (hreads : ∀ h ∈ holes, ∃ e, IsExpression h.1 e) {fuel : Nat}
    (hfuel : ∀ h ∈ holes, 4 * h.1.toList.length + 3 < fuel) : ∃ es, FilledBy holes es ∧
      List.Forall₂ (fun h e => Text.trim h.1.toList ≠ [] ∧
        ∀ pos s, Parser.hole (exprAt fuel) pos h.1.toList s = .ok e s) holes es := by
  induction holes with
  | nil => exact ⟨[], .nil, .nil⟩
  | cons h holes ih =>
    obtain ⟨es, hes, hholes⟩ := ih (fun x hx => hplain x (List.mem_cons_of_mem h hx))
      (fun x hx => hreads x (List.mem_cons_of_mem h hx))
      fun x hx => hfuel x (List.mem_cons_of_mem h hx)
    obtain ⟨e, he⟩ := hreads h List.mem_cons_self
    have hline : '\n' ∉ h.1.toList := fun hmem => hplain h List.mem_cons_self _ hmem (by simp)
    obtain ⟨e', hread, hbare, hhole⟩ := he.hole hline (hfuel h List.mem_cons_self)
    exact ⟨e' :: es, .cons ⟨hread, hbare⟩ hes, .cons ⟨he.trim_ne_nil hline, hhole⟩ hholes⟩

theorem reads_template {operand : Operand} {t : Token} {after : List Token} {content : List Char}
    {parts : List Part} (ht : t.literal = some (.str (String.ofList content)))
    (hparts : ∀ pos s, templateParts operand pos content.length [] content s = .ok parts s) :
    Reads (template operand) (t :: after) after fun e => ∃ pos, e = .template pos parts := by
  refine Reads.advance.bind fun token htoken => ?_
  rw [Token.literal_of_bare htoken, ht]
  intro s hs
  refine ⟨.template token.pos parts, s, ?_, hs, token.pos, rfl⟩
  simp only [String.toList_ofList, Bind.bind, EStateM.bind, hparts]
  rfl

theorem parse_templateOf (first : String) (hplain : ∀ h ∈ holes, FitsHole h.1)
    (hreads : ∀ h ∈ holes, ∃ e, IsExpression h.1 e) :
    (parse (templateOf first holes)).diagnostics = [] ∧ ∃ pos es, FilledBy holes es ∧
      (parse (templateOf first holes)).program.statements =
        [.expr (.template pos (partsOf first.toList (es.zip (holes.map (·.2)))))] := by
  obtain ⟨htokens, herrors⟩ := bare_tokensOf_templateOf first hplain
  obtain ⟨fuel, hfuel⟩ : ∃ fuel, budget (templateOf first holes).length = fuel + 2 :=
    ⟨4 * (templateOf first holes).length + 14, Nat.mul_add 4 _ 4⟩
  have hbudget : fuel = 4 * (templateOf first holes).length + 14 := by
    unfold budget at hfuel
    omega
  have hlength : ∀ h ∈ holes, 4 * h.1.toList.length + 3 < fuel := by
    intro h hh
    have hle := length_hole_le first hh
    omega
  obtain ⟨es, hes, hholes⟩ := exists_filledBy hplain hreads hlength
  have hparts : ∀ pos s, templateParts (exprAt fuel) pos (contentOf first holes).length []
      (contentOf first holes) s = .ok (partsOf first.toList (es.zip (holes.map (·.2)))) s :=
    fun pos s => templateParts_contentOf hplain (hholes.imp fun _ _ h => ⟨h.1, h.2 pos s⟩)
      (Nat.le_refl _)
  obtain ⟨hnone, _, hstatements, pos, rfl⟩ := @parse_expression _ _ []
    (fun e => ∃ pos, e = .template pos (partsOf first.toList (es.zip (holes.map (·.2)))))
    htokens herrors rfl (by
      rw [hfuel]
      refine exprAt_start (by omega) rfl (Reads.look fun t ht => ?_)
      rw [Token.kind_of_bare ht]
      exact reads_template rfl hparts)
  exact ⟨hnone, pos, es, hes, hstatements⟩

end whole

/-! The value -/

section value

variable {w : World} {fuel : Nat}

theorem fill_textPart (E : Evaluator) (text : String) (cs : List Char) (parts : List Part) :
    E.fill text (textPart cs ++ parts) = E.fill (text ++ String.ofList cs) parts := by
  cases cs with
  | nil => simp [textPart]
  | cons c cs => rfl

theorem fill_partsOf {es : List Expr} {texts : List String} {m m' : Machine}
    (h : Prints w fuel es texts m m') {holes : List (String × String)}
    (hlength : holes.length = es.length) (text : String) (first : List Char) :
    (evaluator w fuel).fill text (partsOf first (es.zip (holes.map (·.2)))) m =
      .ok (text ++ (filled (String.ofList first) holes texts)) m' := by
  induction h generalizing holes text first with
  | nil m =>
    obtain rfl := List.eq_nil_of_length_eq_zero hlength
    have hfill := fill_textPart (evaluator w fuel) text first []
    rw [List.append_nil] at hfill
    simp only [List.zip_nil_left, partsOf, hfill, filled, List.zipWith_nil_right, String.join_nil,
      String.append_empty]
    rfl
  | @cons e v es texts m m₁ m₂ he _ ih =>
    obtain ⟨hole, holes, rfl⟩ := List.exists_cons_of_length_eq_add_one hlength
    have hrest := ih (Nat.succ.inj hlength) (text ++ String.ofList first ++ m₁.store.print v)
      hole.2.toList
    simp only [List.map_cons, List.zip_cons_cons, partsOf, fill_textPart, filled,
      List.zipWith_cons_cons, String.join_cons, String.ofList_toList] at hrest ⊢
    simp only [Evaluator.fill, Bind.bind, EStateM.bind, he]
    show (evaluator w fuel).fill (text ++ String.ofList first ++ m₁.store.print v) _ m₁ = _
    rw [hrest]
    simp only [String.append_assoc]

end value

/-- Templates interpolate exactly. Whatever texts are put together with expressions that may stand in
a hole, the template has no errors and is read as these texts and expressions. If the expressions are
evaluated one after the other, its value is the texts with those of the values between them. -/
theorem templates_interpolate (first : String) (holes : List (String × String))
    (hplain : ∀ h ∈ holes, FitsHole h.1) (hreads : ∀ h ∈ holes, ∃ e, IsExpression h.1 e) :
    (parse (templateOf first holes)).diagnostics = [] ∧ ∃ pos es, FilledBy holes es ∧
      (parse (templateOf first holes)).program.statements =
        [.expr (.template pos (partsOf first.toList (es.zip (holes.map (·.2)))))] ∧
      ∀ w fuel texts m m', Prints w fuel es texts m m' →
        (evaluator w (fuel + 1)).expr
          (.template pos (partsOf first.toList (es.zip (holes.map (·.2))))) m =
            .ok (.str (filled first holes texts)) m' := by
  obtain ⟨hnone, pos, es, hes, hstatements⟩ := parse_templateOf first hplain hreads
  refine ⟨hnone, pos, es, hes, hstatements, fun w fuel texts m m' hprints => ?_⟩
  have hfill := fill_partsOf hprints hes.length_eq "" first.toList
  rw [String.ofList_toList, String.empty_append] at hfill
  simp only [evaluator, Evaluator.evalExpr, Bind.bind, EStateM.bind, hfill]
  rfl

def isLiteral (text : String) (value : Literal) : Bool :=
  match exprAt 4 .lowest (.start text) with
  | .ok (.literal _ v) s => v == value && s.tokens.map (·.kind) == [.newline, .eof]
  | _ => false

theorem isExpression_literal {text : String} {value : Literal} (h : isLiteral text value = true) :
    ∃ pos, IsExpression text (.literal pos value) := by
  unfold isLiteral at h
  split at h
  · rename_i pos v s hrun
    simp only [Bool.and_eq_true, beq_iff_eq] at h
    obtain ⟨rfl, hends⟩ := h
    exact ⟨pos, 4, s, hrun, hends⟩
  · cases h

theorem eq_literal_of_bare {e : Expr} {pos : Pos} {value : Literal}
    (h : e.bare = (Expr.literal pos value).bare) : ∃ pos', e = .literal pos' value := by
  cases e <;> simp [Expr.bare] at h
  exact ⟨_, by rw [h]⟩

theorem templates_interpolate_literals :
    (parse "f\"\x7b\x7b\x7b1\x7d\x7d\x7d\\n\x7b'x' \x7d\"").diagnostics = [] ∧ ∃ e,
      (parse "f\"\x7b\x7b\x7b1\x7d\x7d\x7d\\n\x7b'x' \x7d\"").program.statements = [.expr e] ∧
        ∀ w fuel m, (evaluator w (fuel + 2)).expr e m = .ok (.str "\x7b1\x7d\nx") m := by
  have hliteral : isLiteral "1" (.int 1) = true ∧ isLiteral "'x' " (.str "x") = true := by
    decide +kernel
  obtain ⟨pos₁, hone⟩ := isExpression_literal hliteral.1
  obtain ⟨pos₂, hx⟩ := isExpression_literal hliteral.2
  have htext : templateOf "\x7b" [("1", "\x7d\n"), ("'x' ", "")] =
      "f\"\x7b\x7b\x7b1\x7d\x7d\x7d\\n\x7b'x' \x7d\"" := by decide +kernel
  obtain ⟨hnone, pos, es, hes, hstatements, hvalue⟩ :=
    templates_interpolate "\x7b" [("1", "\x7d\n"), ("'x' ", "")]
      (by
        simp only [List.forall_mem_cons, FitsHole]
        exact ⟨by simp, by simp, List.forall_mem_nil _⟩)
      (by
        simp only [List.forall_mem_cons]
        exact ⟨⟨_, hone⟩, ⟨_, hx⟩, List.forall_mem_nil _⟩)
  rw [htext] at hnone hstatements
  refine ⟨hnone, _, hstatements, fun w fuel m => ?_⟩
  cases hes with
  | @cons _ e₁ _ es h₁ hes =>
    cases hes with
    | @cons _ e₂ _ es h₂ hes =>
      cases hes
      obtain ⟨p₁, rfl⟩ := eq_literal_of_bare (h₁.2 _ hone)
      obtain ⟨p₂, rfl⟩ := eq_literal_of_bare (h₂.2 _ hx)
      have hprinted : m.store.print (.int 1) = "1" ∧ m.store.print (.str "x") = "x" := ⟨rfl, rfl⟩
      have hprints : Prints w (fuel + 1) [.literal p₁ (.int 1), .literal p₂ (.str "x")] ["1", "x"]
          m m := by
        rw [← hprinted.1, ← hprinted.2]
        exact .cons rfl (.cons rfl (.nil m))
      have hfilled : filled "\x7b" [("1", "\x7d\n"), ("'x' ", "")] ["1", "x"] = "\x7b1\x7d\nx" := by
        decide +kernel
      rw [hvalue w (fuel + 1) _ m m hprints, hfilled]

end Spellbook
