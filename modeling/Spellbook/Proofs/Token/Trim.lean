import Mathlib.Data.List.TakeWhile
import Spellbook.Text.Blank
import Spellbook.Proofs.Token.Abreast
import Spellbook.Proofs.Token.Swap

/-! Blanks around a line. A line that is not indented and has no flaw has the same tokens without the
blanks at its two ends. -/
namespace Spellbook

def blanks : List Char :=
  (Text.blankRanges.flatMap fun r => List.range' r.1 (r.2 + 1 - r.1)).map Char.ofNat

theorem exists_range {n : Nat} {ranges : List (Nat × Nat)} (h : Text.inRanges n ranges = true) :
    ∃ r ∈ ranges, r.1 ≤ n ∧ n ≤ r.2 := by
  induction ranges with
  | nil => cases h
  | cons r ranges ih =>
    simp only [Text.inRanges, Bool.if_false_left, Bool.and_eq_true, Bool.not_eq_true',
      decide_eq_false_iff_not, Nat.not_lt, Bool.or_eq_true, decide_eq_true_eq] at h
    obtain ⟨hlow, hhigh | hmore⟩ := h
    · exact ⟨r, List.mem_cons_self, hlow, hhigh⟩
    · obtain ⟨r', hr', hn⟩ := ih hmore
      exact ⟨r', List.mem_cons_of_mem r hr', hn⟩

theorem mem_blanks {c : Char} (h : Text.isBlank c = true) : c ∈ blanks := by
  obtain ⟨r, hr, hlow, hhigh⟩ := exists_range h
  refine List.mem_map.2 ⟨c.toNat, List.mem_flatMap.2 ⟨r, hr, ?_⟩, Char.ofNat_toNat c⟩
  rw [List.mem_range'_1]
  omega

theorem endsToken_blank {c : Char} (h : Text.isBlank c = true) : EndsToken c := by
  have hall : ∀ c ∈ blanks, Number.isDigit c = false ∧ Scan.isWordChar c = false ∧ c ≠ '"' ∧
      c ≠ '\'' := by
    have hblanks : (blanks.all fun c =>
        !Number.isDigit c && (!Scan.isWordChar c && (c != '"' && c != '\''))) = true := by
      decide +kernel
    simpa only [List.all_eq_true, Bool.and_eq_true, Bool.not_eq_true', bne_iff_ne] using hblanks
  have hsymbol : ∀ c ∈ blanks, ∀ s : Symbol, c ∉ s.text.toList := by
    have hflat : ∀ s : Symbol, (s.text.toList.all fun d => !blanks.contains d) = true := fun s => by
      cases s <;> decide +kernel
    intro c hc s hs
    have hnot := List.all_eq_true.1 (hflat s) c hs
    simp [hc] at hnot
  obtain ⟨hdigit, hword, hdouble, hsingle⟩ := hall c (mem_blanks h)
  exact ⟨hdigit, hword, hdouble, hsingle, hsymbol c (mem_blanks h)⟩

theorem isBlank_of_isInlineBlank {c : Char} (h : Lexer.isInlineBlank c = true) :
    Text.isBlank c = true := by
  unfold Lexer.isInlineBlank Lexer.indentWidth? at h
  split at h
  · decide
  · decide
  · decide
  · cases h

namespace Scan

variable {c : Char} {cs tail : List Char}

theorem scan_endsToken (h : EndsToken c) (cs : List Char) : scan c cs = unexpected c cs := by
  have hword : c ≠ 'f' ∧ c ≠ '_' := by
    constructor <;> rintro rfl <;> exact absurd h.word (by decide)
  have hstart : isWordStart c = false := by
    cases hc : isWordStart c with
    | false => rfl
    | true => rw [← h.word, isWordChar_of_isWordStart hc]
  have hsymbol : symbol? (c :: cs) = none := by
    refine List.find?_eq_none.2 fun s _ hs => h.symbol s ?_
    obtain ⟨more, hmore⟩ := List.isPrefixOf_iff_prefix.1 hs
    cases htext : s.text.toList with
    | nil => exact absurd (length_symbol_pos s) (by simp [← String.length_toList, htext])
    | cons d ds =>
      rw [htext] at hmore
      rw [(List.cons.inj hmore).1]
      exact List.mem_cons_self
  simp [scan, quote?_eq_none h.double h.single, hword, h.digit, hstart, hsymbol]

theorem mem_of_closed {q : Char} {triple multiline : Bool}
    (h : (stringBody q triple multiline cs).closed = true) : q ∈ cs := by
  fun_induction stringBody q triple multiline cs with
  | case1 => cases h
  | case2 c cs hc => simp_all
  | case3 c cs hc hp => simp_all
  | case4 => cases h
  | case5 => cases h
  | case6 e cs _ _ _ ih => exact List.mem_cons_of_mem _ (List.mem_cons_of_mem e (ih h))
  | case7 c cs _ _ _ _ ih => exact List.mem_cons_of_mem c (ih h)

theorem closed_of_append {q : Char} {triple multiline : Bool} (hq : q ∉ tail)
    (h : (stringBody q triple multiline (cs ++ tail)).closed = true) :
    (stringBody q triple multiline cs).closed = true := by
  have hprefix : ∀ cs, [q, q].isPrefixOf (cs ++ tail) = [q, q].isPrefixOf cs :=
    quotes_parted fun c hc heq => hq (heq ▸ List.mem_of_mem_head? hc)
  fun_induction stringBody q triple multiline cs with
  | case1 => exact absurd (mem_of_closed h) hq
  | case2 => rfl
  | case3 => rfl
  | case4 c cs hc hp hline =>
    rw [List.cons_append, stringBody.eq_def] at h
    simp only [if_neg hc, hprefix, if_neg hp, if_pos hline] at h
    cases h
  | case5 hc hline hp =>
    have hnil := hprefix []
    rw [List.nil_append] at hnil
    rw [List.cons_append, List.nil_append, stringBody.eq_def] at h
    simp only [if_neg hc, hnil, if_neg hp, if_neg hline, if_true] at h
    cases tail with
    | nil => cases h
    | cons e tail => exact absurd (List.mem_cons_of_mem e (mem_of_closed h)) hq
  | case6 e cs hc hline hp ih =>
    have hcs := hprefix (e :: cs)
    rw [List.cons_append] at hcs
    rw [List.cons_append, List.cons_append, stringBody.eq_def] at h
    simp only [if_neg hc, hcs, if_neg hp, if_neg hline, if_true] at h
    exact ih h
  | case7 c cs hc hp hline hescape ih =>
    rw [List.cons_append, stringBody.eq_def] at h
    simp only [if_neg hc, hprefix, if_neg hp, if_neg hline, if_neg hescape] at h
    exact ih h

theorem toScan_flaw {b : Body} {kind : Kind} {opening : List Char} (h : b.closed = true) :
    (b.toScan kind opening).flaw = none := by
  simp [Body.toScan, h]

theorem string_flaw_of_append {q : Char} (hq : q ∉ tail) {kind : Kind} {opening : List Char}
    (h : (Scan.string kind opening q (cs ++ tail)).flaw = none) :
    (Scan.string kind opening q cs).flaw = none := by
  have hprefix : ∀ cs, [q, q].isPrefixOf (cs ++ tail) = [q, q].isPrefixOf cs :=
    quotes_parted fun c hc heq => hq (heq ▸ List.mem_of_mem_head? hc)
  by_cases hp : [q, q].isPrefixOf cs
  · have hdrop : (cs ++ tail).drop 2 = cs.drop 2 ++ tail :=
      List.drop_append_of_le_length (List.isPrefixOf_iff_prefix.1 hp).length_le
    simp only [Scan.string, hprefix, hp, if_true, hdrop] at h ⊢
    exact toScan_flaw (closed_of_append hq (toScan_closed h))
  · simp only [Scan.string, hprefix, hp, if_false, Bool.false_eq_true] at h ⊢
    exact toScan_flaw (closed_of_append hq (toScan_closed h))

theorem number_flaw (cs : List Char) : (number cs).flaw = none := by
  simp only [number]
  split
  · split <;> rfl
  · rfl

theorem word_flaw (cs : List Char) : (word cs).flaw = none := by
  simp only [word]
  split <;> rfl

theorem flaw_of_append (ht : ∀ d ∈ tail, EndsToken d) (h : (scan c (cs ++ tail)).flaw = none) :
    (scan c cs).flaw = none := by
  have hparted : Parted tail := fun d hd => ht d (List.mem_of_mem_head? hd)
  have hquote : ∀ {cs : List Char} {q : Char}, quote? cs = some q → q ∉ tail := by
    rintro cs q hcs hq
    unfold quote? at hcs
    split at hcs
    · exact (ht q hq).double (Option.some.inj hcs).symm
    · exact (ht q hq).single (Option.some.inj hcs).symm
    · cases hcs
  have htemplate : (if c = 'f' then quote? (cs ++ tail) else none) =
      if c = 'f' then quote? cs else none := by rw [quote?_parted hparted]
  have hsymbol := symbol?_parted hparted (c :: cs)
  rw [List.cons_append] at hsymbol
  simp only [scan, htemplate, continuesWord_parted hparted, hsymbol] at h ⊢
  cases hq : quote? [c] with
  | some q =>
    rw [hq] at h
    exact string_flaw_of_append (hquote hq) h
  | none =>
    cases hq' : (if c = 'f' then quote? cs else none) with
    | some q =>
      obtain ⟨rfl, hfirst⟩ : c = 'f' ∧ quote? cs = some q := by simpa using hq'
      have hdrop : (cs ++ tail).drop 1 = cs.drop 1 ++ tail := by
        cases cs with
        | nil => simp [quote?] at hfirst
        | cons d cs => rfl
      rw [hq, hq', hdrop] at h
      exact string_flaw_of_append (hquote hfirst) h
    | none =>
      -- Only a character that no token starts with is a flaw of its own.
      rw [hq, hq'] at h
      dsimp only at h ⊢
      split
      · rfl
      · rename_i hunder
        rw [if_neg hunder] at h
        split
        · exact number_flaw (c :: cs)
        · rename_i hdigit
          rw [if_neg hdigit] at h
          split
          · exact word_flaw (c :: cs)
          · rename_i hstart
            rw [if_neg hstart] at h
            cases hs : symbol? (c :: cs) with
            | none => simp [hs, unexpected] at h
            | some s => rfl

end Scan

/-- Nothing is there, or the last character is no blank. -/
def EndsWritten (r : List Char) : Prop := ∀ c ∈ r.getLast?, Text.isBlank c = false

theorem EndsWritten.suffix {r r' : List Char} (h : EndsWritten r) (hs : r' <:+ r) :
    EndsWritten r' := by
  obtain ⟨before, rfl⟩ := hs
  intro c hc
  refine h c ?_
  rw [List.getLast?_append, Option.mem_def.1 hc]
  rfl

theorem EndsWritten.dropWhile_ne_nil {r : List Char} (h : EndsWritten r) (hne : r ≠ []) :
    r.dropWhile Lexer.isInlineBlank ≠ [] := by
  intro hnil
  have hinline := List.dropWhile_eq_nil_iff.1 hnil _ (List.getLast_mem hne)
  have hwritten := h _ (List.getLast?_eq_some_getLast hne)
  rw [isBlank_of_isInlineBlank hinline] at hwritten
  cases hwritten

namespace Lexer

variable {s : Lexer} {r tail : List Char}

theorem commentBody_append {cs text rest : List Char} (h : commentBody cs = (text, some rest))
    (tail : List Char) : commentBody (cs ++ tail) = (text, some (rest ++ tail)) := by
  fun_induction commentBody cs generalizing text with
  | case1 => cases h
  | case2 cs =>
    cases h
    rfl
  | case3 c cs hne text' rest' hbody ih =>
    simp only [Prod.mk.injEq] at h
    obtain ⟨rfl, rfl⟩ := h
    rw [List.cons_append, commentBody.eq_3, ih hbody]
    intro more hc hcs
    cases cs with
    | nil => simp [commentBody] at hbody
    | cons d cs => exact hne cs hc (by rw [(List.cons.inj hcs).1])

theorem commentBody_open {cs text : List Char} (h : commentBody cs = (text, none))
    (hslash : '/' ∉ tail) : (commentBody (cs ++ tail)).2 = none := by
  have hnone : ∀ tail : List Char, '/' ∉ tail → (commentBody tail).2 = none := by
    intro tail ht
    fun_induction commentBody tail with
    | case1 => rfl
    | case2 cs => simp at ht
    | case3 c cs hne text rest hbody ih =>
      have hmore := ih fun hmem => ht (List.mem_cons_of_mem c hmem)
      rwa [hbody] at hmore
  fun_induction commentBody cs generalizing text with
  | case1 => exact hnone tail hslash
  | case2 cs => cases h
  | case3 c cs hne text' rest' hbody ih =>
    simp only [Prod.mk.injEq] at h
    obtain ⟨rfl, rfl⟩ := h
    rw [List.cons_append, commentBody.eq_3]
    · exact ih hbody
    · intro more hc hcs
      cases cs with
      | nil => exact hslash (by rw [← List.nil_append tail, hcs]; exact List.mem_cons_self)
      | cons d cs => exact hne cs hc (by rw [(List.cons.inj hcs).1])

theorem opensComment_append {c : Char} {cs : List Char} (h : opensComment (c :: cs) = false)
    (ht : ∀ d ∈ tail, EndsToken d) : opensComment (c :: (cs ++ tail)) = false := by
  cases cs with
  | cons d cs =>
    by_cases hslash : c = '/' <;> by_cases hd : d = '/' <;> by_cases hs : d = '*' <;>
      simp_all [opensComment]
  | nil =>
    cases tail with
    | nil => exact h
    | cons d tail =>
      have hd := (ht d List.mem_cons_self).symbol
      have hslash : d ≠ '/' := fun heq => hd .slash (by simp [heq, Symbol.text])
      have hstar : d ≠ '*' := fun heq => hd .star (by simp [heq, Symbol.text])
      simp [opensComment, hslash, hstar]

theorem skipBlanks_append (hr : r.dropWhile isInlineBlank ≠ []) :
    (s.withRest (r ++ tail)).skipBlanks =
      (s.withRest r).skipBlanks.withRest (r.dropWhile isInlineBlank ++ tail) := by
  have hdrop : (r ++ tail).dropWhile isInlineBlank = r.dropWhile isInlineBlank ++ tail := by
    rw [List.dropWhile_append, if_neg (by simpa using hr)]
  have htake : (r ++ tail).takeWhile isInlineBlank = r.takeWhile isInlineBlank := by
    have hsplit := List.takeWhile_append_dropWhile (p := isInlineBlank) (l := r ++ tail)
    rw [hdrop, ← List.append_assoc] at hsplit
    have hcut := List.append_cancel_right hsplit
    exact List.append_cancel_right (hcut.trans List.takeWhile_append_dropWhile.symm)
  simp only [skipBlanks, withRest, skip, hdrop, htake]

theorem illegal_of_isBlank {c : Char} {cs : List Char} (hf : s.fresh = false)
    (hr : s.skipBlanks.rest = c :: cs) (hc : Text.isBlank c = true) (hn : c ≠ '\n') :
    ∃ l ∈ s.run, l.token.kind = .illegal := by
  have hends := endsToken_blank hc
  have hcomment : opensComment (c :: cs) = false := by
    have hslash : c ≠ '/' := fun heq => hends.symbol .slash (by simp [heq, Symbol.text])
    simp [opensComment, hslash]
  have hstep := (Move.token hr hn hcomment).step_eq (by simp [atStart, hf])
  rw [run_of_step hstep, Scan.scan_endsToken hends cs]
  exact ⟨_, List.mem_append_left _ (List.mem_singleton.2 rfl), rfl⟩

theorem atStart_withRest (hf : s.fresh = false) (rest : List Char) :
    (s.withRest rest).atStart = false := by
  simp [atStart, withRest, hf]

theorem bare_run_blanks (hf : s.fresh = false) (hline : '\n' ∉ tail)
    (ht : ∀ c ∈ tail, Text.isBlank c = true)
    (hlegal : ∀ l ∈ (s.withRest tail).run, l.token.kind ≠ .illegal) :
    (s.withRest []).run.map Lexed.bare = (s.withRest tail).run.map Lexed.bare := by
  have hstart := atStart_withRest hf
  cases hr : tail.dropWhile isInlineBlank with
  | nil =>
    rw [run_of_end (step_end (hstart tail) hr), run_of_end (step_end (hstart []) rfl), bare_finish,
      bare_finish]
    rfl
  | cons c cs =>
    have hmem : c ∈ tail := (List.dropWhile_sublist _).subset (hr ▸ List.mem_cons_self)
    obtain ⟨l, hl, hkind⟩ := illegal_of_isBlank (s := s.withRest tail) hf hr (ht c hmem)
      fun heq => hline (heq ▸ hmem)
    exact absurd hkind (hlegal l hl)

theorem dropWhile_line {cs : List Char} (hline : '\n' ∉ cs) : cs.dropWhile (· != '\n') = [] :=
  List.dropWhile_eq_nil_iff.2 fun _ hc => bne_iff_ne.2 fun heq => hline (heq ▸ hc)

/-- A step within a line is the same with something behind the line that ends all tokens and is no
flaw. That is left then behind what is left of the line, unless the step is a line comment, which
takes it as well. -/
theorem Move.extend {found : List Lexed} {next : Lexer} (hmove : Move (s.withRest r) found next)
    (hr : r.dropWhile isInlineBlank ≠ []) (hline : '\n' ∉ r ++ tail)
    (hends : ∀ d ∈ tail, EndsToken d)
    (hlegal : ∀ found' next', Move (s.withRest (r ++ tail)) found' next' →
      ∀ l ∈ found', l.token.kind ≠ .illegal) :
    next.rest <:+ r ∧ next.fresh = s.fresh ∧ ∃ next', Move (s.withRest (r ++ tail)) found next' ∧
      (next' = next.withRest (next.rest ++ tail) ∨
        next' = next.relocate next'.pos next.indents) := by
  have hskip : (s.withRest (r ++ tail)).skipBlanks =
      (s.withRest r).skipBlanks.withRest (r.dropWhile isInlineBlank ++ tail) :=
    skipBlanks_append hr
  have hsuffix : (s.withRest r).skipBlanks.rest <:+ r := List.dropWhile_suffix _
  have hmore : ∀ {cs : List Char}, (s.withRest r).skipBlanks.rest = cs →
      (s.withRest (r ++ tail)).skipBlanks.rest = cs ++ tail := by
    rintro cs rfl
    rw [hskip]
    rfl
  have hnewline : ∀ {cs : List Char}, (s.withRest r).skipBlanks.rest = '\n' :: cs → False := by
    intro cs hcs
    rw [hcs] at hsuffix
    exact hline (List.mem_append_left _ (hsuffix.subset List.mem_cons_self))
  cases hmove with
  | inside hcs => exact (hnewline hcs).elim
  | newline hcs => exact (hnewline hcs).elim
  | @lineComment cs hcs =>
    rw [hcs] at hsuffix
    have hin : cs <:+ r := ((List.suffix_cons _ _).trans (List.suffix_cons _ _)).trans hsuffix
    have hall : '\n' ∉ cs ++ tail := fun hmem =>
      hline (List.mem_append.2 ((List.mem_append.1 hmem).imp_left (hin.subset ·)))
    have hmove' := Move.lineComment (hmore hcs)
    rw [List.append_eq, dropWhile_line hall] at hmove'
    have hnone := dropWhile_line fun hmem => hall (List.mem_append_left tail hmem)
    refine ⟨(List.dropWhile_suffix _).trans hin, rfl, _, hmove', .inr ?_⟩
    rw [hnone, hskip]
    rfl
  | @openComment cs text hcs hbody =>
    have hslash : '/' ∉ tail := fun hmem => (hends _ hmem).symbol .slash (by simp [Symbol.text])
    obtain ⟨text', hbody'⟩ : ∃ text', commentBody (cs ++ tail) = (text', none) :=
      ⟨_, Prod.ext rfl (commentBody_open hbody hslash)⟩
    have hmove' := Move.openComment (hmore hcs) hbody'
    exact absurd rfl (hlegal _ _ hmove' _ (List.mem_singleton.2 rfl))
  | @blockComment cs text rest hcs hbody =>
    have hmove' := Move.blockComment (hmore hcs) (commentBody_append hbody tail)
    rw [hskip] at hmove'
    have hrest : rest <:+ cs := by
      have htext := commentBody_text cs
      rw [hbody] at htext
      exact ⟨text, htext⟩
    rw [hcs] at hsuffix
    have hin : cs <:+ r := ((List.suffix_cons _ _).trans (List.suffix_cons _ _)).trans hsuffix
    exact ⟨hrest.trans hin, rfl, _, hmove', .inl rfl⟩
  | @token c cs hcs hc hcomment =>
    have hmove' := Move.token (hmore hcs) hc (opensComment_append hcomment hends)
    have hflaw : (scan c (cs ++ tail)).flaw = none := by
      have hkind : (scan c (cs ++ tail)).kind ≠ .illegal :=
        hlegal _ _ hmove' _ (List.mem_singleton.2 rfl)
      simpa using mt (honest_scan c (cs ++ tail)).illegal.2 hkind
    have hparted : Parted tail := fun d hd => hends d (List.mem_of_mem_head? hd)
    rw [hskip, List.append_eq, scan_parted hparted c cs (Scan.flaw_of_append hends hflaw)] at hmove'
    have hrest : (scan c cs).rest <:+ r := by
      rw [hcs, ← scan_text c cs] at hsuffix
      exact (List.suffix_append _ _).trans hsuffix
    exact ⟨hrest, rfl, _, hmove', .inl rfl⟩

theorem bare_run_trimmed (hf : s.fresh = false) (hline : '\n' ∉ r ++ tail) (hr : EndsWritten r)
    (ht : ∀ c ∈ tail, Text.isBlank c = true)
    (hlegal : ∀ l ∈ (s.withRest (r ++ tail)).run, l.token.kind ≠ .illegal) :
    (s.withRest r).run.map Lexed.bare = (s.withRest (r ++ tail)).run.map Lexed.bare := by
  induction hm : (s.withRest r).measure using Nat.strongRecOn generalizing s r with
  | ind m ih =>
    subst hm
    by_cases hne : r = []
    · subst hne
      exact bare_run_blanks hf (by simpa using hline) ht hlegal
    have hrest := hr.dropWhile_ne_nil hne
    obtain ⟨hnil, -⟩ | ⟨found, next, hstep, hmove⟩ := step_moves (atStart_withRest hf r)
    · exact absurd hnil hrest
    have hrun : ∀ found' next', Move (s.withRest (r ++ tail)) found' next' →
        (s.withRest (r ++ tail)).run = found' ++ next'.run :=
      fun _ _ hmove' => run_of_step (hmove'.step_eq (atStart_withRest hf _))
    obtain ⟨hsuffix, hfresh, next', hmove', hnext⟩ := hmove.extend hrest hline
      (fun d hd => endsToken_blank (ht d hd)) fun found' next' hmove' l hl =>
        hlegal l (hrun _ _ hmove' ▸ List.mem_append_left _ hl)
    rw [hrun _ _ hmove'] at hlegal ⊢
    rw [run_of_step hstep, List.map_append, List.map_append]
    refine congrArg _ ?_
    obtain rfl | hplace := hnext
    · have hline' : '\n' ∉ next.rest ++ tail := fun hmem =>
        hline (List.mem_append.2 ((List.mem_append.1 hmem).imp_left (hsuffix.subset ·)))
      exact ih _ (measure_step hstep) (hfresh.trans hf) hline' (hr.suffix hsuffix)
        (fun l hl => hlegal l (List.mem_append_right _ hl)) rfl
    · rw [hplace]
      exact (bare_run_relocate next next'.pos).symm

theorem applyIndent_first (hi : s.indents = [0]) (width : Nat) :
    s.applyIndent width = ([], s) ∨
      0 < width ∧ ∃ pos, (s.applyIndent width).1 = [mark .indent pos] := by
  obtain ⟨rest, pos, indents, nesting, fresh, hasTokens⟩ := s
  cases hi
  cases width with
  | zero => exact .inl rfl
  | succ n => exact .inr ⟨Nat.succ_pos n, ⟨pos.line, n + 2⟩, by simp [applyIndent]⟩

theorem run_start_cases (text : List Char) :
    (start text).run = Lexer.run { start text with fresh := false } ∨
      0 < widthOf (text.takeWhile isInlineBlank) ∧
        ∃ pos more, (start text).run = mark .indent pos :: more := by
  have hstart : atStart { start text with fresh := false } = false := rfl
  rw [run_of_step (step_look (s := start text) rfl)]
  have hlook := look_layout (start text)
  generalize (start text).layout.1 = found, (start text).layout.2 = next at hlook
  cases hlook with
  | blank => exact .inl rfl
  | openComment hr hbody =>
    have hmove := Move.openComment (s := { start text with fresh := false }) hr hbody
    rw [run_of_step (hmove.step_eq hstart)]
    exact .inl rfl
  | comment hr hbody =>
    have hmove := Move.blockComment (s := { start text with fresh := false }) hr hbody
    rw [run_of_step (hmove.step_eq hstart)]
    exact .inl rfl
  | @behind cs comment rest behind hr hbody hblank hbehind =>
    obtain hsame | ⟨hpos, pos, hindent⟩ := applyIndent_first (s := behind) (by rw [hbehind]; rfl)
      (widthOf ((start text).rest.takeWhile isInlineBlank))
    · have hmove := Move.blockComment (s := { start text with fresh := false }) hr hbody
      rw [run_of_step (hmove.step_eq hstart)]
      refine .inl ?_
      show (behind.applyIndent _).1 ++ (behind.applyIndent _).2.run = _
      rw [hsame, hbehind]
      rfl
    · exact .inr ⟨hpos, pos, _, congrArg (· ++ _) hindent⟩
  | @row inside hblank hr hinside =>
    obtain hsame | ⟨hpos, pos, hindent⟩ := applyIndent_first (s := inside) (by rw [hinside]; rfl)
      (widthOf ((start text).rest.takeWhile isInlineBlank))
    · refine .inl ?_
      show (inside.applyIndent _).1 ++ (inside.applyIndent _).2.run = _
      rw [hsame, hinside]
      exact run_skipBlanks (s := { start text with fresh := false }) rfl
    · exact .inr ⟨hpos, pos, _, congrArg (· ++ _) hindent⟩

end Lexer

theorem exists_trim (text : List Char) : ∃ tail, text.dropWhile Text.isBlank = Text.trim text ++ tail ∧
    EndsWritten (Text.trim text) ∧ ∀ c ∈ tail, Text.isBlank c = true := by
  generalize hd : (text.dropWhile Text.isBlank).reverse = d
  have htrim : Text.trim text = (d.dropWhile Text.isBlank).reverse := by rw [Text.trim, hd]
  refine ⟨(d.takeWhile Text.isBlank).reverse, ?_, ?_, ?_⟩
  · rw [htrim, ← List.reverse_append, List.takeWhile_append_dropWhile, ← hd, List.reverse_reverse]
  · intro c hc
    have hhead := List.head?_dropWhile_not Text.isBlank d
    rw [htrim, List.getLast?_reverse, Option.mem_def] at hc
    simpa [hc] using hhead
  · intro c hc
    have hall := List.all_takeWhile (p := Text.isBlank) (l := d)
    exact List.all_eq_true.1 hall c (List.mem_reverse.1 hc)

theorem Lexer.dropWhile_isBlank {s : Lexer} (hf : s.fresh = false) (hline : '\n' ∉ s.rest)
    (hlegal : ∀ l ∈ s.run, l.token.kind ≠ .illegal) :
    s.rest.dropWhile Text.isBlank = s.skipBlanks.rest := by
  have hall : ∀ c ∈ s.rest.takeWhile isInlineBlank, Text.isBlank c = true := fun c hc =>
    isBlank_of_isInlineBlank (List.all_eq_true.1 List.all_takeWhile c hc)
  have hsplit := List.takeWhile_append_dropWhile (p := isInlineBlank) (l := s.rest)
  rw [← hsplit, List.dropWhile_append_of_pos hall]
  change s.skipBlanks.rest.dropWhile Text.isBlank = s.skipBlanks.rest
  cases hr : s.skipBlanks.rest with
  | nil => rfl
  | cons c cs =>
    cases hc : Text.isBlank c with
    | false => rw [List.dropWhile_cons_of_neg (by simp [hc])]
    | true =>
      have hmem : c ∈ s.rest := (List.dropWhile_sublist _).subset (hr ▸ List.mem_cons_self)
      obtain ⟨l, hl, hkind⟩ := illegal_of_isBlank hf hr hc fun heq => hline (heq ▸ hmem)
      exact absurd hkind (hlegal l hl)

theorem bare_tokensOf_trim {text : List Char} (hline : '\n' ∉ text)
    (hlegal : ∀ t ∈ tokensOf (String.ofList text), t.kind ≠ .illegal)
    (hfirst : ∀ t ∈ (tokensOf (String.ofList text)).head?, t.kind ≠ .indent) :
    (tokensOf (String.ofList (Text.trim text))).map Token.bare =
      (tokensOf (String.ofList text)).map Token.bare := by
  have hbare : ∀ text : List Char, (tokensOf (String.ofList text)).map Token.bare =
      ((Lexer.start text).run.map Lexed.bare).map (·.token) := by
    intro text
    simp [tokensOf, lex, Lexed.bare]
  have hlegal' : ∀ l ∈ (Lexer.start text).run, l.token.kind ≠ .illegal := by
    intro l hl
    exact hlegal l.token (by simpa [tokensOf, lex] using ⟨l, hl, rfl⟩)
  obtain ⟨tail, hsplit, hends, htail⟩ := exists_trim text
  rw [hbare, hbare]
  refine congrArg _ ?_
  obtain hrun | ⟨-, pos, more, hrun⟩ := Lexer.run_start_cases text
  swap
  · exact absurd rfl (hfirst (Lexer.mark .indent pos).token (by simp [tokensOf, lex, hrun]))
  let s : Lexer := { Lexer.start text with fresh := false }
  have hskip : text.dropWhile Text.isBlank = s.skipBlanks.rest :=
    Lexer.dropWhile_isBlank (s := s) rfl hline (hrun ▸ hlegal')
  have hrest : s.skipBlanks = s.skipBlanks.withRest (Text.trim text ++ tail) := by
    rw [← hsplit, hskip]
    rfl
  have hrun' : (Lexer.start text).run = (s.skipBlanks.withRest (Text.trim text ++ tail)).run := by
    rw [hrun, ← hrest]
    exact (Lexer.run_skipBlanks (s := s) rfl).symm
  have hline' : '\n' ∉ Text.trim text ++ tail := by
    rw [← hsplit]
    exact fun hmem => hline ((List.dropWhile_sublist _).subset hmem)
  rw [hrun'] at hlegal' ⊢
  have htrimmed := Lexer.bare_run_trimmed (s := s.skipBlanks) rfl hline' hends htail hlegal'
  rw [← htrimmed]
  -- The trimmed text is not indented, and stands at another place.
  have hstart : (Lexer.start (Text.trim text)).run =
      Lexer.run { Lexer.start (Text.trim text) with fresh := false } := by
    refine (Lexer.run_start_cases _).resolve_right ?_
    rintro ⟨hpos, -⟩
    have hnone : (Text.trim text).takeWhile Lexer.isInlineBlank = [] := by
      cases hcs : Text.trim text with
      | nil => rfl
      | cons c cs =>
        rw [hskip, hcs] at hsplit
        simp [Lexer.isInlineBlank_head hsplit]
    rw [hnone] at hpos
    exact Nat.lt_irrefl 0 hpos
  rw [hstart]
  exact (Lexer.bare_run_relocate _ s.skipBlanks.pos).symm

end Spellbook
