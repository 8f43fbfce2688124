import Spellbook.Proofs.Token.Lossless

/-! The lexer asked for one token after the other. It goes through the tokens of the text, comes to
EOF, and hands out EOF from then on. -/
namespace Spellbook

namespace Lexer

theorem Finds.ne_eof {s : Lexer} {l : Lexed} (h : s.Finds l) : l.token.kind ≠ .eof := by
  cases h with
  | lineEnd | indent | dedent | uneven | openComment => exact nofun
  | @token c cs =>
    have hkind := scan_kind c cs
    simp only [List.mem_cons, List.not_mem_nil, or_false, not_or] at hkind
    exact hkind.2

theorem ne_eof_step {s next : Lexer} {found : List Lexed} (h : s.step = (found, some next)) :
    ∀ l ∈ found, l.token.kind ≠ .eof := by
  intro l hl
  have hfinds := finds_step s l
  rw [h] at hfinds
  obtain hfinds | ⟨hend, -⟩ := hfinds hl
  · exact hfinds.ne_eof
  · cases hend

end Lexer

/-- The tokens end with EOF, which is nowhere else. -/
def EndsWithEof (tokens : List Token) : Prop :=
  ∃ before last, tokens = before ++ [last] ∧ last.kind = .eof ∧ ∀ t ∈ before, t.kind ≠ .eof

namespace EndsWithEof

variable {t : Token} {ts tokens more : List Token}

theorem before (h : EndsWithEof tokens) (hmore : ∀ t ∈ more, t.kind ≠ .eof) :
    EndsWithEof (more ++ tokens) := by
  obtain ⟨ts, last, rfl, hlast, hts⟩ := h
  refine ⟨more ++ ts, last, by simp, hlast, ?_⟩
  simpa [or_imp, forall_and] using ⟨hmore, hts⟩

theorem not_nil : ¬ EndsWithEof [] := by
  rintro ⟨before, last, h, -⟩
  simp at h

theorem eof_iff (h : EndsWithEof (t :: ts)) : t.kind = .eof ↔ ts = [] := by
  obtain ⟨before, last, heq, hlast, hbefore⟩ := h
  cases before with
  | nil =>
    obtain ⟨rfl, rfl⟩ : t = last ∧ ts = [] := by simpa using heq
    simp [hlast]
  | cons u before =>
    obtain ⟨rfl, rfl⟩ : t = u ∧ ts = before ++ [last] := by simpa using heq
    simp [hbefore t]

theorem of_suffix (h : EndsWithEof tokens) (hsuffix : ts <:+ tokens) (hne : ts ≠ []) :
    EndsWithEof ts := by
  obtain ⟨taken, rfl⟩ := hsuffix
  obtain ⟨before, last, heq, hlast, hbefore⟩ := h
  obtain ⟨ts', t', rfl⟩ := List.eq_nil_or_concat ts |>.resolve_left hne
  rw [List.concat_eq_append, ← List.append_assoc] at heq
  obtain ⟨rfl, hlast'⟩ := List.append_inj' heq rfl
  obtain rfl : t' = last := by simpa using hlast'
  exact ⟨ts', t', by simp, hlast, fun t ht => hbefore t (List.mem_append_right _ ht)⟩

end EndsWithEof

namespace Lexer

theorem endsWithEof_finish (s : Lexer) : EndsWithEof (s.finish.map (·.token)) := by
  refine ⟨_, (mark .eof s.pos).token, by simp only [finish, List.map_append]; rfl, rfl, ?_⟩
  intro t ht
  rw [← List.map_append, List.mem_map] at ht
  obtain ⟨l, hl, rfl⟩ := ht
  obtain hl | hl := List.mem_append.1 hl
  · by_cases ht : s.hasTokens <;> simp [ht] at hl
    simp [hl, lineEnd]
  · simp [List.eq_of_mem_replicate hl, mark]

theorem endsWithEof_run (s : Lexer) : EndsWithEof (s.run.map (·.token)) := by
  fun_induction run s with
  | case1 s found h =>
    obtain h' | h' | ⟨found', next', h', _⟩ := s.step_cases
    · simp [h] at h'
    · simp only [h, Prod.mk.injEq, and_true] at h'
      rw [h']
      exact endsWithEof_finish s.skipBlanks
    · simp [h] at h'
  | case2 s found next h ih =>
    rw [List.map_append]
    exact ih.before (by simpa using ne_eof_step h)

end Lexer

theorem endsWithEof_tokensOf (source : String) : EndsWithEof (tokensOf source) :=
  Lexer.endsWithEof_run _

/-- The lexer as it is asked for one token after the other. -/
structure Feed where
  /-- Tokens that have been found and not yet handed out. -/
  pending : List Lexed
  /-- Where to go on when they are used up, unless the text is at its end. -/
  lexer : Option Lexer
  /-- The token handed out before. -/
  last : Lexed

namespace Feed

def start (source : String) : Feed :=
  ⟨[], some (Lexer.start source.toList), Lexer.mark .eof .start⟩

def measure (f : Feed) : Nat := f.lexer.elim 0 (·.measure + 1)

/-- Hands out the next token. Behind the end of the text it is the last one again. -/
def next (f : Feed) : Lexed × Feed :=
  match _hp : f.pending, _hl : f.lexer with
  | l :: ls, _ => (l, { f with pending := ls, last := l })
  | [], none => (f.last, f)
  | [], some s => next ⟨s.step.1, s.step.2, f.last⟩
termination_by f.measure
decreasing_by
  simp only [measure, _hl, Option.elim_some]
  cases hstep : s.step.2 with
  | none => exact Nat.succ_pos _
  | some next => exact Nat.succ_lt_succ (Lexer.measure_step (Prod.ext rfl hstep))

/-- What the call after `k` others hands out. -/
def call (f : Feed) : Nat → Lexed
  | 0 => f.next.1
  | k + 1 => f.next.2.call k

def stream (f : Feed) : List Lexed := f.pending ++ f.lexer.elim [] Lexer.run

variable {f : Feed} {l : Lexed} {ls : List Lexed}

theorem stream_step (s : Lexer) (last : Lexed) :
    (⟨s.step.1, s.step.2, last⟩ : Feed).stream = s.run := by
  cases hstep : s.step with
  | mk found next =>
    cases next with
    | none => simp [stream, Lexer.run_of_end hstep]
    | some next => simp [stream, Lexer.run_of_step hstep]

theorem next_of_cons (h : f.stream = l :: ls) :
    f.next.1 = l ∧ f.next.2.stream = ls ∧ f.next.2.last = l := by
  fun_induction next f with
  | case1 f l' ls' hp =>
    simp only [stream, hp, List.cons_append, List.cons.injEq] at h
    exact ⟨h.1, h.2, h.1⟩
  | case2 f hp hl => simp [stream, hp, hl] at h
  | case3 f s hp hl ih =>
    simp only [stream, hp, hl, List.nil_append, Option.elim_some] at h
    exact ih ((stream_step s f.last).trans h)

theorem next_of_nil (h : f.stream = []) : f.next = (f.last, f) := by
  cases hl : f.lexer with
  | none =>
    have hp : f.pending = [] := by simpa [stream, hl] using h
    rw [next]
    split <;> simp_all
  | some s =>
    have hrun : s.run = [] := by simp_all [stream]
    have hend := s.endsWithEof_run
    rw [hrun] at hend
    exact absurd hend EndsWithEof.not_nil

/-- The calls go through the tokens to come, and then repeat the last. -/
theorem call_eq (f : Feed) (k : Nat) : f.call k = f.stream.getD k (f.stream.getLastD f.last) := by
  induction k generalizing f with
  | zero =>
    cases h : f.stream with
    | nil => simp [call, next_of_nil h]
    | cons l ls => simp [call, next_of_cons h]
  | succ k ih =>
    rw [call, ih]
    cases h : f.stream with
    | nil => simp [next_of_nil h, h]
    | cons l ls =>
      obtain ⟨-, hstream, hlast⟩ := next_of_cons h
      rw [hstream, hlast, List.getLastD_cons, List.getD_cons_succ]

theorem call_of_stream (h : f.stream = ls ++ [l]) (k : Nat) : f.call k = ls[k]?.getD l := by
  rw [call_eq, h, List.getD_eq_getElem?_getD, List.getLastD_concat]
  by_cases hk : k < ls.length
  · simp [List.getElem?_append_left hk, List.getElem?_eq_getElem hk]
  · rw [List.getElem?_append_right (by omega), List.getElem?_eq_none (by omega : ls.length ≤ k)]
    cases k - ls.length <;> rfl

theorem calls_end (source : String) :
    ∃ n, (List.range (n + 1)).map (start source).call = lex source ∧
      ∀ k, ((start source).call k).token.kind = .eof ↔ n ≤ k := by
  obtain ⟨before, last, htokens, hlast, hbefore⟩ := endsWithEof_tokensOf source
  obtain ⟨ls, _, hlex, rfl, hsingle⟩ := List.map_eq_append_iff.1 htokens
  obtain ⟨l, rfl, rfl⟩ := List.map_eq_singleton_iff.1 hsingle
  have hstream : (start source).stream = ls ++ [l] := by simp [stream, start, ← hlex, lex]
  have hcall := call_of_stream hstream
  refine ⟨ls.length, ?_, fun k => ?_⟩
  · rw [hlex, List.range_succ, List.map_append, List.map_singleton, hcall ls.length,
      List.getElem?_eq_none (Nat.le_refl _), Option.getD_none]
    congr 1
    apply List.ext_getElem (by simp)
    intro k hk hk'
    rw [List.getElem_map, List.getElem_range, hcall, List.getElem?_eq_getElem hk', Option.getD_some]
  · rw [hcall]
    by_cases hk : k < ls.length
    · rw [List.getElem?_eq_getElem hk, Option.getD_some]
      exact iff_of_false (hbefore _ (List.mem_map_of_mem (List.getElem_mem hk))) (by omega)
    · rw [List.getElem?_eq_none (by omega), Option.getD_none]
      exact iff_of_true hlast (by omega)

end Feed

end Spellbook
