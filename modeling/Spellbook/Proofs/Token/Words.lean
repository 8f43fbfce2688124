import Spellbook.Proofs.Number.Decimal
import Spellbook.Proofs.Token.Steps

/-! What can be said of every token of a text: names and keywords are words, and integers have no
sign. -/
namespace Spellbook

open Scan

/-- Characters that the lexer takes for one word. -/
structure Scan.IsWord (cs : List Char) : Prop where
  all : cs.all isWordChar = true
  first : ∃ c rest, cs = c :: rest ∧ isWordStart c = true ∧ Number.isDigit c = false
  notMark : cs ≠ ['_']

structure Token.Sound (t : Token) : Prop where
  ident : t.kind = .ident → IsWord t.lexeme.toList ∧ Keyword.ofWord? t.lexeme = none
  keyword : ∀ k, t.kind = .keyword k →
    IsWord t.lexeme.toList ∧ Keyword.ofWord? t.lexeme = some k
  int : ∀ n, t.literal = some (.int n) → 0 ≤ n.toInt

theorem Token.Sound.other {t : Token} (hident : t.kind ≠ .ident)
    (hkeyword : ∀ k, t.kind ≠ .keyword k) (hint : ∀ n, t.literal ≠ some (.int n)) : t.Sound where
  ident h := absurd h hident
  keyword k h := absurd h (hkeyword k)
  int n h := absurd h (hint n)

namespace Scan

def token (t : Scan) (pos : Pos) : Token := ⟨t.kind, String.ofList t.text, pos, t.literal⟩

theorem sound_string {kind : Kind} (hk : kind = .str ∨ kind = .template) (opening : List Char)
    (q : Char) (cs : List Char) (pos : Pos) : ((Scan.string kind opening q cs).token pos).Sound := by
  have hbody : ∀ b opening, ((Body.toScan kind opening b).token pos).Sound := by
    intro b opening
    unfold Body.toScan
    rcases hk with rfl | rfl <;> split <;> exact .other nofun nofun nofun
  unfold Scan.string
  split
  · exact hbody _ _
  · exact hbody _ _

theorem takeWhile_eq_cons {c : Char} {cs : List Char} {p : Char → Bool} (h : p c = true) :
    (c :: cs).takeWhile p = c :: cs.takeWhile p := by
  rw [List.takeWhile_cons, if_pos h]

theorem sound_number {c : Char} (cs : List Char) (hc : Number.isDigit c = true) (pos : Pos) :
    ((number (c :: cs)).token pos).Sound := by
  have hsign : ∀ n, (Number.readInt? ((c :: cs).takeWhile Number.isDigit)).map Literal.int =
      some (.int n) → 0 ≤ n.toInt := by
    intro n hn
    obtain ⟨w, hw, hlit⟩ := Option.map_eq_some_iff.1 hn
    cases hlit
    have hne : (c :: cs).takeWhile Number.isDigit ≠ [] := by
      rw [takeWhile_eq_cons hc]
      exact List.cons_ne_nil _ _
    rw [Number.readInt?_digits List.all_takeWhile hne] at hw
    rw [Number.toInt_of_checked hw]
    exact Int.natCast_nonneg _
  have hplain : ∀ text rest, (token ⟨.int, text,
      (Number.readInt? ((c :: cs).takeWhile Number.isDigit)).map Literal.int, none, rest⟩ pos).Sound :=
    fun _ _ => ⟨nofun, nofun, hsign⟩
  unfold number
  dsimp only
  split
  · split
    · refine .other nofun nofun fun n h => ?_
      obtain ⟨x, _, hx⟩ := Option.map_eq_some_iff.1 h
      cases hx
    · exact hplain _ _
  · exact hplain _ _

theorem isWord_takeWhile {c : Char} {cs : List Char} (hc : isWordStart c = true)
    (hd : Number.isDigit c = false) (hmark : (c = '_' && !continuesWord cs) = false) :
    IsWord ((c :: cs).takeWhile isWordChar) := by
  have hcons : (c :: cs).takeWhile isWordChar = c :: cs.takeWhile isWordChar :=
    takeWhile_eq_cons (isWordChar_of_isWordStart hc)
  refine ⟨List.all_takeWhile, ⟨c, _, hcons, hc, hd⟩, ?_⟩
  rw [hcons]
  intro h
  injection h with hunder hnil
  cases cs with
  | nil => simp [hunder, continuesWord] at hmark
  | cons d more =>
    rw [List.takeWhile_cons] at hnil
    split at hnil
    · cases hnil
    · rename_i hword
      simp [hunder, continuesWord, hword] at hmark

theorem sound_word {cs : List Char} (hw : IsWord (cs.takeWhile isWordChar)) (pos : Pos) :
    ((word cs).token pos).Sound := by
  unfold word
  dsimp only
  split
  · rename_i hnone
    exact ⟨fun _ => ⟨String.toList_ofList.symm ▸ hw, hnone⟩, nofun, nofun⟩
  · rename_i hsome
    refine ⟨nofun, fun k hk => ?_, nofun⟩
    cases hk
    exact ⟨String.toList_ofList.symm ▸ hw, hsome⟩
  · rename_i hsome
    refine ⟨nofun, fun k hk => ?_, nofun⟩
    cases hk
    exact ⟨String.toList_ofList.symm ▸ hw, hsome⟩
  · rename_i hsome
    refine ⟨nofun, fun k hk => ?_, nofun⟩
    cases hk
    exact ⟨String.toList_ofList.symm ▸ hw, hsome⟩

end Scan

theorem sound_scan (c : Char) (cs : List Char) (pos : Pos) : ((scan c cs).token pos).Sound := by
  unfold scan
  split
  · exact sound_string (.inl rfl) _ _ _ _
  · split
    · exact sound_string (.inr rfl) _ _ _ _
    · split
      · exact .other nofun nofun nofun
      · rename_i hmark
        split
        · rename_i hd
          exact sound_number cs hd pos
        · rename_i hd
          split
          · rename_i hc
            exact sound_word (isWord_takeWhile hc (Bool.eq_false_iff.2 hd) (Bool.eq_false_iff.2 hmark))
              pos
          · split
            · exact .other nofun nofun nofun
            · exact .other nofun nofun nofun

namespace Lexer

theorem Finds.sound {s : Lexer} {l : Lexed} (h : s.Finds l) : l.token.Sound := by
  cases h with
  | lineEnd | indent | dedent | uneven | openComment => exact .other nofun nofun nofun
  | token => exact sound_scan _ _ _

theorem sound_run (s : Lexer) : ∀ l ∈ s.run, l.token.Sound := by
  intro l hl
  obtain ⟨m, -, hm | rfl⟩ := mem_run hl
  · exact hm.sound
  · exact .other nofun nofun nofun

end Lexer

theorem sound_tokensOf (source : String) : ∀ t ∈ tokensOf source, t.Sound := by
  intro t ht
  obtain ⟨l, hl, rfl⟩ := List.mem_map.1 ht
  exact Lexer.sound_run _ l hl

end Spellbook
