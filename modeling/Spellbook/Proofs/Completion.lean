import Spellbook.Proofs.Program.Parser.Proceeds.Programs

/-! Every text is read to its end. -/
namespace Spellbook

/-- Every text is read to its end, however malformed. Token by token the lexer hands out those of the
text, comes to EOF and stays there. The parser comes to an end in a state where EOF alone is left,
and does so alike with any fuel from the budget on. No recursion is ever cut short, in the holes of
templates neither, as a parse that runs out of fuel has no result, and nothing goes on from there. -/
theorem reading_ends (source : String) :
    (∃ n, (List.range (n + 1)).map (Feed.start source).call = lex source ∧
      ∀ k, ((Feed.start source).call k).token.kind = .eof ↔ n ≤ k) ∧
    ∃ body s, (∀ fuel, Parser.budget source.length ≤ fuel →
        Parser.program fuel (Parser.State.start source) = .ok body s) ∧
      s.cur.kind = .eof ∧ s.ahead = [] ∧ (parse source).program.statements = body := by
  obtain ⟨body, s, hreading⟩ := Parser.reading source
  exact ⟨Feed.calls_end source, body, s, hreading.run, hreading.eof, hreading.rest,
    by rw [hreading.parse]⟩

end Spellbook
