import Spellbook.Proofs.Value.Reading

/-! Printed values read back. The text that a plain value has inside a container is a program that
evaluates to the value again. -/
namespace Spellbook

namespace Store

variable {s : Store} {n : Nat} {v : Value}

theorem PlainAt.parse (h : s.PlainAt n v) :
    (parse (nested (s.printAt n) v)).diagnostics = [] ∧
      ∃ e, (parse (nested (s.printAt n) v)).program.statements = [.expr e] ∧ e.Gives s n v := by
  have hlexes := h.lexes .nil
  have hlength := hlexes.length_le
  rw [String.length_toList] at hlength
  obtain ⟨c, cs, hcs, hc⟩ := h.text_first
  obtain ⟨t, ts, hts, ht⟩ := h.starts
  have hne : ∀ d, ¬ StartsValue d → c ≠ d := fun d hd heq => hd (heq ▸ hc)
  have hblank : Lexer.isInlineBlank c = false := by
    refine Lexer.isInlineBlank_of_ne ?_ ?_ ?_ <;> exact hne _ (by decide)
  rw [hcs] at hlexes
  obtain ⟨htokens, herrors⟩ := lex_line hcs hblank (hne _ (by decide)) (hne _ (by decide))
    (hts ▸ List.cons_ne_nil t ts) hlexes
  have htakes : Parser.Takes (Parser.exprAt (Parser.budget (nested (s.printAt n) v).length - 1))
      (s.tokensAt n v) (Expr.Gives s n v) := by
    refine h.takes ?_
    unfold Parser.budget
    omega
  have hread := htakes .lineEnd [] rfl
  rw [hts] at htokens hread
  exact parse_expression htokens herrors ht hread

end Store

theorem runProgram_expression {w : World} {fuel : Nat} {p : Program} {e : Expr} {scope : Ref .scope}
    {m : Machine} {v : Value} {store : Store} (hp : p.statements = [.expr e])
    (h : (evaluator w fuel).expr e { m with scope := scope } =
      .ok v { m with scope := scope, store := store }) :
    runProgram w (fuel + 1) p scope m = .ok v { m with store := store } := by
  obtain ⟨_⟩ := p
  cases hp
  have hflow : (evaluator w (fuel + 1)).program ⟨[.expr e]⟩ true { m with scope := scope } =
      .ok (.value v) { m with scope := scope, store := store } := by
    show (evaluator w (fuel + 1)).block [.expr e] _ = _
    simp only [Evaluator.block, Evaluator.blockAfter, evaluator, Evaluator.evalStmt, Bind.bind,
      EStateM.bind, h]
    rfl
  simp only [runProgram, Evaluator.run, Eval.inScope, Eval.bracket, Bind.bind, EStateM.bind, hflow]
  rfl

/-- Printed values read back. The text that a plain value has inside a container has no errors, and
running it in whatever machine gives a value of the same kind that is printed alike. Where the value
itself is still there, the two are equal. The steps are nested no more than two levels deeper than
values of the store can be. -/
theorem printed_values_read_back (w : World) (scope : Ref .scope) {s : Store} {v : Value}
    (hv : s.Plain v) :
    (parse (Store.nested s.print v)).diagnostics = [] ∧
    ∀ m fuel, s.depthBound + 2 ≤ fuel → ∃ v' m',
      runProgram w fuel (parse (Store.nested s.print v)).program scope m = .ok v' m' ∧
      v'.typeName = v.typeName ∧ m'.store.print v' = s.print v ∧
      Store.nested m'.store.print v' = Store.nested s.print v ∧
      (s.Extends m.store → m'.store.equal v v' = true ∧ m'.store.equal v' v = true) := by
  obtain ⟨hnone, e, he, hgives⟩ := hv.at_depthBound.parse
  refine ⟨hnone, fun m fuel hfuel => ?_⟩
  obtain ⟨fuel, rfl⟩ : ∃ k, fuel = k + 1 := ⟨fuel - 1, by omega⟩
  obtain ⟨v', store, hrun, hext, halike⟩ := hgives w fuel { m with scope := scope } (by omega)
  have hprint : s.print v = store.print v' := halike.print_eq
  refine ⟨v', { m with store := store }, runProgram_expression he hrun, halike.typeName_eq.symm,
    hprint.symm, (halike.nested_eq hprint).symm, fun hs => ?_⟩
  have hsame : store.AlikeAt store s.depthBound v v' :=
    halike.extend (hs.trans hext) (.refl store)
  exact ⟨hsame.equal_eq, hsame.symm.equal_eq⟩

def layeredTable : Table :=
  [⟨.bool true, .bool true, .array ⟨0⟩⟩, ⟨.int (-7), .int (-7), .str "a\n\"b\\"⟩,
    ⟨.str "k", .str "k", .map ⟨1⟩⟩]

def layered : Machine where
  store := { Store.empty with
    arrays := #[#[.none, .tuple ⟨0⟩, .tuple ⟨0⟩]]
    tuples := #[#[.int (-5)]]
    maps := #[layeredTable, []] }
  scope := Forest.outermost
  frames := []
  owner := none
  file := none
  imported := []
  output := ""

theorem isProper_layeredTable : layeredTable.IsProper := by
  have hpairs : Table.ofPairs [(.str "k", .map ⟨1⟩), (.bool true, .array ⟨0⟩),
      (.int (-7), .str "a\n\"b\\")] = .ok layeredTable := rfl
  exact Table.isProper_ofPairs hpairs

theorem plain_layered : layered.store.Plain (.map ⟨0⟩) := by
  have htuple : layered.store.PlainAt 2 (.tuple ⟨0⟩) := by
    have hparts : (layered.store.tuple ⟨0⟩).toList = [.int (-5)] := rfl
    refine .tuple (by decide) ?_
    rw [hparts]
    exact List.forall_mem_singleton.2 (.scalar (by decide))
  have harray : layered.store.PlainAt 3 (.array ⟨0⟩) := by
    have hparts : (layered.store.array ⟨0⟩).toList = [.none, .tuple ⟨0⟩, .tuple ⟨0⟩] := rfl
    refine .array (by decide) ?_
    rw [hparts]
    simp only [List.forall_mem_cons]
    exact ⟨.none, htuple, htuple, List.forall_mem_nil _⟩
  have hempty : layered.store.PlainAt 3 (.map ⟨1⟩) := by
    have hparts : layered.store.map ⟨1⟩ = [] := rfl
    refine .map (by decide) ⟨?_, ?_⟩ ?_ ?_ <;> rw [hparts]
    · exact .nil
    all_goals exact List.forall_mem_nil _
  have hstr : (Value.str "a\n\"b\\").IsScalar := by decide +kernel
  have hparts : layered.store.map ⟨0⟩ = layeredTable := rfl
  refine ⟨4, .map (by decide) ?_ ?_ ?_⟩ <;> rw [hparts]
  · exact isProper_layeredTable
  · decide +kernel
  · simp only [layeredTable, List.forall_mem_cons]
    exact ⟨harray, .scalar hstr, hempty, List.forall_mem_nil _⟩

theorem printed_values_read_back_layered :
    let text := "\x7bTrue: [None, (-5,), (-5,)], -7: \"a\\n\\\"b\\\\\", \"k\": \x7b\x7d\x7d"
    Store.nested layered.store.print (.map ⟨0⟩) = text ∧ (parse text).diagnostics = [] ∧
    ∃ v m, runProgram ⟨.none, ⟨"."⟩, 3, 8⟩ 7 (parse text).program Forest.outermost layered =
        .ok v m ∧
      m.store.equal (.map ⟨0⟩) v = true ∧ v.typeName = "MAP" ∧ m.store.print v = text := by
  intro text
  have htext : Store.nested layered.store.print (.map ⟨0⟩) = text := by decide +kernel
  obtain ⟨hnone, hrun⟩ :=
    printed_values_read_back ⟨.none, ⟨"."⟩, 3, 8⟩ Forest.outermost plain_layered
  obtain ⟨v, m, hrun, hkind, hprint, -, hequal⟩ := hrun layered 7 (by decide)
  rw [htext] at hnone hrun
  exact ⟨htext, hnone, v, m, hrun, (hequal (.refl _)).1, hkind, hprint.trans htext⟩

end Spellbook
