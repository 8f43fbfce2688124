import Spellbook.Proofs.Program.Parser.Lines

/-! A chain of operators is parsed into the tree that precedence asks for. -/
namespace Spellbook

instance (cs : List Char) : Decidable (Scan.IsWord cs) :=
  decidable_of_iff
    (cs.all Scan.isWordChar = true ∧
      cs.head?.any (fun c => Scan.isWordStart c && !Number.isDigit c) = true ∧ cs ≠ ['_']) (by
    simp only [Option.any_eq_true, Bool.and_eq_true, Bool.not_eq_true']
    constructor
    · rintro ⟨hall, ⟨c, hc, hfirst⟩, hmark⟩
      obtain ⟨rest, hrest⟩ := List.head?_eq_some_iff.1 hc
      exact ⟨hall, ⟨c, rest, hrest, hfirst⟩, hmark⟩
    · rintro ⟨hall, ⟨c, rest, hrest, hfirst⟩, hmark⟩
      exact ⟨hall, ⟨c, by simp [hrest], hfirst⟩, hmark⟩)

namespace Atom

def text : Atom → String
  | name word => word
  | int digits _ => digits

/-- A name that is no keyword, or digits of a number of 64 bits. -/
def Valid : Atom → Prop
  | name word => Scan.IsWord word.toList ∧ Keyword.ofWord? word = none
  | int digits value =>
    digits.toList.all Number.isDigit = true ∧ Number.readInt? digits.toList = some value

instance : DecidablePred Valid
  | name word =>
    inferInstanceAs (Decidable (Scan.IsWord word.toList ∧ Keyword.ofWord? word = none))
  | int digits value =>
    inferInstanceAs (Decidable (digits.toList.all Number.isDigit = true ∧
      Number.readInt? digits.toList = some value))

def token : Atom → Token
  | name word => .ofWord word
  | int digits value => ⟨.int, digits, .start, some (.int value)⟩

def expr : Atom → Expr
  | name word => .name ⟨word, .start⟩
  | int _ value => .literal .start (.int value)

variable {a : Atom}

theorem opens_token (h : a.Valid) : a.token.kind.opens = true := by
  cases a with
  | name word =>
    rw [token, Token.kind_ofWord, h.2]
    rfl
  | int digits value => rfl

theorem lexes (h : a.Valid) {more : List Char} (hmore : Closes more) :
    Lexes [a.token] a.text.toList more := by
  cases a with
  | name word => exact hmore.word h.1
  | int digits value =>
    have hdigits := Lexes.digits h.1 h.2 (hmore.head (by decide)) hmore.point
    rwa [String.ofList_toList] at hdigits

theorem text_first (h : a.Valid) : ∃ c cs, a.text.toList = c :: cs ∧ IsFirst c := by
  cases a with
  | name word =>
    obtain ⟨c, cs, hcs, hc, -⟩ := h.1.first
    exact ⟨c, cs, hcs, .inl hc⟩
  | int digits value =>
    obtain ⟨hall, hread⟩ := h
    simp only [text]
    cases hcs : digits.toList with
    | nil =>
      rw [hcs] at hread
      cases hread
    | cons c cs =>
      rw [hcs] at hall
      exact ⟨c, cs, rfl, .inr (.inl (List.all_eq_true.1 hall c List.mem_cons_self))⟩

theorem reads (h : a.Valid) {fuel : Nat} {operand : Parser.Operand} {after : List Token} :
    Parser.Reads (Parser.operandStart fuel operand) (a.token :: after) after
      (·.bare = a.expr) := by
  cases a with
  | name word =>
    have hword : Ident.IsVariable ⟨word, .start⟩ := ⟨h.1, .inl h.2⟩
    exact .name hword
  | int digits value =>
    refine .look fun t ht => ?_
    rw [Token.kind_of_bare ht]
    refine Parser.Reads.advance.bind fun t ht => ?_
    rw [Token.literal_of_bare ht]
    exact .pure rfl

end Atom

namespace OpTree

def expr : OpTree → Expr
  | leaf a => a.expr
  | node op left right => .binary .start op left.expr right.expr

theorem bare_expr (t : OpTree) : t.expr.bare = t.expr := by
  induction t with
  | leaf a => cases a <;> simp [expr, Atom.expr, Expr.bare, Ident.bare]
  | node op left right ihleft ihright => simp [expr, Expr.bare, ihleft, ihright]

end OpTree

def chainTail : List (BinaryOp × Atom) → String
  | [] => ""
  | (op, a) :: more => " " ++ op.text ++ " " ++ a.text ++ chainTail more

def chainTokens : List (BinaryOp × Atom) → List Token
  | [] => []
  | (op, a) :: more => op.tokens ++ a.token :: chainTokens more

def chainText (first : Atom) (rest : List (BinaryOp × Atom)) : String :=
  first.text ++ chainTail rest

theorem closes_chainTail (rest : List (BinaryOp × Atom)) : Closes (chainTail rest).toList := by
  cases rest with
  | nil => exact .nil
  | cons p more =>
    obtain ⟨op, a⟩ := p
    simp only [chainTail, String.toList_append]
    exact .cons (by decide) _

theorem lexes_chainTail {rest : List (BinaryOp × Atom)} (h : ∀ p ∈ rest, p.2.Valid) :
    Lexes (chainTokens rest) (chainTail rest).toList [] := by
  induction rest with
  | nil => exact .nil
  | cons p more ih =>
    obtain ⟨op, a⟩ := p
    have ha : a.Valid := h _ List.mem_cons_self
    have hmore := ih fun p hp => h p (List.mem_cons_of_mem _ hp)
    have hatom : Lexes [a.token] a.text.toList ((chainTail more).toList ++ []) := by
      rw [List.append_nil]
      exact a.lexes ha (closes_chainTail more)
    have hop := op.lexes ((a.text.toList ++ (chainTail more).toList) ++ [])
    have hall := Lexes.blank.append (hop.spaced.append (hatom.append hmore))
    simpa [chainTail, chainTokens] using hall

theorem length_chainTokens (rest : List (BinaryOp × Atom)) :
    rest.length ≤ (chainTokens rest).length := by
  induction rest with
  | nil => exact Nat.le_refl _
  | cons p more ih =>
    simp only [chainTokens, List.length_append, List.length_cons]
    omega

theorem lex_chain {first : Atom} {rest : List (BinaryOp × Atom)} (hfirst : first.Valid)
    (hrest : ∀ p ∈ rest, p.2.Valid) :
    (tokensOf (chainText first rest)).map Token.bare =
        first.token :: chainTokens rest ++ [Token.lineEnd, .eof] ∧
      lexErrorsOf (chainText first rest) = [] ∧
      rest.length < (chainText first rest).length := by
  have hatom : Lexes [first.token] first.text.toList ((chainTail rest).toList ++ []) := by
    rw [List.append_nil]
    exact first.lexes hfirst (closes_chainTail rest)
  have hlexes := hatom.append (lexes_chainTail hrest)
  rw [← String.toList_append] at hlexes
  have hlength := hlexes.length_le
  have hle := length_chainTokens rest
  obtain ⟨c, cs, hcs, hc⟩ := first.text_first hfirst
  have hblank : Lexer.isInlineBlank c = false := by
    refine Lexer.isInlineBlank_of_ne ?_ ?_ ?_ <;> exact hc.ne (by decide)
  have htext : (chainText first rest).toList = c :: (cs ++ (chainTail rest).toList) := by
    rw [chainText, String.toList_append, hcs, List.cons_append]
  have hline := lex_line htext hblank (hc.ne (by decide)) (hc.ne (by decide)) (by simp)
    (htext ▸ hlexes)
  refine ⟨hline.1, hline.2, ?_⟩
  rw [String.length_toList] at hlength
  simp only [List.singleton_append, List.length_cons] at hlength
  exact Nat.lt_of_lt_of_le (Nat.lt_succ_of_le hle) hlength

namespace Parser

/-- A chain is parted into the tree of one operand and the operators that bind too loosely. -/
structure Parted (limit : Level) (first : Atom) (rest : List (BinaryOp × Atom)) (t : OpTree)
    (left : List (BinaryOp × Atom)) : Prop where
  first : t.first = first
  rest : t.rest ++ left = rest
  grouped : t.Grouped
  above : ∀ op ∈ t.root?, limit.rank < op.rank
  below : ∀ p ∈ left.head?, p.1.rank ≤ limit.rank

/-- An operand parser reads what it can of every chain that is not too long. -/
def ReadsChains (operand : Operand) (bound : Nat) : Prop :=
  ∀ (limit : Level) (first : Atom) (rest : List (BinaryOp × Atom)), rest.length < bound →
    first.Valid → (∀ p ∈ rest, p.2.Valid) →
    ∃ t left, Parted limit first rest t left ∧
      Reads (operand limit) (first.token :: chainTokens rest ++ [.lineEnd])
        (chainTokens left ++ [.lineEnd]) (·.bare = t.expr)

theorem Reads.climb_leave {operand : Operand} {limit next : Level} {fuel : Nat} {e : Expr}
    {before : List Token} (hlevel : Reads Parser.level before before (· = next))
    (hle : next.rank ≤ limit.rank) :
    Reads (Parser.climb operand limit (fuel + 1) e) before before (· = e) := by
  refine hlevel.bind fun _ hnext => ?_
  rw [hnext, if_neg (Nat.not_lt.2 hle)]
  exact .pure rfl

/-- The loop takes operators as long as they bind tightly enough. What it has read so far can stand
left of the next one. -/
theorem climb_chain {operand : Operand} {bound : Nat} (hoperand : ReadsChains operand bound)
    (limit : Level) {fuel : Nat} (l : OpTree) (rest : List (BinaryOp × Atom))
    (hfuel : rest.length < fuel) (hbound : rest.length ≤ bound) (hrest : ∀ p ∈ rest, p.2.Valid)
    (hl : l.Grouped) (habove : ∀ op ∈ l.root?, limit.rank < op.rank)
    (hnext : ∀ p ∈ rest.head?, ∀ op ∈ l.root?, p.1.FitsLeft op) :
    ∃ t left, Parted limit l.first (l.rest ++ rest) t left ∧
      ∀ e : Expr, e.bare = l.expr → Reads (climb operand limit fuel e)
        (chainTokens rest ++ [Token.lineEnd]) (chainTokens left ++ [Token.lineEnd])
        (·.bare = t.expr) := by
  induction fuel generalizing l rest with
  | zero => omega
  | succ fuel ih =>
    cases rest with
    | nil =>
      refine ⟨l, [], ⟨rfl, rfl, hl, habove, by simp⟩, fun e he => ?_⟩
      exact (Reads.climb_stop rfl).imp fun _ h => h ▸ he
    | cons p more =>
      obtain ⟨op, a⟩ := p
      have hlevel : Reads Parser.level (chainTokens ((op, a) :: more) ++ [Token.lineEnd])
          (chainTokens ((op, a) :: more) ++ [Token.lineEnd]) (· = op.level) := by
        simp only [chainTokens, List.append_assoc]
        exact .level_tokens
      by_cases hlt : limit.rank < op.rank
      -- The operator is taken with all to its right that binds more tightly, and the loop goes on
      -- from the tree that they make with `l`.
      · obtain ⟨r, left, hr, hread⟩ := hoperand op.rightLimit a more hbound
          (hrest _ List.mem_cons_self) fun p hp => hrest p (List.mem_cons_of_mem _ hp)
        have hleft : left.length ≤ more.length := by
          rw [← hr.rest, List.length_append]
          omega
        have hvalid : ∀ p ∈ left, p.2.Valid := fun p hp =>
          hrest p (List.mem_cons_of_mem _ (by rw [← hr.rest]; exact List.mem_append_right _ hp))
        have hgrouped : (OpTree.node op l r).Grouped :=
          ⟨hl, hr.grouped, hnext _ rfl, fun inner hinner =>
            BinaryOp.fitsRight_of_rightLimit (hr.above inner hinner)⟩
        have hfits : ∀ p ∈ left.head?, ∀ o ∈ (OpTree.node op l r).root?, p.1.FitsLeft o := by
          intro p hp o ho
          obtain rfl : op = o := by simpa [OpTree.root?] using ho
          exact BinaryOp.fitsLeft_of_rightLimit (hr.below p hp)
        obtain ⟨t, left', ht, hclimb⟩ := ih (.node op l r) left (by simp at hfuel; omega)
          (by simp at hbound; omega) hvalid hgrouped (by simpa [OpTree.root?] using hlt) hfits
        refine ⟨t, left', ⟨ht.first, ?_, ht.grouped, ht.above, ht.below⟩, fun e he => ?_⟩
        · rw [ht.rest, ← hr.rest]
          simp [OpTree.rest, hr.first]
        · have hcontinued : Reads (continued fuel operand e)
              (chainTokens ((op, a) :: more) ++ [Token.lineEnd])
              (chainTokens left ++ [Token.lineEnd]) (·.bare = (OpTree.node op l r).expr) := by
            simp only [chainTokens, List.append_assoc]
            rw [← r.bare_expr] at hread
            have hstep : Reads (continued fuel operand e) _ _
                (·.bare = .binary .start op e.bare r.expr.bare) := .continued_tokens hread
            rw [he, r.bare_expr] at hstep
            exact hstep
          exact .climb_step hlevel hlt hcontinued hclimb
      · refine ⟨l, (op, a) :: more, ⟨rfl, rfl, hl, habove, ?_⟩, fun e he => ?_⟩
        · simpa using hlt
        · exact (Reads.climb_leave hlevel (Nat.not_lt.1 hlt)).imp fun _ h => h ▸ he

theorem exprAt_readsChains (bound : Nat) : ReadsChains (exprAt (bound + 1)) bound := by
  induction bound with
  | zero => exact fun _ _ _ h => absurd h (Nat.not_lt_zero _)
  | succ bound ih =>
    intro limit first rest hlength hfirst hrest
    obtain ⟨t, left, ht, hclimb⟩ := climb_chain ih limit (.leaf first) rest
      hlength (Nat.le_of_lt_succ hlength) hrest trivial (by simp [OpTree.root?])
      (by simp [OpTree.root?])
    exact ⟨t, left, ht, (first.reads hfirst).bind hclimb⟩

end Parser

/-- A line of operators between names and integers is parsed without diagnostics into a tree that
has them in order and needs no parentheses. There is no other such tree. -/
theorem parse_chain (first : Atom) (rest : List (BinaryOp × Atom)) (hfirst : first.Valid)
    (hrest : ∀ p ∈ rest, p.2.Valid) :
    (parse (chainText first rest)).diagnostics = [] ∧
      ∃ e t, (parse (chainText first rest)).program.statements = [.expr e] ∧ e.bare = t.expr ∧
        t.first = first ∧ t.rest = rest ∧ t.Grouped ∧
        ∀ t' : OpTree, t'.first = first → t'.rest = rest → t'.Grouped → t' = t := by
  obtain ⟨htokens, herrors, hlength⟩ := lex_chain hfirst hrest
  have hbound : rest.length < Parser.budget (chainText first rest).length - 2 := by
    unfold Parser.budget
    omega
  obtain ⟨t, left, ht, hread⟩ :=
    Parser.exprAt_readsChains _ .lowest first rest hbound hfirst hrest
  have hleft : left = [] := by
    cases left with
    | nil => rfl
    | cons p left =>
      have hlow := ht.below p rfl
      have hhigh := p.1.rank_pos
      simp only [Parser.Level.rank] at hlow
      omega
  subst hleft
  have hrest' : t.rest = rest := by simpa using ht.rest
  have hfuel : Parser.budget (chainText first rest).length - 2 + 1 =
      Parser.budget (chainText first rest).length - 1 := by
    unfold Parser.budget
    omega
  rw [hfuel] at hread
  obtain ⟨hnone, e, hstatements, he⟩ := parse_line htokens herrors (first.opens_token hfirst) hread
  refine ⟨hnone, e, t, hstatements, he, ht.first, hrest', ht.grouped, fun t' hf hr ht' => ?_⟩
  exact ht'.unique ht.grouped (hf.trans ht.first.symm) (hr.trans hrest'.symm)

def mixed : OpTree :=
  .node (.connective .or) (.leaf (.name "a")) (.node (.operator .notIn) (.leaf (.name "b"))
    (.node (.operator .sub) (.node (.operator .sub) (.node (.operator .pow) (.leaf (.name "c"))
      (.node (.operator .pow) (.leaf (.int "2" 2)) (.leaf (.name "d")))) (.leaf (.int "007" 7)))
      (.leaf (.name "e"))))

theorem parse_chain_mixed :
    chainText mixed.first mixed.rest = "a or b not in c ** 2 ** d - 007 - e" ∧
    (parse (chainText mixed.first mixed.rest)).diagnostics = [] ∧
    ∃ e, (parse (chainText mixed.first mixed.rest)).program.statements = [.expr e] ∧
      e.bare = mixed.expr := by
  have hgrouped : mixed.Grouped := by
    simp [mixed, OpTree.Grouped, OpTree.root?, BinaryOp.FitsLeft, BinaryOp.FitsRight,
      BinaryOp.rank, BinaryOp.level, Parser.Level.rank]
  have hfirst : mixed.first.Valid := by decide +kernel
  have hrest : ∀ p ∈ mixed.rest, p.2.Valid := by decide +kernel
  obtain ⟨hnone, e, t, he, hbare, -, -, -, hunique⟩ :=
    parse_chain mixed.first mixed.rest hfirst hrest
  rw [← hunique mixed rfl rfl hgrouped] at hbare
  exact ⟨by decide +kernel, hnone, e, he, hbare⟩

end Spellbook
