import Spellbook.Eval
import Spellbook.Proofs.Number.Decimal
import Spellbook.Proofs.Value.Alike

/-! Expressions that stand for a plain value. They evaluate to one with the same content, wherever
and in whatever state they are evaluated. -/
namespace Spellbook

open Store

/-- With more fuel than the value has levels, the expression evaluates to a value like it. All that
becomes of the state is that there is more in the store. -/
def Expr.Gives (s : Store) (n : Nat) (v : Value) (e : Expr) : Prop :=
  ∀ (w : World) (fuel : Nat) (m : Machine), n < fuel → ∃ v' store,
    (evaluator w fuel).expr e m = .ok v' { m with store := store } ∧
      m.store.Extends store ∧ s.AlikeAt store n v v'

namespace Store

variable (s : Store)

theorem array_newArray (xs : Array Value) : (s.newArray xs).2.array ⟨s.arrays.size⟩ = xs := by
  simp [newArray, array]

theorem tuple_newTuple (xs : Array Value) : (s.newTuple xs).2.tuple ⟨s.tuples.size⟩ = xs := by
  simp [newTuple, tuple]

theorem map_newMap (t : Table) : (s.newMap t).2.map ⟨s.maps.size⟩ = t := by
  simp [newMap, map]

end Store

namespace Expr

variable {s : Store} {n : Nat} {v : Value} {pos pos' : Pos}

theorem gives_none : (literal pos .none).Gives s (n + 1) .none := by
  intro w fuel m hfuel
  obtain ⟨fuel, rfl⟩ := Nat.exists_eq_add_one.2 (Nat.zero_lt_of_lt hfuel)
  exact ⟨.none, m.store, rfl, .refl _, .none⟩

theorem gives_literal {l : Literal} (hv : (Value.ofLiteral l).IsScalar) :
    (literal pos l).Gives s (n + 1) (.ofLiteral l) := by
  intro w fuel m hfuel
  obtain ⟨fuel, rfl⟩ := Nat.exists_eq_add_one.2 (Nat.zero_lt_of_lt hfuel)
  exact ⟨.ofLiteral l, m.store, rfl, .refl _, AlikeOver.scalar hv⟩

theorem gives_negate {i k : Int64} (hi : i ≠ Int64.minValue) (hk : i.toInt = -k.toInt) :
    (unary pos .negate (literal pos' (.int k))).Gives s (n + 1) (.int i) := by
  intro w fuel m hfuel
  obtain ⟨fuel, rfl⟩ : ∃ k, fuel = k + 2 := ⟨fuel - 2, by omega⟩
  have hexact : Operator.exact (-k.toInt) = .ok (.int i) := by
    rw [Operator.exact, ← hk, Number.checked_toInt]
  have happly : UnaryOp.negate.apply (.int k) = pure (.int i) := by
    show Op.ofExcept (Operator.exact (-k.toInt)) = _
    rw [hexact]
    rfl
  refine ⟨.int i, m.store, ?_, .refl _, AlikeOver.scalar hi⟩
  show Eval.operateAt w pos (UnaryOp.negate.apply (.int k)) m = _
  rw [happly]
  rfl

theorem exprs_give {vs : List Value} {es : List Expr} (h : List.Forall₂ (Gives s n) vs es)
    (w : World) {fuel : Nat} (m : Machine) (hfuel : n < fuel) : ∃ vs' store,
      (evaluator w fuel).exprs es m = .ok vs' { m with store := store } ∧
        m.store.Extends store ∧ List.Forall₂ (s.AlikeAt store n) vs vs' := by
  induction h generalizing m with
  | nil => exact ⟨[], m.store, rfl, .refl _, .nil⟩
  | cons hv _ ih =>
    obtain ⟨v', store, hrun, hext, halike⟩ := hv w fuel m hfuel
    obtain ⟨vs', store', hrun', hext', halike'⟩ := ih { m with store := store }
    refine ⟨v' :: vs', store', ?_, hext.trans hext', .cons (halike.extend (.refl _) hext') halike'⟩
    simp only [Evaluator.exprs, Bind.bind, EStateM.bind, hrun, hrun']
    rfl

theorem gives_array {r : Ref .array} {es : List Expr} (hr : r.index < s.arrays.size)
    (h : List.Forall₂ (Gives s n) (s.array r).toList es) :
    (array pos es).Gives s (n + 1) (.array r) := by
  intro w fuel m hfuel
  obtain ⟨fuel, rfl⟩ := Nat.exists_eq_add_one.2 (Nat.zero_lt_of_lt hfuel)
  obtain ⟨vs, store, hrun, hext, halike⟩ := exprs_give h w m (Nat.lt_of_succ_lt_succ hfuel)
  have hnew := Extends.newArray store vs.toArray
  refine ⟨.array ⟨store.arrays.size⟩, (store.newArray vs.toArray).2, ?_, hext.trans hnew, ?_⟩
  · simp only [evaluator, Evaluator.evalExpr, Bind.bind, EStateM.bind, hrun]
    rfl
  · refine .array hr (by simp [Store.newArray]) ?_
    rw [array_newArray]
    exact halike.imp fun _ _ hu => hu.extend (.refl _) hnew

theorem gives_tuple {r : Ref .tuple} {es : List Expr} (hr : r.index < s.tuples.size)
    (h : List.Forall₂ (Gives s n) (s.tuple r).toList es) :
    (tuple pos es).Gives s (n + 1) (.tuple r) := by
  intro w fuel m hfuel
  obtain ⟨fuel, rfl⟩ := Nat.exists_eq_add_one.2 (Nat.zero_lt_of_lt hfuel)
  obtain ⟨vs, store, hrun, hext, halike⟩ := exprs_give h w m (Nat.lt_of_succ_lt_succ hfuel)
  have hnew := Extends.newTuple store vs.toArray
  refine ⟨.tuple ⟨store.tuples.size⟩, (store.newTuple vs.toArray).2, ?_, hext.trans hnew, ?_⟩
  · simp only [evaluator, Evaluator.evalExpr, Bind.bind, EStateM.bind, hrun]
    rfl
  · refine .tuple hr (by simp [Store.newTuple]) ?_
    rw [tuple_newTuple]
    exact halike.imp fun _ _ hu => hu.extend (.refl _) hnew

def GivesEntry (s : Store) (n : Nat) (e : Entry) (p : Expr × Expr) : Prop :=
  p.1.Gives s n e.name ∧ p.2.Gives s n e.value

theorem entries_give {t : Table} {es : List (Expr × Expr)} (h : List.Forall₂ (GivesEntry s n) t es)
    (hnames : ∀ e ∈ t, e.name.IsScalar) (w : World) {fuel : Nat} (m : Machine) (hfuel : n < fuel) :
    ∃ (t' : Table) (store : Store),
      (evaluator w fuel).entries es m =
        .ok (t'.map fun e => (e.name, e.value)) { m with store := store } ∧
      m.store.Extends store ∧ List.Forall₂ (Entry.Alike (s.AlikeAt store n)) t t' := by
  induction h generalizing m with
  | nil => exact ⟨[], m.store, rfl, .refl _, .nil⟩
  | @cons e p t es he _ ih =>
    have hscalar := hnames e List.mem_cons_self
    obtain ⟨name, store₁, hname, hext₁, halike₁⟩ := he.1 w fuel m hfuel
    obtain rfl := halike₁.eq_of_scalar hscalar
    obtain ⟨v, store₂, hvalue, hext₂, halike₂⟩ := he.2 w fuel { m with store := store₁ } hfuel
    obtain ⟨t', store, hrun, hext, halike⟩ :=
      ih (fun e' he' => hnames e' (List.mem_cons_of_mem _ he')) { m with store := store₂ }
    refine ⟨⟨e.key, e.name, v⟩ :: t', store, ?_, (hext₁.trans hext₂).trans hext, .cons ?_ halike⟩
    · simp only [Evaluator.entries, Bind.bind, EStateM.bind, hname, hvalue, hrun]
      rfl
    · exact ⟨rfl, rfl, hscalar, halike₂.extend (.refl _) hext⟩

theorem gives_map {r : Ref .map} {es : List (Expr × Expr)} (hr : r.index < s.maps.size)
    (hproper : (s.map r).IsProper) (hnames : ∀ e ∈ s.map r, e.name.IsScalar)
    (h : List.Forall₂ (GivesEntry s n) (s.map r) es) : (map pos es).Gives s (n + 1) (.map r) := by
  intro w fuel m hfuel
  obtain ⟨fuel, rfl⟩ := Nat.exists_eq_add_one.2 (Nat.zero_lt_of_lt hfuel)
  obtain ⟨t, store, hrun, hext, halike⟩ :=
    entries_give h hnames w m (Nat.lt_of_succ_lt_succ hfuel)
  have hpairs := Table.ofPairs_proper (isProper_alike hproper halike)
  have hnew := Extends.newMap store t
  refine ⟨.map ⟨store.maps.size⟩, (store.newMap t).2, ?_, hext.trans hnew, ?_⟩
  · simp only [evaluator, Evaluator.evalExpr, Bind.bind, EStateM.bind, hrun, hpairs]
    rfl
  · refine .map hr (by simp [Store.newMap]) hproper ?_
    rw [map_newMap]
    refine halike.imp fun _ _ he => ⟨he.key, he.name, he.scalar, ?_⟩
    exact he.value.extend (.refl _) hnew

end Expr

end Spellbook
