import Spellbook.Builtin
import Spellbook.Proofs.Evaluation.Estate

/-! Operators and builtins leave an estate in order: what they write belongs to it, and so does what
they return, if that is so of what they are given. -/
namespace Spellbook

open Refers Estate

/-! Results that refer to nothing -/

namespace Operator

theorem refs_exact (n : Int) : refs (exact n) = [] := by
  unfold exact
  split
  · rfl
  · rfl

theorem refs_intPower (base : Int) (exponent : Nat) : refs (intPower base exponent) = [] := by
  unfold intPower
  split
  · rfl
  · split
    · exact refs_exact _
    · split
      · rfl
      · exact refs_exact _

theorem refs_shift (left : Bool) (n amount : Int64) : refs (shift left n amount) = [] := by
  unfold shift
  split
  · rfl
  · rfl

theorem refs_onInts (op : Operator) (x y : Int64) : refs (op.onInts x y) = [] := by
  cases op with
  | add | sub | mul => exact refs_exact _
  | div =>
    simp only [onInts]
    split
    · rfl
    · exact refs_exact _
  | mod =>
    simp only [onInts]
    split
    · rfl
    · split
      · rfl
      · exact refs_exact _
  | pow =>
    simp only [onInts]
    split
    · exact refs_intPower _ _
    · rfl
  | shiftLeft | shiftRight => exact refs_shift _ _ _
  | less | greater | lessEqual | greaterEqual | bitAnd | bitOr | bitXor | equal | notEqual | isIn
  | notIn => rfl

theorem refs_onFloats? (op : Operator) (x y : Float) : refs (op.onFloats? x y) = [] := by
  cases op with
  | div | mod =>
    simp only [onFloats?]
    split
    · rfl
    · rfl
  | _ => rfl

theorem refs_onStrings? (op : Operator) (x y : String) : refs (op.onStrings? x y) = [] := by
  cases op <;> rfl

theorem refs_onBools? (op : Operator) (x y : Bool) : refs (op.onBools? x y) = [] := by
  cases op <;> rfl

end Operator

theorem Estate.knows_outcome {L : Estate} {s : Store} {r : Except Fault Value} (h : refs r = []) :
    L.Knows s r := by
  cases r with
  | error fault => exact knows_nothing rfl
  | ok v => exact knows_plain h

theorem refs_of_some {α : Type} [Refers α] {x : α} (h : refs (some x) = []) : refs x = [] := by
  simpa [refs] using h

/-! A logic of operations -/

/-- The operation stays inside a region, and so does its result if it has one. -/
structure Op.Abides {α : Type} [Bearing α] (L : Estate) (act : Op α) (s : Store) : Prop where
  leads : L.Leads s (endState (act s))
  result : ∀ a s', act s = .ok a s' → L.Knows s' a

namespace Op.Abides

variable {L : Estate}

section Rules

variable {α β : Type} [Bearing β] {s : Store}

theorem ok {act : Op β} {b : β} {s' : Store} (h : act s = .ok b s')
    (hn : L.Leads s s' ∧ L.Knows s' b) : Abides L act s where
  leads := by
    rw [h]
    exact hn.1
  result a s'' h' := by
    rw [h] at h'
    cases h'
    exact hn.2

theorem refused {act : Op β} {e : Fault} (h : act s = .error e s) (hs : L.Leads s s) :
    Abides L act s where
  leads := by
    rw [h]
    exact hs
  result a s'' h' := by
    rw [h] at h'
    cases h'

theorem pure {b : β} (hs : L.Leads s s) (hb : L.Knows s b) : Abides L (Pure.pure b) s :=
  .ok rfl ⟨hs, hb⟩

theorem throw (e : Fault) (hs : L.Leads s s) : Abides L (MonadExcept.throw e : Op β) s :=
  .refused rfl hs

theorem bind [Bearing α] {x : Op α} {k : α → Op β} (hx : Abides L x s)
    (hk : ∀ a s', L.Leads s s' → L.Knows s' a → Abides L (k a) s') : Abides L (x >>= k) s := by
  have hlead := hx.leads
  cases hr : x s with
  | error e s' =>
    have hend : (x >>= k) s = .error e s' := by simp only [Bind.bind, EStateM.bind, hr]
    rw [hr] at hlead
    refine ⟨?_, fun b s'' h => ?_⟩
    · rwa [hend]
    · rw [hend] at h
      cases h
  | ok a s' =>
    have hend : (x >>= k) s = k a s' := by simp only [Bind.bind, EStateM.bind, hr]
    rw [hr] at hlead
    have hnext := hk a s' hlead (hx.result a s' hr)
    refine ⟨?_, fun b s'' h => hnext.result b s'' (hend ▸ h)⟩
    rw [hend]
    exact L.trans hlead hnext.leads

theorem step {x : Op α} {a : α} {k : α → Op β} (hx : x s = .ok a s) (hk : Abides L (k a) s) :
    Abides L (x >>= k) s := by
  have hend : (x >>= k) s = k a s := by simp only [Bind.bind, EStateM.bind, hx]
  refine ⟨?_, fun b s' h => hk.result b s' (hend ▸ h)⟩
  rw [hend]
  exact hk.leads

theorem look (f : Store → α) {k : α → Op β} (h : Abides L (k (f s)) s) :
    Abides L (Op.look f >>= k) s :=
  .step rfl h

theorem seen {f : Store → β} (hs : L.Leads s s) (hf : L.Knows s (f s)) :
    Abides L (Op.look f) s :=
  .ok rfl ⟨hs, hf⟩

theorem tried {r : Except Fault α} {k : α → Op β} (hs : L.Leads s s)
    (hk : ∀ a, r = .ok a → Abides L (k a) s) : Abides L (Op.ofExcept r >>= k) s := by
  cases r with
  | error e => exact .refused (e := e) rfl hs
  | ok a => exact .step rfl (hk a rfl)

theorem ofExcept {r : Except Fault β} (hs : L.Leads s s) (hr : L.Knows s r) :
    Abides L (Op.ofExcept r) s := by
  cases r with
  | error e => exact .throw e hs
  | ok b => exact .pure hs hr

end Rules

variable {s : Store} (hs : L.Leads s s)

include hs

theorem plain {v : Value} (hv : refs v = []) : Abides L (Pure.pure v : Op Value) s :=
  .pure hs (knows_plain hv)

theorem newArray {xs : Array Value} (hxs : L.Knows s xs) : Abides L (Op.newArray xs) s :=
  .ok rfl (L.makesArray hs hxs)

theorem newTuple {xs : Array Value} (hxs : L.Knows s xs) : Abides L (Op.newTuple xs) s :=
  .ok rfl (L.makesTuple hs hxs)

/-! Operators -/

theorem orRefuse (op : Operator) (l r : Value) {v : Option Value} (hv : refs v = []) :
    Abides L (op.orRefuse l r v) s := by
  cases v with
  | none => exact .throw _ hs
  | some v => exact .pure hs (knows_plain (refs_of_some hv))

theorem applyFloats (op : Operator) (l r : Value) (x y : Float) :
    Abides L (op.applyFloats l r x y) s := by
  have hplain := op.refs_onFloats? x y
  unfold Operator.applyFloats
  split
  · rename_i outcome houtcome
    rw [houtcome] at hplain
    exact .ofExcept hs (knows_outcome (refs_of_some hplain))
  · exact .throw _ hs

theorem repeatArray {xs : Array Value} (n : Int64) (hxs : L.Knows s xs) :
    Abides L (Operator.repeatArray xs n) s := by
  have hcopies : ∀ count, L.Knows s (Nat.repeat (· ++ xs) count #[]) := by
    intro count
    induction count with
    | zero => exact knows_nothing rfl
    | succ count ih => exact ih.append hxs
  exact .tried hs fun count _ => .newArray hs (hcopies count)

theorem applyArithmetic (op : Operator) {l r : Value} (hl : L.Knows s l) (hr : L.Knows s r) :
    Abides L (op.applyArithmetic l r) s := by
  unfold Operator.applyArithmetic
  split
  · exact .ofExcept hs (knows_outcome (op.refs_onInts _ _))
  · exact .applyFloats hs op _ _ _ _
  · exact .applyFloats hs op _ _ _ _
  · exact .applyFloats hs op _ _ _ _
  · exact .orRefuse hs op _ _ (op.refs_onStrings? _ _)
  · split
    · exact .tried hs fun _ _ => .plain hs rfl
    · exact .throw _ hs
  · split
    · exact .look _ (.newArray hs ((L.array hs hl).append (L.array hs hr)))
    · exact .throw _ hs
  · split
    · exact .look _ (.repeatArray hs _ (L.array hs hl))
    · exact .throw _ hs
  · split
    · exact .look _ (.newTuple hs ((L.tuple hs hl).append (L.tuple hs hr)))
    · exact .throw _ hs
  · exact .orRefuse hs op _ _ (op.refs_onBools? _ _)
  · exact .throw _ hs

theorem contains (op : Operator) (needle haystack : Value) :
    Abides L (op.contains needle haystack) s := by
  unfold Operator.contains
  split
  · exact .seen hs (knows_nothing rfl)
  · exact .seen hs (knows_nothing rfl)
  · exact .pure hs (knows_nothing rfl)
  · exact .tried hs fun _ _ => .seen hs (knows_nothing rfl)
  · exact .throw _ hs

theorem operator (op : Operator) {l r : Value} (hl : L.Knows s l) (hr : L.Knows s r) :
    Abides L (op.apply l r) s := by
  have hequal : ∀ op : Operator, Abides L (op.applyEquality l r) s := by
    intro op
    unfold Operator.applyEquality
    split
    · exact .look _ (.plain hs rfl)
    · exact .throw _ hs
  unfold Operator.apply
  split
  · exact hequal _
  · exact hequal _
  · exact (contains hs _ l r).bind fun _ _ h _ => .plain (L.settled h) rfl
  · exact (contains hs _ l r).bind fun _ _ h _ => .plain (L.settled h) rfl
  · exact .applyArithmetic hs op hl hr

theorem unary (op : UnaryOp) {v : Value} (hv : L.Knows s v) : Abides L (op.apply v) s := by
  unfold UnaryOp.apply
  split
  · exact .look _ (.plain hs rfl)
  · exact .look _ (.plain hs rfl)
  · exact .ofExcept hs (knows_outcome (Operator.refs_exact _))
  · exact .plain hs rfl
  · exact .pure hs hv
  · exact .pure hs hv
  · exact .plain hs rfl
  · exact .throw _ hs

theorem index {object : Value} (i : Value) (ho : L.Knows s object) :
    Abides L (Op.index object i) s := by
  unfold Op.index
  split
  · exact .look _ (.tried hs fun p _ => .pure hs ((L.array hs ho).getD p (knows_plain rfl)))
  · exact .look _ (.tried hs fun p _ => .pure hs ((L.tuple hs ho).getD p (knows_plain rfl)))
  · exact .tried hs fun _ _ => .plain hs rfl
  · rename_i r
    refine .tried hs fun key _ => .seen hs ?_
    have hentries : L.Knows s (s.map r) := L.map hs ho
    cases he : (s.map r).find? key with
    | none => exact knows_plain rfl
    | some e => exact (knows_entry.1 (hentries.mem (List.mem_of_find?_eq_some he))).2
  · exact .throw _ hs
  · exact .throw _ hs
  · exact .throw _ hs
  · exact .throw _ hs

theorem setIndex {object i v : Value} (ho : L.Knows s object) (hi : L.Knows s i)
    (hv : L.Knows s v) : Abides L (Op.setIndex object i v) s := by
  unfold Op.setIndex
  split
  · refine .look _ (.tried hs fun i _ => .ok rfl ⟨?_, knows_nothing rfl⟩)
    exact L.setElement i hs (knows_value.1 ho) (knows_value.1 hv)
  · exact .throw _ hs
  · refine .tried hs fun key _ => .ok rfl ⟨?_, knows_nothing rfl⟩
    exact L.setEntry hs (knows_value.1 ho) (knows_value.1 hi) (knows_value.1 hv)
  · exact .throw _ hs

theorem sliceBound {β : Type} [Bearing β] (v : Option Value) {k : Option Int → Op β}
    (hk : ∀ bound, Abides L (k bound) s) : Abides L (Op.sliceBound v >>= k) s := by
  unfold Op.sliceBound
  split
  · exact .step rfl (hk _)
  · exact .step rfl (hk _)
  · exact .step rfl (hk _)
  · exact .refused rfl hs

theorem slice {object : Value} (start stop : Option Value) (ho : L.Knows s object) :
    Abides L (Op.slice object start stop) s := by
  refine .sliceBound hs _ fun _ => .sliceBound hs _ fun _ => ?_
  split
  · exact .look _ (.newArray hs ((L.array hs ho).extract _ _))
  · exact .look _ (.newTuple hs ((L.tuple hs ho).extract _ _))
  · exact .plain hs rfl
  · exact .throw _ hs

/-! Builtins -/

theorem elements (b : Builtin) {v : Value} (hv : L.Knows s v) : Abides L (b.elements v) s := by
  refine .look _ ?_
  cases h : s.elements? v with
  | none => exact .throw _ hs
  | some xs => exact .pure hs (L.elements? hs hv h)

omit hs in
theorem repr {v : Value} {k : String → Op Value} (hk : ∀ text, Abides L (k text) s) :
    Abides L (Builtin.repr v >>= k) s := by
  unfold Builtin.repr
  split
  · exact .step rfl (hk _)
  · exact .look _ (hk _)

theorem lengthOf (v : Value) : Abides L (Builtin.lengthOf v) s := by
  unfold Builtin.lengthOf
  split
  · exact .plain hs rfl
  · exact .look _ (.plain hs rfl)
  · exact .look _ (.plain hs rfl)
  · exact .look _ (.plain hs rfl)
  · exact .throw _ hs

theorem rangeOf (args : List Value) : Abides L (Builtin.rangeOf args) s := by
  have hints : ∀ ns : List Int,
      L.Knows s ((ns.map fun n => (.int (Int64.ofInt n) : Value)).toArray) := by
    intro ns
    refine knows_array.2 fun v hv => ?_
    obtain ⟨n, _, rfl⟩ := List.mem_map.1 (List.mem_toArray.1 hv)
    exact knows_plain rfl
  refine .tried hs fun bounds _ => ?_
  dsimp only
  split
  · exact .tried hs fun ns _ => .newArray hs (hints ns)
  · exact .tried hs fun ns _ => .newArray hs (hints ns)
  · exact .tried hs fun ns _ => .newArray hs (hints ns)
  · exact .refused rfl hs

theorem absolute (v : Value) : Abides L (Builtin.absolute v) s := by
  unfold Builtin.absolute
  split
  · exact .ofExcept hs (knows_outcome (Operator.refs_exact _))
  · exact .plain hs rfl
  · exact .throw _ hs

theorem best (order : Operator) {leader : Value} {vs : List Value} (hl : L.Knows s leader)
    (hvs : L.Knows s vs) : Abides L (Builtin.best order leader vs) s := by
  induction vs generalizing leader s with
  | nil => exact .pure hs hl
  | cons v rest ih =>
    obtain ⟨hv, hrest⟩ := knows_cons.1 hvs
    refine (operator hs order hv hl).bind fun won s' h _ => .look _ ?_
    cases s'.truthy won with
    | true => exact ih (L.settled h) (hv.later h) (hrest.later h)
    | false => exact ih (L.settled h) (hl.later h) (hrest.later h)

theorem bestOf (b : Builtin) (order : Operator) {candidates : List Value} :
    L.Knows s candidates → Abides L (match candidates with
      | [] => MonadExcept.throw (.emptySequence b.name)
      | first :: rest => Builtin.best order first rest : Op Value) s := by
  intro h
  cases candidates with
  | nil => exact .throw _ hs
  | cons first rest => exact .best hs order (knows_cons.1 h).1 (knows_cons.1 h).2

theorem extreme (b : Builtin) (order : Operator) {args : List Value} (hargs : L.Knows s args) :
    Abides L (Builtin.extreme b order args) s := by
  unfold Builtin.extreme
  dsimp only
  split
  · exact .look _ (bestOf hs b order (L.array hs (knows_cons.1 hargs).1).toList)
  · exact .look _ (bestOf hs b order (L.tuple hs (knows_cons.1 hargs).1).toList)
  · exact .step rfl (bestOf hs b order hargs)

theorem pairUp {pairs : List (Value × Value)} (hp : L.Knows s pairs) :
    Abides L (Builtin.pairUp pairs) s := by
  induction pairs generalizing s with
  | nil => exact .pure hs knows_nil
  | cons p rest ih =>
    obtain ⟨hfirst, hrest⟩ := knows_cons.1 hp
    have hpair : L.Knows s [p.1, p.2] :=
      knows_cons.2 ⟨(knows_pair.1 hfirst).1, knows_cons.2 ⟨(knows_pair.1 hfirst).2, knows_nil⟩⟩
    refine (newTuple hs hpair.toArray).bind fun t s₁ h₁ ht => ?_
    refine (ih (L.settled h₁) (hrest.later h₁)).bind fun ts s₂ h₂ hts => ?_
    exact .pure (L.settled h₂) (knows_cons.2 ⟨ht.later h₂, hts⟩)

theorem enumerated {v : Value} (hv : L.Knows s v) : Abides L (Builtin.enumerated v) s := by
  refine (elements hs _ hv).bind fun xs s₁ h₁ hxs => ?_
  have hpairs : L.Knows s₁ (xs.toList.zipIdx.map fun p => (Value.ofNat p.2, p.1)) := by
    refine knows_list.2 fun p hp => ?_
    obtain ⟨q, hmem, rfl⟩ := List.mem_map.1 hp
    exact knows_pair.2 ⟨knows_plain rfl, hxs.toList.mem (List.fst_mem_of_mem_zipIdx hmem)⟩
  refine (pairUp (L.settled h₁) hpairs).bind fun ts s₂ h₂ hts => ?_
  exact .newArray (L.settled h₂) hts.toArray

theorem pairsOf {v : Value} (hv : L.Knows s v) : Abides L (Builtin.pairsOf v) s := by
  unfold Builtin.pairsOf
  split
  · rename_i r
    have hentries : L.Knows s (s.map r) := L.map hs hv
    have hpairs : L.Knows s ((s.map r).map fun e => (e.name, e.value)) := by
      refine knows_list.2 fun p hp => ?_
      obtain ⟨e, he, rfl⟩ := List.mem_map.1 hp
      exact knows_pair.2 (knows_entry.1 (hentries.mem he))
    refine .look _ ((pairUp hs hpairs).bind fun ts s' h hts => ?_)
    exact .newArray (L.settled h) hts.toArray
  · exact .throw _ hs

theorem codePointOf (v : Value) : Abides L (Builtin.codePointOf v) s := by
  unfold Builtin.codePointOf
  split
  · split
    · exact .plain hs rfl
    · exact .repr fun _ => .throw _ hs
  · exact .repr fun _ => .throw _ hs

theorem charOf (v : Value) : Abides L (Builtin.charOf v) s := by
  unfold Builtin.charOf
  split
  · split
    · exact .plain hs rfl
    · exact .throw _ hs
  · exact .throw _ hs

theorem errorOf (name : Value) (message : Option Value) :
    Abides L (Builtin.errorOf name message) s := by
  have hnew := fun name message => (L.newError hs (f := .custom ⟨name, message, none, .unknown, []⟩)
    ⟨name, message, rfl⟩).imp_right knows_value.2
  unfold Builtin.errorOf
  split
  · dsimp only
    split
    · exact .look _ (.ok rfl (hnew _ _))
    · exact .step rfl (.ok rfl (hnew _ _))
  · exact .throw _ hs

theorem converted {γ : Type} (v : Value) (target : String) {make : γ → Value} (a : Option γ)
    (hm : ∀ c, refs (make c) = []) : Abides L (Builtin.converted v target make a) s := by
  cases a with
  | none => exact .repr fun _ => .throw _ hs
  | some a => exact .plain hs (hm a)

theorem builtin (b : Builtin) {args : List Value} (hargs : L.Knows s args) :
    Abides L (b.apply args) s := by
  unfold Builtin.apply
  split
  · exact .plain hs rfl
  · exact .lengthOf hs _
  · exact .look _ (.plain hs rfl)
  · exact .look _ (.plain hs rfl)
  · exact .converted hs _ _ _ fun _ => rfl
  · exact .converted hs _ _ _ fun _ => rfl
  · exact .look _ (.plain hs rfl)
  · exact .rangeOf hs _
  · exact .absolute hs _
  · exact .extreme hs _ _ hargs
  · exact .extreme hs _ _ hargs
  · exact .enumerated hs (knows_cons.1 hargs).1
  · exact .pairsOf hs (knows_cons.1 hargs).1
  · exact (elements hs _ (knows_cons.1 hargs).1).bind fun _ _ h hxs => .newArray (L.settled h) hxs
  · exact (elements hs _ (knows_cons.1 hargs).1).bind fun _ _ h hxs => .newTuple (L.settled h) hxs
  · exact .codePointOf hs _
  · exact .charOf hs _
  · exact .errorOf hs _ _
  · exact .errorOf hs _ _
  · exact .throw _ hs

end Op.Abides

end Spellbook
