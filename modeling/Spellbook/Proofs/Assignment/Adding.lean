import Spellbook.Proofs.Indexing
import Spellbook.Proofs.Regime.Basic

/-! What only adds to the store. Operators, look-ups and failures make new things, and leave alone
whatever is there. Writes come after them, and fail only if nothing is written. -/
namespace Spellbook

/-- What there is in a store is there in a later one as it was, and the scopes are the same. -/
structure Store.Retains (s s' : Store) : Prop where
  scopes : s'.scopes = s.scopes
  same : ∀ a, s.InUse a → s.SameAt s' a

/-- The state is as it was, but for what has been added to the store. -/
structure Machine.Unwritten (m m' : Machine) : Prop where
  rest : m' = { m with store := m'.store }
  store : m.store.Retains m'.store

namespace Store

variable {s s' s'' : Store}

theorem inUse_iff {a : Address} : s.InUse a ↔ ∃ c, s.content? a = some c := by
  simp only [content?, Array.getElem?_eq_some_iff, InUse, size]
  constructor
  · exact fun h => ⟨_, h, rfl⟩
  · rintro ⟨_, h, _⟩
    exact h

namespace Retains

theorem refl (s : Store) : s.Retains s := ⟨rfl, fun _ _ => rfl⟩

theorem inUse (h : s.Retains s') {a : Address} (ha : s.InUse a) : s'.InUse a := by
  obtain ⟨c, hc⟩ := inUse_iff.1 ha
  exact inUse_iff.2 ⟨c, (h.same a ha).trans hc⟩

theorem trans (h : s.Retains s') (h' : s'.Retains s'') : s.Retains s'' where
  scopes := h'.scopes.trans h.scopes
  same a ha := (h'.same a (h.inUse ha)).trans (h.same a ha)

theorem push (s : Store) {κ : Cell} (hκ : κ ≠ .scope) (c : κ.Content) :
    s.Retains (s.withTable κ ((s.table κ).push c)) where
  scopes := congrArg Forest.mk (s.table_withTable_of_ne hκ.symm _)
  same a ha := s.content?_push_of_ne c fun hnew => Nat.lt_irrefl (s.size κ) (by
    subst hnew
    exact ha)

theorem reaches (h : s.Retains s') (hs : Region.whole.Closed s) {a b : Address} (ha : s.InUse a)
    (hab : s'.Reaches a b) : s.Reaches a b ∧ s.InUse b := by
  induction hab with
  | refl => exact ⟨.refl, ha⟩
  | @tail b c _ hbc ih =>
    obtain ⟨hreach, hb⟩ := ih
    have hparts : s'.parts b = s.parts b := by rw [parts, parts, h.same b hb]
    rw [hparts] at hbc
    refine ⟨hreach.tail hbc, ?_⟩
    have hc := hs.parts b (.inr ⟨Nat.zero_le _, hb⟩) c hbc
    exact hc.elim False.elim And.right

end Retains

end Store

namespace Machine.Unwritten

variable {m m' m'' : Machine}

theorem refl (m : Machine) : m.Unwritten m := ⟨rfl, .refl m.store⟩

theorem trans (h : m.Unwritten m') (h' : m'.Unwritten m'') : m.Unwritten m'' where
  rest := h'.rest.trans (by rw [h.rest])
  store := h.store.trans h'.store

theorem of_store {s : Store} (h : m.store.Retains s) : m.Unwritten { m with store := s } := ⟨rfl, h⟩

end Machine.Unwritten

/-- The operation writes to nothing that is in the store. -/
def Op.OnlyAdds {α : Type} (act : Op α) : Prop := ∀ s : Store, s.Retains (endState (act s))

namespace Op.OnlyAdds

variable {α β : Type}

theorem pure (a : α) : OnlyAdds (Pure.pure a : Op α) := fun s => .refl s

theorem throw (e : Fault) : OnlyAdds (MonadExcept.throw e : Op α) := fun s => .refl s

theorem look (f : Store → α) : OnlyAdds (Op.look f) := fun s => .refl s

theorem newArray (xs : Array Value) : OnlyAdds (Op.newArray xs) := fun s =>
  .push s (κ := .array) nofun xs

theorem newTuple (xs : Array Value) : OnlyAdds (Op.newTuple xs) := fun s =>
  .push s (κ := .tuple) nofun xs

theorem bind {x : Op α} {k : α → Op β} (hx : OnlyAdds x) (hk : ∀ a, OnlyAdds (k a)) :
    OnlyAdds (x >>= k) := by
  intro s
  have h := hx s
  simp only [Bind.bind, EStateM.bind]
  cases hr : x s with
  | ok a s' =>
    rw [hr] at h
    exact h.trans (hk a s')
  | error e s' =>
    rw [hr] at h
    exact h

theorem map {x : Op α} (f : α → β) (hx : OnlyAdds x) :
    OnlyAdds (x >>= fun a => Pure.pure (f a)) :=
  hx.bind fun a => .pure (f a)

theorem ofExcept (r : Except Fault α) : OnlyAdds (Op.ofExcept r) := by
  cases r with
  | ok a => exact .pure a
  | error e => exact .throw e

theorem orRefuse (op : Operator) (a b : Value) (v : Option Value) : OnlyAdds (op.orRefuse a b v) := by
  cases v with
  | none => exact .throw _
  | some v => exact .pure v

theorem applyFloats (op : Operator) (a b : Value) (x y : Float) :
    OnlyAdds (op.applyFloats a b x y) := by
  unfold Operator.applyFloats
  split
  · exact .ofExcept _
  · exact .throw _

theorem applyEquality (op : Operator) (a b : Value) : OnlyAdds (op.applyEquality a b) := by
  unfold Operator.applyEquality
  split
  · exact .map _ (.look _)
  · exact .throw _

theorem contains (op : Operator) (a b : Value) : OnlyAdds (op.contains a b) := by
  unfold Operator.contains
  split
  · exact .look _
  · exact .look _
  · exact .pure _
  · exact .bind (.ofExcept _) fun _ => .look _
  · exact .throw _

theorem applyArithmetic (op : Operator) (a b : Value) : OnlyAdds (op.applyArithmetic a b) := by
  unfold Operator.applyArithmetic
  split
  · exact .ofExcept _
  · exact .applyFloats op _ _ _ _
  · exact .applyFloats op _ _ _ _
  · exact .applyFloats op _ _ _ _
  · exact .orRefuse op _ _ _
  · split
    · exact .map _ (.ofExcept _)
    · exact .throw _
  · split
    · exact .bind (.look _) fun _ => .newArray _
    · exact .throw _
  · split
    · exact .bind (.look _) fun _ => .bind (.ofExcept _) fun _ => .newArray _
    · exact .throw _
  · split
    · exact .bind (.look _) fun _ => .newTuple _
    · exact .throw _
  · exact .orRefuse op _ _ _
  · exact .throw _

theorem operator (op : Operator) (a b : Value) : OnlyAdds (op.apply a b) := by
  unfold Operator.apply
  split
  · exact .applyEquality _ a b
  · exact .applyEquality _ a b
  · exact .map _ (.contains _ a b)
  · exact .map _ (.contains _ a b)
  · exact .applyArithmetic op a b

theorem index (object i : Value) : OnlyAdds (Op.index object i) := by
  unfold Op.index
  split
  · exact .bind (.look _) fun _ => .map _ (.ofExcept _)
  · exact .bind (.look _) fun _ => .map _ (.ofExcept _)
  · exact .map _ (.ofExcept _)
  · exact .bind (.ofExcept _) fun _ => .look _
  · exact .throw _
  · exact .throw _
  · exact .throw _
  · exact .throw _

end Op.OnlyAdds

/-- The action writes to nothing that is there, and if it fails, it raises something. -/
def Eval.OnlyAdds {α : Type} (act : Eval α) : Prop :=
  ∀ m : Machine, m.Unwritten (endState (act m)) ∧ ∀ m', act m ≠ .error .outOfFuel m'

namespace Eval.OnlyAdds

variable {α β : Type} (w : World)

theorem pure (a : α) : OnlyAdds (Pure.pure a : Eval α) := fun m => ⟨.refl m, nofun⟩

theorem bind {x : Eval α} {k : α → Eval β} (hx : OnlyAdds x) (hk : ∀ a, OnlyAdds (k a)) :
    OnlyAdds (x >>= k) := by
  intro m
  obtain ⟨hkept, hends⟩ := hx m
  simp only [Bind.bind, EStateM.bind]
  cases hr : x m with
  | ok a m' =>
    rw [hr] at hkept
    exact ⟨hkept.trans (hk a m').1, (hk a m').2⟩
  | error e m' =>
    rw [hr] at hkept
    refine ⟨hkept, fun m'' h => ?_⟩
    cases h
    exact hends m' hr

theorem look {f : Machine → α} {k : α → Eval β} (hk : ∀ a, OnlyAdds (k a)) :
    OnlyAdds (Eval.look f >>= k) := fun m => hk (f m) m

theorem view {f : Store → α} {k : α → Eval β} (hk : ∀ a, OnlyAdds (k a)) :
    OnlyAdds (Eval.view f >>= k) := fun m => hk (f m.store) m

theorem seen (f : Store → α) : OnlyAdds (Eval.view f) := fun m => ⟨.refl m, nofun⟩

theorem create {make : Store → α × Store} (h : ∀ s : Store, s.Retains (make s).2) :
    OnlyAdds (Eval.create make) := fun m => ⟨.of_store (h m.store), nofun⟩

theorem operate {act : Op α} (ha : act.OnlyAdds) : OnlyAdds (Eval.operate act) := by
  intro m
  have h := ha m.store
  cases hr : act m.store with
  | ok a s =>
    rw [hr] at h
    rw [Eval.operate_of_ok hr]
    exact ⟨.of_store h, nofun⟩
  | error e s =>
    rw [hr] at h
    rw [Eval.operate_of_error hr]
    exact ⟨.of_store h, nofun⟩

theorem raise (f : Failure) : OnlyAdds (Eval.raise f : Eval α) := fun m =>
  ⟨.of_store (.push m.store (κ := .failure) nofun f), nofun⟩

theorem fail (pos : Pos) (fault : Fault) : OnlyAdds (Eval.fail w pos fault : Eval α) :=
  .look fun _ => .look fun _ => .raise _

theorem located (pos : Pos) (r : Except Fault α) : OnlyAdds (Eval.located w pos r) := by
  cases r with
  | ok a => exact .pure a
  | error fault => exact .fail w pos fault

theorem operateAt (pos : Pos) {act : Op α} (ha : act.OnlyAdds) :
    OnlyAdds (Eval.operateAt w pos act) :=
  (operate ha).bind fun r => .located w pos r

theorem get? {name : String} {k : Option Value → Eval β} (hk : ∀ v, OnlyAdds (k v)) :
    OnlyAdds (Eval.get? name >>= k) := .look hk

theorem lookup (id : Ident) : OnlyAdds (Eval.lookup w id) := by
  refine .get? fun v => ?_
  cases v with
  | none => exact .fail w _ _
  | some v => exact .pure v

/-! Reading attributes makes methods, spells and objects that stand in for values. -/

theorem checkAccess (id : Ident) (owner : Ref .grimoire) :
    OnlyAdds (Eval.checkAccess w id owner) := by
  refine .look fun fault => ?_
  cases fault with
  | none => exact .pure _
  | some fault => exact .fail w _ fault

theorem bound (receiver : Value) (id : Ident) (found : SpellDecl × Ref .grimoire) :
    OnlyAdds (Eval.bound w receiver id found) :=
  (checkAccess w id found.2).bind fun _ => .create fun s => .push s (κ := .method) nofun _

theorem member (r : Ref .object) (id : Ident) : OnlyAdds (Eval.member w r id) := by
  refine .view fun v => ?_
  cases v with
  | some v => exact .pure v
  | none =>
    refine .view fun _ => .view fun found => ?_
    cases found with
    | some found => exact .bound w _ id found
    | none => exact .view fun _ => .fail w _ _

theorem unbound (r : Ref .grimoire) (id : Ident) : OnlyAdds (Eval.unbound w r id) := by
  refine .view fun found => ?_
  cases found with
  | none => exact .view fun _ => .fail w _ _
  | some found =>
    exact (checkAccess w id found.2).bind fun _ =>
      .create fun s => .push s (κ := .spell) nofun _

theorem wrapped? (v : Value) : OnlyAdds (Eval.wrapped? v) := by
  refine .view fun kind => .get? fun found => ?_
  split
  · exact (create fun s => .push s (κ := .object) nofun _).bind fun _ => .pure _
  · exact .pure _

theorem wrappedMember (v : Value) (id : Ident) : OnlyAdds (Eval.wrappedMember w v id) := by
  refine (wrapped? v).bind fun r => ?_
  cases r with
  | some r => exact .member w r id
  | none => exact .fail w _ _

theorem errorMember (v : Value) (r : Ref .failure) (id : Ident) :
    OnlyAdds (Eval.errorMember w v r id) := by
  refine .view fun f => ?_
  split
  · exact .pure _
  · exact .pure _
  · exact .pure _
  · split
    · exact .member w _ id
    · exact .fail w _ _

theorem spaceMember (r : Ref .space) (id : Ident) : OnlyAdds (Eval.spaceMember w r id) := by
  refine .view fun v => ?_
  cases v with
  | none => exact .view fun _ => .fail w _ _
  | some v => exact .pure v

theorem attr (v : Value) (id : Ident) : OnlyAdds (Eval.attr w v id) := by
  unfold Eval.attr
  split
  · exact .member w _ id
  · exact .unbound w _ id
  · exact .wrappedMember w _ id
  · exact .wrappedMember w _ id
  · exact .wrappedMember w _ id
  · exact .wrappedMember w _ id
  · exact .wrappedMember w _ id
  · exact .spaceMember w _ id
  · exact .errorMember w _ _ id
  · exact .errorMember w _ _ id
  · exact .fail w _ _

theorem unpack (pos : Pos) (count : Nat) (v : Value) : OnlyAdds (Eval.unpack w pos count v) := by
  unfold Eval.unpack
  split
  · exact .seen _
  · exact .seen _
  · split
    · have hnew : ∀ entries : Array Value, OnlyAdds (Eval.create fun s => s.newArray entries) :=
        fun entries => .create fun s => .push s (κ := .array) nofun entries
      exact .view fun _ => (hnew _).bind fun _ => (hnew _).bind fun _ => .pure _
    · exact .fail w _ _
  · exact .fail w _ _

end Eval.OnlyAdds

/-- The action fails only before it writes. -/
def Eval.WritesLast {α : Type} (act : Eval α) : Prop :=
  ∀ m e m', act m = .error e m' → m.Unwritten m' ∧ ∃ r, e = .raised r

namespace Eval.WritesLast

variable {α β : Type} (w : World)

theorem onlyAdds {act : Eval α} (h : act.OnlyAdds) : WritesLast act := by
  intro m e m' herror
  obtain ⟨hkept, hends⟩ := h m
  rw [herror] at hkept
  cases e with
  | raised r => exact ⟨hkept, r, rfl⟩
  | outOfFuel => exact absurd herror (hends m')

theorem total {act : Eval α} (h : ∀ m, ∃ a m', act m = .ok a m') : WritesLast act := by
  intro m e m' herror
  obtain ⟨a, m'', hok⟩ := h m
  rw [hok] at herror
  cases herror

theorem bind {x : Eval α} {k : α → Eval β} (hx : x.OnlyAdds) (hk : ∀ a, WritesLast (k a)) :
    WritesLast (x >>= k) := by
  intro m e m' herror
  have hkept := (hx m).1
  simp only [Bind.bind, EStateM.bind] at herror
  cases hr : x m with
  | ok a m₁ =>
    rw [hr] at hkept herror
    obtain ⟨hafter, hraised⟩ := hk a m₁ e m' herror
    exact ⟨hkept.trans hafter, hraised⟩
  | error e₁ m₁ =>
    rw [hr] at herror
    cases herror
    exact onlyAdds hx m e m' hr

theorem setAttr (object : Value) (id : Ident) (v : Value) :
    WritesLast (Eval.setAttr w object id v) := by
  unfold Eval.setAttr
  split
  · exact .total fun _ => ⟨_, _, rfl⟩
  · exact .onlyAdds (.fail w _ _)

theorem setIndex (pos : Pos) (object i v : Value) :
    WritesLast (operateAt w pos (Op.setIndex object i v)) := by
  intro m e m' herror
  simp only [operateAt, Bind.bind, EStateM.bind] at herror
  cases hr : Op.setIndex object i v m.store with
  | ok a s =>
    rw [Eval.operate_of_ok hr] at herror
    cases herror
  | error fault s =>
    obtain rfl := Store.eq_of_setIndex_error hr
    rw [Eval.operate_of_error hr] at herror
    exact onlyAdds (.fail w pos fault) _ e m' herror

theorem assign (name : String) (v : Value) : WritesLast (Eval.assign name v) :=
  .total fun _ => ⟨_, _, rfl⟩

end Eval.WritesLast

end Spellbook
