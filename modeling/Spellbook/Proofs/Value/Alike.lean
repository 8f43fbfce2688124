import Spellbook.Proofs.Value.Plain
import Spellbook.Store.Equality
import Spellbook.Store.Printer
import Mathlib.Data.List.Forall2

/-! Values with the same content in two stores. They are printed alike, and equal where they are in
one store. -/
namespace Spellbook

/-- The entries have the same key, and values that are related. -/
structure Entry.Alike (R : Value → Value → Prop) (e e' : Entry) : Prop where
  key : e.key = e'.key
  name : e.name = e'.name
  scalar : e.name.IsScalar
  value : R e.value e'.value

namespace Store

variable {s s' t t' : Store} {R : Value → Value → Prop} {v v' : Value} {n k k' : Nat}

/-- The values are of one kind, and their parts are related one by one. -/
inductive AlikeOver (s s' : Store) (R : Value → Value → Prop) : Value → Value → Prop where
  | none : AlikeOver s s' R .none .none
  | scalar {v : Value} (hv : v.IsScalar) : AlikeOver s s' R v v
  | array {r r' : Ref .array} (hr : r.index < s.arrays.size) (hr' : r'.index < s'.arrays.size)
    (hparts : List.Forall₂ R (s.array r).toList (s'.array r').toList) :
    AlikeOver s s' R (.array r) (.array r')
  | tuple {r r' : Ref .tuple} (hr : r.index < s.tuples.size) (hr' : r'.index < s'.tuples.size)
    (hparts : List.Forall₂ R (s.tuple r).toList (s'.tuple r').toList) :
    AlikeOver s s' R (.tuple r) (.tuple r')
  | map {r r' : Ref .map} (hr : r.index < s.maps.size) (hr' : r'.index < s'.maps.size)
    (hproper : (s.map r).IsProper)
    (hparts : List.Forall₂ (Entry.Alike R) (s.map r) (s'.map r')) :
    AlikeOver s s' R (.map r) (.map r')

/-- The values have the same content, which is nested at most `depth` levels deep. -/
def AlikeAt (s s' : Store) : Nat → Value → Value → Prop
  | 0, _, _ => False
  | depth + 1, v, v' => s.AlikeOver s' (s.AlikeAt s' depth) v v'

theorem AlikeAt.scalar {u : Value} (h : s.AlikeAt s' n v v') (hu : u.IsScalar) :
    s.AlikeAt s' n u u := by
  cases n with
  | zero => exact h.elim
  | succ n => exact AlikeOver.scalar hu

theorem AlikeAt.eq_of_scalar (h : s.AlikeAt s' n v v') (hv : v.IsScalar) : v = v' := by
  cases n with
  | zero => exact h.elim
  | succ n =>
    cases h with
    | scalar _ => rfl
    | _ => exact hv.elim

theorem AlikeAt.typeName_eq (h : s.AlikeAt s' n v v') : v.typeName = v'.typeName := by
  cases n with
  | zero => exact h.elim
  | succ n => cases h <;> rfl

theorem map_eq_map_of_forall₂ {α β γ : Type} {R : α → β → Prop} {f : α → γ} {g : β → γ}
    {xs : List α} {ys : List β} (h : List.Forall₂ R xs ys) (heq : ∀ x y, R x y → f x = g y) :
    xs.map f = ys.map g := by
  induction h with
  | nil => rfl
  | cons hxy _ ih => rw [List.map_cons, List.map_cons, heq _ _ hxy, ih]

theorem isProper_alike {x y : Table} (h : x.IsProper) (halike : List.Forall₂ (Entry.Alike R) x y) :
    y.IsProper := by
  have hlabel : x.map Table.label = y.map Table.label :=
    map_eq_map_of_forall₂ halike fun _ _ he => Prod.ext he.key he.name
  rw [Table.isProper_iff] at h ⊢
  rwa [← hlabel]

theorem AlikeAt.symm (h : s.AlikeAt s' n v v') : s'.AlikeAt s n v' v := by
  induction n generalizing v v' with
  | zero => exact h.elim
  | succ n ih =>
    cases h with
    | none => exact .none
    | scalar hv => exact AlikeOver.scalar hv
    | array hr hr' hparts => exact .array hr' hr (List.Forall₂.imp (fun _ _ => ih) hparts).flip
    | tuple hr hr' hparts => exact .tuple hr' hr (List.Forall₂.imp (fun _ _ => ih) hparts).flip
    | map hr hr' hproper hparts =>
      refine .map hr' hr (isProper_alike hproper hparts) (List.Forall₂.imp ?_ hparts).flip
      exact fun _ _ he => ⟨he.key.symm, he.name.symm, he.name ▸ he.scalar, ih he.value⟩

/-! Depth -/

theorem AlikeAt.plainAt (h : s.AlikeAt s' n v v') : s.PlainAt n v := by
  induction n generalizing v v' with
  | zero => exact h.elim
  | succ n ih =>
    have hall : ∀ {xs ys : List Value}, List.Forall₂ (s.AlikeAt s' n) xs ys →
        ∀ u ∈ xs, s.PlainAt n u := fun hparts =>
      ((List.forall₂_and_left _ _).1 (hparts.imp fun _ _ hu => ⟨ih hu, hu⟩)).1
    cases h with
    | none => exact .none
    | scalar hv => exact PlainOver.scalar hv
    | array hr _ hparts => exact .array hr (hall hparts)
    | tuple hr _ hparts => exact .tuple hr (hall hparts)
    | map hr _ hproper hparts =>
      have hentries := ((List.forall₂_and_left _ _).1
        (hparts.imp fun _ _ he => ⟨And.intro he.scalar (ih he.value), he⟩)).1
      exact .map hr hproper (fun e he => (hentries e he).1) fun e he => (hentries e he).2

theorem AlikeAt.of_plainAt (h : s.AlikeAt s' n v v') (hv : s.PlainAt k v) :
    s.AlikeAt s' k v v' := by
  induction k generalizing n v v' with
  | zero => exact hv.elim
  | succ k ih =>
    cases n with
    | zero => exact h.elim
    | succ n =>
      have hall : ∀ {xs ys : List Value}, List.Forall₂ (s.AlikeAt s' n) xs ys →
          (∀ u ∈ xs, s.PlainAt k u) → List.Forall₂ (s.AlikeAt s' k) xs ys := fun hparts hxs =>
        ((List.forall₂_and_left _ _).2 ⟨hxs, hparts⟩).imp fun _ _ hu => ih hu.2 hu.1
      cases h with
      | none => exact .none
      | scalar hs => exact AlikeOver.scalar hs
      | array hr hr' hparts =>
        cases hv with
        | scalar hs => exact hs.elim
        | array _ hxs => exact .array hr hr' (hall hparts hxs)
      | tuple hr hr' hparts =>
        cases hv with
        | scalar hs => exact hs.elim
        | tuple _ hxs => exact .tuple hr hr' (hall hparts hxs)
      | map hr hr' hproper hparts =>
        cases hv with
        | scalar hs => exact hs.elim
        | map _ _ _ hxs =>
          refine .map hr hr' hproper (((List.forall₂_and_left _ _).2 ⟨hxs, hparts⟩).imp ?_)
          exact fun _ _ he => ⟨he.2.key, he.2.name, he.2.scalar, ih he.2.value he.1⟩

theorem AlikeAt.at_depthBound (h : s.AlikeAt s' n v v') : s.AlikeAt s' s.depthBound v v' :=
  h.of_plainAt (Plain.at_depthBound ⟨n, h.plainAt⟩)

/-! Printing -/

theorem AlikeOver.nested_eq {f g : Value → String} (h : s.AlikeOver s' R v v')
    (heq : f v = g v') : nested f v = nested g v' := by
  cases h with
  | scalar _ => cases v <;> first | rfl | exact heq
  | _ => exact heq

theorem AlikeAt.nested_eq {f g : Value → String} (h : s.AlikeAt s' n v v')
    (heq : f v = g v') : nested f v = nested g v' := by
  cases n with
  | zero => exact h.elim
  | succ n => exact AlikeOver.nested_eq h heq

theorem printAt_scalar (h : v.IsScalar) : s.printAt (k + 1) v = s'.printAt (k' + 1) v := by
  cases v with
  | bool b => cases b <;> rfl
  | int n => rfl
  | str text => rfl
  | _ => exact h.elim

theorem AlikeAt.printAt_eq (h : s.AlikeAt s' n v v') (hk : n ≤ k) (hk' : n ≤ k') :
    s.printAt k v = s'.printAt k' v' := by
  induction n generalizing v v' k k' with
  | zero => exact h.elim
  | succ n ih =>
    obtain ⟨k, rfl⟩ := Nat.exists_eq_add_one.2 (Nat.lt_of_lt_of_le (Nat.succ_pos n) hk)
    obtain ⟨k', rfl⟩ := Nat.exists_eq_add_one.2 (Nat.lt_of_lt_of_le (Nat.succ_pos n) hk')
    have hinner : ∀ u u', s.AlikeAt s' n u u' →
        nested (s.printAt k) u = nested (s'.printAt k') u' := fun u u' hu =>
      hu.nested_eq (ih hu (Nat.le_of_succ_le_succ hk) (Nat.le_of_succ_le_succ hk'))
    cases h with
    | none => rfl
    | scalar hv => exact printAt_scalar hv
    | array _ _ hparts => simp only [printAt, map_eq_map_of_forall₂ hparts hinner]
    | tuple _ _ hparts =>
      have hsize := hparts.length_eq
      simp only [Array.length_toList] at hsize
      simp only [printAt, map_eq_map_of_forall₂ hparts hinner, hsize]
    | map _ _ _ hparts =>
      have hentry : ∀ e e', Entry.Alike (s.AlikeAt s' n) e e' →
          nested (s.printAt k) e.name ++ ": " ++ nested (s.printAt k) e.value =
            nested (s'.printAt k') e'.name ++ ": " ++ nested (s'.printAt k') e'.value := by
        intro e e' he
        have hname := hinner e.name e.name (he.value.scalar he.scalar)
        rw [← he.name, hname, hinner _ _ he.value]
      simp only [printAt, map_eq_map_of_forall₂ hparts hentry]

theorem AlikeAt.print_eq (h : s.AlikeAt s' n v v') : s.print v = s'.print v' := by
  rcases Nat.le_total s.depthBound s'.depthBound with hle | hle
  · exact h.at_depthBound.printAt_eq (Nat.le_refl _) hle
  · exact h.symm.at_depthBound.symm.printAt_eq hle (Nat.le_refl _)

/-! Equality -/

theorem all_zip_of_forall₂ {α β : Type} {R : α → β → Prop} {f : α × β → Bool} {xs : List α}
    {ys : List β} (h : List.Forall₂ R xs ys) (hf : ∀ x y, R x y → f (x, y) = true) :
    (xs.zip ys).all f = true := by
  induction h with
  | nil => rfl
  | cons hxy _ ih => simp only [List.zip_cons_cons, List.all_cons, hf _ _ hxy, ih, Bool.and_self]

theorem equal_tables {x y : Table} {f : Value → Value → Bool}
    (h : List.Forall₂ (Entry.Alike R) x y) (hnodup : (x.map (·.key)).Nodup)
    (hf : ∀ u u', R u u' → f u' u = true) :
    (x.length == y.length && x.all fun e =>
      match y.find? e.key with
      | some other => f other.value e.value
      | none => false) = true := by
  simp only [h.length_eq, beq_self_eq_true, Bool.true_and, List.all_eq_true]
  intro e he
  obtain ⟨e', hfind, halike⟩ := Table.find?_alike h (fun _ _ he => he.key) hnodup he
  simp only [hfind, hf _ _ halike.value]

theorem equalAt_scalar (h : v.IsScalar) : s.equalAt (k + 1) v v = true := by
  cases v with
  | bool b => exact beq_self_eq_true b
  | int n => exact beq_self_eq_true n
  | str text => exact beq_self_eq_true text
  | _ => exact h.elim

theorem AlikeAt.equalAt_eq (h : s.AlikeAt s n v v') (hk : n ≤ k) : s.equalAt k v v' = true := by
  induction n generalizing v v' k with
  | zero => exact h.elim
  | succ n ih =>
    obtain ⟨k, rfl⟩ := Nat.exists_eq_add_one.2 (Nat.lt_of_lt_of_le (Nat.succ_pos n) hk)
    have hinner : ∀ u u', s.AlikeAt s n u u' → s.equalAt k u u' = true := fun u u' hu =>
      ih hu (Nat.le_of_succ_le_succ hk)
    cases h with
    | none => rfl
    | scalar hv => exact equalAt_scalar hv
    | array _ _ hparts =>
      have hall := all_zip_of_forall₂ (f := fun p => s.equalAt k p.1 p.2) hparts hinner
      have hsize := hparts.length_eq
      simp only [Array.length_toList] at hsize
      simp only [equalAt, hsize, hall, beq_self_eq_true, Bool.and_self, Bool.or_true]
    | tuple _ _ hparts =>
      have hall := all_zip_of_forall₂ (f := fun p => s.equalAt k p.1 p.2) hparts hinner
      have hsize := hparts.length_eq
      simp only [Array.length_toList] at hsize
      simp only [equalAt, hsize, hall, beq_self_eq_true, Bool.and_self]
    | map _ _ hproper hparts =>
      have hall := equal_tables hparts hproper.nodup fun u u' hu => hinner u' u hu.symm
      simp only [equalAt, Bool.or_eq_true]
      exact .inr hall

theorem AlikeAt.equal_eq (h : s.AlikeAt s n v v') : s.equal v v' = true :=
  h.at_depthBound.equalAt_eq (Nat.le_refl _)

/-! Larger stores -/

structure Extends (s s' : Store) : Prop where
  arrays : s.arrays.toList <+: s'.arrays.toList
  tuples : s.tuples.toList <+: s'.tuples.toList
  maps : s.maps.toList <+: s'.maps.toList

namespace Extends

theorem refl (s : Store) : s.Extends s := ⟨List.prefix_rfl, List.prefix_rfl, List.prefix_rfl⟩

theorem trans (h : s.Extends s') (h' : s'.Extends t) : s.Extends t :=
  ⟨h.arrays.trans h'.arrays, h.tuples.trans h'.tuples, h.maps.trans h'.maps⟩

theorem newArray (s : Store) (xs : Array Value) : s.Extends (s.newArray xs).2 :=
  ⟨by simp [Store.newArray], List.prefix_rfl, List.prefix_rfl⟩

theorem newTuple (s : Store) (xs : Array Value) : s.Extends (s.newTuple xs).2 :=
  ⟨List.prefix_rfl, by simp [Store.newTuple], List.prefix_rfl⟩

theorem newMap (s : Store) (t : Table) : s.Extends (s.newMap t).2 :=
  ⟨List.prefix_rfl, List.prefix_rfl, by simp [Store.newMap]⟩

theorem getD {α : Type} {xs ys : Array α} (h : xs.toList <+: ys.toList) {i : Nat}
    (hi : i < xs.size) (fallback : α) :
    i < ys.size ∧ ys.getD i fallback = xs.getD i fallback := by
  obtain ⟨more, hmore⟩ := h
  obtain rfl : xs ++ more.toArray = ys := by
    apply Array.toList_inj.1
    simpa using hmore
  constructor
  · simp only [Array.size_append]
    omega
  · simp [Array.getD_eq_getD_getElem?, Array.getElem?_append_left hi]

end Extends

theorem AlikeAt.extend (h : s.AlikeAt s' n v v') (hs : s.Extends t) (hs' : s'.Extends t') :
    t.AlikeAt t' n v v' := by
  induction n generalizing v v' with
  | zero => exact h.elim
  | succ n ih =>
    cases h with
    | none => exact .none
    | scalar hv => exact AlikeOver.scalar hv
    | array hr hr' hparts =>
      obtain ⟨hin, hget⟩ := Extends.getD hs.arrays hr #[]
      obtain ⟨hin', hget'⟩ := Extends.getD hs'.arrays hr' #[]
      refine .array hin hin' ?_
      rw [array, array, hget, hget']
      exact hparts.imp fun _ _ => ih
    | tuple hr hr' hparts =>
      obtain ⟨hin, hget⟩ := Extends.getD hs.tuples hr #[]
      obtain ⟨hin', hget'⟩ := Extends.getD hs'.tuples hr' #[]
      refine .tuple hin hin' ?_
      rw [tuple, tuple, hget, hget']
      exact hparts.imp fun _ _ => ih
    | map hr hr' hproper hparts =>
      obtain ⟨hin, hget⟩ := Extends.getD hs.maps hr []
      obtain ⟨hin', hget'⟩ := Extends.getD hs'.maps hr' []
      refine .map hin hin' ?_ ?_
      · rw [map, hget]
        exact hproper
      · rw [map, map, hget, hget']
        exact hparts.imp fun _ _ he => ⟨he.key, he.name, he.scalar, ih he.value⟩

end Store

end Spellbook
