import Spellbook.Builtin
import Spellbook.Proofs.Value.Plain
import Mathlib.Data.List.Forall2
import Mathlib.Logic.Relation

/-! Equality of values without cycles. As long as no double is among their parts it is an
equivalence: containers are equal exactly if their parts are, one by one or key by key, and
everything else equals only itself. -/
namespace Spellbook

def Value.isFloat : Value → Bool
  | .float _ => true
  | _ => false

def Value.isContainer : Value → Bool
  | .array _ | .tuple _ | .map _ => true
  | _ => false

def Value.isSequence : Value → Bool
  | .array _ | .tuple _ => true
  | _ => false

namespace Table

variable {t x y : Table} {e e' : Entry} {k : Key}

theorem eq_of_key_eq (h : t.IsProper) (he : e ∈ t) (he' : e' ∈ t) (hkey : e.key = e'.key) :
    e = e' :=
  List.inj_on_of_nodup_map h.nodup he he' hkey

theorem find?_eq_some_iff (h : t.IsProper) : t.find? k = some e ↔ e ∈ t ∧ e.key = k := by
  constructor
  · intro hfind
    exact ⟨List.mem_of_find?_eq_some hfind, by simpa using List.find?_some hfind⟩
  · rintro ⟨he, rfl⟩
    cases hfind : t.find? e.key with
    | none =>
      have hnone := List.find?_eq_none.1 hfind e he
      simp at hnone
    | some found =>
      have hkey : found.key = e.key := by simpa using List.find?_some hfind
      rw [eq_of_key_eq h (List.mem_of_find?_eq_some hfind) he hkey]

theorem exists_key_of_length_eq (hx : x.IsProper) (hlength : x.length = y.length)
    (hkeys : ∀ e ∈ x, ∃ e' ∈ y, e'.key = e.key) (he : e ∈ y) : ∃ e' ∈ x, e'.key = e.key := by
  have hsubset : x.map (·.key) ⊆ y.map (·.key) := by
    intro k hk
    obtain ⟨a, ha, rfl⟩ := List.mem_map.1 hk
    obtain ⟨b, hb, heq⟩ := hkeys a ha
    exact List.mem_map.2 ⟨b, hb, heq⟩
  have hperm : (x.map (·.key)).Perm (y.map (·.key)) := by
    apply (List.subperm_of_subset hx.nodup hsubset).perm_of_length_le
    simp [hlength]
  exact List.mem_map.1 (hperm.symm.subset (List.mem_map_of_mem he))

end Table

namespace Store

variable {s : Store} {R R' : Value → Value → Prop} {a b c u v : Value} {n k : Nat}

def IsProper (s : Store) : Prop := ∀ r, (s.map r).IsProper

theorem IsProper.of_forall (h : ∀ t ∈ s.maps, t.IsProper) : s.IsProper := by
  intro r
  unfold map
  rw [Array.getD_eq_getD_getElem?]
  cases hr : s.maps[r.index]? with
  | none => exact ⟨.nil, List.forall_mem_nil _⟩
  | some t => exact h t (Array.mem_of_getElem? hr)

/-! What values are made of -/

def held (s : Store) : Value → List Value
  | .array r => (s.array r).toList
  | .tuple r => (s.tuple r).toList
  | .map r => (s.map r).map (·.value)
  | _ => []

def Holds (s : Store) (v u : Value) : Prop := u ∈ s.held v

structure Steady (s : Store) (v : Value) : Prop where
  acyclic : ∀ u, Relation.ReflTransGen s.Holds v u → ¬ Relation.TransGen s.Holds u u
  floatless : ∀ u, Relation.ReflTransGen s.Holds v u → u.isFloat = false

theorem Steady.part (h : s.Steady v) (hu : s.Holds v u) : s.Steady u :=
  ⟨fun w hw => h.acyclic w (.head hu hw), fun w hw => h.floatless w (.head hu hw)⟩

def SteadyAt (s : Store) : Nat → Value → Prop
  | 0, _ => False
  | depth + 1, v => v.isFloat = false ∧ ∀ u ∈ s.held v, s.SteadyAt depth u

theorem SteadyAt.succ (h : s.SteadyAt n v) : s.SteadyAt (n + 1) v := by
  induction n generalizing v with
  | zero => exact h.elim
  | succ n ih => exact ⟨h.1, fun u hu => ih (h.2 u hu)⟩

theorem Holds.mem_containers (h : s.Holds v u) : v ∈ s.containers := by
  have hin : ∀ {α : Type} {xs : Array α} {i : Nat} {fallback : α},
      xs.getD i fallback ≠ fallback → i < xs.size := by
    intro α xs i fallback hne
    by_contra hle
    exact hne (by simp [Array.getD, hle])
  have href : ∀ {c : Cell} {size : Nat} (r : Ref c), r.index < size → ∃ i < size, ⟨i⟩ = r :=
    fun r hr => ⟨r.index, hr, rfl⟩
  cases v with
  | array r =>
    have hne : s.array r ≠ #[] := by
      rintro hempty
      simp [Holds, held, hempty] at h
    simpa [containers] using href r (hin hne)
  | tuple r =>
    have hne : s.tuple r ≠ #[] := by
      rintro hempty
      simp [Holds, held, hempty] at h
    simpa [containers] using href r (hin hne)
  | map r =>
    have hne : s.map r ≠ [] := by
      rintro hempty
      simp [Holds, held, hempty] at h
    simpa [containers] using href r (hin hne)
  | _ => cases h

/-- The containers above a value are different ones, so it is nested no deeper than there are
others left. -/
theorem Steady.below (h : s.Steady v) {above : List Value} (hnodup : above.Nodup)
    (hin : above ⊆ s.containers) (habove : ∀ w ∈ above, Relation.TransGen s.Holds w v)
    (hn : s.containers.length < n + above.length) : s.SteadyAt n v := by
  induction n generalizing v above with
  | zero =>
    have hle := (List.subperm_of_subset hnodup hin).length_le
    omega
  | succ n ih =>
    refine ⟨h.floatless v .refl, fun u hu => ?_⟩
    have hnew : v ∉ above := fun hv => h.acyclic v .refl (habove v hv)
    apply ih (h.part hu) (List.nodup_cons.2 ⟨hnew, hnodup⟩)
    · exact List.cons_subset.2 ⟨Holds.mem_containers hu, hin⟩
    · intro w hw
      obtain rfl | hw := List.mem_cons.1 hw
      · exact .single hu
      · exact (habove w hw).tail hu
    · rw [List.length_cons]
      omega

theorem Steady.at_depthBound (h : s.Steady v) : s.SteadyAt s.depthBound v := by
  apply h.below List.nodup_nil (List.nil_subset _) (fun w hw => by cases hw)
  rw [← length_containers]
  exact Nat.lt_succ_self _

theorem SteadyAt.steady (h : s.SteadyAt n v) : s.Steady v := by
  induction n generalizing v with
  | zero => exact h.elim
  | succ n ih =>
    have hparts : ∀ u, s.Holds v u → s.Steady u := fun u hu => ih (h.2 u hu)
    refine ⟨fun u hu hcycle => ?_, fun u hu => ?_⟩
    · obtain rfl | ⟨w, hw, hu⟩ := Relation.ReflTransGen.cases_head hu
      · obtain ⟨w, hw, hback⟩ := Relation.TransGen.head'_iff.1 hcycle
        exact (hparts w hw).acyclic v hback hcycle
      · exact (hparts w hw).acyclic u hu hcycle
    · obtain rfl | ⟨w, hw, hu⟩ := Relation.ReflTransGen.cases_head hu
      · exact h.1
      · exact (hparts w hw).floatless u hu

theorem steady_iff : s.Steady v ↔ s.SteadyAt s.depthBound v :=
  ⟨Steady.at_depthBound, SteadyAt.steady⟩

instance decidableSteadyAt (s : Store) : (n : Nat) → (v : Value) → Decidable (s.SteadyAt n v)
  | 0, _ => .isFalse id
  | n + 1, v =>
    have := s.decidableSteadyAt n
    inferInstanceAs (Decidable (v.isFloat = false ∧ ∀ u ∈ s.held v, s.SteadyAt n u))

instance decidableSteady (s : Store) (v : Value) : Decidable (s.Steady v) :=
  decidable_of_iff' _ steady_iff

theorem truthy_container (h : v.isContainer = true) :
    s.truthy v = ((s.held v).length != 0) := by
  cases v with
  | array r => rfl
  | tuple r => rfl
  | map r => cases hmap : s.map r <;> simp [truthy, held, hmap]
  | _ => cases h

theorem lengthOf_container (h : v.isContainer = true) :
    Builtin.lengthOf v s = .ok (.ofNat (s.held v).length) s := by
  cases v with
  | array r => rfl
  | tuple r => rfl
  | map r => simp only [held, List.length_map]; rfl
  | _ => cases h

/-! Equality one level down -/

/-- The values are one and the same, or containers of one kind with related parts. -/
inductive EqualOver (s : Store) (R : Value → Value → Prop) : Value → Value → Prop where
  | same {v : Value} (hv : v.isContainer = false) : EqualOver s R v v
  | array {x y : Ref .array} (hparts : List.Forall₂ R (s.array x).toList (s.array y).toList) :
    EqualOver s R (.array x) (.array y)
  | tuple {x y : Ref .tuple} (hparts : List.Forall₂ R (s.tuple x).toList (s.tuple y).toList) :
    EqualOver s R (.tuple x) (.tuple y)
  | map {x y : Ref .map} (hlength : (s.map x).length = (s.map y).length)
    (hparts : ∀ e ∈ s.map x, ∃ e' ∈ s.map y, e'.key = e.key ∧ R e'.value e.value) :
    EqualOver s R (.map x) (.map y)

theorem all_zip_iff {α : Type} {f : α → α → Bool} {xs ys : Array α} :
    (xs.size == ys.size && (xs.toList.zip ys.toList).all fun (x, y) => f x y) = true ↔
      List.Forall₂ (fun x y => f x y = true) xs.toList ys.toList := by
  simp [List.forall₂_iff_zip]

theorem equalAt_self (h : s.SteadyAt n v) : s.equalAt n v v = true := by
  induction n generalizing v with
  | zero => exact h.elim
  | succ n ih =>
    cases v with
    | tuple r =>
      simp only [equalAt, all_zip_iff]
      exact List.forall₂_same.2 fun u hu => ih (h.2 u hu)
    | float x => cases h.1
    | _ => simp [equalAt]

theorem EqualOver.refl (h : ∀ u ∈ s.held v, R u u) : s.EqualOver R v v := by
  cases v with
  | array r => exact .array (List.forall₂_same.2 h)
  | tuple r => exact .tuple (List.forall₂_same.2 h)
  | map r => exact .map rfl fun e he => ⟨e, he, rfl, h e.value (List.mem_map_of_mem he)⟩
  | _ => exact .same rfl

theorem equalAt_tuple_iff {x y : Ref .tuple} :
    s.equalAt (n + 1) (.tuple x) (.tuple y) = true ↔
      List.Forall₂ (fun u v => s.equalAt n u v = true) (s.tuple x).toList (s.tuple y).toList := by
  simp only [equalAt, all_zip_iff]

theorem equalAt_array_iff {x y : Ref .array} :
    s.equalAt (n + 1) (.array x) (.array y) = true ↔ x = y ∨
      List.Forall₂ (fun u v => s.equalAt n u v = true) (s.array x).toList (s.array y).toList := by
  simp only [equalAt, Bool.or_eq_true, beq_iff_eq, all_zip_iff]

theorem equalAt_map_iff (hs : s.IsProper) {x y : Ref .map} :
    s.equalAt (n + 1) (.map x) (.map y) = true ↔ x = y ∨
      (s.map x).length = (s.map y).length ∧ ∀ e ∈ s.map x, ∃ e' ∈ s.map y,
        e'.key = e.key ∧ s.equalAt n e'.value e.value = true := by
  simp only [equalAt, Bool.or_eq_true, beq_iff_eq, Bool.and_eq_true, List.all_eq_true]
  refine or_congr_right (and_congr_right fun _ => forall₂_congr fun e _ => ?_)
  cases hfind : (s.map y).find? e.key with
  | none =>
    have hnone : ∀ e' ∈ s.map y, e'.key ≠ e.key := by
      simpa [Table.find?] using hfind
    simpa using fun e' he' hkey => absurd hkey (hnone e' he')
  | some found =>
    obtain ⟨hmem, hkey⟩ := (Table.find?_eq_some_iff (hs y)).1 hfind
    constructor
    · exact fun h => ⟨found, hmem, hkey, h⟩
    · rintro ⟨e', he', hkey', h⟩
      rwa [Table.eq_of_key_eq (hs y) hmem he' (hkey.trans hkey'.symm)]

theorem equalAt_single_iff (h : a.isContainer = false ∨ b.isContainer = false)
    (ha : a.isFloat = false) (hb : b.isFloat = false) : s.equalAt (n + 1) a b = true ↔ a = b := by
  cases a <;> cases b <;> simp_all [equalAt, Value.isContainer, Value.isFloat]

theorem equalAt_succ_iff (hs : s.IsProper) (ha : s.SteadyAt (n + 1) a)
    (hb : s.SteadyAt (n + 1) b) :
    s.equalAt (n + 1) a b = true ↔ s.EqualOver (fun u v => s.equalAt n u v = true) a b := by
  have hself : s.EqualOver (fun u v => s.equalAt n u v = true) a a :=
    .refl fun u hu => equalAt_self (ha.2 u hu)
  constructor
  · intro h
    by_cases hsingle : a.isContainer = false ∨ b.isContainer = false
    · obtain rfl := (equalAt_single_iff hsingle ha.1 hb.1).1 h
      exact hself
    cases a <;> cases b <;>
      simp only [Value.isContainer, reduceCtorEq, or_true, true_or, not_true_eq_false] at hsingle
    case array.array x y =>
      obtain rfl | hparts := equalAt_array_iff.1 h
      · exact hself
      · exact .array hparts
    case tuple.tuple x y => exact .tuple (equalAt_tuple_iff.1 h)
    case map.map x y =>
      obtain rfl | hparts := (equalAt_map_iff hs).1 h
      · exact hself
      · exact .map hparts.1 hparts.2
    all_goals cases h
  · intro h
    cases h with
    | same hv => exact equalAt_self ha
    | array hparts => exact equalAt_array_iff.2 (.inr hparts)
    | tuple hparts => exact equalAt_tuple_iff.2 hparts
    | map hlength hparts => exact (equalAt_map_iff hs).2 (.inr ⟨hlength, hparts⟩)

/-! Equivalence -/

theorem forall₂_imp_of_mem {P : Value → Prop} {xs ys : List Value} (h : List.Forall₂ R xs ys)
    (hx : ∀ u ∈ xs, P u) (hy : ∀ v ∈ ys, P v) (himp : ∀ u v, P u → P v → R u v → R' u v) :
    List.Forall₂ R' xs ys := by
  induction h with
  | nil => exact .nil
  | cons hR _ ih =>
    obtain ⟨hu, hx⟩ := List.forall_mem_cons.1 hx
    obtain ⟨hv, hy⟩ := List.forall_mem_cons.1 hy
    exact .cons (himp _ _ hu hv hR) (ih hx hy)

theorem forall₂_comp {xs ys zs : List Value} (h : List.Forall₂ R xs ys)
    (h' : List.Forall₂ R ys zs) : List.Forall₂ (fun u w => ∃ v ∈ ys, R u v ∧ R v w) xs zs := by
  induction h generalizing zs with
  | nil =>
    cases h'
    exact .nil
  | @cons u v _ ys hR _ ih =>
    cases h' with
    | cons hR' h' =>
      refine .cons ⟨v, List.mem_cons_self, hR, hR'⟩ ((ih h').imp ?_)
      rintro u w ⟨v', hv', hR⟩
      exact ⟨v', List.mem_cons_of_mem _ hv', hR⟩

namespace EqualOver

theorem imp_of_parts {P : Value → Prop} (h : s.EqualOver R a b) (ha : ∀ u ∈ s.held a, P u)
    (hb : ∀ u ∈ s.held b, P u) (himp : ∀ u v, P u → P v → R u v → R' u v) :
    s.EqualOver R' a b := by
  cases h with
  | same hv => exact .same hv
  | array hparts => exact .array (forall₂_imp_of_mem hparts ha hb himp)
  | tuple hparts => exact .tuple (forall₂_imp_of_mem hparts ha hb himp)
  | map hlength hparts =>
    refine .map hlength fun e he => ?_
    obtain ⟨e', he', hkey, hR⟩ := hparts e he
    have hleft := hb e'.value (List.mem_map_of_mem he')
    exact ⟨e', he', hkey, himp _ _ hleft (ha e.value (List.mem_map_of_mem he)) hR⟩

/-- Maps are compared in one direction only, but as they have the same number of keys it does not
matter in which. -/
theorem flip (hs : s.IsProper) (h : s.EqualOver R a b) : s.EqualOver (fun u v => R v u) b a := by
  cases h with
  | same hv => exact .same hv
  | array hparts => exact .array hparts.flip
  | tuple hparts => exact .tuple hparts.flip
  | @map x y hlength hparts =>
    refine .map hlength.symm fun e he => ?_
    have hkeys : ∀ e ∈ s.map x, ∃ e' ∈ s.map y, e'.key = e.key := fun e he =>
      let ⟨e', he', hkey, _⟩ := hparts e he
      ⟨e', he', hkey⟩
    obtain ⟨e', he', hkey'⟩ := Table.exists_key_of_length_eq (hs x) hlength hkeys he
    obtain ⟨found, hfound, hkey, hR⟩ := hparts e' he'
    obtain rfl := Table.eq_of_key_eq (hs y) hfound he (hkey.trans hkey')
    exact ⟨e', he', hkey', hR⟩

theorem comp (h : s.EqualOver R a b) (h' : s.EqualOver R b c) :
    s.EqualOver (fun u w => ∃ v ∈ s.held b, R u v ∧ R v w) a c := by
  cases h with
  | same hv =>
    cases h' with
    | same _ => exact .same hv
    | _ => cases hv
  | array hparts =>
    cases h' with
    | same hv => cases hv
    | array hparts' => exact .array (forall₂_comp hparts hparts')
  | tuple hparts =>
    cases h' with
    | same hv => cases hv
    | tuple hparts' => exact .tuple (forall₂_comp hparts hparts')
  | map hlength hparts =>
    cases h' with
    | same hv => cases hv
    | map hlength' hparts' =>
      refine .map (hlength.trans hlength') fun e he => ?_
      obtain ⟨e', he', hkey, hR⟩ := hparts e he
      obtain ⟨e'', he'', hkey', hR'⟩ := hparts' e' he'
      exact ⟨e'', he'', hkey'.trans hkey, e'.value, List.mem_map_of_mem he', hR', hR⟩

theorem typeName_eq (h : s.EqualOver R a b) : a.typeName = b.typeName := by
  cases h <;> rfl

theorem length_held (h : s.EqualOver R a b) : a = b ∨
    a.isContainer = true ∧ b.isContainer = true ∧ (s.held a).length = (s.held b).length := by
  cases h with
  | same hv => exact .inl rfl
  | array hparts => exact .inr ⟨rfl, rfl, hparts.length_eq⟩
  | tuple hparts => exact .inr ⟨rfl, rfl, hparts.length_eq⟩
  | map hlength hparts => exact .inr ⟨rfl, rfl, by simpa [held] using hlength⟩

theorem truthy_eq (h : s.EqualOver R a b) : s.truthy a = s.truthy b := by
  obtain rfl | ⟨ha, hb, hlength⟩ := h.length_held
  · rfl
  · rw [truthy_container ha, truthy_container hb, hlength]

theorem lengthOf_eq (h : s.EqualOver R a b) : Builtin.lengthOf a s = Builtin.lengthOf b s := by
  obtain rfl | ⟨ha, hb, hlength⟩ := h.length_held
  · rfl
  · rw [lengthOf_container ha, lengthOf_container hb, hlength]

end EqualOver

theorem equalAt_symm (hs : s.IsProper) (ha : s.SteadyAt n a) (hb : s.SteadyAt n b)
    (h : s.equalAt n a b = true) : s.equalAt n b a = true := by
  induction n generalizing a b with
  | zero => exact ha.elim
  | succ n ih =>
    have hover := ((equalAt_succ_iff hs ha hb).1 h).flip hs
    apply (equalAt_succ_iff hs hb ha).2
    exact hover.imp_of_parts hb.2 ha.2 fun u v hu hv huv => ih hv hu huv

theorem equalAt_trans (hs : s.IsProper) (ha : s.SteadyAt n a) (hb : s.SteadyAt n b)
    (hc : s.SteadyAt n c) (h : s.equalAt n a b = true) (h' : s.equalAt n b c = true) :
    s.equalAt n a c = true := by
  induction n generalizing a b c with
  | zero => exact ha.elim
  | succ n ih =>
    have hover := ((equalAt_succ_iff hs ha hb).1 h).comp ((equalAt_succ_iff hs hb hc).1 h')
    apply (equalAt_succ_iff hs ha hc).2
    refine hover.imp_of_parts ha.2 hc.2 fun u w hu hw => ?_
    rintro ⟨v, hv, huv, hvw⟩
    exact ih hu (hb.2 v hv) hw huv hvw

theorem equalAt_succ (hs : s.IsProper) (ha : s.SteadyAt n a) (hb : s.SteadyAt n b) :
    s.equalAt (n + 1) a b = true ↔ s.equalAt n a b = true := by
  induction n generalizing a b with
  | zero => exact ha.elim
  | succ n ih =>
    rw [equalAt_succ_iff hs ha hb, equalAt_succ_iff hs ha.succ hb.succ]
    constructor
    · exact fun h => h.imp_of_parts ha.2 hb.2 fun u v hu hv huv => (ih hu hv).1 huv
    · exact fun h => h.imp_of_parts ha.2 hb.2 fun u v hu hv huv => (ih hu hv).2 huv

/-! Equality at any depth -/

/-- Comparing the two gives true. -/
def Equals (s : Store) (a b : Value) : Prop := Operator.equal.apply a b s = .ok (.bool true) s

theorem equal_iff (hs : s.IsProper) (ha : s.Steady a) (hb : s.Steady b) :
    s.equal a b = true ↔ s.EqualOver (fun u v => s.equal u v = true) a b := by
  rw [equal, ← equalAt_succ hs ha.at_depthBound hb.at_depthBound]
  exact equalAt_succ_iff hs ha.at_depthBound.succ hb.at_depthBound.succ

theorem applyEquality_of_comparable (h : Operator.comparable a b = true) :
    Operator.equal.apply a b s = .ok (.bool (s.equal a b)) s := by
  unfold Operator.apply Operator.applyEquality
  rw [if_pos h]
  rfl

theorem comparable_of_typeName_eq (h : a.typeName = b.typeName) :
    Operator.comparable a b = true := by
  have hsame : a.sameType b = true := beq_iff_eq.2 h
  unfold Operator.comparable
  split <;> first | rfl | exact hsame

theorem equals_iff (hs : s.IsProper) (ha : s.Steady a) (hb : s.Steady b) :
    s.Equals a b ↔ s.equal a b = true := by
  unfold Equals
  cases hcomparable : Operator.comparable a b with
  | true =>
    rw [applyEquality_of_comparable hcomparable]
    simp
  | false =>
    have hrefused : Operator.equal.apply a b s = .error (Operator.equal.refusal a b) s := by
      unfold Operator.apply Operator.applyEquality
      rw [hcomparable]
      rfl
    rw [hrefused]
    refine iff_of_false nofun fun hequal => ?_
    have htype := ((equal_iff hs ha hb).1 hequal).typeName_eq
    rw [comparable_of_typeName_eq htype] at hcomparable
    cases hcomparable

theorem equals_iff_over (hs : s.IsProper) (ha : s.Steady a) (hb : s.Steady b) :
    s.Equals a b ↔ s.EqualOver s.Equals a b := by
  have hparts : ∀ {v : Value}, s.Steady v → ∀ u ∈ s.held v, s.Steady u :=
    fun hv _ hu => hv.part hu
  rw [equals_iff hs ha hb, equal_iff hs ha hb]
  constructor
  · intro h
    exact h.imp_of_parts (hparts ha) (hparts hb) fun u v hu hv => (equals_iff hs hu hv).2
  · intro h
    exact h.imp_of_parts (hparts ha) (hparts hb) fun u v hu hv => (equals_iff hs hu hv).1

theorem equals_refl (hs : s.IsProper) (ha : s.Steady a) : s.Equals a a :=
  (equals_iff hs ha ha).2 (equalAt_self ha.at_depthBound)

theorem equals_symm (hs : s.IsProper) (ha : s.Steady a) (hb : s.Steady b) (h : s.Equals a b) :
    s.Equals b a :=
  (equals_iff hs hb ha).2
    (equalAt_symm hs ha.at_depthBound hb.at_depthBound ((equals_iff hs ha hb).1 h))

theorem equals_trans (hs : s.IsProper) (ha : s.Steady a) (hb : s.Steady b) (hc : s.Steady c)
    (h : s.Equals a b) (h' : s.Equals b c) : s.Equals a c := by
  rw [equals_iff hs ha hb] at h
  rw [equals_iff hs hb hc] at h'
  rw [equals_iff hs ha hc]
  exact equalAt_trans hs ha.at_depthBound hb.at_depthBound hc.at_depthBound h h'

theorem isIn_sequence (h : b.isSequence = true) : Operator.isIn.apply a b s =
    .ok (.bool ((s.held b).any fun v => s.equal v a)) s := by
  cases b with
  | array r => simp only [held, Array.any_toList]; rfl
  | tuple r => simp only [held, Array.any_toList]; rfl
  | _ => cases h

theorem isIn_iff (hs : s.IsProper) (ha : s.Steady a) (hb : s.Steady b)
    (hseq : b.isSequence = true) :
    Operator.isIn.apply a b s = .ok (.bool true) s ↔ ∃ v ∈ s.held b, s.Equals a v := by
  rw [isIn_sequence hseq]
  simp only [EStateM.Result.ok.injEq, Value.bool.injEq, and_true, List.any_eq_true]
  refine exists_congr fun v => and_congr_right fun hv => ?_
  rw [← equals_iff hs (hb.part hv) ha]
  exact ⟨equals_symm hs (hb.part hv) ha, equals_symm hs ha (hb.part hv)⟩

/-- Equality is an equivalence of values without cycles and doubles. Containers are equal exactly if
their parts are, all else is equal to itself only, and equal values are no different in truth or
length. -/
theorem equality_equivalence (hs : s.IsProper) :
    Equivalence (fun a b : { v : Value // s.Steady v } => s.Equals a b) ∧
    ∀ a b, s.Steady a → s.Steady b →
      (s.Equals a b ↔ s.EqualOver s.Equals a b) ∧
      (b.isSequence = true →
        (Operator.isIn.apply a b s = .ok (.bool true) s ↔ ∃ v ∈ s.held b, s.Equals a v)) ∧
      (s.Equals a b →
        s.truthy a = s.truthy b ∧ Builtin.lengthOf a s = Builtin.lengthOf b s) := by
  refine ⟨⟨fun a => ?_, fun {a b} h => ?_, fun {a b c} h h' => ?_⟩, fun a b ha hb => ⟨?_, ?_, ?_⟩⟩
  · exact equals_refl hs a.2
  · exact equals_symm hs a.2 b.2 h
  · exact equals_trans hs a.2 b.2 c.2 h h'
  · exact equals_iff_over hs ha hb
  · exact isIn_iff hs ha hb
  · intro h
    have hover := (equals_iff_over hs ha hb).1 h
    exact ⟨hover.truthy_eq, hover.lengthOf_eq⟩

/-- Two arrays with the same content that share nothing but a spell. A third has one of them as an
element. -/
def paired : Store :=
  let table : Table := [⟨.bool true, .bool true, .none⟩, ⟨.str "k", .str "k", .spell ⟨0⟩⟩]
  { Store.empty with
    arrays := #[#[.int 1, .tuple ⟨0⟩], #[.int 1, .tuple ⟨1⟩], #[.str "", .array ⟨1⟩]]
    tuples := #[#[.str "x", .map ⟨0⟩], #[.str "x", .map ⟨1⟩]]
    maps := #[table, table] }

theorem isProper_paired : paired.IsProper := by
  have hpairs : Table.ofPairs [(.str "k", .spell ⟨0⟩), (.bool true, .none)] =
      .ok (paired.map ⟨0⟩) := rfl
  have hproper := Table.isProper_ofPairs hpairs
  apply IsProper.of_forall
  intro t ht
  obtain rfl | rfl : t = paired.map ⟨0⟩ ∨ t = paired.map ⟨1⟩ := by
    simpa [paired, map] using ht
  · exact hproper
  · exact hproper

theorem equality_equivalence_paired :
    paired.Equals (.array ⟨1⟩) (.array ⟨0⟩) ∧
    Operator.isIn.apply (.array ⟨0⟩) (.array ⟨2⟩) paired = .ok (.bool true) paired ∧
    Builtin.lengthOf (.array ⟨0⟩) paired = Builtin.lengthOf (.array ⟨1⟩) paired ∧
    ¬ paired.Equals (.array ⟨0⟩) (.array ⟨2⟩) := by
  have hfirst : paired.Steady (.array ⟨0⟩) := by decide
  have hsecond : paired.Steady (.array ⟨1⟩) := by decide
  have hthird : paired.Steady (.array ⟨2⟩) := by decide
  have hequals : paired.Equals (.array ⟨0⟩) (.array ⟨1⟩) :=
    (equals_iff isProper_paired hfirst hsecond).2 (by decide)
  obtain ⟨hequivalence, hlaws⟩ := equality_equivalence isProper_paired
  have hsymm := hequivalence.symm (x := ⟨_, hfirst⟩) (y := ⟨_, hsecond⟩) hequals
  obtain ⟨-, hin, -⟩ := hlaws _ _ hfirst hthird
  obtain ⟨-, -, hsame⟩ := hlaws _ _ hfirst hsecond
  refine ⟨hsymm, (hin rfl).2 ⟨.array ⟨1⟩, by decide, hequals⟩, (hsame hequals).2, ?_⟩
  rw [equals_iff isProper_paired hfirst hthird]
  decide

end Store

end Spellbook
