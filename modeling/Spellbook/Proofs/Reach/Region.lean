import Spellbook.Proofs.Evaluation.Estate

/-! Regions of the store. A region has the addresses that it was given and all that have come to be
since. If nothing in it refers to what is outside, then whatever is got at from inside lies inside,
so that what is written from inside leaves the outside alone. -/
namespace Spellbook

open Refers

/-- The addresses that are given, and those from a base on. -/
structure Region where
  given : Address → Prop
  base : Cell → Nat

namespace Region

variable {α β : Type} [Refers α] [Refers β] (R : Region) {s s' s'' : Store}

def Has (s : Store) (a : Address) : Prop := R.given a ∨ (R.base a.kind ≤ a.index ∧ s.InUse a)

def Covers (s : Store) (as : List Address) : Prop := ∀ a ∈ as, R.Has s a

def Holds (s : Store) (x : α) : Prop := R.Covers s (refs x)

structure Closed (s : Store) : Prop where
  base : ∀ κ, R.base κ ≤ s.size κ
  parts : ∀ a, R.Has s a → R.Covers s (s.parts a)

/-- What may become of a store if all that is written is in the region. -/
structure Leads (s s' : Store) : Prop where
  size : ∀ κ, s.size κ ≤ s'.size κ
  closed : R.Closed s'
  same : ∀ a, a.index < R.base a.kind → ¬ R.given a → s.SameAt s' a

variable {R}

theorem Has.later {a : Address} (h : R.Has s a) (hl : ∀ κ, s.size κ ≤ s'.size κ) : R.Has s' a :=
  h.imp_right fun h => ⟨h.1, Nat.lt_of_lt_of_le h.2 (hl a.kind)⟩

theorem Covers.later {as : List Address} (h : R.Covers s as)
    (hl : ∀ κ, s.size κ ≤ s'.size κ) : R.Covers s' as :=
  fun a ha => (h a ha).later hl

theorem Holds.later {x : α} (h : R.Holds s x) (hl : R.Leads s s') : R.Holds s' x :=
  Covers.later h hl.size

theorem Leads.trans (h : R.Leads s s') (h' : R.Leads s' s'') : R.Leads s s'' where
  size κ := Nat.le_trans (h.size κ) (h'.size κ)
  closed := h'.closed
  same a ha hg := (h'.same a ha hg).trans (h.same a ha hg)

theorem Closed.refl (hs : R.Closed s) : R.Leads s s :=
  ⟨fun _ => Nat.le_refl _, hs, fun _ _ _ => rfl⟩

/-! What is held, part by part -/

theorem holds_plain {x : α} (h : refs x = []) : R.Holds s x := by
  intro a ha
  rw [h] at ha
  cases ha

theorem holds_ref {κ : Cell} {r : Ref κ} : R.Holds s r ↔ R.Has s r.address :=
  List.forall_mem_singleton

theorem holds_list {xs : List α} : R.Holds s xs ↔ ∀ x ∈ xs, R.Holds s x := by
  simp only [Holds, Covers, refs, List.mem_flatMap]
  exact ⟨fun h x hx a ha => h a ⟨x, hx, ha⟩, fun h a ⟨x, hx, ha⟩ => h x hx a ha⟩

theorem holds_array {xs : Array α} : R.Holds s xs ↔ ∀ x ∈ xs, R.Holds s x := by
  have hlist : R.Holds s xs ↔ R.Holds s xs.toList := .rfl
  rw [hlist, holds_list]
  simp only [Array.mem_toList_iff]

theorem holds_option {o : Option α} : R.Holds s o ↔ ∀ x ∈ o, R.Holds s x := by
  have hlist : R.Holds s o ↔ R.Holds s o.toList := .rfl
  rw [hlist, holds_list]
  simp only [Option.mem_toList, Option.mem_def]

theorem holds_pair {x : α} {y : β} : R.Holds s (x, y) ↔ R.Holds s x ∧ R.Holds s y :=
  List.forall_mem_append

theorem holds_nil : R.Holds s ([] : List α) := holds_plain rfl

theorem holds_scope {c : Scope Value} :
    R.Holds s c ↔ R.Holds s c.parent ∧ R.Holds s c.vars :=
  List.forall_mem_append

theorem holds_entry {e : Entry} : R.Holds s e ↔ R.Holds s e.name ∧ R.Holds s e.value :=
  List.forall_mem_append

theorem holds_grimoire {g : Grimoire} : R.Holds s g ↔ R.Holds s g.scope ∧ R.Holds s g.parent :=
  List.forall_mem_append

theorem holds_object {o : Object} : R.Holds s o ↔ R.Holds s o.grimoire ∧ R.Holds s o.fields :=
  List.forall_mem_append

theorem holds_method {f : Method} : R.Holds s f ↔ R.Holds s f.owner ∧ R.Holds s f.receiver :=
  List.forall_mem_append

theorem Holds.mem {x : α} {xs : List α} (h : R.Holds s xs) (hx : x ∈ xs) : R.Holds s x :=
  holds_list.1 h x hx

theorem Holds.get? {b : Bindings α} {name : String} {x : α} (h : R.Holds s b)
    (hx : b.get? name = some x) : R.Holds s x :=
  (holds_pair.1 (h.mem (Bindings.mem_of_get? hx))).2

theorem Holds.set {b : Bindings α} {x : α} (name : String) (h : R.Holds s b) (hx : R.Holds s x) :
    R.Holds s (b.set name x) := by
  refine holds_list.2 fun entry hentry => ?_
  rcases Bindings.mem_set hentry with rfl | hentry
  · exact holds_pair.2 ⟨holds_plain rfl, hx⟩
  · exact h.mem hentry

theorem Holds.insert {t : Table} {e : Entry} (ht : R.Holds s t) (he : R.Holds s e) :
    R.Holds s (t.insert e) := by
  refine holds_list.2 fun x hx => ?_
  rcases Table.mem_insert hx with rfl | hx
  · exact he
  · exact ht.mem hx

namespace Closed

variable (hs : R.Closed s)

include hs

theorem push (κ : Cell) {c : κ.Content} (hc : R.Covers s (κ.refs c)) :
    R.Leads s (s.withTable κ ((s.table κ).push c)) ∧
      R.Covers (s.withTable κ ((s.table κ).push c)) [⟨κ, s.size κ⟩] := by
  have hsize : ∀ κ', s.size κ' ≤ (s.withTable κ ((s.table κ).push c)).size κ' := by
    intro κ'
    rw [Store.size_push]
    exact Nat.le_add_right _ _
  refine ⟨⟨hsize, ⟨fun κ' => Nat.le_trans (hs.base κ') (hsize κ'), fun a ha => ?_⟩,
    fun a ha _ => ?_⟩, List.forall_mem_singleton.2 (.inr ⟨hs.base κ, ?_⟩)⟩
  · by_cases hnew : a = ⟨κ, s.size κ⟩
    · subst hnew
      rw [Store.parts_of_content? (s.content?_push_self c)]
      exact hc.later hsize
    · have hold : R.Has s a := by
        refine ha.imp_right fun ha => ⟨ha.1, ?_⟩
        have hlt := ha.2
        simp only [Store.InUse, Store.size_push] at hlt ⊢
        split at hlt
        · rename_i hκ
          have hne : a.index ≠ s.size a.kind := fun hi => hnew (by rw [← hκ, ← hi])
          omega
        · exact hlt
      simp only [Store.parts, s.content?_push_of_ne c hnew]
      exact (hs.parts a hold).later hsize
  · refine s.content?_push_of_ne c fun hnew => ?_
    subst hnew
    exact Nat.not_lt_of_le (hs.base κ) ha
  · simp only [Store.InUse, Store.size_push, if_true]
    exact Nat.lt_succ_self _

theorem modify {a : Address} (ha : R.Has s a) {f : a.kind.Content → a.kind.Content}
    (hf : ∀ c, R.Covers s (a.kind.refs c) → R.Covers s (a.kind.refs (f c))) :
    R.Leads s (s.withTable a.kind ((s.table a.kind).modify a.index f)) := by
  have hsize := fun κ => s.size_modify a.kind κ a.index f
  have hhas : ∀ b, R.Has (s.withTable a.kind ((s.table a.kind).modify a.index f)) b ↔
      R.Has s b := by
    intro b
    simp only [Has, Store.InUse, hsize]
  refine ⟨fun κ => (hsize κ).ge, ⟨fun κ => (hsize κ).symm ▸ hs.base κ, fun b hb => ?_⟩,
    fun b hb hg => s.content?_modify_of_ne f fun hba => ?_⟩
  · have hparts := hs.parts b ((hhas b).1 hb)
    refine Covers.later ?_ fun κ => (hsize κ).ge
    by_cases hba : b = a
    · subst hba
      simp only [Store.parts, s.content?_modify_self] at hparts ⊢
      cases hcontent : s.content? b with
      | none =>
        rw [hcontent] at hparts
        exact hparts
      | some c =>
        rw [hcontent] at hparts
        exact hf c hparts
    · simp only [Store.parts, s.content?_modify_of_ne f hba]
      exact hparts
  · subst hba
    rcases ha with ha | ha
    · exact hg ha
    · exact Nat.not_lt_of_le ha.1 hb

/-! What is new -/

theorem newArray {xs : Array Value} (hxs : R.Holds s xs) :
    R.Leads s (s.newArray xs).2 ∧ R.Holds (s.newArray xs).2 (s.newArray xs).1 :=
  hs.push .array hxs

theorem newTuple {xs : Array Value} (hxs : R.Holds s xs) :
    R.Leads s (s.newTuple xs).2 ∧ R.Holds (s.newTuple xs).2 (s.newTuple xs).1 :=
  hs.push .tuple hxs

theorem newMap {t : Table} (ht : R.Holds s t) :
    R.Leads s (s.newMap t).2 ∧ R.Holds (s.newMap t).2 (s.newMap t).1 :=
  hs.push .map ht

theorem newSpell {f : Spell} (hf : R.Holds s f) :
    R.Leads s (s.newSpell f).2 ∧ R.Holds (s.newSpell f).2 (s.newSpell f).1 :=
  hs.push .spell hf

theorem newGrimoire {g : Grimoire} (hg : R.Holds s g) :
    R.Leads s (s.newGrimoire g).2 ∧ R.Holds (s.newGrimoire g).2 (s.newGrimoire g).1 :=
  hs.push .grimoire hg

theorem newObject {o : Object} (ho : R.Holds s o) :
    R.Leads s (s.newObject o).2 ∧ R.Holds (s.newObject o).2 (s.newObject o).1 :=
  hs.push .object ho

theorem newMethod {f : Method} (hf : R.Holds s f) :
    R.Leads s (s.newMethod f).2 ∧ R.Holds (s.newMethod f).2 (s.newMethod f).1 :=
  hs.push .method hf

theorem newSpace {n : Space} (hn : R.Holds s n) :
    R.Leads s (s.newSpace n).2 ∧ R.Holds (s.newSpace n).2 (s.newSpace n).1 :=
  hs.push .space hn

theorem newFailure {f : Failure} (hf : R.Holds s f) :
    R.Leads s (s.newFailure f).2 ∧ R.Holds (s.newFailure f).2 (s.newFailure f).1 :=
  hs.push .failure hf

theorem openScope {parent : Ref .scope} (hp : R.Holds s parent) :
    R.Leads s { s with scopes := (s.scopes.push parent).2 } ∧
      R.Holds { s with scopes := (s.scopes.push parent).2 } (s.scopes.push parent).1 := by
  have hempty : R.Holds s (⟨some parent, [], []⟩ : Scope Value) :=
    holds_scope.2 ⟨holds_option.2 fun _ h => Option.some.inj h ▸ hp, holds_nil⟩
  exact hs.push .scope hempty

/-! What is written -/

theorem setElement {r : Ref .array} {v : Value} (i : Nat) (hr : R.Holds s r) (hv : R.Holds s v) :
    R.Leads s (s.setElement r i v) := by
  refine hs.modify (holds_ref.1 hr) fun xs hxs => holds_array.2 fun x hx => ?_
  rcases Array.mem_or_eq_of_mem_setIfInBounds hx with hx | rfl
  · exact holds_array.1 hxs x hx
  · exact hv

theorem setEntry {r : Ref .map} {e : Entry} (hr : R.Holds s r) (he : R.Holds s e) :
    R.Leads s (s.setEntry r e) :=
  hs.modify (holds_ref.1 hr) fun _ ht => Holds.insert ht he

theorem setField {r : Ref .object} {v : Value} (name : String) (hr : R.Holds s r)
    (hv : R.Holds s v) : R.Leads s (s.setField r name v) := by
  refine hs.modify (holds_ref.1 hr) fun o ho => holds_object.2 ?_
  have ho := holds_object.1 ho
  exact ⟨ho.1, ho.2.set name hv⟩

theorem define {r : Ref .scope} {v : Value} (name : String) (hr : R.Holds s r)
    (hv : R.Holds s v) : R.Leads s { s with scopes := s.scopes.define r name v } := by
  refine hs.modify (holds_ref.1 hr) fun c hc => holds_scope.2 ?_
  have hc := holds_scope.1 hc
  exact ⟨hc.1, hc.2.set name hv⟩

theorem declareGlobal {r : Ref .scope} (name : String) (hr : R.Holds s r) :
    R.Leads s { s with scopes := s.scopes.declareGlobal r name } := by
  have hsame : ∀ c : Scope Value, R.Holds s c → R.Holds s
      (if c.globals.contains name then c else { c with globals := name :: c.globals }) := by
    intro c hc
    split
    · exact hc
    · exact hc
  exact hs.modify (holds_ref.1 hr) hsame

/-! What is read -/

theorem read {κ : Cell} {r : Ref κ} {x : α} (hx : refs x = s.parts r.address)
    (hr : R.Holds s r) : R.Holds s x := by
  rw [Holds, hx]
  exact hs.parts _ (holds_ref.1 hr)

theorem array {r : Ref .array} (hr : R.Holds s r) : R.Holds s (s.array r) :=
  hs.read (Store.refs_array r) hr

theorem tuple {r : Ref .tuple} (hr : R.Holds s r) : R.Holds s (s.tuple r) :=
  hs.read (Store.refs_tuple r) hr

theorem map {r : Ref .map} (hr : R.Holds s r) : R.Holds s (s.map r) :=
  hs.read (Store.refs_map r) hr

theorem space {r : Ref .space} (hr : R.Holds s r) : R.Holds s (s.space r).scope :=
  hs.read (Store.refs_space r) hr

theorem failure {r : Ref .failure} (hr : R.Holds s r) : R.Holds s (s.failure r) :=
  hs.read (Store.refs_failure r) hr

theorem spell? {r : Ref .spell} {f : Spell} (hr : R.Holds s r) (h : s.spell? r = some f) :
    R.Holds s f.scope :=
  hs.read (Store.refs_spell? h) hr

theorem method? {r : Ref .method} {f : Method} (hr : R.Holds s r) (h : s.method? r = some f) :
    R.Holds s f.owner ∧ R.Holds s f.receiver :=
  holds_method.1 (hs.read (Store.refs_method? h) hr)

theorem grimoire {r : Ref .grimoire} (hr : R.Holds s r) :
    R.Holds s (s.grimoire r).scope ∧ R.Holds s (s.grimoire r).parent :=
  holds_grimoire.1 (hs.read (Store.refs_grimoire r) hr)

theorem object {r : Ref .object} (hr : R.Holds s r) :
    R.Holds s (s.object r).grimoire ∧ R.Holds s (s.object r).fields :=
  holds_object.1 (hs.read (Store.refs_object r) hr)

theorem scope {r : Ref .scope} (hr : R.Holds s r) :
    R.Holds s (s.scopes.scope r).parent ∧ R.Holds s (s.scopes.scope r).vars :=
  holds_scope.1 (hs.read (Store.refs_scope r) hr)

theorem parent {r p : Ref .scope} (hr : R.Holds s r) (h : (s.scopes.scope r).parent = some p) :
    R.Holds s p :=
  holds_option.1 (hs.scope hr).1 p h

theorem getLocal? {r : Ref .scope} {name : String} {v : Value} (hr : R.Holds s r)
    (h : s.scopes.getLocal? r name = some v) : R.Holds s v :=
  (hs.scope hr).2.get? h

end Closed

end Region

end Spellbook
