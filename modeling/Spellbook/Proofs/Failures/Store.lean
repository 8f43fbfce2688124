import Spellbook.Proofs.Evaluation.Demands

/-! What values may say of failures. Whatever was caught has a place, and an error that was not
raised is one of the script's own. A store in which this holds of every value keeps it, as the table
of failures is only added to. -/
namespace Spellbook

def Failure.IsLocated (f : Failure) : Prop := ∃ l ∈ f.location?, l.isKnown = true

def Failure.IsCustom (f : Failure) : Prop := ∃ c, f = .custom c

/-- Whatever is said where the places are known has one of them. -/
theorem Machine.Says.located {m : Machine} {f : Failure} (h : m.Says (·.isKnown = true) f) :
    f.IsLocated := by
  cases h with
  | traced name message limit details hp => exact ⟨_, if_pos hp, hp⟩
  | custom name message object limit hp => exact ⟨_, if_pos hp, hp⟩
  | reported hp hspans hprimary =>
    obtain ⟨span, hspan⟩ := Option.isSome_iff_exists.1 (hprimary hp)
    have hstart := hspans span (List.mem_append_left _ (Option.mem_toList.2 hspan))
    exact ⟨span.start, congrArg (Option.map Span.start) hspan, hstart ▸ hp⟩

/-- The code is that of some text. -/
def Code.IsRead (c : Code) : Prop := ∃ text, (parse text).program.HasCode c

def Grows (fs fs' : Array Failure) : Prop :=
  ∀ (i : Nat) f, fs[i]? = some f → fs'[i]? = some f

theorem Grows.refl (fs : Array Failure) : Grows fs fs := fun _ _ h => h

theorem Grows.trans {fs fs' fs'' : Array Failure} (h : Grows fs fs') (h' : Grows fs' fs'') :
    Grows fs fs'' :=
  fun i f hf => h' i f (h i f hf)

theorem Grows.push (fs : Array Failure) (f : Failure) : Grows fs (fs.push f) := by
  intro i g hi
  obtain ⟨hlt, _⟩ := Array.getElem?_eq_some_iff.1 hi
  rw [Array.getElem?_push, if_neg (Nat.ne_of_lt hlt), hi]

section Tables

variable {α : Type} {P : α → Prop} {xs : Array α} {x : α}

theorem forall_mem_push (hxs : ∀ y ∈ xs, P y) (hx : P x) : ∀ y ∈ xs.push x, P y := by
  intro y hy
  rcases Array.mem_push.1 hy with hy | rfl
  · exact hxs y hy
  · exact hx

theorem forall_getD (i : Nat) (hxs : ∀ y ∈ xs, P y) (hx : P x) : P (xs.getD i x) := by
  rw [Array.getD_eq_getD_getElem?]
  cases h : xs[i]? with
  | none => exact hx
  | some y => exact hxs y (Array.mem_of_getElem? h)

end Tables

namespace Store

/-- What the value says of failures is true of the store. -/
def Backs (s : Store) : Value → Prop
  | .caught r => ∃ f, s.failures[r.index]? = some f ∧ f.IsLocated
  | .error r => ∃ f, s.failures[r.index]? = some f ∧ f.IsCustom
  | _ => True

/-- Spells are those of some text. -/
def reading : Demand := ⟨fun decl => (Code.spell decl).IsRead, fun _ => True, False⟩

structure InOrder (s : Store) : Prop where
  declares : s.Declares reading
  scopes : s.scopes.AllBound fun _ v => s.Backs v
  arrays : ∀ xs ∈ s.arrays, ∀ v ∈ xs, s.Backs v
  tuples : ∀ xs ∈ s.tuples, ∀ v ∈ xs, s.Backs v
  maps : ∀ t ∈ s.maps, ∀ e ∈ t, s.Backs e.name ∧ s.Backs e.value
  objects : ∀ o ∈ s.objects, ∀ entry ∈ o.fields, s.Backs entry.2
  methods : ∀ f ∈ s.methods, s.Backs f.receiver

structure Leads (s s' : Store) : Prop where
  grows : Grows s.failures s'.failures
  inOrder : s'.InOrder

variable {s s' s'' : Store}

theorem Backs.grow {v : Value} (h : s.Backs v) (hg : Grows s.failures s'.failures) :
    s'.Backs v := by
  cases v with
  | caught r | error r =>
    obtain ⟨f, hf, hl⟩ := h
    exact ⟨f, hg _ f hf, hl⟩
  | _ => trivial

theorem Backs.located {r : Ref .failure} (h : s.Backs (.caught r)) :
    (s.failure r).IsLocated := by
  obtain ⟨f, hf, hl⟩ := h
  rwa [failure, Array.getD_eq_getD_getElem?, hf]

theorem Backs.custom {r : Ref .failure} (h : s.Backs (.error r)) : (s.failure r).IsCustom := by
  obtain ⟨f, hf, hc⟩ := h
  rwa [failure, Array.getD_eq_getD_getElem?, hf]

theorem backs_plain {v : Value} (h : Refers.refs v = []) : s.Backs v := by
  cases v with
  | caught | error => cases h
  | _ => trivial

theorem Leads.trans (h : s.Leads s') (h' : s'.Leads s'') : s.Leads s'' :=
  ⟨h.grows.trans h'.grows, h'.inOrder⟩

namespace InOrder

variable (hs : s.InOrder)

include hs

theorem refl : s.Leads s := ⟨.refl _, hs⟩

/-! What is new -/

theorem newArray {xs : Array Value} (hxs : ∀ v ∈ xs, s.Backs v) : s.Leads (s.newArray xs).2 :=
  ⟨.refl _, { hs with declares := hs.declares.of_eq rfl, arrays := forall_mem_push hs.arrays hxs }⟩

theorem newTuple {xs : Array Value} (hxs : ∀ v ∈ xs, s.Backs v) : s.Leads (s.newTuple xs).2 :=
  ⟨.refl _, { hs with declares := hs.declares.of_eq rfl, tuples := forall_mem_push hs.tuples hxs }⟩

theorem newMap {t : Table} (ht : ∀ e ∈ t, s.Backs e.name ∧ s.Backs e.value) :
    s.Leads (s.newMap t).2 :=
  ⟨.refl _, { hs with declares := hs.declares.of_eq rfl, maps := forall_mem_push hs.maps ht }⟩

theorem newObject {o : Object} (ho : ∀ entry ∈ o.fields, s.Backs entry.2) :
    s.Leads (s.newObject o).2 :=
  ⟨.refl _, { hs with declares := hs.declares.of_eq rfl, objects := forall_mem_push hs.objects ho }⟩

theorem newSpell {f : Spell} (hf : (Code.spell f.decl).IsRead) : s.Leads (s.newSpell f).2 :=
  ⟨.refl _, { hs with declares := hs.declares.newSpell hf }⟩

theorem newMethod {f : Method} (hv : s.Backs f.receiver) (hf : (Code.spell f.decl).IsRead) :
    s.Leads (s.newMethod f).2 :=
  ⟨.refl _, { hs with
    declares := hs.declares.newMethod hf, methods := forall_mem_push hs.methods hv }⟩

theorem newSpace (n : Space) : s.Leads (s.newSpace n).2 :=
  ⟨.refl _, { hs with declares := hs.declares.of_eq rfl }⟩

theorem newFailure (f : Failure) : s.Leads (s.newFailure f).2 := by
  -- Nothing but the failures has changed, so what was backed before is backed by more of them.
  have hg : Grows s.failures (s.newFailure f).2.failures := .push _ _
  exact ⟨hg, hs.declares.of_eq rfl, hs.scopes.imp fun _ _ h => h.grow hg,
    fun xs hxs v hv => (hs.arrays xs hxs v hv).grow hg,
    fun xs hxs v hv => (hs.tuples xs hxs v hv).grow hg,
    fun t ht e he => (hs.maps t ht e he).imp (·.grow hg) (·.grow hg),
    fun o ho entry he => (hs.objects o ho entry he).grow hg,
    fun f hf => (hs.methods f hf).grow hg⟩

theorem withScopes {scopes : Forest Value} (hb : scopes.AllBound fun _ v => s.Backs v) :
    s.Leads { s with scopes := scopes } :=
  ⟨.refl _, { hs with declares := hs.declares.of_eq rfl, scopes := hb }⟩

theorem openScope (parent : Ref .scope) : s.Leads (s.opened parent) :=
  hs.withScopes (hs.scopes.push parent)

theorem define (r : Ref .scope) (name : String) {v : Value} (hv : s.Backs v) :
    s.Leads { s with scopes := s.scopes.define r name v } :=
  hs.withScopes (hs.scopes.define r hv)

theorem entered {v : Value} (hv : s.Backs v) (g : Ref .grimoire) : s.Leads (s.entered v g) := by
  have hopened := hs.openScope (s.grimoire g).scope
  have hnamed := hopened.inOrder.define s.fresh "self" (hv.grow hopened.grows)
  have hstarted := hopened.trans hnamed
  unfold Store.entered Store.received
  cases ((s.opened (s.grimoire g).scope).grimoire g).parent with
  | none => exact hstarted
  | some p => exact hstarted.trans (hnamed.inOrder.define s.fresh "super" (v := .grimoire p) trivial)

/-! What is written -/

theorem setElement (r : Ref .array) (i : Nat) {v : Value} (hv : s.Backs v) :
    s.Leads (s.setElement r i v) := by
  refine ⟨.refl _, { hs with declares := hs.declares.of_eq rfl, arrays := fun xs hxs x hx => ?_ }⟩
  simp only [Store.setElement] at hxs
  rcases mem_of_mem_modify hxs with hxs | ⟨old, hold, rfl⟩
  · exact hs.arrays xs hxs x hx
  · rcases Array.mem_or_eq_of_mem_setIfInBounds hx with hx | rfl
    · exact hs.arrays old hold x hx
    · exact hv

theorem setEntry (r : Ref .map) {e : Entry} (hn : s.Backs e.name) (hv : s.Backs e.value) :
    s.Leads (s.setEntry r e) := by
  refine ⟨.refl _, { hs with declares := hs.declares.of_eq rfl, maps := fun t ht x hx => ?_ }⟩
  simp only [Store.setEntry] at ht
  rcases mem_of_mem_modify ht with ht | ⟨old, hold, rfl⟩
  · exact hs.maps t ht x hx
  · rcases Table.mem_insert hx with rfl | hx
    · exact ⟨hn, hv⟩
    · exact hs.maps old hold x hx

theorem setField (r : Ref .object) (name : String) {v : Value} (hv : s.Backs v) :
    s.Leads (s.setField r name v) := by
  refine ⟨.refl _, { hs with
    declares := hs.declares.of_eq rfl, objects := fun o ho entry he => ?_ }⟩
  simp only [Store.setField] at ho
  rcases mem_of_mem_modify ho with ho | ⟨old, hold, rfl⟩
  · exact hs.objects o ho entry he
  · rcases Bindings.mem_set he with rfl | he
    · exact hv
    · exact hs.objects old hold entry he

/-! What is read -/

theorem array (r : Ref .array) : ∀ v ∈ s.array r, s.Backs v :=
  forall_getD (P := fun xs : Array Value => ∀ v ∈ xs, s.Backs v) r.index hs.arrays
    fun _ h => nomatch h

theorem tuple (r : Ref .tuple) : ∀ v ∈ s.tuple r, s.Backs v :=
  forall_getD (P := fun xs : Array Value => ∀ v ∈ xs, s.Backs v) r.index hs.tuples
    fun _ h => nomatch h

theorem map (r : Ref .map) : ∀ e ∈ s.map r, s.Backs e.name ∧ s.Backs e.value :=
  forall_getD (P := fun t : Table => ∀ e ∈ t, s.Backs e.name ∧ s.Backs e.value) r.index hs.maps
    fun _ h => nomatch h

theorem object (r : Ref .object) : ∀ entry ∈ (s.object r).fields, s.Backs entry.2 :=
  forall_getD (P := fun o : Object => ∀ entry ∈ o.fields, s.Backs entry.2) r.index hs.objects
    fun _ h => nomatch h

theorem reads {i : Item} {v : Value} (hi : ∀ w, i = .value w → s.Backs w)
    (h : s.Yields i (.value v)) : s.Backs v := by
  cases h with
  | element hv => exact hs.array _ v hv
  | component hv => exact hs.tuple _ v hv
  | name he => exact (hs.map _ _ he).1
  | entry he => exact (hs.map _ _ he).2
  | field he => exact hs.object _ _ he
  | receiver hf => exact hs.methods _ (Array.mem_of_getElem? hf)
  | bound hv => exact hs.scopes.vars hv
  | grimoire | parent | owner | thrown | blamed => trivial
  | foreign hne =>
    -- What is backed as an error of the script's own has not been raised.
    obtain ⟨c, hc⟩ := (hi _ rfl).custom
    exact absurd hc (hne c)

end InOrder

end Store

end Spellbook
