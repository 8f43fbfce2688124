import Spellbook.Proofs.Evaluation.Rules
import Spellbook.Proofs.Program.Code

/-! Everything that the rules of evaluation do by themselves, without evaluating a part, abides by a
logic that admits the state, if failures may speak of its place and its names may be bound. -/
namespace Spellbook

open Bearing Estate

/-! Failures and what they were raised from -/

theorem Failure.mem_items {f : Failure} {o : Ref .object} (h : f.object? = some o) :
    .value (.object o) ∈ items f := by
  cases f with
  | custom c =>
    have h : c.object = some o := h
    simp [items, chain, object?, h]
  | plain | traced | reported => cases h

namespace Estate

variable {L : Estate} {s : Store}

theorem knows_custom {c : Custom} : L.Knows s (Failure.custom c) ↔ L.Knows s c.object := by
  have hitems : items (Failure.custom c) = items c.object := by
    cases h : c.object <;> simp [items, Failure.chain, Failure.object?, h]
  simp only [Knows, hitems]

theorem knows_traced {name message : String} {location : Location} {cause : Option Failure}
    {stack : List Frame} {details : List (String × String)} :
    L.Knows s (Failure.traced ⟨name, message, location, cause, stack, details⟩) ↔
      L.Knows s cause := by
  have hitems : items (Failure.traced ⟨name, message, location, cause, stack, details⟩) =
      items cause := by
    cases cause with
    | none => rfl
    | some f =>
      simp only [items, Failure.chain, Traced.causes, Failure.causeChain, List.filterMap_cons,
        Failure.object?, Option.toList_some, List.flatMap_cons, List.flatMap_nil, List.append_nil]
  simp only [Knows, hitems]

theorem knows_reported {r : Report} (hc : r.cause = none) : L.Knows s (Failure.reported r) := by
  obtain ⟨_, _, _, _, _, _, _, _, _, cause, _, _⟩ := r
  obtain rfl : cause = none := hc
  exact knows_nothing rfl

/-- What was caught was raised from objects that are known. -/
theorem thrown {r : Ref .failure} (hs : L.Leads s s) (hr : L.Knows s r) :
    L.Knows s (s.failure r) := by
  intro i hi
  obtain ⟨o, _, ho⟩ := List.mem_flatMap.1 hi
  obtain rfl := List.mem_singleton.1 ho
  exact L.reads hs (knows_value (v := .caught r).1 hr) (.thrown hi)

theorem thrower {r : Ref .failure} {o : Ref .object} (hs : L.Leads s s) (hr : L.Knows s r)
    (ho : (s.failure r).object? = some o) : L.Knows s o :=
  knows_value.2 (L.reads hs (knows_value (v := .caught r).1 hr) (.thrown (Failure.mem_items ho)))

theorem blamed {r : Ref .failure} {o : Ref .object} (hs : L.Leads s s)
    (hr : L.Knows s (Value.error r)) (ho : (s.failure r).object? = some o) : L.Knows s o :=
  knows_value.2 (L.reads hs (knows_value.1 hr) (.blamed (Failure.mem_items ho)))

end Estate

theorem Eval.lookup_ok {w : World} {id : Ident} {v : Value} {m m' : Machine}
    (h : lookup w id m = .ok v m') : m' = m ∧ m.store.scopes.get? m.scope id.name = some v := by
  simp only [lookup, get?, look, Bind.bind, EStateM.bind] at h
  cases hv : m.store.scopes.get? m.scope id.name with
  | none =>
    rw [hv] at h
    cases h
  | some v' =>
    rw [hv] at h
    cases h
    exact ⟨rfl, rfl⟩

theorem Evaluator.parentOf_ok {w : World} {parent : Option Ident}
    {found : Option (Ref .grimoire)} {m m' : Machine}
    (h : Evaluator.parentOf w parent m = .ok found m') :
    m' = m ∧ (found = none → parent = none) := by
  cases parent with
  | none =>
    cases h
    exact ⟨rfl, fun _ => rfl⟩
  | some id =>
    simp only [Evaluator.parentOf, Bind.bind, EStateM.bind] at h
    cases hv : Eval.lookup w id m with
    | error e m₁ =>
      rw [hv] at h
      cases h
    | ok v m₁ =>
      obtain ⟨rfl, _⟩ := Eval.lookup_ok hv
      rw [hv] at h
      cases v with
      | grimoire r =>
        cases h
        exact ⟨rfl, fun h => by cases h⟩
      | _ => cases h

/-! What handlers bind -/

def Machine.define (m : Machine) (name : String) (v : Value) : Machine :=
  { m with store := { m.store with scopes := m.store.scopes.define m.scope name v } }

/-- The name that a handler would bind to what it catches: its condition, if that is a name and
means nothing. -/
def Ensnare.fresh? (h : Ensnare) (m : Machine) : Option String :=
  (h.condition.bind Expr.name?).filter fun name => (m.store.scopes.get? m.scope name).isNone

theorem Ensnare.mem_names_of_fresh? {h : Ensnare} {m : Machine} {name : String}
    (hn : h.fresh? m = some name) : name ∈ h.names := by
  obtain ⟨hname, _⟩ := Option.filter_eq_some_iff.1 hn
  obtain ⟨e, he, hname⟩ := Option.bind_eq_some_iff.1 hname
  exact List.mem_append_left _ (List.mem_filterMap.2 ⟨e, Option.mem_toList.2 he, hname⟩)

theorem Evaluator.catchAll?_eq (h : Ensnare) (m : Machine) :
    Evaluator.catchAll? h m = .ok (h.fresh? m) m := by
  obtain ⟨pos, condition, binder, body⟩ := h
  cases condition with
  | none => rfl
  | some e =>
    cases e with
    | name id =>
      cases hv : m.store.scopes.get? m.scope id.name <;>
        simp [Evaluator.catchAll?, Ensnare.fresh?, Eval.get?, Eval.look, Bind.bind, EStateM.bind,
          Pure.pure, EStateM.pure, Expr.name?, Option.filter, hv]
    | _ => rfl

/-- The names that a handler binds to what it catches. -/
def Ensnare.binds (h : Ensnare) (m : Machine) : List String :=
  (h.fresh? m).toList ++ h.binder.toList.map (·.name)

/-- The state in which the body of a handler starts. -/
def Ensnare.prepared (h : Ensnare) (failure : Ref .failure) (m : Machine) : Machine :=
  (h.binds m).foldl (fun m name => m.define name (.caught failure)) m

theorem Evaluator.handle_eq (E : Evaluator) (h : Ensnare) (failure : Ref .failure) (m : Machine) :
    E.handle h failure m = E.block h.body (h.prepared failure m) := by
  simp only [Evaluator.handle, Bind.bind, EStateM.bind, Evaluator.catchAll?_eq, Ensnare.prepared,
    Ensnare.binds]
  cases h.fresh? m <;> cases h.binder <;> rfl

/-! What methods know -/

theorem Evaluator.bindReceiver_eq (receiver : Receiver) (m : Machine) :
    bindReceiver (some receiver) m = .ok ()
      { m with store := m.store.received m.scope receiver.value receiver.owner } := by
  have hparent : ∀ f : Forest Value, (Store.grimoire { m.store with scopes := f }
      receiver.owner).parent = (m.store.grimoire receiver.owner).parent := fun _ => rfl
  simp only [bindReceiver, Store.received, Eval.define, Eval.changeScopes, Eval.change, Eval.look,
    Eval.view, Bind.bind, EStateM.bind, Eval.modify_eq, hparent]
  cases (m.store.grimoire receiver.owner).parent <;> rfl

theorem Evaluator.invokeMethod_eq (E : Evaluator) (start : Start) {decl : SpellDecl}
    (receiver : Receiver) (args : List Value) (m : Machine) (ha : decl.arcane = false) :
    E.invokeMethod start decl receiver args m =
      Eval.bracket (fun m => (m.scope, m.owner)) (·.receiving receiver.value receiver.owner)
        (fun saved m => { m with scope := saved.1, owner := saved.2 })
        (E.spell start decl args) m := by
  simp only [invokeMethod, invoke, ha, Bool.false_eq_true, if_false, Eval.view, Eval.push,
    Eval.create, Eval.inScope, Eval.ownedBy, Eval.bracket, Bind.bind, EStateM.bind,
    Option.map_some, bindReceiver_eq]
  unfold Machine.receiving Store.entered Store.opened Store.fresh
  dsimp only [Forest.push_fst]
  cases E.spell start decl args _ <;> rfl

namespace Abides

variable {ι α : Type} [Bearing α] {L : Logic ι} {m : Machine} {w : World}

/-! Names -/

section Places

variable (hm : L.Admits m)

include hm

theorem lookup {id : Ident} (hp : L.place (m.located id.pos)) :
    Abides L (fun _ => Eval.lookup w id) m := by
  refine .look _ ?_
  split
  · rename_i v hv
    exact .pure hm.orderly (get? hm.orderly hm.scope hv)
  · exact .fail _ hm.toSuits hp

theorem define {name : String} {v : Value} (hv : L.Knows m.store v)
    (hb : L.binds m.store m.scope name v) : Abides L (fun _ => Eval.define name v) m :=
  .look _ (.change (L.define hm.orderly (knows_scope.1 hm.scope) (knows_value.1 hv) hb))

theorem assign {name : String} {v : Value} (hv : L.Knows m.store v)
    (hb : L.binds m.store m.scope name v) : Abides L (fun _ => Eval.assign name v) m := by
  have hscope := knows_scope.1 hm.scope
  refine .look _ (.change (L.define hm.orderly ?_ (knows_value.1 hv) (L.home hm.orderly hscope hb)))
  exact knows_scope.1 (assigned hm.orderly name hm.scope)

/-! Attributes -/

theorem checkAccess {id : Ident} (hp : L.place (m.located id.pos)) (owner : Ref .grimoire) :
    Abides L (fun _ => Eval.checkAccess w id owner) m := by
  refine .look _ ?_
  split
  · exact .fail _ hm.toSuits hp
  · exact .pure hm.orderly (knows_nothing rfl)

theorem bound {receiver : Value} {id : Ident} {found : SpellDecl × Ref .grimoire}
    (hp : L.place (m.located id.pos)) (hv : L.Knows m.store receiver)
    (ho : L.Knows m.store found.2) (hs : L.spell found.1)
    (hr : L.receives m.store receiver found.2 found.1) :
    Abides L (fun _ => Eval.bound w receiver id found) m := by
  refine (checkAccess hm hp found.2).bind fun _ m' h _ => .create ?_
  refine (L.newMethod h.orderly ?_ ?_ hs ?_).imp_right knows_value.2
  · exact L.later (knows_value.1 hv) h.leads
  · exact L.later (knows_value (v := .grimoire found.2).1 ho) h.leads
  · exact L.receives_later h.leads (knows_value.1 hv) (knows_value (v := .grimoire found.2).1 ho) hr

theorem member {r : Ref .object} {id : Ident} (hp : L.place (m.located id.pos))
    (hr : L.Knows m.store r) : Abides L (fun _ => Eval.member w r id) m := by
  refine .view _ ?_
  split
  · rename_i v hv
    exact .pure hm.orderly (field? hm.orderly hr hv)
  · refine .view _ (.view _ ?_)
    split
    · rename_i found hfound
      have howner := lineage hm.orderly (object hm.orderly hr)
        (m.store.mem_lineage_of_findMethod? hfound)
      have hreceiver : L.Knows m.store (Value.object r) := hr
      exact .bound hm hp hreceiver howner (L.ofGrimoire hm.orderly hfound).1
        (L.ofObject hm.orderly (knows_value (v := .object r).1 hr) hfound)
    · exact .view _ (.fail _ hm.toSuits hp)

theorem unbound {r : Ref .grimoire} {id : Ident} (hp : L.place (m.located id.pos))
    (hr : L.Knows m.store r) : Abides L (fun _ => Eval.unbound w r id) m := by
  refine .view _ ?_
  split
  · rename_i decl owner hfound
    have howner := lineage hm.orderly hr (m.store.mem_lineage_of_findMethod? hfound)
    refine (checkAccess hm hp owner).bind fun _ m' h _ => .create ?_
    refine (L.newSpell h.orderly ?_ (L.ofGrimoire hm.orderly hfound).1).imp_right knows_value.2
    exact knows_scope.1 (declared h.orderly (howner.later h.leads))
  · exact .view _ (.fail _ hm.toSuits hp)

theorem wrapped? {v : Value} (hv : L.Knows m.store v) (hw : L.Wraps m v)
    (ha : v.standsAlone = true) : Abides L (fun _ => Eval.wrapped? v) m := by
  refine .view _ (.look _ ?_)
  split
  · rename_i g hg
    have hobject := L.newObject (o := ⟨g, [(Eval.wrappedField v, v)]⟩) hm.orderly
      (knows_value.1 (get? hm.orderly hm.scope hg))
      (List.forall_mem_singleton.2 (knows_value.1 hv)) (.inr (hw ha g hg))
    have hmade : Abides L (fun _ => Eval.create fun s =>
        s.newObject ⟨g, [(Eval.wrappedField v, v)]⟩) m :=
      .create (hobject.imp_right (knows_value (v := .object _)).2)
    exact hmade.map fun _ _ hr => hr.some
  · exact .pure hm.orderly (knows_nothing rfl)

theorem wrappedMember {v : Value} {id : Ident} (hp : L.place (m.located id.pos))
    (hv : L.Knows m.store v) (hw : L.Wraps m v) (ha : v.standsAlone = true) :
    Abides L (fun _ => Eval.wrappedMember w v id) m := by
  refine (wrapped? hm hv hw ha).bind fun r m' h hr => ?_
  cases r with
  | none => exact .fail _ (h.suits hm.toSuits) (h.place hp)
  | some r => exact .member (h.admits hm) (h.place hp) (knows_option.1 hr r rfl)

theorem errorMember (v : Value) {r : Ref .failure} {id : Ident} (hp : L.place (m.located id.pos))
    (ho : ∀ o, (m.store.failure r).object? = some o → L.Knows m.store o) :
    Abides L (fun _ => Eval.errorMember w v r id) m := by
  refine .view _ ?_
  split
  · exact .pure hm.orderly (knows_plain rfl)
  · exact .pure hm.orderly (knows_plain rfl)
  · exact .pure hm.orderly (knows_plain rfl)
  · split
    · rename_i o hobject
      exact .member hm hp (ho o hobject)
    · exact .fail _ hm.toSuits hp

theorem spaceMember {r : Ref .space} {id : Ident} (hp : L.place (m.located id.pos))
    (hr : L.Knows m.store (Value.space r)) : Abides L (fun _ => Eval.spaceMember w r id) m := by
  refine .view _ ?_
  split
  · rename_i v hv
    exact .pure hm.orderly (getLocal? hm.orderly (space hm.orderly hr) hv)
  · exact .view _ (.fail _ hm.toSuits hp)

theorem attr {v : Value} {id : Ident} (hp : L.place (m.located id.pos)) (hv : L.Knows m.store v)
    (hw : L.Wraps m v) : Abides L (fun _ => Eval.attr w v id) m := by
  cases v with
  | object r => exact .member hm hp hv
  | grimoire r => exact .unbound hm hp hv
  | int | float | bool | str | array => exact .wrappedMember hm hp hv hw rfl
  | space r => exact .spaceMember hm hp hv
  | error r => exact .errorMember hm _ hp fun _ => blamed hm.orderly hv
  | caught r => exact .errorMember hm _ hp fun _ => thrower hm.orderly hv
  | none | tuple | map | spell | builtin | method => exact .fail _ hm.toSuits hp

theorem setAttr {object : Value} {id : Ident} {v : Value} (hp : L.place (m.located id.pos))
    (ho : L.Knows m.store object) (hv : L.Knows m.store v) :
    Abides L (fun _ => Eval.setAttr w object id v) m := by
  unfold Eval.setAttr
  split
  · exact .change (L.setField id.name hm.orderly (knows_value.1 ho) (knows_value.1 hv))
  · exact .fail _ hm.toSuits hp

theorem parentMethod {pos : Pos} {id : Ident} (hp : L.place (m.located pos))
    (hid : L.place (m.located id.pos)) : Abides L (fun _ => Eval.parentMethod w pos id) m := by
  refine .look _ (.look _ ?_)
  split
  · rename_i parent receiver hparent hreceiver
    refine .view _ ?_
    split
    · rename_i found hfound
      have howner := lineage hm.orderly (get? hm.orderly hm.scope hparent)
        (m.store.mem_lineage_of_findMethod? hfound)
      exact .bound hm hid (get? hm.orderly hm.scope hreceiver) howner
        (L.ofGrimoire hm.orderly hfound).1
        (L.ofSuper hm.orderly (knows_scope.1 hm.scope) hparent hreceiver hfound)
    · exact .view _ (.fail _ hm.toSuits hid)
  · exact .fail _ hm.toSuits hp

/-! Assignments -/

theorem unpack {pos : Pos} (count : Nat) {v : Value} (hp : L.place (m.located pos))
    (hv : L.Knows m.store v) : Abides L (fun _ => Eval.unpack w pos count v) m := by
  unfold Eval.unpack
  split
  · exact .seen hm.orderly (array hm.orderly hv).toList
  · exact .seen hm.orderly (tuple hm.orderly hv).toList
  · rename_i r
    split
    · refine .view _ ?_
      have hentries := Estate.map hm.orderly hv
      have hnames : L.Knows m.store ((m.store.map r).map (·.name)) := knows_list.2 fun x hx => by
        obtain ⟨e, he, rfl⟩ := List.mem_map.1 hx
        exact (knows_entry.1 (hentries.mem he)).1
      have hvalues : L.Knows m.store ((m.store.map r).map (·.value)) := knows_list.2 fun x hx => by
        obtain ⟨e, he, rfl⟩ := List.mem_map.1 hx
        exact (knows_entry.1 (hentries.mem he)).2
      refine (create (makesArray hm.orderly hnames.toArray)).bind fun keys m₁ h₁ hkeys => ?_
      refine (create (makesArray h₁.orderly (hvalues.later h₁.leads).toArray)).bind
        fun values m₂ h₂ hvs => ?_
      exact .pure h₂.orderly
        (knows_cons.2 ⟨hkeys.later h₂.leads, knows_cons.2 ⟨hvs, knows_nil⟩⟩)
    · exact .fail _ hm.toSuits hp
  · exact .fail _ hm.toSuits hp

theorem assignAll {pairs : List (Ident × Value)} (hv : ∀ p ∈ pairs, L.Knows m.store p.2)
    (hb : ∀ p ∈ pairs, L.Frees m p.1.name) : Abides L (fun _ => Eval.assignAll pairs) m := by
  induction pairs generalizing m with
  | nil => exact .pure hm.orderly (knows_nothing rfl)
  | cons p rest ih =>
    obtain ⟨hfirst, hrest⟩ := List.forall_mem_cons.1 hv
    obtain ⟨hname, hnames⟩ := List.forall_mem_cons.1 hb
    refine (assign hm hfirst (hname _)).bind fun _ m' h _ => ?_
    exact ih (h.admits hm) (fun q hq => (hrest q hq).later h.leads)
      fun q hq => hm.frees h (hnames q hq)

theorem assignParts {pos : Pos} {names : List Ident} {v : Value} (hp : L.place (m.located pos))
    (hv : L.Knows m.store v) (hb : ∀ id ∈ names, L.Frees m id.name) :
    Abides L (fun _ => Eval.assignParts w pos names v) m := by
  refine (unpack hm names.length hp hv).bind fun values m' h hvs => ?_
  split
  · exact .assignAll (h.admits hm) (fun p hp => hvs.mem (List.of_mem_zip hp).2)
      fun p hp => hm.frees h (hb _ (List.of_mem_zip hp).1)
  · exact .fail _ (h.suits hm.toSuits) (h.place hp)

theorem assignPattern {p : Pattern} {v : Value}
    (hp : L.place (m.located p.toTarget.toExpr.pos)) (hv : L.Knows m.store v)
    (hb : ∀ name ∈ p.toTarget.names, L.Frees m name) :
    Abides L (fun _ => Eval.assignPattern w p v) m := by
  cases p with
  | one id => exact .assign hm hv (hb _ List.mem_cons_self _)
  | tuple pos names =>
    exact .assignParts hm hp hv fun id hid => hb _ (List.mem_map_of_mem hid)

theorem count {pos : Pos} (step : Step) {id : Ident} (hp : L.place (m.located pos))
    (hid : L.place (m.located id.pos)) (hb : L.Frees m id.name) :
    Abides L (fun _ => Eval.count w pos step id) m := by
  refine (lookup hm hid).bind fun old m₁ h₁ hold => ?_
  have hone : L.Knows m₁.store (.int 1 : Value) := knows_plain rfl
  refine (operateAt (h₁.suits hm.toSuits) (h₁.place hp)
    (.operator h₁.orderly step.operator hold hone)).bind fun new m₂ h₂ hnew => ?_
  have h₁₂ := h₁.trans h₂
  refine (assign (h₁₂.admits hm) hnew (hm.frees h₁₂ hb _)).bind fun _ m₃ h₃ _ => ?_
  exact .pure h₃.orderly
    (knows_pair.2 ⟨(hold.later h₂.leads).later h₃.leads, hnew.later h₃.leads⟩)

/-! Raising -/

theorem raiseCustom {pos : Pos} (name message : String) {object : Option (Ref .object)}
    (hp : L.place (m.located pos)) (ho : L.Knows m.store object) :
    Abides L (fun _ => (Eval.raiseCustom w pos name message object : Eval α)) m :=
  .look _ (.look _ (.raise hm.toSuits (.custom _ _ _ _ hp) (knows_custom.2 ho)))

theorem raiseValue {pos : Pos} {v : Value} (hp : L.place (m.located pos))
    (hv : L.Knows m.store v) : Abides L (fun _ => (Eval.raiseValue w pos v : Eval α)) m := by
  unfold Eval.raiseValue
  split
  · rename_i r
    refine .view _ ?_
    split
    · rename_i c hcustom
      refine .raiseCustom hm _ _ hp (knows_option.2 fun o ho => ?_)
      refine blamed hm.orderly hv ?_
      rw [hcustom]
      exact ho
    · rename_i hforeign
      exact .throw hm.orderly
        (knows_value (v := .caught r).2 (L.reads hm.orderly (knows_value.1 hv) (.foreign hforeign)))
  · exact .throw hm.orderly hv
  · exact .raiseCustom hm _ _ hp (knows_nothing rfl)
  · exact .view _ (.view _ (.raiseCustom hm _ _ hp (Knows.some hv)))
  · exact .fail _ hm.toSuits hp

/-- What a handler binds before its body is run is what it has caught. -/
theorem prepared {h : Ensnare} {failure : Ref .failure} (hf : L.Knows m.store failure)
    (hb : ∀ name ∈ h.names, L.binds m.store m.scope name (.caught failure)) :
    L.Goes m (h.prepared failure m) := by
  have hfold : ∀ (names : List String) {m' : Machine}, L.Goes m m' →
      (∀ name ∈ names, L.binds m.store m.scope name (.caught failure)) →
      L.Goes m (names.foldl (fun m name => m.define name (.caught failure)) m') := by
    intro names
    induction names with
    | nil => exact fun hg _ => hg
    | cons name rest ih =>
      intro m' hg hb
      obtain ⟨hfirst, hrest⟩ := List.forall_mem_cons.1 hb
      have hm' := hg.admits hm
      have hdefine := L.define hm'.orderly (knows_scope.1 hm'.scope)
        (knows_value (v := .caught failure).1 (hf.later hg.leads)) (hm.binds hg hfirst)
      exact ih (hg.trans (Logic.goes_store hdefine)) hrest
  refine hfold _ (Logic.goes_refl hm.orderly) fun name hname => hb name ?_
  rcases List.mem_append.1 hname with hname | hname
  · exact Ensnare.mem_names_of_fresh? (Option.mem_toList.1 hname)
  · exact List.mem_append_right _ hname

omit hm in
theorem catchAll? (h : Ensnare) (hm : L.Leads m.store m.store) :
    Abides L (fun _ => Evaluator.catchAll? h) m := by
  refine .const ?_
  rw [Evaluator.catchAll?_eq]
  exact .ok (Logic.goes_refl hm) (by cases h.fresh? m <;> exact knows_nothing rfl)

/-! Calls and declarations -/

omit hm in
theorem applyBuiltin (b : Builtin) {args : List Value} (hm : L.Leads m.store m.store)
    (ha : L.Knows m.store args) : Abides L (fun _ => Evaluator.applyBuiltin b args) m := by
  unfold Evaluator.applyBuiltin
  split
  · exact .view _ ((write _ hm).map fun _ _ _ => knows_plain rfl)
  · exact .operate (.builtin hm b ha)

theorem declareSpell {decl : SpellDecl} (hs : L.spell decl) (hb : L.Frees m decl.name.name) :
    Abides L (fun _ => Evaluator.declareSpell decl) m := by
  have hnew := L.newSpell (f := ⟨decl, m.scope⟩) hm.orderly (knows_scope.1 hm.scope) hs
  refine .look _ ((create (hnew.imp_right knows_value.2)).bind fun v _ h hv => ?_)
  exact .define (h.admits hm) hv (hm.frees h hb v)

theorem parentOf {parent : Option Ident} (hp : ∀ id ∈ parent, L.place (m.located id.pos)) :
    Abides L (fun _ => Evaluator.parentOf w parent) m := by
  cases parent with
  | none => exact .pure hm.orderly (knows_nothing rfl)
  | some id =>
    refine (lookup hm (hp id rfl)).bind fun v m' h hv => ?_
    split
    · exact .pure h.orderly (Knows.some (x := (_ : Ref .grimoire)) hv)
    · exact .fail _ (h.suits hm.toSuits) (h.place (hp id rfl))

theorem declareGrimoire {decl : GrimoireDecl} (hp : ∀ id ∈ decl.parent, L.place (m.located id.pos))
    (hd : L.declares m.store m.scope decl) (hi : ∀ f ∈ decl.init, L.spell f)
    (hs : ∀ f ∈ decl.methods, L.spell f ∧ (f.name.name = "close" → L.closer f))
    (hb : L.Frees m decl.name.name) : Abides L (fun _ => Evaluator.declareGrimoire w decl) m := by
  refine (parentOf hm hp).after fun parent m' hok _ hparent => .look _ ?_
  obtain ⟨rfl, hnone⟩ := Evaluator.parentOf_ok hok
  have hnew := L.newGrimoire hm.orderly (knows_scope.1 hm.scope)
    (fun p h => knows_value (v := .grimoire p).1 (knows_option.1 hparent p h)) hnone hd hi hs
  refine (create (hnew.imp_right knows_value.2)).bind fun v _ h hv => ?_
  exact .define (h.admits hm) hv (hm.frees h hb v)

theorem declareGlobals (names : List Ident) {scope : Ref .scope} (hs : L.Knows m.store scope) :
    Abides L (fun _ => Evaluator.declareGlobals scope names) m := by
  induction names generalizing m with
  | nil => exact .pure hm.orderly (knows_nothing rfl)
  | cons id rest ih =>
    refine bind (change (L.declareGlobal id.name hm.orderly (knows_scope.1 hs))) fun _ m' h _ => ?_
    exact ih (h.admits hm) (hs.later h.leads)

/-! Imports -/

theorem loadFailure {pos : Pos} (message : String) {cause : Option Failure}
    (details : List (String × String)) (hp : L.place (m.located pos))
    (hc : ∀ f ∈ cause, (∃ message, f = .plain message) ∨ ∃ r, f = m.store.failure r)
    (hk : L.Knows m.store cause) :
    Abides L (fun _ => (Evaluator.loadFailure w pos message cause details : Eval α)) m :=
  .look _ (.look _ (.raise hm.toSuits (.traced _ _ _ _ hp hc) (knows_traced.2 hk)))

theorem loadReport {pos : Pos} (name : String) (path : Path) (source : String)
    (diagnostics : List Diagnostic) (hp : L.place (m.located pos)) :
    Abides L (fun _ => (Evaluator.loadReport pos name path source diagnostics : Eval α)) m := by
  have hpoint : ∀ r : Report, r.primary = none → ∀ span ∈ (r.pointAt (m.located pos)).primary,
      span.start = m.located pos := by
    intro r hr span hspan
    unfold Report.pointAt at hspan
    split at hspan
    · cases hspan
      rfl
    · rw [hr] at hspan
      cases hspan
  have hplain : ∀ (r : Report) (l : Location),
      (r.pointAt l).stack = r.stack ∧ (r.pointAt l).cause = r.cause := by
    intro r l
    unfold Report.pointAt
    split <;> exact ⟨rfl, rfl⟩
  refine .look _ (.raise hm.toSuits (.reported hp ?_ ?_ (hplain _ _).1 (hplain _ _).2)
    (knows_reported (hplain _ _).2))
  · intro span hspan
    rcases List.mem_append.1 hspan with hspan | hspan
    · exact hpoint _ rfl span (Option.mem_toList.1 hspan)
    · obtain rfl := List.mem_singleton.1 hspan
      rfl
  · intro hknown
    have hknown : (Location.mk m.file pos.line pos.col).isKnown = true := hknown
    simp only [Report.pointAt, hknown, if_true, Option.isSome_some]

theorem bindGrimoires {all : List (String × Value)} (hv : L.Knows m.store all)
    (hb : ∀ entry ∈ all, L.binds m.store m.scope entry.1 entry.2) :
    Abides L (fun _ => Evaluator.bindGrimoires all) m := by
  induction all generalizing m with
  | nil => exact .pure hm.orderly (knows_nothing rfl)
  | cons entry rest ih =>
    obtain ⟨hfirst, hrest⟩ := knows_cons.1 hv
    obtain ⟨hname, hnames⟩ := List.forall_mem_cons.1 hb
    unfold Evaluator.bindGrimoires
    split
    · exact .pure hm.orderly (knows_nothing rfl)
    · rename_i heq
      cases heq
      refine (define hm (knows_pair.1 hfirst).2 hname).bind fun _ _ h _ => ?_
      exact ih (h.admits hm) (hrest.later h.leads) fun entry he => hm.binds h (hnames entry he)
    · rename_i heq
      cases heq
      exact ih hm hrest hnames

theorem bindImport {pos : Pos} (name : String) (grimoire : Option String) {binder : Option Ident}
    {scope : Ref .scope} (hp : L.place (m.located pos)) (hs : L.Knows m.store scope)
    (hb : ∀ id ∈ binder, L.Frees m id.name)
    (hv : ∀ entry ∈ (m.store.scopes.scope scope).vars, L.binds m.store m.scope entry.1 entry.2) :
    Abides L (fun _ => Evaluator.bindImport w pos name grimoire binder scope) m := by
  unfold Evaluator.bindImport
  split
  · rename_i id
    have hnew := L.newSpace (n := ⟨id.name, scope⟩) hm.orderly (knows_scope.1 hs)
    refine (create (hnew.imp_right knows_value.2)).bind fun v _ h hv => ?_
    exact .define (h.admits hm) hv (hm.frees h (hb id rfl) v)
  · refine .view _ ?_
    split
    · rename_i r hr
      refine .define hm (getLocal? hm.orderly hs hr) ?_
      cases binder with
      | none => exact hv _ (Bindings.mem_of_get? hr)
      | some id => exact hb id rfl _
    · exact .loadFailure hm _ _ hp nofun (knows_nothing rfl)
  · refine .view _ (.bindGrimoires hm (knows_list.2 fun entry hentry => ?_) fun entry hentry => ?_)
    · exact (vars hm.orderly hs).mem (List.mem_mergeSort.1 hentry)
    · exact hv _ (List.mem_mergeSort.1 hentry)

end Places

end Abides

end Spellbook
