import Spellbook.Eval
import Spellbook.Proofs.Evaluation.Actions

/-! The rules for expressions and calls abide by a logic if the parts do that they evaluate, and the
spells that they start. There is one statement for each rule, and none of them says how the parts are
evaluated. -/
namespace Spellbook

open Bearing Estate

/-- What a value is run as when it is called, under what name, by any evaluator. -/
inductive Store.Runs (s : Store) (args : List Value) :
    Value → (Evaluator → Option (String × Eval (Except Fault Value))) → Prop where
  | spell {r : Ref .spell} {f : Spell} : s.spell? r = some f → s.Runs args (.spell r) fun E =>
    some (f.decl.name.name, E.invoke .call f.decl f.scope none args)
  | method {r : Ref .method} {f : Method} : s.method? r = some f → s.Runs args (.method r) fun E =>
    some (f.decl.name.name, E.invokeMethod .call f.decl ⟨f.receiver, f.owner⟩ args)
  | grimoire (r : Ref .grimoire) : s.Runs args (.grimoire r) fun E =>
    some ((s.grimoire r).name, E.instantiate r args)
  | refused (callee : Value) : s.Runs args callee fun _ => none

theorem Store.exists_runs (s : Store) (callee : Value) (args : List Value) :
    ∃ run, s.Runs args callee run ∧ ∀ E : Evaluator, E.activation? s callee args = run E := by
  cases callee with
  | spell r =>
    cases hr : s.spell? r with
    | none => exact ⟨_, .refused _, fun E => by simp [Evaluator.activation?, hr]⟩
    | some f => exact ⟨_, .spell hr, fun E => by simp [Evaluator.activation?, hr]⟩
  | method r =>
    cases hr : s.method? r with
    | none => exact ⟨_, .refused _, fun E => by simp [Evaluator.activation?, hr]⟩
    | some f => exact ⟨_, .method hr, fun E => by simp [Evaluator.activation?, hr]⟩
  | grimoire r => exact ⟨_, .grimoire r, fun _ => rfl⟩
  | none | bool | int | float | str | array | tuple | map | builtin | object | space | error
  | caught => exact ⟨_, .refused _, fun _ => rfl⟩

/-- The names that a statement binds by itself where it is run, handlers apart. -/
def Stmt.binds : Stmt → List String
  | .grimoire decl => [decl.name.name]
  | s => s.names

namespace Code

/-- The names that code binds by itself to whatever it is given. -/
def frees : Code → List String
  | .stmt s => s.binds
  | c => c.names

/-- What it evaluates before it reads an attribute of the last of them. -/
def bases : Code → List Expr
  | .expr (.attr object _) => [object]
  | .stmt (.update (.attr object _) _ _ value) => [value, object]
  | _ => []

end Code

/-! Where code is evaluated -/

/-- The states that code may be evaluated in. -/
structure Ground {ι : Type} (L : Logic ι) where
  here : Machine → Prop
  admits : ∀ {m}, here m → L.Admits m
  later : ∀ {m m'}, here m → L.Goes m m' → here m'

namespace Ground

variable {ι : Type} {L : Logic ι} (G : Ground L) (E : ι → Evaluator)

def Takes (e : Expr) : Prop := ∀ ⦃m⦄, G.here m → Abides L (fun i => (E i).expr e) m

def Does (s : Stmt) : Prop := ∀ ⦃m⦄, G.here m → Abides L (fun i => (E i).stmt s) m

end Ground

def Logic.ground {ι : Type} (L : Logic ι) : Ground L := ⟨L.Admits, id, fun h hg => hg.admits h⟩

/-- The states that a piece of code may be evaluated in, where what it evaluates next abides and it
does no more by itself than is allowed. -/
structure Site {ι : Type} (L : Logic ι) (w : World) (E : ι → Evaluator) (c : Code) extends
    Ground L where
  /-- The states from which spells may be started. -/
  calls : Start → Machine → Prop
  nested : ∀ {m}, here m → here m.nested
  expr : ∀ e ∈ c.exprs, toGround.Takes E e
  stmt : ∀ s ∈ c.stmts, toGround.Does E s
  place : ∀ {m}, here m → ∀ pos ∈ c.places, L.place (m.located pos)
  frees : ∀ {m}, here m → ∀ name ∈ c.frees, L.Frees m name
  catches : ∀ {m}, here m → ∀ name ∈ c.catches, ∀ r, L.binds m.store m.scope name (.caught r)
  spells : ∀ decl ∈ c.spells, L.spell decl ∧ (decl.name.name = "close" → L.closer decl)
  call : ∀ {m}, here m → ∀ pos ∈ c.places, m.frames.length < w.maxDepth → ∀ name,
    calls .call { m with frames := ⟨name, m.located pos⟩ :: m.frames }
  close : ∀ {m}, here m → calls .close m
  orderly : ∀ {start m}, calls start m → L.Leads m.store m.store
  onward : ∀ {start m m'}, calls start m → L.Goes m m' → calls start m'
  starting : ∀ {start m r decl args}, calls start m → L.Knows m.store r → L.Knows m.store args →
    L.spell decl → (start = .close → L.closer decl) →
      Abides L (fun i => (E i).spell start decl args) (m.starting r)
  receiving : ∀ {start m v decl args} {g : Ref .grimoire}, calls start m → L.Knows m.store v →
    L.Knows m.store g → L.Knows m.store args → L.receives m.store v g decl → L.spell decl →
    (start = .close → L.closer decl) →
      Abides L (fun i => (E i).spell start decl args) (m.receiving v g)
  entering : ∀ {m pos name binder source}, here m → c = .stmt (.load pos name binder) →
    let path := (Import.ofText name).locate w.files w.base
    path.isAmong m.imported = false → w.files.read path = .ok source →
    (parse source).diagnostics = [] →
      Abides L (fun i => (E i).program (parse source).program false) (m.entering path)
  turns : ∀ s, c = .stmt s → s.isLoop = true →
    ¬ L.ends ∧ ∃ n, ∀ᶠ i in L.family, (E i).turns = n

/-- A state that code may be evaluated in, and in which it may declare what it declares and let
objects stand in for values. -/
structure Site.At {ι : Type} {L : Logic ι} {w : World} {E : ι → Evaluator} {c : Code}
    (S : Site L w E c) (m : Machine) : Prop where
  here : S.here m
  declares : ∀ decl, c = .stmt (.grimoire decl) → L.declares m.store m.scope decl
  wraps : ∀ vs m', (∀ᶠ i in L.family, (E i).exprs c.bases m = .ok vs m') →
    ∀ v ∈ vs.getLast?, L.Wraps m' v

/-- A call may be made from the place. -/
structure Site.Calling {ι : Type} {L : Logic ι} {w : World} {E : ι → Evaluator} {c : Code}
    (S : Site L w E c) (m : Machine) (pos : Pos) : Prop where
  suits : L.Suits m
  place : L.place (m.located pos)
  start : m.frames.length < w.maxDepth → ∀ name,
    S.calls .call { m with frames := ⟨name, m.located pos⟩ :: m.frames }

theorem Site.calling {ι : Type} {L : Logic ι} {w : World} {E : ι → Evaluator} {c : Code}
    (S : Site L w E c) {m : Machine} {pos : Pos} (hp : pos ∈ c.places) (hm : S.here m) :
    S.Calling m pos :=
  ⟨(S.admits hm).toSuits, S.place hm pos hp, S.call hm pos hp⟩

theorem Evaluator.exprs_cons_ok {E : Evaluator} {e : Expr} {rest : List Expr} {v : Value}
    {vs : List Value} {m m₁ m₂ : Machine} (hv : E.expr e m = .ok v m₁)
    (hvs : E.exprs rest m₁ = .ok vs m₂) : E.exprs (e :: rest) m = .ok (v :: vs) m₂ := by
  simp only [exprs, Bind.bind, EStateM.bind, hv, hvs]
  rfl

namespace Abides

variable {ι α : Type} [Bearing α] {L : Logic ι} {w : World} {E : ι → Evaluator} {m : Machine}

/-! Lists of parts -/

section Lists

variable {G : Ground L}

theorem exprs {es : List Expr} (he : ∀ e ∈ es, G.Takes E e) (hm : G.here m) :
    Abides L (fun i => (E i).exprs es) m := by
  induction es generalizing m with
  | nil => exact .pure (G.admits hm).orderly knows_nil
  | cons e rest ih =>
    obtain ⟨hfirst, hrest⟩ := List.forall_mem_cons.1 he
    refine (hfirst hm).bind fun v m₁ h₁ hv => ?_
    refine (ih hrest (G.later hm h₁)).bind fun vs m₂ h₂ hvs => ?_
    exact .pure h₂.orderly (knows_cons.2 ⟨hv.later h₂.leads, hvs⟩)

theorem expr? {e : Option Expr} (he : ∀ e' ∈ e, G.Takes E e') (hm : G.here m) :
    Abides L (fun i => (E i).expr? e) m := by
  cases e with
  | none => exact .pure (G.admits hm).orderly (knows_nothing rfl)
  | some e => exact .map (he e rfl hm) fun _ _ hv => hv.some

theorem test {e : Expr} (he : G.Takes E e) (hm : G.here m) :
    Abides L (fun i => (E i).test e) m :=
  (he hm).bind fun _ _ h _ => .seen h.orderly (knows_nothing rfl)

theorem blockAfter {last : Value} {body : List Stmt} (hb : ∀ s ∈ body, G.Does E s) (hm : G.here m)
    (hv : L.Knows m.store last) : Abides L (fun i => (E i).blockAfter last body) m := by
  induction body generalizing m last with
  | nil => exact .pure (G.admits hm).orderly hv
  | cons s rest ih =>
    obtain ⟨hfirst, hrest⟩ := List.forall_mem_cons.1 hb
    refine (hfirst hm).bind fun flow m' h hflow => ?_
    cases flow with
    | value v => exact ih hrest (G.later hm h) hflow
    | give v => exact .pure h.orderly hflow
    | stop => exact .pure h.orderly hflow
    | skip => exact .pure h.orderly hflow

theorem block {body : List Stmt} (hb : ∀ s ∈ body, G.Does E s) (hm : G.here m) :
    Abides L (fun i => (E i).block body) m :=
  blockAfter hb hm (knows_plain rfl)

theorem block? {body : Option (List Stmt)} (hb : ∀ s ∈ body.getD [], G.Does E s)
    (hm : G.here m) : Abides L (fun i => (E i).block? body) m := by
  cases body with
  | none => exact .pure (G.admits hm).orderly (knows_plain rfl)
  | some body => exact .block hb hm

theorem entries {pairs : List (Expr × Expr)}
    (he : ∀ e ∈ pairs.flatMap fun entry => [entry.1, entry.2], G.Takes E e) (hm : G.here m) :
    Abides L (fun i => (E i).entries pairs) m := by
  induction pairs generalizing m with
  | nil => exact .pure (G.admits hm).orderly knows_nil
  | cons entry rest ih =>
    obtain ⟨key, value⟩ := entry
    simp only [List.flatMap_cons, List.forall_mem_append, List.forall_mem_cons] at he
    obtain ⟨⟨hkey, hvalue, _⟩, hrest⟩ := he
    refine (hkey hm).bind fun k m₁ h₁ hk => ?_
    have hm₁ := G.later hm h₁
    refine (hvalue hm₁).bind fun v m₂ h₂ hv => ?_
    refine (ih hrest (G.later hm₁ h₂)).bind fun more m₃ h₃ hmore => ?_
    have hpair : L.Knows m₃.store (k, v) :=
      knows_pair.2 ⟨(hk.later h₂.leads).later h₃.leads, hv.later h₃.leads⟩
    exact .pure h₃.orderly (knows_cons.2 ⟨hpair, hmore⟩)

theorem fill {parts : List Part} (he : ∀ e ∈ parts.filterMap Part.hole?, G.Takes E e)
    (text : String) (hm : G.here m) : Abides L (fun i => (E i).fill text parts) m := by
  induction parts generalizing m text with
  | nil => exact .pure (G.admits hm).orderly (knows_nothing rfl)
  | cons part rest ih =>
    cases part with
    | text t => exact ih he (text ++ t) hm
    | hole e =>
      obtain ⟨hfirst, hrest⟩ := List.forall_mem_cons.1 he
      exact (hfirst hm).bind fun v m₁ h₁ _ => .view _ (ih hrest _ (G.later hm h₁))

theorem connect (c : Connective) {left right : Expr} (hl : G.Takes E left)
    (hr : G.Takes E right) (hm : G.here m) :
    Abides L (fun i => (E i).connect c left right) m := by
  refine (test hl hm).bind fun b m₁ h₁ _ => ?_
  split
  · exact .pure h₁.orderly (knows_plain rfl)
  · exact .pure h₁.orderly (knows_plain rfl)
  · exact .map (.test hr (G.later hm h₁)) fun _ _ _ => knows_plain rfl

end Lists

/-! The bodies of spells -/

theorem argument {G : Ground L} {p : Param} (hp : ∀ e ∈ p.default, G.Takes E e)
    {passed : Option Value} (hm : G.here m) (hv : L.Knows m.store passed) :
    Abides L (fun i => (E i).argument p passed) m := by
  unfold Evaluator.argument
  split
  · rename_i v
    exact .pure (G.admits hm).orderly (knows_option.1 hv v rfl)
  · rename_i e he
    exact hp e he hm
  · exact .pure (G.admits hm).orderly (knows_plain rfl)

theorem bindParams {G : Ground L} {params : List Param} {args : List Value}
    (hp : ∀ e ∈ params.filterMap (·.default), G.Takes E e) (hm : G.here m)
    (ha : L.Knows m.store args) (hb : ∀ name ∈ params.map (·.name.name), L.Frees m name) :
    Abides L (fun i => (E i).bindParams params args) m := by
  induction params generalizing m args with
  | nil => exact .pure (G.admits hm).orderly (knows_nothing rfl)
  | cons p rest ih =>
    obtain ⟨hname, hnames⟩ := List.forall_mem_cons.1 hb
    have hfirst : ∀ e ∈ p.default, G.Takes E e :=
      fun e he => hp e (List.mem_filterMap.2 ⟨p, List.mem_cons_self, he⟩)
    have hrest : ∀ e ∈ rest.filterMap (·.default), G.Takes E e := by
      intro e he
      obtain ⟨q, hq, he⟩ := List.mem_filterMap.1 he
      exact hp e (List.mem_filterMap.2 ⟨q, List.mem_cons_of_mem _ hq, he⟩)
    refine (argument hfirst hm ha.head?).bind fun v m₁ h₁ hv => .view _ ?_
    have hm₁ := G.later hm h₁
    split
    · exact .pure h₁.orderly (knows_nothing rfl)
    · refine (define (G.admits hm₁) hv ((G.admits hm).frees h₁ hname v)).bind fun _ m₂ h₂ _ => ?_
      have h₁₂ := h₁.trans h₂
      exact ih hrest (G.later hm h₁₂) (ha.tail.later h₁₂.leads)
        fun name h => (G.admits hm).frees h₁₂ (hnames name h)

theorem body {G : Ground L} {decl : SpellDecl} {args : List Value}
    (he : ∀ e ∈ decl.defaults, G.Takes E e) (hs : ∀ s ∈ decl.body, G.Does E s) (hm : G.here m)
    (hp : L.place (m.located decl.name.pos)) (ha : L.Knows m.store args)
    (hb : ∀ name ∈ decl.params.map (·.name.name), L.Frees m name) :
    Abides L (fun i => (E i).body w decl args) m := by
  refine (bindParams he hm ha hb).bind fun bound m₁ h₁ _ => ?_
  cases bound with
  | error fault => exact .pure h₁.orderly (knows_nothing rfl)
  | ok _ =>
    refine (block hs (G.later hm h₁)).bind fun flow m₂ h₂ hflow => ?_
    have h := h₁.trans h₂
    have hfail : Abides L (fun _ => (Eval.fail w decl.name.pos .strayControl :
        Eval (Except Fault Value))) m₂ :=
      .fail _ (h.suits (G.admits hm).toSuits) (h.place hp)
    cases flow with
    | value v => exact .pure h₂.orderly hflow
    | give v => exact .pure h₂.orderly hflow
    | stop => exact hfail
    | skip => exact hfail

/-! Calls -/

section Calls

variable {c : Code} (S : Site L w E c)

include S

theorem invoke {start : Start} {decl : SpellDecl} {args : List Value} {scope : Ref .scope}
    (hm : S.calls start m) (hs : L.Knows m.store scope) (ha : L.Knows m.store args)
    (hd : L.spell decl) (hc : start = .close → L.closer decl) :
    Abides L (fun i => (E i).invoke start decl scope none args) m := by
  have ho := S.orderly hm
  unfold Evaluator.invoke
  split
  · exact .pure ho (knows_nothing rfl)
  · have hopened := (L.opened ho (knows_scope.1 hs)).1
    have ho' := L.settled hopened
    exact .created hopened (.inScope ho' (.ownedBy ho' (S.starting hm hs ha hd hc)))

theorem invokeMethod {start : Start} {decl : SpellDecl} {args : List Value}
    {receiver : Evaluator.Receiver} (hm : S.calls start m) (hv : L.Knows m.store receiver.value)
    (hg : L.Knows m.store receiver.owner) (ha : L.Knows m.store args)
    (hr : L.receives m.store receiver.value receiver.owner decl) (hd : L.spell decl)
    (hc : start = .close → L.closer decl) :
    Abides L (fun i => (E i).invokeMethod start decl receiver args) m := by
  have ho := S.orderly hm
  cases harcane : decl.arcane with
  | true =>
    simp only [Evaluator.invokeMethod, Evaluator.invoke, harcane, if_true]
    exact .view _ (.pure ho (knows_nothing rfl))
  | false =>
    have hentered := (L.entered ho (knows_value.1 hv)
      (knows_value (v := .grimoire receiver.owner).1 hg) hr).1
    refine .of_eq ho (fun i => Evaluator.invokeMethod_eq (E i) start receiver args m harcane) ?_
    refine .bracket (S.receiving hm hv hg ha hr hd hc) hentered (fun _ h => ?_) (fun _ => rfl)
      fun _ => rfl
    exact ⟨⟨rfl, h.frames, rfl, h.file, h.imported⟩, h.distinct⟩

theorem instantiate {r : Ref .grimoire} {args : List Value} (hm : S.calls .call m)
    (hr : L.Knows m.store r) (ha : L.Knows m.store args) :
    Abides L (fun i => (E i).instantiate r args) m := by
  have ho := S.orderly hm
  refine .view _ ?_
  split
  · exact .pure ho (knows_nothing rfl)
  · rename_i hnone
    obtain ⟨hleads, hnew⟩ := L.newObject (o := ⟨r, []⟩) ho (knows_value (v := .grimoire r).1 hr)
      nofun (.inl hnone)
    have hgoes := Logic.goes_store hleads
    have hobject : L.Knows (m.store.newObject ⟨r, []⟩).2 (m.store.newObject ⟨r, []⟩).1 :=
      knows_value (v := .object _).2 hnew
    refine .created hleads (.view _ ?_)
    split
    · exact .pure hgoes.orderly hobject
    · rename_i init owner hinit
      have hsame : (m.store.newObject ⟨r, []⟩).2.findInit?
          ((m.store.newObject ⟨r, []⟩).2.object (m.store.newObject ⟨r, []⟩).1).grimoire =
            some (init, owner) := by
        rw [Store.object_newObject]
        exact hinit
      obtain ⟨hspell, hreceives⟩ := L.ofInit hgoes.orderly hnew hsame
      have howner := lineage hgoes.orderly (hr.later hleads)
        (Store.mem_lineage_of_findInit? _ hinit)
      refine (invokeMethod S (S.onward hm hgoes) hobject howner (ha.later hleads) hreceives hspell
        nofun).bind fun result m₂ h₂ _ => ?_
      cases result with
      | error fault => exact .pure h₂.orderly (knows_nothing rfl)
      | ok v => exact .pure h₂.orderly (hobject.later h₂.leads)

theorem onRecord {pos : Pos} (name : String) {run : ι → Eval (Except Fault Value)}
    (hm : S.Calling m pos) (hr : ∀ frame, S.calls .call { m with frames := frame :: m.frames } →
      Abides L run { m with frames := frame :: m.frames }) :
    Abides L (fun i => Evaluator.onRecord w pos name (run i)) m := by
  refine .look _ ?_
  split
  · exact .fail _ hm.suits hm.place
  · rename_i hlt
    refine .look _ ((inCall hm.suits.orderly (hr _ (hm.start (Nat.not_le.1 hlt) _))).bind
      fun _ _ h hresult => ?_)
    exact .located (h.suits hm.suits) (h.place hm.place) hresult

theorem activate {pos : Pos} {callee : Value} {args : List Value} (hm : S.Calling m pos)
    (hv : L.Knows m.store callee) (ha : L.Knows m.store args) :
    Abides L (fun i => (E i).activate w pos callee args) m := by
  have ho := hm.suits.orderly
  refine .view _ ?_
  obtain ⟨run, hrun, heq⟩ := m.store.exists_runs callee args
  simp only [heq]
  cases hrun with
  | spell hr =>
    exact .onRecord S _ hm fun _ h => .invoke S h (spell? ho hv hr) ha (L.ofSpell ho hr) nofun
  | method hr =>
    obtain ⟨hreceiver, howner⟩ := method? ho hv hr
    obtain ⟨hspell, hreceives⟩ := L.ofMethod ho (knows_value.1 hv) hr
    exact .onRecord S _ hm fun _ h =>
      .invokeMethod S h hreceiver howner ha hreceives hspell nofun
  | grimoire r => exact .onRecord S _ hm fun _ h => .instantiate S h hv ha
  | refused => exact .fail _ hm.suits hm.place

theorem callValue {pos : Pos} {callee : Value} {args : List Value} (hm : S.Calling m pos)
    (hv : L.Knows m.store callee) (ha : L.Knows m.store args) :
    Abides L (fun i => (E i).callValue w pos callee args) m := by
  refine .view _ ?_
  split
  · exact .fail _ hm.suits hm.place
  · split
    · split
      · exact (applyBuiltin _ hm.suits.orderly ha).bind fun result _ h hr =>
          .located (h.suits hm.suits) (h.place hm.place) hr
      · exact .activate S hm hv ha
    · exact .fail _ hm.suits hm.place

end Calls

/-! Expressions -/

theorem evalExpr {e : Expr} (S : Site L w E (.expr e)) (hm : S.At m) :
    Abides L (fun i => (E i).evalExpr w e) m := by
  have here := hm.here
  have hadmits := S.admits here
  have hpos : e.pos ∈ (Code.expr e).places := e.pos_mem_places
  have hplace := S.place here _ hpos
  have hexpr := S.expr
  cases e with
  | name id => exact .lookup hadmits hplace
  | literal pos value =>
    refine .pure hadmits.orderly (knows_plain ?_)
    cases value <;> rfl
  | unary pos op operand =>
    exact (hexpr operand List.mem_cons_self here).bind fun v _ h hv =>
      .operateAt (h.suits hadmits.toSuits) (h.place hplace) (.unary h.orderly op hv)
  | binary pos op left right =>
    have hright := hexpr right (List.mem_cons_of_mem _ List.mem_cons_self)
    cases op with
    | connective c => exact .connect c (hexpr left List.mem_cons_self) hright here
    | operator op =>
      refine (hexpr left List.mem_cons_self here).bind fun a m₁ h₁ ha => ?_
      refine (hright (S.later here h₁)).bind fun b _ h₂ hb => ?_
      have h := h₁.trans h₂
      exact .operateAt (h.suits hadmits.toSuits) (h.place hplace)
        (.operator h.orderly op (ha.later h₂.leads) hb)
  | preStep pos step target =>
    exact .map (.count hadmits step hplace
      (S.place here _ (List.mem_cons_of_mem _ List.mem_cons_self))
      (S.frees here _ List.mem_cons_self)) fun _ _ h => (knows_pair.1 h).2
  | postStep pos step target =>
    exact .map (.count hadmits step hplace
      (S.place here _ (List.mem_cons_of_mem _ List.mem_cons_self))
      (S.frees here _ List.mem_cons_self)) fun _ _ h => (knows_pair.1 h).1
  | call pos callee args =>
    refine (hexpr callee List.mem_cons_self here).bind fun f m₁ h₁ hf => ?_
    have here₁ := S.later here h₁
    refine (exprs (fun e h => hexpr e (List.mem_cons_of_mem _ h)) here₁).bind
      fun vs m₂ h₂ hvs => ?_
    exact .callValue S (S.calling hpos (S.later here₁ h₂)) (hf.later h₂.leads) hvs
  | index pos object i =>
    have hindex := hexpr i (List.mem_cons_of_mem _ List.mem_cons_self)
    refine (hexpr object List.mem_cons_self here).bind fun o m₁ h₁ ho => ?_
    refine (hindex (S.later here h₁)).bind fun i _ h₂ hi => ?_
    have h := h₁.trans h₂
    exact .operateAt (h.suits hadmits.toSuits) (h.place hplace)
      (.index h.orderly i (ho.later h₂.leads))
  | slice pos object start stop =>
    have hparts : ∀ e, e = object ∨ e ∈ start ∨ e ∈ stop →
        e ∈ (Code.expr (.slice pos object start stop)).exprs := by
      intro e he
      simpa [Code.exprs, Expr.parts] using he
    refine (hexpr object (hparts object (.inl rfl)) here).bind fun o m₁ h₁ ho => ?_
    have here₁ := S.later here h₁
    refine (expr? (fun e h => hexpr e (hparts e (.inr (.inl h)))) here₁).bind
      fun a m₂ h₂ ha => ?_
    have here₂ := S.later here₁ h₂
    refine (expr? (fun e h => hexpr e (hparts e (.inr (.inr h)))) here₂).bind
      fun b m₃ h₃ hb => ?_
    have h := (h₁.trans h₂).trans h₃
    exact .operateAt (h.suits hadmits.toSuits) (h.place hplace)
      (.slice h.orderly a b ((ho.later h₂.leads).later h₃.leads))
  | attr object id =>
    refine (hexpr object List.mem_cons_self here).follow fun o m' hok h ho =>
      .attr (h.admits hadmits) (h.place hplace) ho ?_
    refine hm.wraps [o] m' ?_ o rfl
    filter_upwards [hok] with i hok
    exact Evaluator.exprs_cons_ok hok rfl
  | array pos elements =>
    exact (exprs hexpr here).bind fun vs _ h hvs => .create (makesArray h.orderly hvs.toArray)
  | tuple pos elements =>
    exact (exprs hexpr here).bind fun vs _ h hvs => .create (makesTuple h.orderly hvs.toArray)
  | map pos pairs =>
    refine (entries hexpr here).bind fun vs _ h₁ hvs => ?_
    refine (located (h₁.suits hadmits.toSuits) (h₁.place hplace) (knows_ofPairs hvs)).bind
      fun table _ h₂ ht => ?_
    exact .create (makesMap h₂.orderly ht)
  | template pos parts => exact .map (.fill hexpr "" here) fun _ _ _ => knows_plain rfl
  | super pos method =>
    exact .parentMethod hadmits hplace
      (S.place here _ (List.mem_cons_of_mem _ List.mem_cons_self))

end Abides

end Spellbook
