import Spellbook.Proofs.Evaluation.Statements
import Spellbook.Proofs.Failures.Store
import Spellbook.Proofs.Program.Parser.Proceeds.Programs

/-! Evaluations whose failures can be traced. They leave a store in order, which backs what they give
or raise, as long as the code that is evaluated was read from some text and so knows its places. -/
namespace Spellbook

open Estate

namespace Code.IsRead

variable {c : Code} (hc : c.IsRead)

include hc

theorem isKnown : ∀ pos ∈ c.places, pos.IsKnown := by
  obtain ⟨text, hc⟩ := hc
  cases c with
  | expr e => exact (placed_of_hasExpr hc).self
  | stmt s =>
    have hs := (placed_of_has hc).self
    refine List.forall_mem_append.2 ⟨hs.places, fun pos hp => ?_⟩
    obtain ⟨e, he, hp⟩ := List.mem_flatMap.1 hp
    exact (hs.trees e he).self pos hp
  | spell decl =>
    obtain ⟨s, hs, hd⟩ := hc
    refine List.forall_mem_singleton.2 ((placed_of_has hs).self.places _ ?_)
    cases s with
    | spell d => exact List.mem_singleton.1 hd ▸ List.mem_cons_self
    | grimoire d => exact List.mem_append_right _ (List.mem_map.2 ⟨decl, hd, rfl⟩)
    | _ => cases hd

theorem expr {e : Expr} (he : e ∈ c.exprs) : (Code.expr e).IsRead := hc.imp fun _ h => h.expr he

theorem stmt {s : Stmt} (hs : s ∈ c.stmts) : (Code.stmt s).IsRead := hc.imp fun _ h => h.stmt hs

theorem spell {decl : SpellDecl} (hd : decl ∈ c.spells) : (Code.spell decl).IsRead :=
  hc.imp fun _ h => h.spell hd

end Code.IsRead

/-- What is known is backed, and failures say places that are known. -/
def tracing (ι : Type) [Nonempty ι] : Logic ι where
  holds s i := ∀ v, i = .value v → s.Backs v
  Leads := Store.Leads
  trans := Store.Leads.trans
  settled h := h.inOrder.refl
  later h hl v hv := (h v hv).grow hl.grows
  plain h v hv := by
    cases hv
    exact Store.backs_plain h
  reads hs hi h v hv := by
    cases hv
    exact hs.inOrder.reads hi h
  newArray hs hxs := ⟨hs.inOrder.newArray fun v hv => hxs v hv v rfl, by rintro _ ⟨⟩; trivial⟩
  newTuple hs hxs := ⟨hs.inOrder.newTuple fun v hv => hxs v hv v rfl, by rintro _ ⟨⟩; trivial⟩
  newMap hs ht := ⟨hs.inOrder.newMap fun e he => (ht e he).imp (· _ rfl) (· _ rfl), by
    rintro _ ⟨⟩; trivial⟩
  newError {s f} hs hf := by
    refine ⟨hs.inOrder.newFailure f, ?_⟩
    rintro _ ⟨⟩
    obtain ⟨name, message, rfl⟩ := hf
    exact ⟨_, Array.getElem?_push_size, _, rfl⟩
  setElement i _ hs _ hv := hs.inOrder.setElement _ i (hv _ rfl)
  setEntry hs _ hn hv := hs.inOrder.setEntry _ (hn _ rfl) (hv _ rfl)
  family := ⊤
  proper := inferInstance
  alarm := none
  ends := False
  heard := nofun
  fits _ := True
  place l := l.isKnown = true
  spell decl := (Code.spell decl).IsRead
  closer _ := True
  binds _ _ _ _ := True
  receives _ _ _ _ := True
  stands _ _ := True
  declares _ _ _ := True
  fits_later _ _ _ := trivial
  binds_later _ _ _ := trivial
  receives_later _ _ _ _ := trivial
  home _ _ _ := trivial
  inward _ _ _ := trivial
  exports _ _ _ _ := trivial
  ofSpell hs h := hs.inOrder.declares.of_spell? h
  ofMethod hs _ h := ⟨hs.inOrder.declares.of_method? h, trivial⟩
  ofGrimoire hs h := hs.inOrder.declares.of_findMethod? h
  ofObject _ _ _ := trivial
  ofInit hs _ h := ⟨hs.inOrder.declares.of_findInit? h, trivial⟩
  ofSuper _ _ _ _ _ := trivial
  newSpell hs _ hf := ⟨hs.inOrder.newSpell hf, by rintro _ ⟨⟩; trivial⟩
  newMethod hs hv _ hf _ := ⟨hs.inOrder.newMethod (hv _ rfl) hf, by rintro _ ⟨⟩; trivial⟩
  newObject hs _ ho _ :=
    ⟨hs.inOrder.newObject fun entry he => ho entry he _ rfl, by rintro _ ⟨⟩; trivial⟩
  newGrimoire hs _ _ _ _ hi hm := ⟨⟨.refl _, { hs.inOrder with
    declares := hs.inOrder.declares.newGrimoire hi (Demand.meets_table hm) }⟩, by
      rintro _ ⟨⟩; trivial⟩
  newSpace hs _ := ⟨hs.inOrder.newSpace _, by rintro _ ⟨⟩; trivial⟩
  opened hs _ := ⟨hs.inOrder.openScope _, nofun⟩
  entered hs hv _ _ := ⟨hs.inOrder.entered (hv _ rfl) _, nofun⟩
  define hs _ hv _ := hs.inOrder.define _ _ (hv _ rfl)
  declareGlobal name hs _ := hs.inOrder.withScopes (hs.inOrder.scopes.declareGlobal _ name)
  setField name _ hs _ hv := hs.inOrder.setField _ name (hv _ rfl)
  raise {m f} hs _ hf _ := by
    refine ⟨hs.inOrder.newFailure f, ?_⟩
    rintro _ ⟨⟩
    exact ⟨f, Array.getElem?_push_size, hf.located⟩

/-- The members of the family agree on an outcome that leaves a store in order, which backs what is
given or raised. -/
abbrev Reliable {ι α : Type} [Nonempty ι] [Bearing α] (x : ι → Eval α) (m : Machine) : Prop :=
  Abides (tracing ι) x m

theorem Reliable.agreed {ι α : Type} [Nonempty ι] [Bearing α] {x : ι → Eval α} {m : Machine}
    (h : Reliable x m) : ∃ r, (∀ i, x i m = r) ∧ (tracing ι).Allows m r := by
  obtain ⟨r, hr, hallows⟩ := Abides.agreed h nofun
  exact ⟨r, Filter.eventually_top.1 hr, hallows⟩

section Evaluators

variable {ι : Type} [Nonempty ι]

theorem tracing_admits {m : Machine} (hm : m.store.InOrder) : (tracing ι).Admits m :=
  ⟨⟨hm.refl, trivial⟩, knows_scope.2 nofun⟩

/-- Whatever the evaluators evaluate that was read from a text is reliable. -/
structure Trusted (E : ι → Evaluator) : Prop where
  expr : ∀ {e}, (Code.expr e).IsRead → (tracing ι).ground.Takes E e
  stmt : ∀ {s}, (Code.stmt s).IsRead → (tracing ι).ground.Does E s
  spell : ∀ start {decl args m}, (Code.spell decl).IsRead → (tracing ι).Admits m →
    (tracing ι).Knows m.store args → Reliable (fun i => (E i).spell start decl args) m
  turns : ∃ n, ∀ i, (E i).turns = n

variable {E : ι → Evaluator} {c : Code} {m : Machine}

def Trusted.site (hE : Trusted E) (w : World) (hc : c.IsRead) : Site (tracing ι) w E c where
  toGround := (tracing ι).ground
  calls _ m := m.store.InOrder
  nested h := tracing_admits (h.orderly.inOrder.openScope _).inOrder
  expr _ he := hE.expr (hc.expr he)
  stmt _ hs := hE.stmt (hc.stmt hs)
  place _ pos hp := decide_eq_true (hc.isKnown pos hp)
  frees _ _ _ _ := trivial
  catches _ _ _ _ := trivial
  spells _ hd := ⟨hc.spell hd, fun _ => trivial⟩
  call h _ _ _ _ := h.orderly.inOrder
  close h := h.orderly.inOrder
  orderly h := h.refl
  onward _ hg := hg.leads.inOrder
  starting h _ ha hd _ :=
    have hopened := h.openScope _
    hE.spell _ hd (tracing_admits hopened.inOrder) (ha.later hopened)
  receiving h hv _ ha _ hd _ :=
    have hentered := h.entered (knows_value.1 hv _ rfl) _
    hE.spell _ hd (tracing_admits hentered.inOrder) (ha.later hentered)
  entering h _ _ _ _ :=
    .program (G := (tracing ι).ground) (fun _ hs => hE.stmt ⟨_, .top hs⟩) false
      (tracing_admits (h.orderly.inOrder.openScope _).inOrder)
  turns _ _ _ := ⟨id, hE.turns.imp fun _ h => .of_forall h⟩

namespace Trusted

variable (hE : Trusted E) {w : World} (hm : m.store.InOrder)

include hE hm

theorem evalExpr {e : Expr} (he : (Code.expr e).IsRead) :
    Reliable (fun i => (E i).evalExpr w e) m :=
  .evalExpr (hE.site w he)
    ⟨tracing_admits hm, fun _ _ => trivial, fun _ _ _ _ _ _ _ _ => trivial⟩

theorem evalStmt {s : Stmt} (hs : (Code.stmt s).IsRead) :
    Reliable (fun i => (E i).evalStmt w s) m :=
  .evalStmt (hE.site w hs)
    ⟨tracing_admits hm, fun _ _ => trivial, fun _ _ _ _ _ _ _ _ => trivial⟩

theorem body {decl : SpellDecl} (hd : (Code.spell decl).IsRead) {args : List Value}
    (ha : (tracing ι).Knows m.store args) : Reliable (fun i => (E i).body w decl args) m :=
  .body (fun _ he => hE.expr (hd.expr he)) (fun _ hs => hE.stmt (hd.stmt hs)) (tracing_admits hm)
    (decide_eq_true (hd.isKnown _ List.mem_cons_self)) ha fun _ _ _ => trivial

theorem program {text : String} (runMain : Bool) :
    Reliable (fun i => (E i).program (parse text).program runMain) m :=
  .program (fun _ hs => hE.stmt ⟨text, .top hs⟩) runMain (tracing_admits hm)

end Trusted

end Evaluators

end Spellbook
