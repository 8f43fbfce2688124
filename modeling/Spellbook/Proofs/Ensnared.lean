import Spellbook.Proofs.Evaluation.Laws
import Spellbook.Proofs.Termination

/-! Handlers and what they catch. A handler that binds what it catches under a name of its own
always finds it there. One whose condition is a bare name does so only while the name means nothing:
once it means an error that was caught before, the handler is for errors with the name of that one,
and goes on to see that one. -/
namespace Spellbook

def Machine.meaning (m : Machine) (name : String) : Option Value :=
  m.store.scopes.get? m.scope name

theorem Machine.meaning_define_self {m : Machine} (hm : m.scope.index < m.store.scopes.scopes.size)
    (name : String) (v : Value) : (m.define name v).meaning name = some v :=
  Forest.get?_define_self hm

theorem Machine.meaning_define_ne (m : Machine) {name other : String} (v : Value)
    (hne : other ≠ name) : (m.define name v).meaning other = m.meaning other :=
  Forest.get?_define_ne m.scope hne

/-- Nothing binds the name in all that a program may come to evaluate, handlers apart. -/
structure Program.OnlyCatches (w : World) (p : Program) (name : String) : Prop where
  builtin : ∀ b : Builtin, b.name ≠ name
  code : ∀ q c, p.Reaches w q → q.HasCode c → name ∉ c.names

/-! Dispatch -/

namespace Evaluator

variable (E : Evaluator) (r : Ref .failure)

/-- The handlers are asked one after the other, and are not for the failure. -/
inductive Declines : List Ensnare → Machine → Machine → Prop where
  | nil {m : Machine} : Declines [] m m
  | cons {h : Ensnare} {rest : List Ensnare} {m m₁ m₂ : Machine} :
      E.handles h r m = .ok false m₁ → Declines rest m₁ m₂ → Declines (h :: rest) m m₂

/-- The handler is for the failure, and its body starts in `m'`. -/
def Catches (h : Ensnare) (m m' : Machine) : Prop :=
  ∃ m₁, E.handles h r m = .ok true m₁ ∧ m' = h.prepared r m₁

def Meets (c : Code) (m : Machine) (h : Ensnare) (m' : Machine) : Prop :=
  ∃ pos body before after resolve m₁,
    c = .stmt (.attempt pos body (before ++ h :: after) resolve) ∧
      E.block body m = .error (.raised r) m₁ ∧ E.Declines r before m₁ m'

variable {E r}

theorem Declines.dispatch {before : List Ensnare} {m m' : Machine} (h : E.Declines r before m m')
    (rest : List Ensnare) : E.dispatch r (before ++ rest) m = E.dispatch r rest m' := by
  induction h with
  | nil => rfl
  | cons hfirst _ ih =>
    simp only [List.cons_append, Evaluator.dispatch, Bind.bind, EStateM.bind, hfirst] at ih ⊢
    exact ih

theorem Catches.dispatch {h : Ensnare} {m m' : Machine} (hc : E.Catches r h m m')
    (rest : List Ensnare) : E.dispatch r (h :: rest) m = E.block h.body m' := by
  obtain ⟨m₁, hhandles, rfl⟩ := hc
  simp only [Evaluator.dispatch, Bind.bind, EStateM.bind, hhandles, if_true, handle_eq]

end Evaluator

/-! One handler -/

/-- What a handler makes of a failure that gets to it in `m`, as far as a name goes that nothing but
handlers bind. -/
structure Ensnare.Treats (h : Ensnare) (E : Evaluator) (name : String) (r : Ref .failure)
    (m : Machine) : Prop where
  /-- The name means nothing, or an error that was caught. -/
  meaning : ∀ v, m.meaning name = some v → ∃ r₀, v = .caught r₀
  /-- A handler without a condition is for every failure. -/
  always : h.condition = none → ∃ m', E.Catches r h m m'
  /-- A handler that binds the name as its own sees what it has caught. -/
  binder : h.binder.map (·.name) = some name → ∀ m', E.Catches r h m m' →
    m'.meaning name = some (.caught r)
  /-- A handler that has the name as its condition is for every failure as long as the name means
  nothing, and sees what it has caught. -/
  fresh : h.condition.bind Expr.name? = some name → m.meaning name = none →
    ∃ m', E.Catches r h m m' ∧ m'.meaning name = some (.caught r)
  /-- Once the name means an error that was caught, the handler is for errors with the name of that
  one, and sees that one. -/
  stale : h.condition.bind Expr.name? = some name → ∀ r₀, m.meaning name = some (.caught r₀) →
    ((∃ m', E.Catches r h m m') ↔ (m.store.failure r).name = (m.store.failure r₀).name) ∧
      (h.binder.map (·.name) ≠ some name → ∀ m', E.Catches r h m m' →
        m'.meaning name = some (.caught r₀))

namespace Ensnare

variable {h : Ensnare} {E : Evaluator} {name : String} {r : Ref .failure} {m : Machine}

theorem condition_eq (hc : h.condition.bind Expr.name? = some name) :
    ∃ id : Ident, h.condition = some (.name id) ∧ id.name = name := by
  obtain ⟨e, he, hname⟩ := Option.bind_eq_some_iff.1 hc
  cases e with
  | name id => exact ⟨id, he, Option.some.inj hname⟩
  | _ => cases hname

theorem fresh?_eq_some (hc : h.condition.bind Expr.name? = some name)
    (hm : m.meaning name = none) : h.fresh? m = some name := by
  simp only [fresh?, hc, Option.filter, Machine.meaning] at hm ⊢
  simp [hm]

theorem fresh?_eq_none {v : Value} (hc : h.condition.bind Expr.name? = some name)
    (hm : m.meaning name = some v) : h.fresh? m = none := by
  simp only [fresh?, hc, Option.filter, Machine.meaning] at hm ⊢
  simp [hm]

theorem handles_always (hc : h.condition = none) : E.handles h r m = .ok true m := by
  simp only [Evaluator.handles, hc]
  rfl

theorem handles_fresh (hc : h.condition.bind Expr.name? = some name) (hm : m.meaning name = none) :
    E.handles h r m = .ok true m := by
  obtain ⟨id, hid, _⟩ := condition_eq hc
  simp only [Evaluator.handles, hid, Bind.bind, EStateM.bind, Evaluator.catchAll?_eq,
    fresh?_eq_some hc hm]
  rfl

theorem handles_bound {w : World} {fuel : Nat} {v : Value}
    (hc : h.condition.bind Expr.name? = some name) (hm : m.meaning name = some v) :
    (evaluator w (fuel + 1)).handles h r m = .ok (m.store.isKind (m.store.failure r) v) m := by
  obtain ⟨id, hid, rfl⟩ := condition_eq hc
  have hexpr : (evaluator w (fuel + 1)).expr (.name id) m = .ok v m := by
    have hget : m.store.scopes.get? m.scope id.name = some v := hm
    simp only [evaluator, Evaluator.evalExpr, Eval.lookup, Eval.get?, Eval.look, Bind.bind,
      EStateM.bind, hget]
    rfl
  simp only [Evaluator.handles, hid, Bind.bind, EStateM.bind, Evaluator.catchAll?_eq,
    fresh?_eq_none hc hm, Option.isSome_none, Bool.false_eq_true, if_false, hexpr, Eval.view]

theorem meaning_prepared_binder (hm : m.scope.index < m.store.scopes.scopes.size)
    (hb : h.binder.map (·.name) = some name) :
    (h.prepared r m).meaning name = some (.caught r) := by
  obtain ⟨id, hid, rfl⟩ := Option.map_eq_some_iff.1 hb
  simp only [prepared, binds, hid, Option.toList_some, List.map_cons, List.map_nil,
    List.foldl_append, List.foldl_cons, List.foldl_nil]
  refine Machine.meaning_define_self ?_ _ _
  cases h.fresh? m with
  | none => exact hm
  | some other => simpa [Machine.define] using hm

theorem meaning_prepared_fresh (hm : m.scope.index < m.store.scopes.scopes.size)
    (hf : h.fresh? m = some name) : (h.prepared r m).meaning name = some (.caught r) := by
  by_cases hb : h.binder.map (·.name) = some name
  · exact meaning_prepared_binder hm hb
  · have hself := Machine.meaning_define_self hm name (.caught r)
    simp only [prepared, binds, hf]
    cases hid : h.binder with
    | none => exact hself
    | some id =>
      have hne : name ≠ id.name := fun heq => hb (by simp [hid, heq])
      simpa using (Machine.meaning_define_ne _ _ hne).trans hself

theorem meaning_prepared_stale (hf : h.fresh? m = none)
    (hb : h.binder.map (·.name) ≠ some name) : (h.prepared r m).meaning name = m.meaning name := by
  simp only [prepared, binds, hf]
  cases hid : h.binder with
  | none => rfl
  | some id =>
    have hne : name ≠ id.name := fun heq => hb (by simp [hid, heq])
    simpa using Machine.meaning_define_ne m (.caught r) hne

/-- The state is one in which the name means nothing or an error that was caught, and asking the
handler leaves the machine in a scope that is there. -/
theorem treats {w : World} {fuel : Nat}
    (hm : m.scope.index < m.store.scopes.scopes.size)
    (hn : ∀ v, m.meaning name = some v → ∃ r₀, v = .caught r₀)
    (hasked : ∀ b m', (evaluator w (fuel + 1)).handles h r m = .ok b m' →
      m'.scope.index < m'.store.scopes.scopes.size) :
    h.Treats (evaluator w (fuel + 1)) name r m where
  meaning := hn
  always hc := ⟨_, m, handles_always hc, rfl⟩
  binder := by
    rintro hb _ ⟨m₁, hhandles, rfl⟩
    exact meaning_prepared_binder (hasked true m₁ hhandles) hb
  fresh hc hnone :=
    ⟨_, ⟨m, handles_fresh hc hnone, rfl⟩, meaning_prepared_fresh hm (fresh?_eq_some hc hnone)⟩
  stale := by
    intro hc r₀ hstale
    have hhandles : (evaluator w (fuel + 1)).handles h r m = .ok _ m := handles_bound hc hstale
    have hkind : m.store.isKind (m.store.failure r) (.caught r₀) = true ↔
        (m.store.failure r).name = (m.store.failure r₀).name := by
      simp [Store.isKind]
    refine ⟨⟨?_, fun hsame => ?_⟩, ?_⟩
    · rintro ⟨_, m₁, hyes, _⟩
      rw [hhandles] at hyes
      exact hkind.1 (EStateM.Result.ok.inj hyes).1
    · exact ⟨_, m, by rw [hhandles, hkind.2 hsame], rfl⟩
    · rintro hb _ ⟨m₁, hyes, rfl⟩
      rw [hhandles] at hyes
      obtain rfl := (EStateM.Result.ok.inj hyes).2
      exact (meaning_prepared_stale (fresh?_eq_none hc hstale) hb).trans hstale

end Ensnare

/-! Runs -/

/-- Nothing but errors that were caught are bound to the name, all that is evaluated being code of
the program and its modules. -/
def Law.onlyCatches (w : World) (p : Program) (name : String) : Law where
  fits _ c := ∃ q, p.Reaches w q ∧ q.HasCode c
  spell decl := ∃ q, p.Reaches w q ∧ q.HasCode (.spell decl)
  binding other v := other = name → ∃ r, v = .caught r
  place _ := True

variable {w : World} {p : Program} {name : String}

theorem Law.sound_onlyCatches (hn : p.OnlyCatches w name) : (Law.onlyCatches w p name).Sound w where
  expr := fun ⟨q, hq, hc⟩ he => ⟨q, hq, hc.expr he⟩
  stmt := fun ⟨q, hq, hc⟩ hs => ⟨q, hq, hc.stmt hs⟩
  spell := fun ⟨q, hq, hc⟩ hd => ⟨q, hq, hc.spell hd⟩
  names := fun ⟨q, hq, hc⟩ hmem _ heq => absurd (heq ▸ hmem) (hn.code q _ hq hc)
  catches _ _ r _ := ⟨r, rfl⟩
  place _ _ := trivial
  load := fun ⟨_, hq, hc⟩ hread hclean _ hs => ⟨_, .load hq hc hread hclean, .top hs⟩

theorem Program.OnlyCatches.follows_initial (hn : p.OnlyCatches w name) (file : Option String) :
    Machine.Follows (Law.onlyCatches w p name) (.initial file) :=
  ⟨Store.outermost_initial, Store.follows_initial fun b heq => absurd heq (hn.builtin b), nofun⟩

/-- A block that fails has been given the fuel for one statement at least. -/
theorem Evaluator.pos_of_block_raised {fuel : Nat} {body : List Stmt} {m m' : Machine}
    {r : Ref .failure} (h : (evaluator w fuel).block body m = .error (.raised r) m') :
    ∃ less, fuel = less + 1 := by
  cases fuel with
  | succ less => exact ⟨less, rfl⟩
  | zero => cases body <;> cases h

theorem Law.Admits.asked {L : Law} {fuel : Nat} {c : Code} {m m' : Machine} {h : Ensnare}
    {r : Ref .failure} {b : Bool} (hL : L.Sound w) (hE : Obeys L ((), ()) fun _ => evaluator w fuel)
    (hc : L.Admits m c) (he : ∀ e ∈ h.condition, e ∈ c.exprs)
    (hb : (evaluator w fuel).handles h r m = .ok b m') : L.Admits m' c := by
  have hhandles : Upholds L ((), ()) (fun _ => (evaluator w fuel).handles h r) m :=
    .handles (G := L.ground ((), ()) m.file)
      (fun e h => Law.takes hL hE hc.fits (he e h)) r ⟨hc.follows, rfl⟩
  have hallows := hhandles.allows
  rw [hb] at hallows
  exact hc.later hallows

theorem Evaluator.Declines.admits {L : Law} {fuel : Nat} {c : Code} {m m' : Machine}
    {before : List Ensnare} {r : Ref .failure} (hL : L.Sound w)
    (hE : Obeys L ((), ()) fun _ => evaluator w fuel)
    (hd : (evaluator w fuel).Declines r before m m') (hc : L.Admits m c)
    (he : ∀ g ∈ before, ∀ e ∈ g.condition, e ∈ c.exprs) : L.Admits m' c := by
  induction hd with
  | nil => exact hc
  | cons hfirst _ ih =>
    obtain ⟨hask, hrest⟩ := List.forall_mem_cons.1 he
    exact ih (hc.asked hL hE hask hfirst) hrest

/-- A failure that gets to a handler finds the law kept by all that was evaluated before. -/
theorem Evaluator.Meets.treats (hn : p.OnlyCatches w name) {fuel : Nat} {c : Code} {m m' : Machine}
    {h : Ensnare} {r : Ref .failure} (hc : (Law.onlyCatches w p name).Admits m c)
    (hmeets : (evaluator w fuel).Meets r c m h m') : h.Treats (evaluator w fuel) name r m' := by
  obtain ⟨pos, body, before, after, resolve, m₁, rfl, hblock, hdeclines⟩ := hmeets
  have hL := Law.sound_onlyCatches hn
  have hE := Law.obeys_evaluator hL (fun _ hd => hd) fuel
  have hcond : ∀ g ∈ before ++ h :: after, ∀ e ∈ g.condition,
      e ∈ (Code.stmt (.attempt pos body (before ++ h :: after) resolve)).exprs :=
    fun g hg e he => List.mem_filterMap.2 ⟨g, hg, he⟩
  have hc₁ : (Law.onlyCatches w p name).Admits m₁
      (.stmt (.attempt pos body (before ++ h :: after) resolve)) := by
    have hupholds : Upholds _ ((), ()) (fun _ => (evaluator w fuel).block body) m :=
      .block (G := Law.ground _ ((), ()) m.file) (fun s hs => Law.does hL hE hc.fits
        (List.mem_append_left _ (List.mem_append_left _ hs))) ⟨hc.follows, rfl⟩
    have hallows := hupholds.allows
    rw [hblock] at hallows
    exact hc.later hallows
  have hc' := hdeclines.admits hL hE hc₁ fun g hg => hcond g (List.mem_append_left _ hg)
  obtain ⟨less, rfl⟩ := Evaluator.pos_of_block_raised hblock
  refine Ensnare.treats hc'.follows.scope (fun v hv => hc'.store.bindings.get? hv rfl)
    fun b m'' hb => ?_
  exact (hc'.asked hL hE (hcond h (by simp)) hb).follows.scope

/-- All through a run of a program in which nothing but handlers bind a name, a handler that binds
the name as its own sees what it has caught, and one that has it as its condition does so while it
means nothing; once it means an error that was caught before, the handler is only for errors with
the name of that one and sees that one. What a handler sees is what its body starts with: handlers
that are not for a failure are passed over, and the first that is runs its body. -/
theorem handlers_see_caught (w : World) (p : Program) (name : String)
    (hn : p.OnlyCatches w name) (fuel : Nat) (file : Option String) :
    (Throughout w fuel p Forest.outermost (.initial file) fun c m =>
      ∀ fuel h r m', (evaluator w fuel).Meets r c m h m' → h.Treats (evaluator w fuel) name r m') ∧
    ∀ (E : Evaluator) r before h after m m' m'', E.Declines r before m m' →
      E.Catches r h m' m'' → E.dispatch r (before ++ h :: after) m = E.block h.body m'' := by
  refine ⟨?_, fun E r before h after m m' m'' hd hc => ?_⟩
  · have hlaw := (Law.throughout (Law.sound_onlyCatches hn) (fun _ hd _ => hd)
      (hn.follows_initial file) (fun s hs => ⟨p, .self, .top hs⟩)
      (throughout_true w fuel p Forest.outermost (.initial file))).1
    exact hlaw.imp fun c m hc fuel h r m' hmeets => hmeets.treats hn hc.1
  · rw [hd.dispatch, hc.dispatch]

/-! A handler in a loop -/

def Code.handlers : Code → List Ensnare
  | .stmt s => s.handlers
  | _ => []

def World.empty : World := ⟨.none, ⟨"."⟩, 50, 8⟩

/-- A loop over `[0, 9]` that raises `[Error("E", "x")][i]` in an attempt: first an error of the
script's own, and then there is no such index. The handler stands at 4:5. -/
def raisingLoop (condition : Option Expr) (binder : Option Ident) : Program :=
  let error : Expr := .call ⟨3, 21⟩ (.name ⟨"Error", 3, 16⟩)
    [.literal ⟨3, 22⟩ (.str "E"), .literal ⟨3, 27⟩ (.str "x")]
  let body : List Stmt :=
    [.raise ⟨3, 9⟩ (.index ⟨3, 32⟩ (.array ⟨3, 15⟩ [error]) (.name ⟨"i", 3, 33⟩))]
  let shown : List Stmt :=
    [.expr (.call ⟨5, 14⟩ (.name ⟨"print", 5, 9⟩)
      [.attr (.name ⟨"problem", 5, 15⟩) ⟨"message", 5, 23⟩])]
  ⟨[.each ⟨1, 1⟩ (.one ⟨"i", 1, 5⟩)
    (.array ⟨1, 10⟩ [.literal ⟨1, 11⟩ (.int 0), .literal ⟨1, 14⟩ (.int 9)])
    [.attempt ⟨2, 5⟩ body [⟨⟨4, 5⟩, condition, binder, shown⟩] none] none]⟩

theorem Program.Reaches.eq_of_empty {p q : Program} (h : p.Reaches .empty q) : q = p := by
  cases h with
  | self => rfl
  | load _ _ hread _ => cases hread

theorem raisingLoop_onlyCatches {condition : Option Expr} {binder : Option Ident}
    (h : passesWithin (!·.names.contains "problem") 3
      (raisingLoop condition binder).statements = true) :
    (raisingLoop condition binder).OnlyCatches .empty "problem" where
  builtin b := by cases b <;> decide
  code q c hq hc := by
    obtain rfl := hq.eq_of_empty
    simpa using hc.passes (!·.names.contains "problem") 3 h

theorem handlers_see_caught_loop :
    Throughout .empty 20 (raisingLoop none (some ⟨"problem", 4, 16⟩)) Forest.outermost
      (.initial none) fun c m => ∀ fuel h r m', (evaluator .empty fuel).Meets r c m h m' →
        h.Treats (evaluator .empty fuel) "problem" r m' := by
  exact (handlers_see_caught .empty _ "problem" (raisingLoop_onlyCatches (by decide +kernel)) 20
    none).1

/-- The handlers that bind the name all stand at one place. -/
def Program.OneCatches (w : World) (p : Program) (name : String) : Prop :=
  ∃ pos, ∀ q s, p.Reaches w q → q.Has s → ∀ h ∈ s.handlers, name ∈ h.names → h.pos = pos

/-- The handler is meant for every failure, and to bind it to the name. -/
def Ensnare.IsCatchAll (h : Ensnare) (name : String) : Prop :=
  h.condition = none ∧ h.binder.map (·.name) = some name ∨
    h.condition.bind Expr.name? = some name ∧ h.binder = none

/-- The attempt is one whose handler is meant for every failure, and catches all that gets to it and
sees it. -/
def Code.SeesCaught (w : World) (name : String) (c : Code) (m : Machine) : Prop :=
  ∀ fuel h r m', (evaluator w fuel).Meets r c m h m' → h.IsCatchAll name →
    ∃ m'', (evaluator w fuel).Catches r h m' m'' ∧ m''.meaning name = some (.caught r)

/-- Whether an attempt fails, and its only handler, which has the name as its condition, is not for
the failure. -/
def Code.misses (E : Evaluator) (name : String) : Code → Machine → Bool
  | .stmt (.attempt _ body [h] _), m =>
    match E.block body m with
    | .error (.raised r) m₁ =>
      match E.handles h r m₁ with
      | .ok false _ => (h.condition.bind Expr.name? == some name) && h.binder.isNone
      | _ => false
    | _ => false
  | _, _ => false

theorem Code.SeesCaught.not_misses {w : World} {name : String} {c : Code} {m : Machine}
    (hsees : c.SeesCaught w name m) (fuel : Nat) :
    c.misses (evaluator w fuel) name m = false := by
  unfold Code.misses
  split
  · rename_i pos body h resolve
    split
    · rename_i r m₁ hblock
      split
      · rename_i m₂ hhandles
        by_contra htrue
        obtain ⟨hcond, hbinder⟩ := Bool.and_eq_true_iff.1 (Bool.eq_true_of_not_eq_false htrue)
        obtain ⟨_, ⟨_, hyes, _⟩, _⟩ := hsees fuel h r m₁
          ⟨pos, body, [], [], resolve, m₁, rfl, hblock, .nil⟩
          (.inr ⟨eq_of_beq hcond, Option.isNone_iff_eq_none.1 hbinder⟩)
        rw [hhandles] at hyes
        cases hyes
      · rfl
    · rfl
  · rfl

/-- In the second turn of a loop the name means what was caught in the first, and the failure is not
caught. -/
theorem not_handlers_see_caught :
    ¬ ∀ (w : World) (p : Program) (name : String), p.OnlyCatches w name → p.OneCatches w name →
      ∀ fuel file,
        Throughout w fuel p Forest.outermost (.initial file) (Code.SeesCaught w name) := by
  intro h
  have hone : (raisingLoop (some (.name ⟨"problem", 4, 13⟩)) none).OneCatches .empty "problem" := by
    refine ⟨⟨4, 5⟩, fun q s hq hs g hg _ => ?_⟩
    rw [hq.eq_of_empty] at hs
    have hcode : (raisingLoop (some (.name ⟨"problem", 4, 13⟩)) none).HasCode (.stmt s) := hs
    have hplace := hcode.passes (·.handlers.all (·.pos = ⟨4, 5⟩)) 3 (by decide +kernel)
    simpa using List.all_eq_true.1 hplace g hg
  have hsees := h .empty (raisingLoop (some (.name ⟨"problem", 4, 13⟩)) none) "problem"
    (raisingLoop_onlyCatches (by decide +kernel)) hone 20 none
  exact not_throughout (by decide +kernel) (by decide +kernel)
    (hsees.imp fun c m hc => hc.not_misses 9)

end Spellbook
