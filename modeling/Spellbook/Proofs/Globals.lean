import Spellbook.Proofs.Instances
import Spellbook.Proofs.ScopeChain

/-! Names that are declared global. A scope keeps to its declarations, and what is assigned in that
very scope to a name that it declares global is bound in the outermost scope. The body of a `with`
statement has a scope of its own, which starts without such declarations. -/
namespace Spellbook

open Region Refers

namespace Forest

variable {α : Type} {f g : Forest α} {r d q : Ref .scope} {name : String} {v : α}

/-- The scopes are all around or inside the outermost one, and enclosed by older ones. -/
structure Rooted (f : Forest α) : Prop where
  layered : f.Layered
  single : ∀ r : Ref .scope, r.index < f.scopes.size → (f.scope r).parent = none → r = outermost

/-- What becomes of the scopes `f` by an assignment in scope `r`. -/
structure Assigned (f : Forest α) (r : Ref .scope) (name : String) (v : α) (g : Forest α) :
    Prop where
  /-- One binding changes. -/
  rebound : f.Rebound (f.home r name) name v g
  marked : f.isGlobal r name = true → f.home r name = outermost
  seen : f.isGlobal r name = true → (∀ d, f.Nearest r name d → d = outermost) →
    g.get? r name = some v
  /-- A binding that is nearer than the outermost scope still hides what is bound there. -/
  hidden : f.isGlobal r name = true → ∀ d, f.Nearest r name d → d ≠ outermost →
    g.get? r name = f.getLocal? d name
  nearest : f.isGlobal r name = false → ∀ d, f.Nearest r name d → f.home r name = d
  fresh : f.isGlobal r name = false → (∀ d, ¬ f.Nearest r name d) → f.home r name = r
  read : f.isGlobal r name = false → g.get? r name = some v

theorem lt_size_of_isGlobal (h : f.isGlobal r name = true) : r.index < f.scopes.size := by
  by_contra hr
  have hnone : f.scopes[r.index]? = none := Array.getElem?_eq_none (Nat.le_of_not_lt hr)
  simp [isGlobal, scope, Array.getD_eq_getD_getElem?, hnone] at h

theorem index_root_le (f : Forest α) (r : Ref .scope) : (f.root r).index ≤ r.index := by
  fun_induction f.root r with
  | case1 r p _ hlt ih => exact Nat.le_trans ih (Nat.le_of_lt hlt)
  | case2 => exact Nat.le_refl _
  | case3 => exact Nat.le_refl _

theorem index_home_lt (f : Forest α) (hr : r.index < f.scopes.size) (name : String) :
    (f.home r name).index < f.scopes.size := by
  unfold home
  split
  · exact Nat.lt_of_le_of_lt (f.index_root_le r) hr
  · cases hd : f.definer? r name with
    | none => exact hr
    | some d => exact lt_size_of_getLocal? (isSome_of_definer? hd).1

theorem definer?_define_older (h : f.definer? r name = some d) (hq : q.index < d.index) (v : α) :
    (f.define q name v).definer? r name = some d := by
  fun_induction f.definer? r name with
  | case1 r hr =>
    obtain rfl : r = d := Option.some.inj h
    have hne : r ≠ q := fun heq => Nat.lt_irrefl _ (heq ▸ hq)
    exact definer?_of_getLocal? (by simpa [hne] using hr)
  | case2 r hr p hp hlt ih =>
    have hle := (isSome_of_definer? h).2
    have hne : r ≠ q := by
      rintro rfl
      omega
    have hnone : (f.define q name v).getLocal? r name = none := by simpa [hne] using hr
    rw [definer?_of_parent hnone (by simpa using hp) hlt]
    exact ih h
  | case3 => cases h
  | case4 => cases h

theorem definer?_define_root (h : f.definer? r name = none) (hr : r.index < f.scopes.size) (v : α) :
    (f.define (f.root r) name v).definer? r name = some (f.root r) := by
  fun_induction f.root r with
  | case1 r p hp hlt ih =>
    have hlocal : f.getLocal? r name = none := by
      by_contra hbound
      rw [definer?_of_getLocal? (Option.isSome_iff_ne_none.2 hbound)] at h
      cases h
    have hne : r ≠ f.root p := by
      intro heq
      have hle := f.index_root_le p
      rw [← heq] at hle
      omega
    have hnone : (f.define (f.root p) name v).getLocal? r name = none := by
      simpa [hne] using hlocal
    rw [definer?_of_parent hnone (by simpa using hp) hlt]
    exact ih (by rwa [definer?_of_parent hlocal hp hlt] at h) (Nat.lt_trans hlt hr)
  | case2 => exact definer?_define_self hr
  | case3 => exact definer?_define_self hr

namespace Rooted

variable (hf : f.Rooted)
include hf

theorem root_eq (hr : r.index < f.scopes.size) : f.root r = outermost :=
  hf.single _ (Nat.lt_of_le_of_lt (f.index_root_le r) hr) (hf.layered.parent_root r)

theorem define (q : Ref .scope) (name : String) (v : α) : (f.define q name v).Rooted where
  layered := by simpa only [Layered, parent_define] using hf.layered
  single r hr hp := hf.single r (by simpa using hr) (by simpa using hp)

theorem push {p : Ref .scope} (hp : p.index < f.scopes.size) : (f.push p).2.Rooted where
  layered r q h := by
    rw [scope_push] at h
    split at h
    · obtain rfl : p = q := Option.some.inj h
      omega
    · exact hf.layered r q h
  single r hr h := by
    rw [scope_push] at h
    split at h
    · cases h
    · rw [size_push] at hr
      exact hf.single r (by omega) h

theorem congr (hsize : g.scopes.size = f.scopes.size)
    (hparent : ∀ q, (g.scope q).parent = (f.scope q).parent) : g.Rooted where
  layered r p h := hf.layered r p (hparent r ▸ h)
  single r hr h := hf.single r (hsize ▸ hr) (hparent r ▸ h)

theorem assigned (hr : r.index < f.scopes.size) (name : String) (v : α) :
    f.Assigned r name v (f.define (f.home r name) name v) where
  rebound := rebound_define (f.index_home_lt hr name) name v
  marked hm := by rw [home, if_pos hm, hf.root_eq hr]
  seen hm hfar := by
    rw [home, if_pos hm]
    have hroot := hf.root_eq hr
    cases hd : f.definer? r name with
    | none =>
      have hsize : (f.root r).index < f.scopes.size :=
        Nat.lt_of_le_of_lt (f.index_root_le r) hr
      simp [get?, definer?_define_root hd hr, hsize]
    | some d =>
      obtain rfl := hfar d (hf.layered.nearest_iff.2 hd)
      rw [hroot, get?_define_bound hd]
      simp [hd]
  hidden hm d hd hne := by
    rw [hf.layered.nearest_iff] at hd
    have hlt : outermost.index < d.index := by
      refine Nat.pos_of_ne_zero fun hzero => hne ?_
      exact congrArg Ref.mk hzero
    have hother : d ≠ outermost := hne
    rw [home, if_pos hm, hf.root_eq hr, get?, definer?_define_older hd hlt]
    simp [hother]
  nearest hm d hd := by
    rw [home, if_neg (by simp [hm]), hf.layered.nearest_iff.1 hd]
    rfl
  fresh hm hnone := by
    have hd : f.definer? r name = none :=
      Option.eq_none_iff_forall_ne_some.2 fun d hd => hnone d (hf.layered.nearest_iff.2 hd)
    rw [home, if_neg (by simp [hm]), hd]
    rfl
  read hm := by
    rw [home, if_neg (by simp [hm])]
    cases hd : f.definer? r name with
    | none => exact get?_define_self hr
    | some d => simpa [hd] using get?_define_bound (v := v) hd r name

end Rooted

end Forest

/-! Steps keep declarations -/

namespace Rules.Step

variable {R : Rules} {s s' : Store} (h : R.Step s s')
include h

theorem rooted (hc : whole.Closed s) (hs : s.scopes.Rooted) : s'.scopes.Rooted := by
  cases h with
  | alike h =>
    refine hs.congr ?_ fun q => (h.scope q).1
    simpa using congrArg Array.size h.scopes
  | grimoire | object | method => exact hs
  | bound v => exact hs.define _ _ v
  | opened hp => exact hs.push (holds_whole.1 hp)
  | @entered v g _ _ hg =>
    have hopened := hs.push (holds_whole.1 (hc.grimoire hg).1)
    have hnamed := hopened.define s.fresh "self" v
    unfold Store.entered Store.received
    cases ((s.opened (s.grimoire g).scope).grimoire g).parent with
    | none => exact hnamed
    | some p => exact hnamed.define s.fresh "super" (.grimoire p)

theorem isGlobal {r : Ref .scope} {name : String} (hr : s.scopes.isGlobal r name = true) :
    s'.scopes.isGlobal r name = true := by
  have hold : whole.Holds s r := holds_whole.2 (Forest.lt_size_of_isGlobal hr)
  cases h with
  | alike h => exact h.globals r name hr
  | grimoire | object | method => exact hr
  | bound => simpa using hr
  | opened => rwa [Forest.isGlobal, Store.scope_opened hold]
  | entered => rwa [Forest.isGlobal, Store.scope_entered hold]

end Rules.Step

/-- `P` holds of every state in which something is evaluated in the course of statements that are
run from here, and in the end. -/
def Machine.Lasting (w : World) (m : Machine) (P : Machine → Prop) : Prop :=
  ∀ fuel (body : List Stmt),
    (∀ watch : Code → Eval Unit, (∀ c m', P m' → watch c m' = .ok () m') →
      (watched w watch fuel).block body m = (evaluator w fuel).block body m) ∧
    P (endState ((evaluator w fuel).block body m))

/-- The state in which the body of a statement with the resource `v` starts, if the resource has come
to this one: in a new scope, which binds the alias if there is one. -/
def Machine.opened (m : Machine) (v : Value) (binder : Option Ident) : Machine :=
  let opened := m.store.opened m.scope
  let scopes := binder.elim opened.scopes fun id => opened.scopes.define m.store.fresh id.name v
  { m with store := { opened with scopes := scopes }, scope := m.store.fresh }

open Eval in
/-- How a statement with the resource `v` ends, by what its body has come to. It is in its own scope
again and closes the resource, and a failure of the body comes before one of closing. -/
def Evaluator.closing (E : Evaluator) (w : World) (pos : Pos) (v : Value) (scope : Ref .scope) :
    EStateM.Result Halt Machine Flow → EStateM.Result Halt Machine Flow
  | .ok flow m =>
    let closed : Eval Flow := do
      match ← caught (E.close v) with
      | .ok (.ok ()) => return flow
      | .ok (.error fault) => fail w pos fault
      | .error r => throw (.raised r)
    closed { m with scope := scope }
  | .error (.raised r) m =>
    let closed : Eval Flow := do
      let _ ← caught (E.close v)
      throw (.raised r)
    closed { m with scope := scope }
  | .error .outOfFuel m => .error .outOfFuel { m with scope := scope }

/-- What is bound and declared where the body of a statement with the resource `v` starts, if the
resource has come to `m`. -/
structure Machine.Opens (m : Machine) (v : Value) (binder : Option Ident) (m' : Machine) : Prop where
  parent : (m'.store.scopes.scope m'.scope).parent = some m.scope
  unmarked : ∀ name, m'.store.scopes.isGlobal m'.scope name = false
  bound : ∀ name, m'.store.scopes.getLocal? m'.scope name =
    if binder.map (·.name) = some name then some v else none
  others : ∀ r : Ref .scope, r.index < m.store.scopes.scopes.size →
    m'.store.scopes.scope r = m.store.scopes.scope r

/-- What it means in a state that names are declared global. -/
structure Machine.HonoursGlobals (w : World) (m : Machine) : Prop where
  declared : ∀ fuel pos (names : List Ident), ∃ m',
    (evaluator w (fuel + 1)).stmt (.global pos names) m = .ok Evaluator.done m' ∧
      m'.scope = m.scope ∧ ∀ id ∈ names, m'.store.scopes.isGlobal m.scope id.name = true
  kept : ∀ r name, m.store.scopes.isGlobal r name = true →
    m.Lasting w fun m' => m'.store.scopes.isGlobal r name = true
  assigned : ∀ fuel e v m₁, (evaluator w fuel).expr e m = .ok v m₁ →
    (∀ r name, m.store.scopes.isGlobal r name = true → m₁.store.scopes.isGlobal r name = true) ∧
    ∀ pos (id : Ident), ∃ g, m₁.store.scopes.Assigned m.scope id.name v g ∧
      let m₂ := { m₁ with store := { m₁.store with scopes := g } }
      (evaluator w (fuel + 1)).stmt (.assign (.place (.name id)) pos e) m =
          .ok Evaluator.done m₂ ∧
        ∀ u, g.get? m.scope id.name = some u →
          (evaluator w (fuel + 1)).expr (.name id) m₂ = .ok u m₂
  /-- A statement with a resource runs its body in a new scope, and ends by what comes of that. -/
  within : ∀ fuel resource v m₁, (evaluator w fuel).expr resource m = .ok v m₁ →
    m₁.scope = m.scope ∧ ∀ binder : Option Ident, m₁.Opens v binder (m₁.opened v binder) ∧
      ∀ pos body, (evaluator w (fuel + 1)).stmt (.within pos resource binder body) m =
        (evaluator w fuel).closing w pos v m.scope
          ((evaluator w fuel).block body (m₁.opened v binder))

namespace Regime

def rooted : Regime :=
  .free (fun s => s.scopes.Rooted) fun hc hs h => h.rooted hc hs

def marked (r : Ref .scope) (name : String) : Regime :=
  .free (fun s => s.scopes.isGlobal r name = true) fun _ hs h => h.isGlobal hs

theorem rooted_permissive : rooted.Permissive :=
  permissive_free fun hc hs h => h.rooted hc hs

theorem marked_permissive (r : Ref .scope) (name : String) : (marked r name).Permissive :=
  permissive_free fun _ hs h => h.isGlobal hs

theorem Admits.marked {m : Machine} (hm : rooted.Admits m) {r : Ref .scope} {name : String}
    (hr : m.store.scopes.isGlobal r name = true) : (Regime.marked r name).Admits m :=
  ⟨⟨hm.orderly.closed, hr⟩, hm.scope, trivial⟩

end Regime

section Honours

variable {w : World} {m m₁ : Machine}

theorem Evaluator.declareGlobals_ok {scope : Ref .scope} (names : List Ident) (m : Machine)
    (hs : scope.index < m.store.scopes.scopes.size) : ∃ m',
    declareGlobals scope names m = .ok () m' ∧ m'.scope = m.scope ∧
      (∀ r name, m.store.scopes.isGlobal r name = true →
        m'.store.scopes.isGlobal r name = true) ∧
      ∀ id ∈ names, m'.store.scopes.isGlobal scope id.name = true := by
  induction names generalizing m with
  | nil => exact ⟨m, rfl, rfl, fun _ _ h => h, nofun⟩
  | cons id rest ih =>
    let first := { m with store := { m.store with
      scopes := m.store.scopes.declareGlobal scope id.name } }
    obtain ⟨m', hm', hscope, hkept, hrest⟩ := ih first (by simpa [first] using hs)
    refine ⟨m', hm', hscope, fun r name h => hkept r name (by simp [first, h]), ?_⟩
    refine List.forall_mem_cons.2 ⟨hkept scope id.name (by simp [first, hs]), hrest⟩

theorem Machine.opens_opened (m : Machine) (v : Value) (binder : Option Ident) :
    m.Opens v binder (m.opened v binder) := by
  have hfresh := m.store.scope_fresh m.scope
  have hold : ∀ r : Ref .scope, r.index < m.store.scopes.scopes.size →
      (m.store.opened m.scope).scopes.scope r = m.store.scopes.scope r :=
    fun r hr => Store.scope_opened (holds_whole.2 hr)
  have hnone : ∀ name, (m.store.opened m.scope).scopes.getLocal? m.store.fresh name = none :=
    fun _ => Forest.getLocal?_new m.scope
  cases binder with
  | none =>
    exact ⟨congrArg Scope.parent hfresh, fun _ => Forest.isGlobal_new m.scope, hnone, hold⟩
  | some id =>
    refine ⟨?_, fun name => ?_, fun name => ?_, fun r hr => ?_⟩
    · exact (Forest.parent_define ..).trans (congrArg Scope.parent hfresh)
    · exact (Forest.isGlobal_define ..).trans (Forest.isGlobal_new m.scope)
    · refine (Forest.getLocal?_define ..).trans ?_
      rw [show (m.opened v (some id)).scope = m.store.fresh from rfl, hnone]
      simp [Store.fresh, eq_comm]
    · have hne : r ≠ m.store.fresh := fun heq => Nat.lt_irrefl _ (heq ▸ hr)
      refine (Forest.scope_modify ..).trans ?_
      rw [if_neg fun h => hne h.1]
      exact hold r hr

theorem Evaluator.closing_eq (E : Evaluator) (pos : Pos) (v : Value) (scope : Ref .scope)
    (act : Eval Flow) (m : Machine) :
    (do
      let outcome ← Eval.caught (Eval.inScope scope act)
      let closed ← Eval.caught (E.close v)
      match outcome, closed with
      | .error failure, _ => throw (.raised failure)
      | .ok _, .error failure => throw (.raised failure)
      | .ok _, .ok (.error fault) => Eval.fail w pos fault
      | .ok flow, .ok (.ok ()) => return flow : Eval Flow) m =
      E.closing w pos v m.scope (act { m with scope := scope }) := by
  simp only [Bind.bind, EStateM.bind, Eval.caught, Eval.inScope, Eval.bracket]
  cases act { m with scope := scope } with
  | ok flow m₁ =>
    simp only [closing, Bind.bind, EStateM.bind, Eval.caught]
    cases E.close v { m₁ with scope := m.scope } with
    | ok r m₂ => cases r <;> rfl
    | error e m₂ => cases e <;> rfl
  | error e m₁ =>
    cases e with
    | raised r => simp only [closing, Bind.bind, EStateM.bind, Eval.caught]
    | outOfFuel => rfl

theorem Evaluator.within_eq {fuel : Nat} {resource : Expr} {v : Value}
    (hv : (evaluator w fuel).expr resource m = .ok v m₁) (binder : Option Ident) (pos : Pos)
    (body : List Stmt) : (evaluator w (fuel + 1)).stmt (.within pos resource binder body) m =
      (evaluator w fuel).closing w pos v m₁.scope
        ((evaluator w fuel).block body (m₁.opened v binder)) := by
  simp only [evaluator, evalStmt, use, Bind.bind, EStateM.bind, hv, Eval.look, Eval.push,
    Eval.create, Forest.push_fst]
  refine (closing_eq (evaluator w fuel) pos v m₁.store.fresh _ _).trans
    (congrArg ((evaluator w fuel).closing w pos v m₁.scope) ?_)
  cases binder <;> rfl

theorem Evaluator.assign_name_eq {fuel : Nat} {e : Expr} {v : Value}
    (hv : (evaluator w fuel).expr e m = .ok v m₁) (pos : Pos) (id : Ident) :
    (evaluator w (fuel + 1)).stmt (.assign (.place (.name id)) pos e) m =
      .ok Evaluator.done { m₁ with store := { m₁.store with
        scopes := m₁.store.scopes.define (m₁.store.scopes.home m₁.scope id.name) id.name v } } := by
  simp only [evaluator, evalStmt, Evaluator.assign, Eval.assign, Eval.changeScopes, Eval.change,
    Eval.look, Eval.modify_eq, Bind.bind, EStateM.bind, hv]
  rfl

theorem Evaluator.name_eq {fuel : Nat} {id : Ident} {v : Value}
    (h : m.store.scopes.get? m.scope id.name = some v) :
    (evaluator w (fuel + 1)).expr (.name id) m = .ok v m := by
  simp only [evaluator, evalExpr, Eval.lookup, Eval.get?, Eval.look, Bind.bind, EStateM.bind, h]
  rfl

open Regime in
theorem Regime.Admits.honoursGlobals (hm : Regime.rooted.Admits m) : m.HonoursGlobals w where
  declared fuel pos names := by
    obtain ⟨m', hm', hscope, -, hnames⟩ :=
      Evaluator.declareGlobals_ok names m (holds_whole.1 hm.scope)
    refine ⟨m', ?_, hscope, hnames⟩
    simp only [evaluator, Evaluator.evalStmt, Eval.look, Bind.bind, EStateM.bind, hm']
    rfl
  kept r name hr fuel body := by
    obtain ⟨hduring, hend⟩ := Admits.block (marked_permissive r name) (hm.marked hr) fuel body
    exact ⟨fun watch hwatch => hduring watch fun c m' hm' => hwatch c m' hm'.orderly.store,
      hend.orderly.store⟩
  assigned fuel e v m₁ hv := by
    have hgoes := Admits.expr (w := w) rooted_permissive hm fuel e
    rw [hv] at hgoes
    have hscope : m₁.scope = m.scope := hgoes.keeps.scope
    have hin : Region.whole.Holds m₁.store m.scope := hm.scope.later hgoes.grows
    have hrooted : m₁.store.scopes.Rooted := hgoes.orderly.store
    refine ⟨fun r name hr => ?_, fun pos id => ?_⟩
    · have hkept := Admits.expr (w := w) (marked_permissive r name) (hm.marked hr) fuel e
      rw [hv] at hkept
      exact hkept.orderly.store
    · refine ⟨_, hrooted.assigned (holds_whole.1 hin) id.name v, ?_, fun u hu => ?_⟩
      · rw [Evaluator.assign_name_eq hv, hscope]
      · exact Evaluator.name_eq (by rw [hscope]; exact hu)
  within fuel resource v m₁ hv := by
    have hgoes := Admits.expr (w := w) rooted_permissive hm fuel resource
    rw [hv] at hgoes
    have hscope : m₁.scope = m.scope := hgoes.keeps.scope
    refine ⟨hscope, fun binder => ⟨m₁.opens_opened v binder, fun pos body => ?_⟩⟩
    rw [Evaluator.within_eq hv, hscope]

end Honours

theorem Store.rooted_initial : Store.initial.scopes.Rooted := by
  refine Store.initial_induct (P := fun s => s.scopes.Rooted) ⟨fun r p h => ?_, fun r hr _ => ?_⟩
    fun s b hs => hs.define Forest.outermost b.name (.builtin b)
  · cases hr : Store.empty.scopes.scopes[r.index]? with
    | none => simp [Forest.scope, Array.getD_eq_getD_getElem?, hr] at h
    | some scope =>
      have hscope : scope = ⟨none, [], []⟩ := by
        simpa [Store.empty, Forest.single] using Array.mem_of_getElem? hr
      simp [Forest.scope, Array.getD_eq_getD_getElem?, hr, hscope] at h
  · exact congrArg Ref.mk (Nat.lt_one_iff.1 hr)

/-- All through the runs of a session names that are declared global are bound in the outermost
scope by whatever is assigned to them in the scope that declares them. -/
theorem globals_honoured {s : Session} (hs : s.Under fun _ _ _ => True) (source : String)
    (scope : Ref .scope) (hscope : s.machine.store.InUse scope.address) (fuel : Nat) :
    Throughout s.world fuel (parse source).program scope s.ready
      fun _ m => m.HonoursGlobals s.world := by
  obtain ⟨-, hduring⟩ :=
    Regime.rooted_permissive.session Store.rooted_initial hs source scope hscope fuel
  exact hduring.imp fun c m h => h.honoursGlobals

def boundAfter (source name : String) : Option Value :=
  ((Session.start .bare none).runText source Forest.outermost).2.machine.store.scopes.getLocal?
    Forest.outermost name

def declaring : String := "spell f():\n    global y\n    y = 2\nf()\n"

theorem globals_honoured_declaring :
    Throughout .bare fuelLimit (parse declaring).program Forest.outermost
        (Session.start .bare none).ready (fun _ m => m.HonoursGlobals .bare) ∧
      boundAfter declaring "y" = some (.int 2) :=
  ⟨globals_honoured (.start .bare none) declaring Forest.outermost Store.outermost_initial fuelLimit,
    by decide +kernel⟩

def Machine.BindsGlobal (w : World) (m : Machine) (id : Ident) : Prop :=
  ∀ fuel e v m₁, (evaluator w fuel).expr e m = .ok v m₁ → ∀ pos, ∃ m₂,
    (evaluator w (fuel + 1)).stmt (.assign (.place (.name id)) pos e) m =
        .ok Evaluator.done m₂ ∧
      m₂.store.scopes.getLocal? Forest.outermost id.name = some v ∧
      (evaluator w (fuel + 1)).expr (.name id) m₂ = .ok v m₂

def Machine.BindsDeclared (w : World) (m : Machine) : Prop :=
  ∀ id : Ident, m.store.scopes.isGlobal m.scope id.name = true → m.BindsGlobal w id

def Machine.BindsWithin (w : World) (m : Machine) : Prop :=
  ∀ id : Ident, m.store.scopes.isGlobal m.scope id.name = true →
    ∀ fuel resource v m₁, (evaluator w fuel).expr resource m = .ok v m₁ →
      (∀ d, m₁.store.scopes.Nearest m.scope id.name d → d = Forest.outermost) →
      ∀ binder : Option Ident, binder.map (·.name) ≠ some id.name →
        (m₁.opened v binder).BindsGlobal w id

def Always (P : World → Machine → Prop) : Prop :=
  ∀ s : Session, s.Under (fun _ _ _ => True) → ∀ source (scope : Ref .scope),
    s.machine.store.InUse scope.address → ∀ fuel,
      Throughout s.world fuel (parse source).program scope s.ready fun _ m => P s.world m

/-- Whether a number that is assigned to the name is not bound in the outermost scope, or another one
is read. -/
def Machine.strays (w : World) (m : Machine) (name : String) : Bool :=
  let id : Ident := ⟨name, 1, 1⟩
  match (evaluator w 2).stmt (.assign (.place (.name id)) id.pos (.literal id.pos (.int 9))) m with
  | .ok _ m₁ =>
    (m₁.store.scopes.getLocal? Forest.outermost name).isNone ||
      match (evaluator w 2).expr (.name id) m₁ with
      | .ok (.int n) _ => n != 9
      | _ => false
  | _ => false

theorem Machine.BindsGlobal.not_strays {w : World} {m : Machine} {name : String}
    (h : m.BindsGlobal w ⟨name, 1, 1⟩) : m.strays w name = false := by
  obtain ⟨m₁, hassign, hbound, hread⟩ := h 1 (.literal ⟨1, 1⟩ (.int 9)) (.int 9) m rfl ⟨1, 1⟩
  simp [strays, hassign, hbound, hread]

def Machine.straysDeclared (w : World) (name : String) (m : Machine) : Bool :=
  m.store.scopes.isGlobal m.scope name && m.strays w name

theorem Machine.BindsDeclared.not_strays {w : World} {m : Machine} (h : m.BindsDeclared w)
    (name : String) : m.straysDeclared w name = false := by
  by_contra htrue
  obtain ⟨hglobal, hstrays⟩ := Bool.and_eq_true_iff.1 (Bool.eq_true_of_not_eq_false htrue)
  rw [(h ⟨name, 1, 1⟩ hglobal).not_strays] at hstrays
  cases hstrays

/-- Whether an assignment goes astray in a `with` statement where the name is declared global and not
yet bound. -/
def Machine.straysWithin (w : World) (name : String) (m : Machine) : Bool :=
  m.store.scopes.isGlobal m.scope name &&
    (m.store.scopes.scopes.all fun s => (s.vars.get? name).isNone) &&
    (m.opened .none none).strays w name

theorem Machine.BindsWithin.not_strays {w : World} {m : Machine} (h : m.BindsWithin w)
    (name : String) : m.straysWithin w name = false := by
  by_contra htrue
  obtain ⟨hnames, hstrays⟩ := Bool.and_eq_true_iff.1 (Bool.eq_true_of_not_eq_false htrue)
  obtain ⟨hglobal, hnone⟩ := Bool.and_eq_true_iff.1 hnames
  rw [(h ⟨name, 1, 1⟩ hglobal 1 (.literal ⟨1, 1⟩ .none) .none m rfl ?_ none nofun).not_strays]
    at hstrays
  · cases hstrays
  rintro d ⟨_, _, _, hbound, _⟩
  rw [Array.all_eq_true_iff_forall_mem] at hnone
  cases hd : m.store.scopes.scopes[d.index]? with
  | none =>
    simp [Forest.getLocal?, Forest.scope, Array.getD_eq_getD_getElem?, hd, Bindings.get?] at hbound
  | some s =>
    have hs := hnone s (Array.mem_of_getElem? hd)
    simp [Forest.getLocal?, Forest.scope, Array.getD_eq_getD_getElem?, hd,
      Option.isNone_iff_eq_none.1 hs] at hbound

def withdrawn : String :=
  "spell f():\n    global y\n    with 5 as n:\n        y = 2\n    return 7\nz = f()\n"

def overshadowed : String := "spell f(x):\n    global x\n    x = 5\n    return x\nz = f(1)\n"

/-- The parameter keeps its value, and within the `with` statement the name is bound elsewhere. -/
theorem not_globals_honoured :
    (¬ Always fun w m => m.BindsDeclared w) ∧ ¬ Always fun w m => m.BindsWithin w := by
  refine ⟨fun h => ?_, fun h => ?_⟩
  · exact not_throughout (by decide +kernel) (by decide +kernel)
      ((h _ (.start .bare none) overshadowed Forest.outermost Store.outermost_initial 40).imp
        fun _ _ hm => hm.not_strays "x")
  · exact not_throughout (by decide +kernel) (by decide +kernel)
      ((h _ (.start .bare none) withdrawn Forest.outermost Store.outermost_initial 40).imp
        fun _ _ hm => hm.not_strays "y")

end Spellbook
