import Spellbook.Proofs.Access
import Spellbook.Proofs.Regime.Steps

/-! Whose private spells code gets at. A spell that is running as a method gets at those of the
grimoire that declares it, and all other code at none: at the top level, in a module, and in a spell
that was called by itself, even if it was got from a grimoire. -/
namespace Spellbook

open Region Refers Estate

/-- A spell that is running, and what its scope knew as `self` when it started. -/
structure Running where
  decl : SpellDecl
  self : Option Value

/-- The evaluator with an observer, who is told of all code before it is evaluated, and of the
innermost spell that is running then. None is running where a module is run. -/
def attended (w : World) (watch : Option Running → Code → Eval Unit) :
    Nat → Option Running → Evaluator
  | 0, _ => .spent
  | fuel + 1, running =>
    ⟨fun e => do
        watch running (.expr e)
        (attended w watch fuel running).evalExpr w e,
      fun s => do
        watch running (.stmt s)
        (attended w watch fuel (if s.isLoad then none else running)).evalStmt w s,
      fun _ decl args => do
        let started ← Eval.look fun m =>
          some (Running.mk decl (m.store.scopes.getLocal? m.scope "self"))
        watch started (.spell decl)
        (attended w watch fuel started).body w decl args,
      fuel⟩

/-- `P` holds of whatever a run comes to evaluate, in the state in which it does, with the innermost
spell that is running then. -/
def Attended (w : World) (fuel : Nat) (p : Program) (scope : Ref .scope) (m : Machine)
    (P : Option Running → Code → Machine → Prop) : Prop :=
  ∀ watch : Option Running → Code → Eval Unit,
    (∀ running c m, P running c m → watch running c m = .ok () m) →
      (attended w watch fuel none).run p scope m = runProgram w fuel p scope m

/-- `owner` is the grimoire whose method is running: one that declares the spell, if that has been
started with a receiver. -/
def Store.Accounts (s : Store) (running : Option Running) (owner : Option (Ref .grimoire)) : Prop :=
  match running with
  | some ⟨decl, some _⟩ => ∃ g, owner = some g ∧ s.Owns g decl
  | _ => owner = none

/-- Methods are declared by the grimoire that they belong to. -/
def Store.MethodsOwned (s : Store) : Prop := ∀ r f, s.method? r = some f → s.Owns f.owner f.decl

section Accounts

variable {s s' : Store} {g : Ref .grimoire} {decl : SpellDecl}

theorem Store.Owns.holds (h : s.Owns g decl) : whole.Holds s g := by
  rw [holds_whole]
  by_contra hout
  have hnone : s.grimoires[g.index]? = none := Array.getElem?_eq_none (Nat.le_of_not_lt hout)
  rcases h with h | ⟨name, h⟩
  · simp [grimoire, Array.getD_eq_getD_getElem?, hnone] at h
  · simp [grimoire, Array.getD_eq_getD_getElem?, hnone, Bindings.get?] at h

theorem Store.Owns.later (h : s.Owns g decl)
    (hg : ∀ g, whole.Holds s g → s'.grimoire g = s.grimoire g) : s'.Owns g decl := by
  rw [Owns, hg g h.holds]
  exact h

theorem Store.Accounts.later {running : Option Running} {owner : Option (Ref .grimoire)}
    (h : s.Accounts running owner) (hg : ∀ g, whole.Holds s g → s'.grimoire g = s.grimoire g) :
    s'.Accounts running owner := by
  match running, h with
  | some ⟨decl, some _⟩, ⟨g, ho, howns⟩ => exact ⟨g, ho, howns.later hg⟩
  | some ⟨decl, none⟩, ho => exact ho
  | none, ho => exact ho

theorem Rules.Step.methodsOwned {R : Rules} (h : R.Step s s')
    (hr : ∀ v g decl, R.receives s v g decl → s.Owns g decl) (hs : s.MethodsOwned) :
    s'.MethodsOwned := by
  intro r f hf
  have howns : s.Owns f.owner f.decl := (h.methods hf).elim (hs r f) fun hnew => hr _ _ _ hnew.2
  exact howns.later fun g hg => h.grimoire_eq hg

end Accounts

/-- Methods belong to the grimoire that declares them. -/
def Rules.owning : Rules where
  binds _ _ _ := True
  declares _ _ _ := True
  stands _ _ := True
  store := Store.MethodsOwned
  here _ _ _ := True
  receives s _ g decl := s.Owns g decl

def Regime.owned : Regime where
  toRules := .owning
  step hs _ hstep :=
    { store := hstep.methodsOwned (fun _ _ _ hr => hr) hs.store
      binds := fun _ _ _ _ => trivial
      here := fun _ _ _ _ => trivial
      receives := fun _ _ _ _ _ hr => Store.Owns.later hr fun _ hg => hstep.grimoire_eq hg }
  nested _ _ _ := trivial
  entered _ _ _ _ := trivial
  outside := trivial
  inward _ _ _ := trivial
  outward _ _ _ _ := trivial
  ofMethod hs hf := hs.store _ _ hf
  ofObject _ _ _ ho := ho
  ofSuper _ _ _ _ _ ho := ho

/-- What is running accounts for the rights of the code. -/
structure Machine.Honours (m : Machine) (running : Option Running) : Prop where
  admits : Regime.owned.Admits m
  accounts : m.store.Accounts running m.owner

/-- Observers who say nothing as long as what is running accounts for the rights of the code. -/
def Attendant : Type :=
  { watch : Option Running → Code → Eval Unit //
    ∀ running c m, m.Honours running → watch running c m = .ok () m }

section Attending

theorem Stmt.exists_of_isLoad {s : Stmt} (h : s.isLoad = true) :
    ∃ pos name binder, s = .load pos name binder := by
  cases s with
  | load pos name binder => exact ⟨pos, name, binder, rfl⟩
  | _ => cases h

theorem attended_mute (w : World) (fuel : Nat) (running : Option Running) :
    attended w (fun _ _ => pure ()) fuel running = evaluator w fuel := by
  induction fuel generalizing running with
  | zero => rfl
  | succ fuel ih => simp only [attended, evaluator, ih, pure_bind]; rfl

def Attendant.mute : Attendant := ⟨fun _ _ => pure (), fun _ _ _ _ => rfl⟩

variable (alarm : Attendant × Attendant)

def honouring (running : Option Running) : Ground (Regime.owned.logic alarm) where
  here m := m.Honours running
  admits h := (Regime.owned.ground alarm).admits h.admits
  later h hg := ⟨(Regime.owned.ground alarm).later h.admits hg,
    hg.stays.owner ▸ h.accounts.later hg.leads.grimoire⟩

/-- Whatever the evaluators evaluate, what is running accounts for its rights. -/
structure Honoured (E : Option Running → Attendant → Evaluator) : Prop where
  expr : ∀ running e, (honouring alarm running).Takes (E running) e
  stmt : ∀ running s, (honouring alarm running).Does (E running) s
  spell : ∀ running start decl args {m : Machine},
    m.Honours (some ⟨decl, m.store.scopes.getLocal? m.scope "self"⟩) →
    (Regime.owned.logic alarm).Knows m.store args →
      Complies .owned alarm (fun i => (E running i).spell start decl args) m
  turns : ∃ n, ∀ running i, (E running i).turns = n

variable {alarm} {E : Option Running → Attendant → Evaluator} {w : World} {m : Machine}
  {running : Option Running}

/-- Where code is evaluated. A module is run without a spell, whatever is running where it is
imported. -/
def Honoured.site (hE : Honoured alarm E) {c : Code} {inner : Option Running}
    (hinner : inner = running ∨ c.exprs = [] ∧ c.stmts = [])
    (hload : ∀ pos name binder, c = .stmt (.load pos name binder) → inner = none) :
    Site (Regime.owned.logic alarm) w (E inner) c where
  toGround := honouring alarm running
  calls _ m := Regime.owned.Orderly m.store
  nested h :=
    have ⟨hopened, hfresh⟩ := h.admits.orderly.opened h.admits.scope
    ⟨⟨hopened.orderly, hfresh, trivial⟩, h.accounts.later hopened.grimoire⟩
  expr e he := by
    obtain rfl | ⟨hnone, _⟩ := hinner
    · exact hE.expr inner e
    · exact absurd (hnone ▸ he) List.not_mem_nil
  stmt s hs := by
    obtain rfl | ⟨_, hnone⟩ := hinner
    · exact hE.stmt inner s
    · exact absurd (hnone ▸ hs) List.not_mem_nil
  place _ _ _ := trivial
  frees _ _ _ _ := trivial
  catches _ _ _ _ := trivial
  spells _ _ := ⟨trivial, fun _ => trivial⟩
  call h _ _ _ _ := h.admits.orderly
  close h := h.admits.orderly
  orderly h := h.refl
  onward _ hg := hg.leads.orderly
  starting {start m r decl args} h hr ha _ _ := by
    obtain ⟨hopened, hfresh⟩ := h.opened (knows_scope.1 hr)
    have hnone : (m.store.opened r).scopes.getLocal? m.store.fresh "self" = none :=
      Forest.getLocal?_new r
    refine hE.spell _ _ _ _ ⟨⟨hopened.orderly, hfresh, trivial⟩, ?_⟩ (ha.later hopened)
    simp only [Machine.starting, hnone]
    rfl
  receiving {start m v decl args g} h hv hg ha hr _ _ := by
    have hv := knows_value.1 hv
    have hg := (knows_value (v := .grimoire g)).1 hg
    obtain ⟨hentered, hfresh⟩ := h.entered hv hg hr
    refine hE.spell _ _ _ _ ⟨⟨hentered.orderly, hfresh, trivial⟩, ?_⟩ (ha.later hentered)
    simp only [Machine.receiving, m.store.self_entered v g]
    exact ⟨g, rfl, Store.Owns.later hr hentered.grimoire⟩
  entering {m pos name binder source} h hc _ _ _ := by
    obtain rfl := hload pos name binder hc
    obtain ⟨hopened, hfresh⟩ := h.admits.orderly.opened h.admits.scope
    exact .program (G := honouring alarm none) (fun s _ => hE.stmt none s) false
      ⟨⟨hopened.orderly, hfresh, trivial⟩, rfl⟩
  turns _ _ _ :=
    have ⟨n, hn⟩ := hE.turns
    ⟨id, n, .of_forall (hn inner)⟩

theorem Machine.Honours.told {α : Type} [Bearing α] {c : Code} {x : Attendant → Eval α}
    (hm : m.Honours running) (hx : Complies .owned alarm x m) :
    Complies .owned alarm (fun i => do i.1 running c; x i) m :=
  .of_eq hm.admits.orderly.refl
    (fun i => by simp only [Bind.bind, EStateM.bind, i.2 running c m hm]) hx

theorem honoured_attended (w : World) (alarm : Attendant × Attendant) (fuel : Nat) :
    Honoured alarm fun running i => attended w i.1 fuel running := by
  have hat : ∀ {c E} {S : Site (Regime.owned.logic alarm) w E c} {m}, S.here m → S.At m :=
    fun h => ⟨h, fun _ _ => trivial, fun _ _ _ _ _ _ _ _ => trivial⟩
  induction fuel with
  | zero =>
    exact ⟨fun _ _ _ hm => .spent id hm.admits.orderly.refl,
      fun _ _ _ hm => .spent id hm.admits.orderly.refl,
      fun _ _ _ _ _ hm _ => .spent id hm.admits.orderly.refl, 0, fun _ _ => rfl⟩
  | succ fuel ih =>
    refine ⟨fun running e m hm => hm.told (.evalExpr (ih.site (.inl rfl) nofun) (hat hm)),
      fun running s m hm => hm.told ?_, fun running start decl args m hm ha => ?_,
      fuel, fun _ _ => rfl⟩
    · cases hs : s.isLoad with
      | false =>
        refine .evalStmt (ih.site (.inl rfl) ?_) (hat hm)
        rintro pos name binder ⟨⟩
        cases hs
      | true =>
        obtain ⟨pos, name, binder, rfl⟩ := Stmt.exists_of_isLoad hs
        exact .evalStmt (ih.site (.inr ⟨rfl, rfl⟩) fun _ _ _ _ => rfl) (hat hm)
    · let started := some (Running.mk decl (m.store.scopes.getLocal? m.scope "self"))
      exact .look _ (hm.told (.body (G := honouring alarm started)
        (fun e _ => ih.expr started e) (fun s _ => ih.stmt started s) hm trivial ha
        fun _ _ _ => trivial))

theorem attended_honours {p : Program} {scope : Ref .scope} {fuel : Nat}
    (hm : Machine.Honours { m with scope := scope } none) :
    Attended w fuel p scope m fun running _ m => m.Honours running := by
  intro watch hwatch
  let heard : Attendant := ⟨watch, hwatch⟩
  have hE := honoured_attended w (heard, heard) fuel
  have hrun : Complies .owned (heard, heard) (fun i => (attended w i.1 fuel none).run p scope) m :=
    .run (G := honouring (heard, heard) none) (fun s _ => hE.stmt none s)
      hm.admits.orderly.refl hm fun m' h => .raised (h.leads.orderly.makes
        (i := .value (.caught _)) (h.leads.grows.closed.newFailure (holds_plain rfl)) rfl)
  -- The two who are to raise an alarm are one.
  obtain ⟨r, hr, _⟩ := hrun.agreed fun _ ha => by cases ha; rfl
  have hall := Filter.eventually_top.1 hr
  have hmute := hall .mute
  simp only [Attendant.mute, attended_mute] at hmute
  exact (hall heard).trans hmute.symm

end Attending

theorem Store.methodsOwned_initial : Store.initial.MethodsOwned := nofun

/-- All through the runs of a session, code gets at private spells according to the innermost spell
that is running: at those of a grimoire that declares the spell, if that has been started with a
receiver, and else at none. -/
theorem privates_guarded {s : Session} (hs : s.Under fun _ _ _ => True) (source : String)
    (scope : Ref .scope) (hscope : s.machine.store.InUse scope.address) (fuel : Nat) :
    Attended s.world fuel (parse source).program scope s.ready fun running _ m =>
      ∃ reach, m.store.Accounts running reach ∧ m.Guards s.world reach := by
  have hin : s.InRegime .owned := hs.inRegime Store.methodsOwned_initial fun _ _ _ _ _ =>
    ⟨fun _ _ => trivial, fun _ _ => trivial, fun _ _ _ _ _ _ _ _ _ => trivial⟩
  have hstart : Machine.Honours { s.ready with scope := scope } none :=
    ⟨hin.admits (holds_whole.2 hscope), hin.owner⟩
  intro watch hwatch
  refine attended_honours hstart watch fun running c m hm => hwatch running c m ?_
  exact ⟨m.owner, hm.accounts, m.guards s.world⟩

def peeking : Session :=
  ((Session.start .bare none).runText ("grim G:\n    spell __x():\n        return 1\n" ++
    "    spell m():\n        return G.__x()\n") Forest.outermost).2

theorem peeking_under : peeking.Under fun _ _ _ => True := Session.under_free _

theorem privates_guarded_peeking :
    peeking.machine.store.grimoires.size = 1 ∧
      Attended peeking.world fuelLimit (parse "G().m()\n").program Forest.outermost peeking.ready
        fun running _ m => ∃ reach, m.store.Accounts running reach ∧ m.Guards peeking.world reach := by
  have hdeclared : peeking.machine.store.grimoires.size = 1 := by decide +kernel
  exact ⟨hdeclared, privates_guarded peeking_under "G().m()\n" Forest.outermost
    peeking_under.inUse_outermost fuelLimit⟩

/-- `reach` is a grimoire that declares the running spell, and none if there is no such spell. -/
def Store.DeclaredBy (s : Store) (running : Option Running) (reach : Option (Ref .grimoire)) :
    Prop :=
  match running, reach with
  | some r, some g => s.Owns g r.decl
  | some r, none => ∀ g, ¬ s.Owns g r.decl
  | none, reach => reach = none

/-- The parts of a spell that does no more than call an attribute of what a name means. -/
def SpellDecl.relay? : SpellDecl → Option (Ident × Pos × Pos × Ident × Ident × Bool)
  | ⟨name, [], [.give pos (some (.call at_ (.attr (.name a) b) []))], arcane⟩ =>
    some (name, pos, at_, a, b, arcane)
  | _ => none

theorem SpellDecl.eq_of_relay? {decl decl' : SpellDecl} (h : decl.relay?.isSome = true)
    (heq : decl.relay? = decl'.relay?) : decl = decl' := by
  unfold relay? at h heq
  split at heq
  · split at heq
    · simp_all
    · cases heq
  · simp at h

/-- Whether a spell of the only grimoire is denied a private spell of it. -/
def Machine.denies (w : World) (m : Machine) : Option Running → Code → Bool
  | some ⟨decl, _⟩, .expr (.attr (.name a) id) =>
    let g : Ref .grimoire := ⟨0⟩
    m.store.grimoires.size == 1 && decl.relay?.isSome && id.name.toList.take 2 == ['_', '_'] &&
      decl.relay? == ((m.store.grimoire g).methods.get? decl.name.name).bind (·.relay?) &&
      match (evaluator w 1).expr (.name a) m, (evaluator w 2).expr (.attr (.name a) id) m with
      | .ok v m', .error _ _ => (m'.attrSpell? v id.name).map (·.2) == some g
      | _, _ => false
  | _, _ => false

theorem Machine.not_denies {w : World} {m : Machine} {running : Option Running}
    {reach : Option (Ref .grimoire)} (hreach : m.store.DeclaredBy running reach)
    (h : m.Guards w reach) (c : Code) : m.denies w running c = false := by
  by_contra htrue
  replace htrue := Bool.eq_true_of_not_eq_false htrue
  unfold denies at htrue
  split at htrue
  case h_2 => cases htrue
  rename_i decl self a id
  simp only [Bool.and_eq_true, beq_iff_eq] at htrue
  obtain ⟨⟨⟨⟨hsize, hrelay⟩, hname⟩, hdecl⟩, hdenied⟩ := htrue
  split at hdenied
  case h_2 => cases hdenied
  rename_i v m' f m'' hv hf
  obtain ⟨found, hfound, hg⟩ := Option.map_eq_some_iff.1 (eq_of_beq hdenied)
  obtain ⟨decl', hdecl', hsame⟩ : ∃ decl', (m.store.grimoire ⟨0⟩).methods.get? decl.name.name =
      some decl' ∧ decl.relay? = decl'.relay? := by
    rw [hdecl] at hrelay
    obtain ⟨parts, hparts⟩ := Option.isSome_iff_exists.1 hrelay
    obtain ⟨decl', hdecl', hsome⟩ := Option.bind_eq_some_iff.1 hparts
    exact ⟨decl', hdecl', hdecl.trans (by rw [hdecl']; rfl)⟩
  have howns : m.store.Owns ⟨0⟩ decl :=
    .inr ⟨decl.name.name, by rw [hdecl', SpellDecl.eq_of_relay? hrelay hsame]⟩
  have hprivate : IsPrivate id.name :=
    ⟨id.name.toList.drop 2, (List.take_append_drop 2 _).symm.trans (by rw [hname]; rfl)⟩
  have hgiven : reach = some found.2 := by
    rw [hg]
    cases reach with
    | none => exact absurd howns (hreach ⟨0⟩)
    | some g =>
      have hin : g.index < 1 := hsize ▸ holds_whole.1 (Store.Owns.holds hreach)
      exact congrArg some (congrArg Ref.mk (Nat.lt_one_iff.1 hin))
  obtain ⟨_, _, hok, _⟩ := (h.attr 1 (.name a) v m' id found hv hprivate hfound).given hgiven
  rw [hf] at hok
  cases hok

theorem not_attended {w : World} {fuel : Nat} {p : Program} {scope : Ref .scope} {m : Machine}
    {P : Option Running → Code → Machine → Prop} [∀ r c m, Decidable (P r c m)]
    (hplain : endsEarly (runProgram w fuel p scope m) = false)
    (hstopped : endsEarly ((attended w (fun r => sentry (P r) "") fuel none).run p scope m) = true) :
    ¬ Attended w fuel p scope m P := by
  intro h
  rw [h _ fun _ _ _ hp => sentry_silent "" hp, hplain] at hstopped
  cases hstopped

/-- A spell that is got from the grimoire that declares it does not get at a private one of the same
grimoire. -/
theorem not_privates_by_declaration :
    ¬ ∀ s : Session, s.Under (fun _ _ _ => True) → ∀ source (scope : Ref .scope),
      s.machine.store.InUse scope.address → ∀ fuel,
        Attended s.world fuel (parse source).program scope s.ready fun running _ m =>
          ∃ reach, m.store.DeclaredBy running reach ∧ m.Guards s.world reach := by
  intro h
  have hall := h peeking peeking_under "G.m()\n" Forest.outermost peeking_under.inUse_outermost 40
  refine not_attended (P := fun running c m => m.denies peeking.world running c = false)
    (by decide +kernel) (by decide +kernel) fun watch hwatch => hall watch fun running c m hm => ?_
  obtain ⟨reach, hreach, hguards⟩ := hm
  exact hwatch running c m (Machine.not_denies hreach hguards c)

end Spellbook
