import Spellbook.Proofs.Located
import Spellbook.Proofs.Regime.Complies

/-! Regimes are kept throughout: by all runs of a session in which the code that comes to be evaluated
does by itself no more than is permitted. -/
namespace Spellbook

open Region Refers

namespace Regime

variable {R : Regime} {w : World} {P : Code → Machine → Prop}

theorem governs_watched [∀ c m, Decidable (P c m)]
    (hP : ∀ c m, R.Admits m → P c m → R.Permits w c m) (fuel : Nat) :
    R.Governs w (Quiet.alarm (fun _ m => R.Admits m) P) fun i => watched w i.1 fuel := by
  induction fuel with
  | zero =>
    exact ⟨fun _ _ hm => .spent id hm.orderly.refl, fun _ _ hm => .spent id hm.orderly.refl,
      fun _ _ _ _ hm _ => .spent id hm.orderly.refl, ⟨0, fun _ => rfl⟩, ⟨.mute _ P, 0, rfl⟩⟩
  | succ fuel ih =>
    refine ⟨fun e m hm => ?_, fun s m hm => ?_, fun start decl args m hm ha => ?_,
      ⟨fuel, fun _ => rfl⟩, ⟨.mute _ P, fuel + 1, Quiet.watched_mute _ P w _⟩⟩
    · exact .told rfl hm.orderly.refl (fun _ => hm) fun hp => ih.evalExpr hm (hP _ _ hm hp)
    · exact .told rfl hm.orderly.refl (fun _ => hm) fun hp => ih.evalStmt hm (hP _ _ hm hp)
    · exact .told rfl hm.orderly.refl (fun _ => hm) fun hp => ih.body hm ha (hP _ _ hm hp)

variable {fuel : Nat} {p : Program} {scope : Ref .scope} {m : Machine}

open Classical in
/-- A regime that a program starts under is kept throughout its run, as long as all code does by
itself what is permitted. -/
theorem throughout (hP : ∀ c m, R.Admits m → P c m → R.Permits w c m)
    (hm : R.Admits { m with scope := scope }) (h : Throughout w fuel p scope m P) :
    (Throughout w fuel p scope m fun c m => R.Admits m ∧ P c m) ∧
      R.Goes m (endState (runProgram w fuel p scope m)) := by
  have hrun := (governs_watched hP fuel).run p hm
  obtain ⟨hthroughout, hallows⟩ := hrun.throughout rfl (Abides.silent h)
  exact ⟨hthroughout, goes_of hallows.goes⟩

end Regime

/-! Sessions -/

/-- The sessions in whose runs `P` holds throughout. -/
inductive Session.Under (P : World → Code → Machine → Prop) : Session → Prop where
  | start (w : World) (file : Option String) : Under P (.start w file)
  | world {s : Session} (w : World) : Under P s → Under P { s with world := w }
  | setFile {s : Session} (file : String) : Under P s → Under P (s.setFile file)
  | scopeNamed {s : Session} (name : String) : Under P s → Under P (s.scopeNamed name).2
  | runText {s : Session} {source : String} {scope : Ref .scope} : Under P s →
      whole.Holds s.machine.store scope →
      Throughout s.world fuelLimit (parse source).program scope s.ready (P s.world) →
      Under P (s.runText source scope).2

/-- Between runs no method is running, and the outermost scope is there. -/
structure Session.InRegime (R : Regime) (s : Session) : Prop where
  orderly : R.Orderly s.machine.store
  owner : s.machine.owner = none
  outermost : whole.Holds s.machine.store Forest.outermost

theorem Store.closed_initial :
    whole.Closed Store.initial ∧ whole.Holds Store.initial Forest.outermost := by
  have hscope : whole.Holds Store.empty Forest.outermost := holds_whole.2 Nat.one_pos
  have hempty : whole.Closed Store.empty := by
    refine ⟨fun _ => Nat.zero_le _, fun a ha => ?_⟩
    have huse : a.index < Store.empty.size a.kind := ha.elim False.elim And.right
    obtain ⟨κ, i⟩ := a
    cases κ with
    | scope =>
      obtain rfl : i = 0 := Nat.lt_one_iff.1 huse
      intro b hb
      cases hb
    | _ => exact absurd huse (Nat.not_lt_zero i)
  refine Store.initial_induct (P := fun s => whole.Closed s ∧ whole.Holds s Forest.outermost)
    ⟨hempty, hscope⟩ fun s b hs => ?_
  have hleads := hs.1.define b.name hs.2 (v := .builtin b) (holds_plain rfl)
  exact ⟨hleads.closed, hs.2.later hleads⟩

namespace Session.InRegime

variable {R : Regime} {s : Session} {scope : Ref .scope}

theorem admits (h : s.InRegime R) (hscope : whole.Holds s.machine.store scope) :
    R.Admits { s.ready with scope := scope } :=
  ⟨h.orderly, hscope, (show s.ready.owner = none from h.owner) ▸ R.outside⟩

end Session.InRegime

theorem Session.Under.inRegime {R : Regime} {P : World → Code → Machine → Prop} {s : Session}
    (h₀ : R.store Store.initial)
    (hP : ∀ w c m, R.Admits m → P w c m → R.Permits w c m) (hs : s.Under P) : s.InRegime R := by
  induction hs with
  | start w file =>
    exact ⟨⟨Store.closed_initial.1, h₀⟩, rfl, Store.closed_initial.2⟩
  | world w _ ih => exact ⟨ih.orderly, ih.owner, ih.outermost⟩
  | setFile file _ ih => exact ⟨ih.orderly, ih.owner, ih.outermost⟩
  | scopeNamed name _ ih =>
    unfold Session.scopeNamed
    split
    · exact ih
    · have hopened := (ih.orderly.opened ih.outermost).1
      exact ⟨hopened.orderly, ih.owner, ih.outermost.later hopened.grows⟩
  | @runText s source scope _ hscope hrun ih =>
    have hgoes := (R.throughout (hP s.world) (ih.admits hscope) hrun).2
    unfold Session.runText
    dsimp only
    split
    · have hmachine := Session.run_machine s (parse source).program scope
      refine ⟨hmachine ▸ hgoes.orderly, ?_, ?_⟩
      · rw [hmachine]
        exact hgoes.keeps.owner.trans ih.owner
      · rw [hmachine]
        exact ih.outermost.later hgoes.grows
    · exact ⟨ih.orderly, ih.owner, ih.outermost⟩

def Rules.free (P : Store → Prop) : Rules := .ofStore (fun _ _ _ => True) (fun _ _ => True) P

def Regime.free (P : Store → Prop)
    (h : ∀ {s s'}, whole.Closed s → P s → (Rules.free P).Step s s' → P s') : Regime :=
  .ofStore fun hs hstep => h hs.closed hs.store hstep

/-! Regimes that forbid nothing -/

namespace Regime

def Permissive (R : Regime) : Prop := ∀ w c m, R.Permits w c m

theorem permissive_free {P : Store → Prop}
    (h : ∀ {s s'}, whole.Closed s → P s → (Rules.free P).Step s s' → P s') :
    (Regime.free P h).Permissive :=
  fun _ _ _ => ⟨fun _ _ => trivial, fun _ _ => trivial, fun _ _ _ _ _ _ _ _ _ => trivial⟩

variable {R : Regime} {w : World} {m : Machine} (hR : R.Permissive)
include hR

theorem governs_permissive (w : World) (fuel : Nat) :
    R.Governs w (Quiet.alarm (fun _ m => R.Admits m) fun _ _ => True)
      fun i => watched w i.1 fuel :=
  governs_watched (fun c m _ _ => hR w c m) fuel

theorem Admits.expr (hm : R.Admits m) (fuel : Nat) (e : Expr) :
    R.Goes m (endState ((evaluator w fuel).expr e m)) := by
  obtain ⟨r, hr, hallows⟩ := ((governs_permissive hR w fuel).expr e hm).settled rfl
  have halone := hr (.mute _ _)
  rw [Quiet.watched_mute] at halone
  exact halone ▸ goes_of hallows.goes

theorem Admits.block (hm : R.Admits m) (fuel : Nat) (body : List Stmt) :
    (∀ watch : Code → Eval Unit, (∀ c m', R.Admits m' → watch c m' = .ok () m') →
      (watched w watch fuel).block body m = (evaluator w fuel).block body m) ∧
    R.Goes m (endState ((evaluator w fuel).block body m)) := by
  have hblock : Complies R (Quiet.alarm (fun _ m => R.Admits m) fun _ _ => True)
      (fun i => (watched w i.1 fuel).block body) m :=
    .block (fun s _ => (governs_permissive hR w fuel).stmt s) hm
  obtain ⟨r, hr, hallows⟩ := hblock.settled rfl
  have halone := hr (.mute _ _)
  rw [Quiet.watched_mute] at halone
  refine ⟨fun watch hwatch => ?_, halone ▸ goes_of hallows.goes⟩
  exact (hr ⟨watch, fun c m' hm' _ => hwatch c m' hm'⟩).trans halone.symm

/-- Whatever is run in a session, such a regime is kept if it is kept at the start. -/
theorem Permissive.session (h₀ : R.store Store.initial) {s : Session}
    (hs : s.Under fun _ _ _ => True) (source : String) (scope : Ref .scope)
    (hscope : s.machine.store.InUse scope.address) (fuel : Nat) :
    s.InRegime R ∧
      Throughout s.world fuel (parse source).program scope s.ready fun _ m => R.Admits m := by
  have hin : s.InRegime R := hs.inRegime h₀ fun w c m _ _ => hR w c m
  obtain ⟨hduring, -⟩ := R.throughout (fun c m _ _ => hR s.world c m)
    (hin.admits (holds_whole.2 hscope)) (throughout_true s.world fuel (parse source).program scope
      s.ready)
  exact ⟨hin, hduring.imp fun _ _ h => h.1⟩

end Regime

theorem Session.Under.inUse_outermost {P : World → Code → Machine → Prop} {s : Session}
    (hs : s.Under P) : s.machine.store.InUse Forest.outermost.address := by
  have hin : s.InRegime (.free (fun _ => True) fun _ _ _ => trivial) :=
    hs.inRegime trivial fun w c m _ _ => Regime.permissive_free _ w c m
  exact holds_whole.1 hin.outermost

end Spellbook
