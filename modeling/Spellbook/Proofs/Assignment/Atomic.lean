import Spellbook.Proofs.Assignment.Adding
import Spellbook.Proofs.Globals

/-! Assignments. What is assigned and what is written to are evaluated first, then old values are
read and operators applied, and one write comes last. So an assignment that fails has written
nothing. Names that are assigned at once cannot fail one by one. -/
namespace Spellbook

/-! Names that are assigned at once -/

namespace Forest

variable {α : Type}

def assignAll (f : Forest α) (r : Ref .scope) : List (String × α) → Forest α
  | [] => f
  | (name, v) :: rest => (f.define (f.home r name) name v).assignAll r rest

/-- If assignments to the name go to the outermost scope, no nearer one binds it. -/
def Shows (f : Forest α) (r : Ref .scope) (name : String) : Prop :=
  f.isGlobal r name = true → ∀ d, f.definer? r name = some d → d = f.root r

/-- What becomes of the scopes `f` if names are assigned at once in scope `r`. -/
structure AssignedAll (f : Forest α) (r : Ref .scope) (pairs : List (String × α)) (g : Forest α) :
    Prop where
  parent : ∀ q, (g.scope q).parent = (f.scope q).parent
  isGlobal : ∀ q name, g.isGlobal q name = f.isGlobal q name
  /-- Of several values for one name the last counts. -/
  last : ∀ before name v after, pairs = before ++ (name, v) :: after → name ∉ after.map (·.1) →
    g.getLocal? (f.home r name) name = some v ∧ (f.Shows r name → g.get? r name = some v)
  bound : ∀ name ∈ pairs.map (·.1), (g.get? r name).isSome = true
  elsewhere : ∀ q name, (name ∈ pairs.map (·.1) → q ≠ f.home r name) →
    g.getLocal? q name = f.getLocal? q name

variable {f g : Forest α} {r q d : Ref .scope} {name other : String} {v : α}

theorem root_congr (h : ∀ q, (g.scope q).parent = (f.scope q).parent) (r : Ref .scope) :
    g.root r = f.root r := by
  fun_induction f.root r with
  | case1 r p hp hlt ih =>
    rw [root, h, hp]
    exact (if_pos hlt).trans ih
  | case2 r p hp hlt =>
    rw [root, h, hp]
    exact if_neg hlt
  | case3 r hp => rw [root, h, hp]

theorem home_of_isGlobal (h : f.isGlobal r name = true) : f.home r name = f.root r := if_pos h

theorem home_of_not_isGlobal (h : f.isGlobal r name = false) :
    f.home r name = (f.definer? r name).getD r := by
  rw [home, if_neg (by simp [h])]

theorem isSome_definer?_define (q : Ref .scope) (other : String) (v : α)
    (h : (f.definer? r name).isSome = true) :
    ((f.define q other v).definer? r name).isSome = true := by
  fun_induction f.definer? r name with
  | case1 r hr =>
    have hlocal : ((f.define q other v).getLocal? r name).isSome = true := by
      rw [getLocal?_define]
      split
      · rfl
      · exact hr
    rw [definer?_of_getLocal? hlocal]
    rfl
  | case2 r hr p hp hlt ih =>
    cases hlocal : (f.define q other v).getLocal? r name with
    | some u =>
      rw [definer?_of_getLocal? (by rw [hlocal]; rfl)]
      rfl
    | none =>
      rw [definer?_of_parent hlocal (by simpa using hp) hlt]
      exact ih h
  | case3 => cases h
  | case4 => cases h

theorem definer?_define_home (hr : r.index < f.scopes.size) (v : α)
    (h : f.Shows r name) :
    (f.define (f.home r name) name v).definer? r name = some (f.home r name) := by
  cases hd : f.definer? r name with
  | none =>
    cases hglobal : f.isGlobal r name with
    | true =>
      rw [home_of_isGlobal hglobal]
      exact definer?_define_root hd hr v
    | false =>
      rw [home_of_not_isGlobal hglobal, hd]
      exact definer?_define_self hr
  | some d =>
    have hhome : f.home r name = d := by
      cases hglobal : f.isGlobal r name with
      | true => rw [home_of_isGlobal hglobal, h hglobal d hd]
      | false =>
        rw [home_of_not_isGlobal hglobal, hd]
        rfl
    rw [hhome, definer?_define_bound (isSome_of_definer? hd).1, hd]

theorem isSome_definer?_home (hr : r.index < f.scopes.size) (v : α) :
    ((f.define (f.home r name) name v).definer? r name).isSome = true := by
  cases hd : f.definer? r name with
  | none =>
    rw [definer?_define_home hr v fun _ d h => absurd (hd.symm.trans h) nofun]
    rfl
  | some d => exact isSome_definer?_define _ _ v (by rw [hd]; rfl)

theorem home_define_home (hr : r.index < f.scopes.size) (v : α) :
    (f.define (f.home r name) name v).home r other = f.home r other := by
  have hroot := root_congr (fun q => parent_define f (f.home r name) q name v) r
  cases hglobal : f.isGlobal r other with
  | true =>
    have hglobal' := (isGlobal_define f (f.home r name) r name other v).trans hglobal
    rw [home_of_isGlobal hglobal', home_of_isGlobal hglobal, hroot]
  | false =>
    have hglobal' := (isGlobal_define f (f.home r name) r name other v).trans hglobal
    rw [home_of_not_isGlobal hglobal', home_of_not_isGlobal hglobal]
    by_cases hother : other = name
    · subst hother
      rw [definer?_define_home hr v fun h => absurd (h.symm.trans hglobal) (by decide),
        home_of_not_isGlobal hglobal]
      rfl
    · rw [definer?_define_ne _ hother]

theorem size_assignAll (f : Forest α) (r : Ref .scope) (pairs : List (String × α)) :
    (f.assignAll r pairs).scopes.size = f.scopes.size := by
  induction pairs generalizing f with
  | nil => rfl
  | cons p rest ih => rw [assignAll, ih, size_define]

theorem parent_assignAll (pairs : List (String × α)) (q : Ref .scope) :
    ((f.assignAll r pairs).scope q).parent = (f.scope q).parent := by
  induction pairs generalizing f with
  | nil => rfl
  | cons p rest ih => rw [assignAll, ih, parent_define]

theorem isGlobal_assignAll (pairs : List (String × α)) (q : Ref .scope) :
    (f.assignAll r pairs).isGlobal q name = f.isGlobal q name := by
  induction pairs generalizing f with
  | nil => rfl
  | cons p rest ih => rw [assignAll, ih, isGlobal_define]

theorem getLocal?_assignAll (hr : r.index < f.scopes.size) (pairs : List (String × α))
    (h : name ∈ pairs.map (·.1) → q ≠ f.home r name) :
    (f.assignAll r pairs).getLocal? q name = f.getLocal? q name := by
  induction pairs generalizing f with
  | nil => rfl
  | cons p rest ih =>
    have hrest : name ∈ rest.map (·.1) → q ≠ (f.define (f.home r p.1) p.1 p.2).home r name := by
      intro hname
      rw [home_define_home hr]
      exact h (List.mem_cons_of_mem _ hname)
    rw [assignAll, ih (by rwa [size_define]) hrest, getLocal?_define, if_neg]
    rintro ⟨rfl, -, rfl⟩
    exact h List.mem_cons_self rfl

theorem definer?_assignAll (hr : r.index < f.scopes.size) (pairs : List (String × α))
    (h : f.definer? r name = some (f.home r name)) :
    (f.assignAll r pairs).definer? r name = some (f.home r name) := by
  induction pairs generalizing f with
  | nil => exact h
  | cons p rest ih =>
    have hhome : (f.define (f.home r p.1) p.1 p.2).home r name = f.home r name :=
      home_define_home hr p.2
    rw [assignAll, ih (by rwa [size_define]), hhome]
    rw [hhome, ← h]
    by_cases hname : name = p.1
    · subst hname
      rw [h, definer?_define_bound, h]
      exact (isSome_of_definer? h).1
    · exact definer?_define_ne _ hname

theorem isSome_definer?_assignAll (pairs : List (String × α))
    (h : (f.definer? r name).isSome = true) :
    ((f.assignAll r pairs).definer? r name).isSome = true := by
  induction pairs generalizing f with
  | nil => exact h
  | cons p rest ih => exact ih (isSome_definer?_define _ _ _ h)

theorem assignAll_append (f : Forest α) (before after : List (String × α)) :
    f.assignAll r (before ++ after) = (f.assignAll r before).assignAll r after := by
  induction before generalizing f with
  | nil => rfl
  | cons p rest ih => exact ih _

theorem Shows.define (h : f.Shows r name) (hr : r.index < f.scopes.size) (other : String) (v : α) :
    (f.define (f.home r other) other v).Shows r name := by
  intro hglobal d hd
  rw [isGlobal_define] at hglobal
  rw [root_congr fun q => parent_define f _ q other v]
  by_cases hname : name = other
  · subst hname
    rw [definer?_define_home hr v h, home_of_isGlobal hglobal] at hd
    exact (Option.some.inj hd).symm
  · rw [definer?_define_ne _ hname] at hd
    exact h hglobal d hd

theorem Shows.assignAll (h : f.Shows r name) (hr : r.index < f.scopes.size)
    (pairs : List (String × α)) : (f.assignAll r pairs).Shows r name := by
  induction pairs generalizing f with
  | nil => exact h
  | cons p rest ih => exact ih (h.define hr _ _) (by rwa [size_define])

theorem home_assignAll (hr : r.index < f.scopes.size) (pairs : List (String × α)) :
    (f.assignAll r pairs).home r name = f.home r name := by
  induction pairs generalizing f with
  | nil => rfl
  | cons p rest ih => rw [assignAll, ih (by rwa [size_define]), home_define_home hr]

theorem assignedAll (hr : r.index < f.scopes.size) (pairs : List (String × α)) :
    f.AssignedAll r pairs (f.assignAll r pairs) where
  parent := parent_assignAll pairs
  isGlobal q name := isGlobal_assignAll pairs q
  last := by
    rintro before name v after rfl hafter
    have hr' : r.index < (f.assignAll r before).scopes.size := by rwa [size_assignAll]
    have hhome : (f.assignAll r before).home r name = f.home r name := home_assignAll hr before
    rw [assignAll_append, assignAll]
    constructor
    · rw [getLocal?_assignAll (by rwa [size_define]) _ fun h => absurd h hafter, ← hhome,
        getLocal?_define, if_pos ⟨rfl, index_home_lt _ hr' _, rfl⟩]
    · intro hshows
      have hfound := definer?_define_home hr' v (hshows.assignAll hr before)
      have hsame : ((f.assignAll r before).define ((f.assignAll r before).home r name) name v).home
          r name = (f.assignAll r before).home r name := home_define_home hr' v
      have hfound : _ = some (((f.assignAll r before).define _ name v).home r name) :=
        hfound.trans (congrArg some hsame.symm)
      rw [get?, definer?_assignAll (by rwa [size_define]) after hfound, Option.bind_some, hsame,
        getLocal?_assignAll (by rwa [size_define]) _ fun h => absurd h hafter,
        getLocal?_define, if_pos ⟨rfl, index_home_lt _ hr' _, rfl⟩]
  bound := by
    intro name hname
    obtain ⟨⟨_, v⟩, hp, rfl⟩ := List.mem_map.1 hname
    obtain ⟨before, after, rfl⟩ := List.append_of_mem hp
    have hr' : r.index < (f.assignAll r before).scopes.size := by rwa [size_assignAll]
    rw [assignAll_append, assignAll, Option.isSome_iff_ne_none, ne_eq, get?_eq_none_iff, ← ne_eq,
      ← Option.isSome_iff_ne_none]
    exact isSome_definer?_assignAll after (isSome_definer?_home hr' v)
  elsewhere q name h := getLocal?_assignAll hr pairs h

end Forest

/-! The statements -/

def Place.operands : Place → List Expr
  | .name _ => []
  | .attr object _ => [object]
  | .index _ object i => [object, i]

def Target.operands : Target → List Expr
  | .place p => p.operands
  | .tuple .. => []

namespace Stmt

def isAssignment : Stmt → Bool
  | .assign .. | .update .. => true
  | _ => false

/-- What an assignment evaluates before it does anything else: the value, then the parts of what it
writes to. -/
def operands : Stmt → List Expr
  | .assign target _ value => value :: target.operands
  | .update place _ _ value => value :: place.operands
  | _ => []

open Eval

/-- What an assignment does with the values of its operands. -/
def conclude (w : World) : Stmt → List Value → Eval Unit
  | .assign (.place (.name id)) _ _, [v] => Eval.assign id.name v
  | .assign (.place (.attr _ id)) _ _, [v, object] => setAttr w object id v
  | .assign (.place (.index pos _ _)) _ _, [v, object, i] =>
    operateAt w pos (Op.setIndex object i v)
  | .assign (.tuple pos names) _ _, [v] => assignParts w pos names v
  | .update (.name id) op pos _, [v] => do
    let old ← lookup w id
    let new ← operateAt w pos (op.operator.apply old v)
    Eval.assign id.name new
  | .update (.attr _ id) op pos _, [v, object] => do
    let old ← attr w object id
    let new ← operateAt w pos (op.operator.apply old v)
    setAttr w object id new
  | .update (.index bracket _ _) op pos _, [v, object, i] => do
    let old ← operateAt w bracket (Op.index object i)
    let new ← operateAt w pos (op.operator.apply old v)
    operateAt w bracket (Op.setIndex object i new)
  | _, _ => pure ()

end Stmt

theorem Evaluator.exprs_one_ok {inner : Evaluator} {e : Expr} {m m' : Machine} {vs : List Value}
    (h : inner.exprs [e] m = .ok vs m') : ∃ v, vs = [v] := by
  simp only [exprs, Bind.bind, EStateM.bind] at h
  cases hr : inner.expr e m with
  | ok v m₁ =>
    rw [hr] at h
    cases h
    exact ⟨v, rfl⟩
  | error e m₁ =>
    rw [hr] at h
    cases h

/-- An assignment evaluates its operands and then does the rest. -/
theorem Evaluator.evalStmt_assignment (w : World) (inner : Evaluator) {s : Stmt}
    (hs : s.isAssignment = true) :
    inner.evalStmt w s = do
      let vs ← inner.exprs s.operands
      s.conclude w vs
      return done := by
  cases s with
  | assign target pos value =>
    cases target with
    | tuple =>
      simp only [evalStmt, Evaluator.assign, Stmt.operands, Target.operands, Stmt.conclude, exprs,
        bind_assoc, pure_bind]
    | place p =>
      cases p <;>
        simp only [evalStmt, Evaluator.assign, Stmt.operands, Target.operands, Place.operands,
          Stmt.conclude, exprs, bind_assoc, pure_bind]
  | update place op pos value =>
    cases place <;>
      simp only [evalStmt, Evaluator.update, Stmt.operands, Place.operands, Stmt.conclude, exprs,
        bind_assoc, pure_bind]
  | _ => cases hs

namespace Machine

def assignAll (m : Machine) (pairs : List (String × Value)) : Machine :=
  { m with store := { m.store with scopes := m.store.scopes.assignAll m.scope pairs } }

end Machine

namespace Eval

variable {w : World} {m m' : Machine}

theorem assignAll_ok (names : List Ident) (values : List Value) (m : Machine) :
    assignAll (names.zip values) m = .ok () (m.assignAll ((names.map (·.name)).zip values)) := by
  induction names generalizing values m with
  | nil => rfl
  | cons id rest ih =>
    cases values with
    | nil => rfl
    | cons v values => exact ih values _

theorem assignParts_ok {pos : Pos} {names : List Ident} {v : Value}
    (h : assignParts w pos names v m = .ok () m') : ∃ values m₁,
      unpack w pos names.length v m = .ok values m₁ ∧ values.length = names.length ∧
        m' = m₁.assignAll ((names.map (·.name)).zip values) := by
  simp only [assignParts, Bind.bind, EStateM.bind] at h
  cases hunpack : unpack w pos names.length v m with
  | error e m₁ =>
    rw [hunpack] at h
    cases h
  | ok values m₁ =>
    simp only [hunpack] at h
    split at h
    · rename_i hlength
      rw [assignAll_ok] at h
      cases h
      exact ⟨values, m₁, rfl, hlength, rfl⟩
    · cases h

theorem WritesLast.assignParts (w : World) (pos : Pos) (names : List Ident) (v : Value) :
    WritesLast (Eval.assignParts w pos names v) := by
  refine .bind (.unpack w pos _ v) fun values => ?_
  split
  · exact .total fun m => ⟨_, _, assignAll_ok names values m⟩
  · exact .onlyAdds (.fail w pos _)

end Eval

theorem Stmt.writesLast_conclude (w : World) (s : Stmt) (vs : List Value) :
    (s.conclude w vs).WritesLast := by
  unfold conclude
  split
  · exact .assign _ _
  · exact .setAttr w _ _ _
  · exact .setIndex w _ _ _ _
  · exact .assignParts w _ _ _
  · exact .bind (.lookup w _) fun _ => .bind (.operateAt w _ (.operator _ _ _)) fun _ => .assign _ _
  · exact .bind (.attr w _ _) fun _ => .bind (.operateAt w _ (.operator _ _ _)) fun _ =>
      .setAttr w _ _ _
  · exact .bind (.operateAt w _ (.index _ _)) fun _ => .bind (.operateAt w _ (.operator _ _ _))
      fun _ => .setIndex w _ _ _ _
  · exact .total fun _ => ⟨_, _, rfl⟩

/-- An assignment that fails once its operands have been evaluated leaves the state as it was then:
there may be more in the store, but nothing that was there has changed or refers to it. If several
names are assigned at once and that succeeds, all of them are bound, and of several values for one
name the last counts. -/
theorem failed_assignments_write_nothing (w : World) (fuel : Nat) {s : Stmt}
    (hs : s.isAssignment = true) {m m₁ : Machine} {vs : List Value}
    (hvs : (evaluator w fuel).exprs s.operands m = .ok vs m₁) :
    (∀ e m', (evaluator w (fuel + 1)).stmt s m = .error e m' →
      (∃ r, e = .raised r) ∧ m₁.Unwritten m' ∧
        (Region.whole.Closed m₁.store → ∀ a b, m₁.store.InUse a → m'.store.Reaches a b →
          m₁.store.Reaches a b)) ∧
    ∀ tpos names pos value, s = .assign (.tuple tpos names) pos value →
      m₁.store.InUse m₁.scope.address →
      ∀ flow m', (evaluator w (fuel + 1)).stmt s m = .ok flow m' →
        ∃ v values m₂, vs = [v] ∧ Eval.unpack w tpos names.length v m₁ = .ok values m₂ ∧
          values.length = names.length ∧ m₁.Unwritten m₂ ∧
          m' = { m₂ with store := { m₂.store with scopes := m'.store.scopes } } ∧
          m₁.store.scopes.AssignedAll m₁.scope ((names.map (·.name)).zip values)
            m'.store.scopes := by
  have hrun : (evaluator w (fuel + 1)).stmt s m =
      (s.conclude w vs >>= fun _ => pure Evaluator.done) m₁ := by
    change (evaluator w fuel).evalStmt w s m = _
    rw [Evaluator.evalStmt_assignment w _ hs]
    simp only [Bind.bind, EStateM.bind, hvs]
  rw [hrun]
  refine ⟨fun e m' herror => ?_, ?_⟩
  · have hlast : (s.conclude w vs >>= fun _ => pure Evaluator.done).WritesLast := by
      intro m e m' h
      simp only [Bind.bind, EStateM.bind] at h
      cases hr : s.conclude w vs m with
      | ok a m₂ =>
        rw [hr] at h
        cases h
      | error e₂ m₂ =>
        rw [hr] at h
        cases h
        exact s.writesLast_conclude w vs m _ _ hr
    obtain ⟨hkept, hraised⟩ := hlast m₁ e m' herror
    exact ⟨hraised, hkept, fun hc a b ha hab => (hkept.store.reaches hc ha hab).1⟩
  · rintro tpos names pos value rfl hscope flow m' hok
    obtain ⟨v, rfl⟩ := Evaluator.exprs_one_ok hvs
    have hparts : ∃ a, Eval.assignParts w tpos names v m₁ = .ok a m' := by
      simp only [Stmt.conclude, Bind.bind, EStateM.bind] at hok
      cases hr : Eval.assignParts w tpos names v m₁ with
      | ok a m₂ =>
        rw [hr] at hok
        cases hok
        exact ⟨a, rfl⟩
      | error e m₂ =>
        rw [hr] at hok
        cases hok
    obtain ⟨⟨⟩, hparts⟩ := hparts
    obtain ⟨values, m₂, hunpack, hlength, rfl⟩ := Eval.assignParts_ok hparts
    have hkept : m₁.Unwritten m₂ := by
      have hadds := (Eval.OnlyAdds.unpack w tpos names.length v m₁).1
      rwa [hunpack] at hadds
    refine ⟨v, values, m₂, rfl, hunpack, hlength, hkept, rfl, ?_⟩
    have hsame : m₂.scope = m₁.scope := by rw [hkept.rest]
    have hassigned := Forest.assignedAll hscope ((names.map (·.name)).zip values)
    rwa [← hkept.store.scopes, ← hsame] at hassigned ⊢

def pairing : Session := ((Session.start .bare none).runText "t = ([1], 2)\n" Forest.outermost).2

/-- `t[0] += [3]`. The element is read and the arrays are joined, but tuples are not written to. -/
def growFirst : Stmt :=
  .update (.index ⟨1, 2⟩ (.name ⟨"t", 1, 1⟩) (.literal ⟨1, 3⟩ (.int 0))) .add ⟨1, 6⟩
    (.array ⟨1, 9⟩ [.literal ⟨1, 10⟩ (.int 3)])

def assignTwice : Stmt :=
  .assign (.tuple ⟨1, 1⟩ [⟨"a", 1, 1⟩, ⟨"b", 1, 4⟩, ⟨"a", 1, 7⟩]) ⟨1, 9⟩
    (.tuple ⟨1, 11⟩ [.literal ⟨1, 11⟩ (.int 1), .literal ⟨1, 14⟩ (.int 2), .literal ⟨1, 17⟩ (.int 3)])

def hasResult {ε σ α : Type} : EStateM.Result ε σ α → Bool
  | .ok .. => true
  | .error .. => false

theorem exists_of_hasResult {ε σ α : Type} {r : EStateM.Result ε σ α} (h : hasResult r = true) :
    ∃ a s, r = .ok a s := by
  cases r with
  | ok a s => exact ⟨a, s, rfl⟩
  | error e s => cases h

/-- The joined array is all that is left of the first assignment. In the second the last value for a
name counts. -/
theorem failed_assignments_write_nothing_twice :
    (∃ vs m₁ e m', (evaluator .bare 3).exprs growFirst.operands pairing.machine = .ok vs m₁ ∧
      (evaluator .bare 4).stmt growFirst pairing.machine = .error e m' ∧ m₁.Unwritten m') ∧
    ∃ flow m', (evaluator .bare 4).stmt assignTwice (.initial none) = .ok flow m' ∧
      m'.store.scopes.get? Forest.outermost "a" = some (.int 3) := by
  constructor
  · obtain ⟨vs, m₁, hvs⟩ := exists_of_hasResult
      (r := (evaluator .bare 3).exprs growFirst.operands pairing.machine) (by decide +kernel)
    have hfails : hasResult ((evaluator .bare 4).stmt growFirst pairing.machine) = false := by
      decide +kernel
    cases hrun : (evaluator .bare 4).stmt growFirst pairing.machine with
    | ok flow m' =>
      rw [hrun] at hfails
      cases hfails
    | error e m' =>
      have hlaw := (failed_assignments_write_nothing .bare 3 (s := growFirst) rfl hvs).1 e m' hrun
      exact ⟨vs, m₁, e, m', hvs, rfl, hlaw.2.1⟩
  · obtain ⟨flow, m', hrun⟩ := exists_of_hasResult
      (r := (evaluator .bare 4).stmt assignTwice (.initial none)) (by decide +kernel)
    obtain ⟨v, values, m₂, hv, hunpack, -, -, -, hassigned⟩ :=
      (failed_assignments_write_nothing .bare 3 (s := assignTwice) rfl rfl).2 _ _ _ _ rfl
        (by decide +kernel) flow m' hrun
    cases hv
    cases hunpack
    refine ⟨flow, m', hrun, (hassigned.last [("a", .int 1), ("b", .int 2)] "a" (.int 3) [] rfl
      List.not_mem_nil).2 fun hglobal => ?_⟩
    exact absurd hglobal (by decide +kernel)

end Spellbook
