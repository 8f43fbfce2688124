import Spellbook.Proofs.Evaluation.Statements

/-! Signals stay in the construct that they are for. A `stop` or a `skip` ends the statements around
it up to a loop, and a `return` up to a call. Whether one can leave a statement can be told from the
text: if none is loose in it, the statement never ends with one. -/
namespace Spellbook

/-! Signals in a text -/

/-- What a signal is for. -/
inductive Signal where
  | loop
  | call
deriving DecidableEq, Repr

namespace Signal

def isSentBy : Signal → Stmt → Bool
  | .loop, .stop _ | .loop, .skip _ => true
  | .call, .give _ _ => true
  | _, _ => false

/-- The statements in the body of a loop that can send a signal past the loop. -/
def pastLoop : Signal → List Stmt → List Stmt
  | .loop, _ => []
  | .call, body => body

/-- The statements inside a statement that can send a signal past it. What comes after the last turn
of a loop is not in its body. -/
def past (x : Signal) : Stmt → List Stmt
  | .loop _ _ body => x.pastLoop body
  | .each _ _ _ body otherwise => x.pastLoop body ++ otherwise.getD []
  | s => s.blocks

/-- A statement that sends the signal stands in this one, and nothing around it there is what the
signal is for. -/
inductive Loose (x : Signal) : Stmt → Prop where
  | sent {s : Stmt} : x.isSentBy s = true → x.Loose s
  | inside {s s' : Stmt} : s' ∈ x.past s → x.Loose s' → x.Loose s

theorem mem_of_pastLoop {x : Signal} {body : List Stmt} {s : Stmt} (h : s ∈ x.pastLoop body) :
    s ∈ body := by
  cases x with
  | loop => cases h
  | call => exact h

theorem mem_blocks_of_past {x : Signal} {s s' : Stmt} (h : s' ∈ x.past s) : s' ∈ s.blocks := by
  cases s with
  | loop pos condition body => exact mem_of_pastLoop h
  | each pos pattern iterable body otherwise =>
    rcases List.mem_append.1 h with h | h
    · exact List.mem_append_left _ (mem_of_pastLoop h)
    · exact List.mem_append_right _ h
  | _ => exact h

instance decidableLoose (x : Signal) (s : Stmt) : Decidable (x.Loose s) :=
  have : ∀ t : { t // t ∈ x.past s }, Decidable (x.Loose t.1) := fun t => decidableLoose x t.1
  decidable_of_iff (x.isSentBy s = true ∨ ∃ t ∈ (x.past s).attach, x.Loose t.1) <| by
    constructor
    · rintro (h | ⟨t, _, h⟩)
      · exact .sent h
      · exact .inside t.2 h
    · rintro (h | ⟨hmem, h⟩)
      · exact .inl h
      · exact .inr ⟨⟨_, hmem⟩, List.mem_attach _ _, h⟩
termination_by sizeOf s
decreasing_by exact Stmt.sizeOf_lt_of_mem_blocks (mem_blocks_of_past t.2)

end Signal

/-- Whether statements that end in this way have sent the signal. -/
def Flow.isSignal : Flow → Signal → Bool
  | .stop, .loop | .skip, .loop => true
  | .give _, .call => true
  | _, _ => false

theorem Flow.isSignal_value (v : Value) (x : Signal) : (Flow.value v).isSignal x = false := by
  cases x <;> rfl

/-! What actions give -/

namespace Eval

variable {α β : Type}

/-- Whatever state the action starts in, what it gives has the property. -/
def Yields (act : Eval α) (P : α → Prop) : Prop := ∀ m a m', act m = .ok a m' → P a

namespace Yields

variable {x : Eval α} {k : α → Eval β} {P : β → Prop}

theorem of_parts {Q : α → Prop} (hx : x.Yields Q) (hk : ∀ a, Q a → (k a).Yields P) :
    (x >>= k).Yields P := by
  intro m b m' h
  cases hr : x m with
  | ok a m₁ =>
    simp only [Bind.bind, EStateM.bind, hr] at h
    exact hk a (hx m a m₁ hr) m₁ b m' h
  | error e m₁ =>
    simp only [Bind.bind, EStateM.bind, hr] at h
    cases h

theorem bind (hk : ∀ a, (k a).Yields P) : (x >>= k).Yields P :=
  of_parts (Q := fun _ => True) (fun _ _ _ _ => trivial) fun a _ => hk a

theorem pure {b : β} (h : P b) : (Pure.pure b : Eval β).Yields P := by
  intro m b m' hb
  cases hb
  exact h

theorem throw (h : Halt) : (MonadExcept.throw h : Eval β).Yields P := fun _ _ _ h => nomatch h

theorem fail (w : World) (pos : Pos) (fault : Fault) : (Eval.fail w pos fault : Eval β).Yields P :=
  fun _ _ _ h => nomatch h

theorem raiseValue (w : World) (pos : Pos) (v : Value) :
    (Eval.raiseValue w pos v : Eval β).Yields P := by
  have hcustom : ∀ name message object,
      (Eval.raiseCustom w pos name message object : Eval β).Yields P :=
    fun _ _ _ _ _ _ h => nomatch h
  unfold Eval.raiseValue
  split
  · refine .bind fun f => ?_
    cases f with
    | custom c => exact hcustom _ _ _
    | _ => exact .throw _
  · exact .throw _
  · exact hcustom _ _ _
  · exact .bind fun _ => .bind fun _ => hcustom _ _ _
  · exact .fail w pos _

theorem caught {act : Eval β} (h : act.Yields P) :
    (Eval.caught act).Yields fun r => ∀ b, r = .ok b → P b := by
  rintro m r m' hr b rfl
  cases ha : act m with
  | ok a m₁ =>
    simp only [Eval.caught, ha] at hr
    cases hr
    exact h m b m' ha
  | error e m₁ =>
    cases e <;> simp only [Eval.caught, ha] at hr <;> cases hr

theorem inScope {act : Eval β} (scope : Ref .scope) (h : act.Yields P) :
    (Eval.inScope scope act).Yields P := by
  intro m b m' hb
  cases ha : act { m with scope := scope } with
  | ok a m₁ =>
    simp only [Eval.inScope, Eval.bracket, ha] at hb
    cases hb
    exact h _ _ _ ha
  | error e m₁ =>
    simp only [Eval.inScope, Eval.bracket, ha] at hb
    cases hb

theorem resume {r : Except (Ref .failure) β} (h : ∀ b, r = .ok b → P b) :
    (Eval.resume r).Yields P := by
  cases r with
  | ok b => exact .pure (h b rfl)
  | error f => exact .throw _

end Yields

end Eval

/-! Statements without loose signals -/

/-- Statements never end with the signal. -/
def Signal.NeverEnds (x : Signal) (act : Eval Flow) : Prop :=
  act.Yields fun flow => flow.isSignal x = false

/-- No statement ends with a signal that is not loose in it. -/
def Evaluator.Contains (E : Evaluator) (x : Signal) : Prop :=
  ∀ s, ¬ x.Loose s → x.NeverEnds (E.stmt s)

namespace Signal.NeverEnds

variable {x : Signal} {E : Evaluator} {w : World}

theorem valued (v : Value) : x.NeverEnds (Pure.pure (.value v)) := .pure (Flow.isSignal_value v x)

section Parts

variable (hE : E.Contains x)

include hE

theorem blockAfter (last : Value) {body : List Stmt} (hb : ∀ s ∈ body, ¬ x.Loose s) :
    x.NeverEnds (E.blockAfter last body) := by
  induction body generalizing last with
  | nil => exact valued last
  | cons s rest ih =>
    obtain ⟨hs, hrest⟩ := List.forall_mem_cons.1 hb
    refine .of_parts (hE s hs) fun flow hflow => ?_
    cases flow with
    | value v => exact ih v hrest
    | give v => exact .pure hflow
    | stop => exact .pure hflow
    | skip => exact .pure hflow

theorem block {body : List Stmt} (hb : ∀ s ∈ body, ¬ x.Loose s) : x.NeverEnds (E.block body) :=
  blockAfter hE .none hb

theorem block? {body : Option (List Stmt)} (hb : ∀ s ∈ body.getD [], ¬ x.Loose s) :
    x.NeverEnds (E.block? body) := by
  cases body with
  | none => exact valued .none
  | some body => exact block hE hb

theorem turned {body : List Stmt} (hb : ∀ s ∈ x.pastLoop body, ¬ x.Loose s) :
    (E.block body).Yields fun flow => ∀ v, flow = .give v → flow.isSignal x = false := by
  cases x with
  | loop =>
    rintro _ _ _ _ v rfl
    rfl
  | call => exact fun m flow m' h v _ => block hE hb m flow m' h

theorem branch {otherwise : Option (List Stmt)} {branches : List (Expr × List Stmt)}
    (hb : ∀ s ∈ branches.flatMap (·.2) ++ otherwise.getD [], ¬ x.Loose s) :
    x.NeverEnds (E.branch otherwise branches) := by
  induction branches with
  | nil => exact block? hE hb
  | cons entry rest ih =>
    simp only [List.flatMap_cons, List.append_assoc, List.forall_mem_append] at hb ih
    refine .bind fun b => ?_
    cases b with
    | true => exact block hE hb.1
    | false => exact ih hb.2

theorem select (subject : Value) {default : Option (List Stmt)}
    {branches : List (Expr × List Stmt)}
    (hb : ∀ s ∈ branches.flatMap (·.2) ++ default.getD [], ¬ x.Loose s) :
    x.NeverEnds (E.select subject default branches) := by
  induction branches with
  | nil => exact block? hE hb
  | cons entry rest ih =>
    simp only [List.flatMap_cons, List.append_assoc, List.forall_mem_append] at hb ih
    refine .bind fun v => .bind fun b => ?_
    cases b with
    | true => exact block hE hb.1
    | false => exact ih hb.2

theorem turn {condition : Expr} {body : List Stmt} (hb : ∀ s ∈ x.pastLoop body, ¬ x.Loose s)
    (turns : Nat) : x.NeverEnds (E.turn condition body turns) := by
  induction turns with
  | zero => exact .throw _
  | succ turns ih =>
    refine .bind fun b => ?_
    cases b with
    | false => exact valued .none
    | true =>
      refine .of_parts (turned hE hb) fun flow hflow => ?_
      cases flow with
      | value v => exact ih
      | skip => exact ih
      | stop => exact valued .none
      | give v => exact .pure (hflow v rfl)

theorem turnOver (pattern : Pattern) {body : List Stmt} {otherwise : Option (List Stmt)}
    (hb : ∀ s ∈ x.pastLoop body, ¬ x.Loose s) (ho : ∀ s ∈ otherwise.getD [], ¬ x.Loose s)
    (values : List Value) : x.NeverEnds (E.turnOver w pattern body otherwise values) := by
  induction values with
  | nil => exact block? hE ho
  | cons v rest ih =>
    refine .bind fun _ => .of_parts (turned hE hb) fun flow hflow => ?_
    cases flow with
    | value v => exact ih
    | skip => exact ih
    | stop => exact valued .none
    | give v => exact .pure (hflow v rfl)

theorem handle (failure : Ref .failure) {h : Ensnare} (hb : ∀ s ∈ h.body, ¬ x.Loose s) :
    x.NeverEnds (E.handle h failure) := by
  intro m flow m' hr
  rw [Evaluator.handle_eq] at hr
  exact block hE hb _ _ _ hr

theorem dispatch (failure : Ref .failure) {handlers : List Ensnare}
    (hb : ∀ s ∈ handlers.flatMap (·.body), ¬ x.Loose s) :
    x.NeverEnds (E.dispatch failure handlers) := by
  induction handlers with
  | nil => exact .throw _
  | cons h rest ih =>
    simp only [List.flatMap_cons, List.forall_mem_append] at hb
    refine .bind fun b => ?_
    cases b with
    | true => exact handle hE failure hb.1
    | false => exact ih hb.2

theorem attempt {body : List Stmt} {handlers : List Ensnare} {resolve : Option (List Stmt)}
    (hb : ∀ s ∈ body ++ handlers.flatMap (·.body) ++ resolve.getD [], ¬ x.Loose s) :
    x.NeverEnds (E.attempt body handlers resolve) := by
  simp only [List.forall_mem_append] at hb
  refine .of_parts (.caught (block hE hb.1.1)) fun outcome houtcome => ?_
  cases outcome with
  | ok flow => exact .pure (houtcome flow rfl)
  | error failure =>
    refine .of_parts (.caught (dispatch hE failure hb.1.2)) fun outcome houtcome => ?_
    cases resolve with
    | none => exact .resume houtcome
    | some closing =>
      refine .of_parts (block hE hb.2) fun flow hflow => ?_
      cases flow with
      | value v => exact .resume houtcome
      | give v => exact .pure hflow
      | stop => exact .pure hflow
      | skip => exact .pure hflow

theorem use (pos : Pos) (resource : Expr) (binder : Option Ident) {body : List Stmt}
    (hb : ∀ s ∈ body, ¬ x.Loose s) : x.NeverEnds (E.use w pos resource binder body) := by
  refine .bind fun v => .bind fun here => .bind fun scope => ?_
  refine .of_parts (.caught (P := fun flow => flow.isSignal x = false) (.inScope scope ?_))
    fun outcome houtcome => .bind fun closed => ?_
  · cases binder with
    | none => exact block hE hb
    | some id => exact .bind fun _ => block hE hb
  · split
    · exact .throw _
    · exact .throw _
    · exact .fail w _ _
    · exact .pure (houtcome _ rfl)

theorem program {p : Program} (runMain : Bool) (hp : ∀ s ∈ p.statements, ¬ x.Loose s) :
    x.NeverEnds (E.program p runMain) := by
  have hpart : ∀ (q : Stmt → Bool), ∀ s ∈ p.statements.filter q, ¬ x.Loose s :=
    fun q s hs => hp s (List.mem_filter.1 hs).1
  unfold Evaluator.program
  split
  · refine .of_parts (block hE (hpart _)) fun flow hflow => ?_
    cases flow with
    | value v =>
      cases runMain with
      | true => exact block hE (hpart _)
      | false => exact valued .none
    | give v => exact .pure hflow
    | stop => exact .pure hflow
    | skip => exact .pure hflow
  · exact block hE hp

/-- The rule for statements. Only what a statement lets past it matters of the statements inside. -/
theorem evalStmt {s : Stmt} (hs : ¬ x.Loose s) : x.NeverEnds (E.evalStmt w s) := by
  have hpast : ∀ s' ∈ x.past s, ¬ x.Loose s' := fun s' hmem hloose => hs (.inside hmem hloose)
  have hsent : x.isSentBy s ≠ true := fun h => hs (.sent h)
  cases s with
  | expr e => exact .bind fun v => valued v
  | assign target pos value => exact .bind fun _ => .bind fun _ => valued .none
  | update place op pos value => exact .bind fun _ => .bind fun _ => valued .none
  | give pos value =>
    cases x with
    | loop =>
      cases value with
      | none => exact .pure rfl
      | some e => exact .bind fun _ => .pure rfl
    | call => exact absurd rfl hsent
  | cond pos condition body branches otherwise => exact branch hE hpast
  | loop pos condition body => exact turn hE hpast _
  | each pos pattern iterable body otherwise =>
    obtain ⟨hbody, hotherwise⟩ := List.forall_mem_append.1 hpast
    refine .bind fun v => .bind fun elements => ?_
    cases elements with
    | some elements => exact turnOver hE pattern hbody hotherwise _
    | none => exact .fail w _ _
  | spell decl => exact .bind fun _ => valued .none
  | grimoire decl => exact .bind fun _ => valued .none
  | load pos name binder => exact .bind fun _ => valued .none
  | choose pos subject branches default => exact .bind fun v => select hE v hpast
  | attempt pos body handlers resolve => exact attempt hE hpast
  | raise pos value => exact .bind fun v => .raiseValue w pos v
  | stop pos =>
    cases x with
    | loop => exact absurd rfl hsent
    | call => exact .pure rfl
  | skip pos =>
    cases x with
    | loop => exact absurd rfl hsent
    | call => exact .pure rfl
  | ignore pos => exact valued .none
  | global pos names => exact .bind fun _ => .bind fun _ => valued .none
  | within pos resource binder body => exact use hE pos resource binder hpast
  | main pos body => exact block hE hpast

end Parts

end Signal.NeverEnds

end Spellbook
