import Spellbook.Proofs.Nesting

/-! Where the statements of a program stand among the tokens, and a logic for it. A parse walks if it
ends where no other blocks are open than where it starts, whether it comes to a result or fails. The
one exception is a `match` that fails behind its INDENT, so nothing is asked where such a failure has
been reported. -/
namespace Spellbook.Parser

open State

/-! Where statements stand -/

def partsWith (fuel : Nat) : Parts := ⟨fuel, exprAt fuel .lowest, stmt fuel⟩

/-- A body behind the colon at which the state is. It is either what stands on the line, or a block:
its statements start between the INDENT and the DEDENT that closes it, where no other block is
open. -/
inductive BodyAt (stands : State → Stmt → Prop) (s : State) (body : List Stmt) : Prop where
  | line {t : State} : s.ahead = t.tokens → t.cur.kind ≠ .newline → (∀ b ∈ body, stands t b) →
    BodyAt stands s body
  | block {newline indent dedent : Token} {inner rest : List Token} :
    s.ahead = newline :: indent :: inner ++ dedent :: rest →
    newline.kind = .newline → indent.kind = .indent → dedent.kind = .dedent → Levels 0 inner 0 →
    (∀ b ∈ body, ∃ before after t, inner = before ++ t.cur :: after ∧ Levels 0 before 0 ∧
      t.ahead = after ++ dedent :: rest ∧ stands t b) → BodyAt stands s body

/-- The body is among the statements of one that is read at a colon behind `s`, where as many more
blocks are open as `level` says. -/
def Attached (fuel : Nat) (stands : State → Stmt → Prop) (level : Nat) (s : State)
    (body : List Stmt) : Prop :=
  ∃ t all t', s.Leads t ∧ Levels 0 (s.taken t) level ∧ t.cur.kind = .symbol .colon ∧
    block (partsWith fuel) t = .ok all t' ∧ (∀ b ∈ body, b ∈ all) ∧ BodyAt stands t all

/-- The blocks that a statement opens around its bodies, apart from their own. -/
def inset : Stmt → Nat
  | .choose .. => 1
  | _ => 0

/-- The statement is read at `s`, and so are those in its bodies, each in the body that it is in. -/
def Stands : Nat → State → Stmt → Prop
  | 0, _, _ => False
  | fuel + 1, s, a => (∃ s', stmt (fuel + 1) s = .ok a s') ∧
      ∀ body ∈ a.bodies, body ≠ [] → Attached fuel (Stands fuel) (inset a) s body

theorem Stands.read {fuel : Nat} {s : State} {a : Stmt} (h : Stands fuel s a) :
    ∃ s', stmt fuel s = .ok a s' := by
  cases fuel with
  | zero => exact h.elim
  | succ fuel => exact h.1

/-- The bodies of a statement that is read at `s` are where `Stands` has them. -/
def HasBodies (fuel : Nat) (s : State) (a : Stmt) : Prop :=
  ∀ body ∈ a.bodies, body ≠ [] → Attached fuel (Stands fuel) (inset a) s body

/-- A `match` of the text fails with this diagnostic and leaves a block open. -/
def FailsInMatch (source : String) (e : Diagnostic) : Prop :=
  ∃ s s', s.tokens <:+ tokensOf source ∧ s.cur.kind = .keyword .match_ ∧
    stmt (budget source.length) s = .error (.complaint e) s' ∧ ¬ s.Even s'

/-! The logic -/

/-- No `match` is known to have left its block open. -/
def Regular (source : String) (s : State) : Prop := ∀ e ∈ s.found, ¬ FailsInMatch source e

/-- The tokens between lead to as many open blocks as before, and something is known, unless the
state is irregular. -/
structure Reaches (source : String) (s₀ : State) (P : Prop) (s : State) : Prop
    extends s₀.Leads s where
  orderly : Regular source s → s₀.Even s ∧ P

/-- The parse goes on in `s` and reaches where it ends, also if it fails. Nothing is asked where it
runs out of fuel. -/
def Walks {α : Type} (source : String) (s₀ : State) (R : α → Prop) (x : Parse α) (s : State) :
    Prop :=
  match x s with
  | .ok a s' => Reaches source s₀ (R a) s'
  | .error (.complaint e) s' => Reaches source s₀ True (s'.reporting e)
  | .error .outOfFuel _ => True

variable {source : String} {α β : Type} {s₀ s s' : State} {P Q : Prop} {R : α → Prop}

theorem Regular.before (h : Regular source s') (hleads : s.Leads s') : Regular source s :=
  fun e he => h e (hleads.found.subset he)

namespace Reaches

theorem refl (source : String) (s : State) : Reaches source s True s :=
  ⟨.refl s, fun _ => ⟨.refl s, trivial⟩⟩

theorem imp (h : Reaches source s₀ P s) (hPQ : P → Q) : Reaches source s₀ Q s :=
  ⟨h.toLeads, fun hs => (h.orderly hs).imp_right hPQ⟩

theorem trans (h : Reaches source s₀ P s) (h' : Reaches source s Q s') :
    Reaches source s₀ (P ∧ Q) s' := by
  refine ⟨h.toLeads.trans h'.toLeads, fun hs' => ?_⟩
  obtain ⟨hfirst, hP⟩ := h.orderly (hs'.before h'.toLeads)
  obtain ⟨hrest, hQ⟩ := h'.orderly hs'
  exact ⟨hfirst.trans hrest h.toLeads h'.toLeads, hP, hQ⟩

theorem step (h : Reaches source s₀ P s) (hleads : s.Leads s')
    (heven : Regular source s' → s.Even s') : Reaches source s₀ P s' :=
  (h.trans (Q := True) ⟨hleads, fun hs' => ⟨heven hs', trivial⟩⟩).imp And.left

theorem along (h : Reaches source s₀ P s) (hleads : s.Leads s') (halong : s.Along s') :
    Reaches source s₀ P s' :=
  h.step hleads fun _ => levels_of_flat halong.flat 0

theorem reported (h : Reaches source s₀ P s) (htokens : s'.tokens = s.tokens)
    (hfound : s.found <:+ s'.found) : Reaches source s₀ P s' := by
  refine h.step ⟨htokens ▸ List.suffix_rfl, hfound⟩ fun _ => ?_
  have htaken : s.taken s' = [] := taken_eq htokens.symm
  rw [State.Even, htaken]
  exact .nil 0

theorem reporting (h : Reaches source s₀ P s) (e : Diagnostic) :
    Reaches source s₀ P (s.reporting e) :=
  h.reported rfl (List.suffix_cons _ _)

theorem even (h : Reaches source s₀ P s) : Reaches source s₀ (P ∧ s₀.Even s) s :=
  ⟨h.toLeads, fun hs => ⟨(h.orderly hs).1, (h.orderly hs).2, (h.orderly hs).1⟩⟩

theorem fails (h : Reaches source s₀ P s) (e : Diagnostic) :
    Reaches source s₀ True (s.reporting e) :=
  (h.reporting e).imp fun _ => trivial

end Reaches

namespace Walks

variable {R' : β → Prop} {x : Parse α}

theorem ok {a : α} (h : Walks source s₀ R x s) (hx : x s = .ok a s') :
    Reaches source s₀ (R a) s' := by
  rw [Walks, hx] at h
  exact h

theorem error {e : Diagnostic} (h : Walks source s₀ R x s)
    (hx : x s = .error (.complaint e) s') :
    Reaches source s₀ True (s'.reporting e) := by
  rw [Walks, hx] at h
  exact h

theorem of_cases (hok : ∀ a s', x s = .ok a s' → Reaches source s₀ (R a) s')
    (herror : ∀ e s', x s = .error (.complaint e) s' →
      Reaches source s₀ True (s'.reporting e)) :
    Walks source s₀ R x s := by
  unfold Walks
  split
  · exact hok _ _ ‹_›
  · exact herror _ _ ‹_›
  · trivial

theorem pure {a : α} (h : Reaches source s₀ P s) (ha : P → R a) :
    Walks source s₀ R (Pure.pure a) s :=
  h.imp ha

theorem stuck {e : Diagnostic} (h : Reaches source s₀ P s)
    (hx : x s = .error (.complaint e) s) : Walks source s₀ R x s := by
  rw [Walks, hx]
  exact h.fails e

theorem outOfFuel : Walks source s₀ R (Parser.outOfFuel : Parse α) s := trivial

theorem imp {R₂ : α → Prop} (h : Walks source s₀ R x s) (hR : ∀ a, R a → R₂ a) :
    Walks source s₀ R₂ x s :=
  of_cases (fun a _ hx => (h.ok hx).imp (hR a)) fun _ _ hx => h.error hx

theorem bind {f : α → Parse β} (hx : Walks source s₀ R x s)
    (hf : ∀ a s', Reaches source s₀ (R a) s' → Walks source s₀ R' (f a) s') :
    Walks source s₀ R' (x >>= f) s := by
  cases h : x s with
  | ok a s' =>
    have hrest := hf a s' (hx.ok h)
    simp only [Walks, Bind.bind, EStateM.bind, h] at hrest ⊢
    exact hrest
  | error e s' =>
    rw [Walks, h] at hx
    simp only [Walks, Bind.bind, EStateM.bind, h]
    cases e <;> exact hx

theorem trans (h : Reaches source s₀ P s) (hx : Walks source s R x s) :
    Walks source s₀ (fun a => P ∧ R a) x s :=
  of_cases (fun _ _ ha => h.trans (hx.ok ha)) fun _ _ he =>
    (h.trans (hx.error he)).imp fun _ => trivial

theorem of_eq {y : Parse α} (h : x s = y s') (hy : Walks source s₀ R y s') :
    Walks source s₀ R x s := by
  rw [Walks, h]
  exact hy

theorem self (h : Walks source s₀ R x s) :
    Walks source s₀ (fun a => R a ∧ ∃ s', x s = .ok a s') x s :=
  of_cases (fun _ s' hx => (h.ok hx).imp fun hR => ⟨hR, s', hx⟩) fun _ _ hx => h.error hx

theorem caught {f : Except Diagnostic α → Parse β}
    (hok : ∀ a s', x s = .ok a s' → Walks source s₀ R' (f (.ok a)) s')
    (herror : ∀ e s', x s = .error (.complaint e) s' → Walks source s₀ R' (f (.error e)) s') :
    Walks source s₀ R' (Parser.outcome x >>= f) s := by
  cases h : x s with
  | ok a s' => exact of_eq (by simp [Parser.outcome, Bind.bind, EStateM.bind, h]) (hok a s' h)
  | error e s' =>
    cases e with
    | complaint e =>
      exact of_eq (by simp [Parser.outcome, Bind.bind, EStateM.bind, h]) (herror e s' h)
    | outOfFuel => simp [Walks, Parser.outcome, Bind.bind, EStateM.bind, h]

theorem map {f : α → β} (hx : Walks source s₀ R x s) (hR : ∀ a, R a → R' (f a)) :
    Walks source s₀ R' (f <$> x) s := by
  have hbind : Walks source s₀ R' (x >>= fun a => Pure.pure (f a)) s :=
    hx.bind fun a s' ha => .pure ha (hR a)
  exact hbind

/-! Looking at tokens -/

theorem look {f : Token → Parse α} (h : Walks source s₀ R (f s.cur) s) :
    Walks source s₀ R (Parser.cur >>= f) s := h

theorem check {c : Kind} {f : Bool → Parse α} (h : Walks source s₀ R (f (s.cur.kind == c)) s) :
    Walks source s₀ R (Parser.check c >>= f) s := h

/-! Taking tokens of a line -/

theorem level {k : Nat} {Q : α → State → Prop} (h : Reaches source s₀ P s)
    (hx : Proceeds (.level source True) k (fun _ : Unit => x) s Q) (hR : ∀ a s', P → Q a s' → R a) :
    Walks source s₀ R x s := by
  obtain ⟨r, hr, hallowed⟩ := hx
  obtain rfl : x s = r := hr () (.inl trivial)
  refine of_cases (fun a s' hok => ?_) fun e s' herror => ?_
  · rw [hok] at hallowed
    obtain ⟨hstep, -, hQ⟩ := hallowed
    exact (h.along hstep.toLeads (hstep.along trivial)).imp fun hP => hR a s' hP hQ
  · rw [herror] at hallowed
    exact (h.along hallowed.2.1.toLeads (hallowed.2.1.along trivial)).fails e

theorem free {k : Nat} {Q : α → State → Prop} (h : Reaches source s₀ P s)
    (hx : Proceeds (.level source True) k (fun _ : Unit => x) s Q) :
    Walks source s₀ (fun _ => P) x s :=
  level h hx fun _ _ hP _ => hP

end Walks

end Spellbook.Parser
