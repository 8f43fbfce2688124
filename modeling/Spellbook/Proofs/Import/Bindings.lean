import Spellbook.Eval
import Spellbook.Proofs.Scope

/-! What a scope and those around it come to by the bindings of a plain module, one after the other.
A declaration binds its name in the scope itself, and an assignment goes to where its name is
bound. -/
namespace Spellbook

/-- What a name is bound to by a module that only assigns literals and declares spells and
grimoires. -/
inductive Binding where
  | literal (value : Literal)
  | spell
  | grimoire
deriving DecidableEq, Repr

namespace Binding

def isLiteral : Binding → Bool
  | .literal _ => true
  | _ => false

def Fits : Binding → Value → Prop
  | .literal value, v => v = .ofLiteral value
  | .spell, v => ∃ r, v = .spell r
  | .grimoire, v => ∃ r, v = .grimoire r

def home (b : Binding) (f : Forest Value) (r : Ref .scope) (name : String) : Ref .scope :=
  if b.isLiteral then f.home r name else r

def Leaves (last : Option Binding) (before after : Option Value) : Prop :=
  match last with
  | none => after = before
  | some b => ∃ v, b.Fits v ∧ after = some v

theorem eq_grimoire_of_fits {b : Binding} {r : Ref .grimoire} (h : b.Fits (.grimoire r)) :
    b = .grimoire := by
  cases b with
  | literal value => cases value <;> cases h
  | spell =>
    obtain ⟨_, h⟩ := h
    cases h
  | grimoire => rfl

theorem leaves_cons {b : Binding} {v : Value} {rest : List Binding} {before after : Option Value}
    (hv : b.Fits v) (h : Leaves rest.getLast? (some v) after) :
    Leaves (b :: rest).getLast? before after := by
  cases hlast : rest.getLast? with
  | none =>
    rw [hlast] at h
    simpa [List.getLast?_cons, hlast, Leaves] using ⟨v, hv, h⟩
  | some last =>
    rw [hlast] at h
    simpa [List.getLast?_cons, hlast, Leaves] using h

end Binding

/-- The name that a plain statement binds: one that assigns a literal to a name, or declares a spell
or a grimoire. -/
def Stmt.binding? : Stmt → Option (String × Binding)
  | .assign (.place (.name id)) _ (.literal _ value) => some (id.name, .literal value)
  | .spell decl => some (decl.name.name, .spell)
  | .grimoire decl => some (decl.name.name, .grimoire)
  | _ => none

def Program.IsPlain (p : Program) : Prop := ∀ s ∈ p.statements, s.binding?.isSome = true

def Program.bindings (p : Program) : List (String × Binding) := p.statements.filterMap Stmt.binding?

def bindingsOf (name : String) (all : List (String × Binding)) : List Binding :=
  (all.filter fun entry => entry.1 = name).map (·.2)

theorem bindingsOf_cons_ne {name other : String} {b : Binding} {rest : List (String × Binding)}
    (h : other ≠ name) : bindingsOf name ((other, b) :: rest) = bindingsOf name rest := by
  simp [bindingsOf, h]

theorem bindingsOf_cons_self {name : String} {b : Binding} {rest : List (String × Binding)} :
    bindingsOf name ((name, b) :: rest) = b :: bindingsOf name rest := by
  simp [bindingsOf]

/-! Scopes -/

/-- What a scope `r` that may assign to the scopes around it makes of the forest by bindings one
after the other. -/
inductive Forest.Grows (r : Ref .scope) :
    List (String × Binding) → Forest Value → Forest Value → Prop where
  | nil {f : Forest Value} : Grows r [] f f
  | cons {f f' : Forest Value} {name : String} {b : Binding} {v : Value}
      {rest : List (String × Binding)} :
      b.Fits v → Grows r rest (f.define (b.home f r name) name v) f' →
      Grows r ((name, b) :: rest) f f'

namespace Forest.Grows

variable {r : Ref .scope} {all : List (String × Binding)} {f f' : Forest Value} {name : String}

theorem size (h : Grows r all f f') : f'.scopes.size = f.scopes.size := by
  induction h with
  | nil => rfl
  | cons _ _ ih => simpa using ih

theorem here (h : Grows r all f f') (hr : r.index < f.scopes.size)
    (hg : ∀ name, f.isGlobal r name = false)
    (hown : f.definer? r name = none ∨ f.definer? r name = some r) :
    Binding.Leaves (bindingsOf name all).getLast? (f.getLocal? r name) (f'.getLocal? r name) := by
  induction h with
  | nil => rfl
  | @cons f f' other b v rest hv hrest ih =>
    by_cases hname : other = name
    · subst hname
      have hhome : b.home f r other = r := by
        cases hown with
        | inl hown => simp [Binding.home, Forest.home, hg, hown]
        | inr hown => simp [Binding.home, Forest.home, hg, hown]
      rw [hhome] at ih
      rw [bindingsOf_cons_self]
      refine Binding.leaves_cons hv ?_
      simpa [hr] using ih (by simpa using hr) (by simpa using hg) (.inr (definer?_define_self hr))
    · have hne : name ≠ other := fun heq => hname heq.symm
      rw [bindingsOf_cons_ne hname]
      simpa [hne] using ih (by simpa using hr) (by simpa using hg)
        (by rwa [definer?_define_ne _ hne])

theorem here_of_beyond (h : Grows r all f f') (hr : r.index < f.scopes.size)
    (hg : ∀ name, f.isGlobal r name = false) {d : Ref .scope} (hd : f.definer? r name = some d)
    (hne : d ≠ r) :
    Binding.Leaves ((bindingsOf name all).dropWhile Binding.isLiteral).getLast?
      (f.getLocal? r name) (f'.getLocal? r name) := by
  induction h with
  | nil => rfl
  | @cons f f' other b v rest hv hrest ih =>
    by_cases hname : other = name
    · subst hname
      rw [bindingsOf_cons_self]
      by_cases hb : b.isLiteral = true
      · have hhome : b.home f r other = d := by simp [Binding.home, Forest.home, hb, hg, hd]
        rw [hhome] at ih
        have hkept := ih (by simpa using hr) (by simpa using hg)
          (by rwa [definer?_define_bound (isSome_of_definer? hd).1])
        simpa [List.dropWhile_cons, hb, hne.symm] using hkept
      · have hhome : b.home f r other = r := by simp [Binding.home, hb]
        rw [hhome] at hrest
        have hown : Binding.Leaves (bindingsOf other rest).getLast? _ _ :=
          hrest.here (by simpa using hr) (by simpa using hg) (.inr (definer?_define_self hr))
        rw [List.dropWhile_cons, if_neg hb]
        exact Binding.leaves_cons hv (by simpa [hr] using hown)
    · have hother : name ≠ other := fun heq => hname heq.symm
      rw [bindingsOf_cons_ne hname]
      simpa [hother] using ih (by simpa using hr) (by simpa using hg)
        (by rwa [definer?_define_ne _ hother])

/-- Elsewhere nothing changes, but the nearest binding of a name takes what is assigned to the name
up to its first declaration. -/
theorem elsewhere (h : Grows r all f f') (hr : r.index < f.scopes.size)
    (hg : ∀ name, f.isGlobal r name = false) {q : Ref .scope} (hq : q ≠ r) :
    Binding.Leaves
      (if f.definer? r name = some q then
        ((bindingsOf name all).takeWhile Binding.isLiteral).getLast? else none)
      (f.getLocal? q name) (f'.getLocal? q name) := by
  induction h with
  | nil => split <;> rfl
  | @cons f f' other b v rest hv hrest ih =>
    have hrest' := ih (by simpa using hr) (by simpa using hg)
    by_cases hname : other = name
    · subst hname
      rw [bindingsOf_cons_self]
      by_cases hb : b.isLiteral = true
      · simp only [List.takeWhile_cons, hb, if_true]
        cases hd : f.definer? r other with
        | none =>
          have hhome : b.home f r other = r := by simp [Binding.home, Forest.home, hg, hd]
          rw [hhome, definer?_define_self hr, if_neg (by simpa using hq.symm)] at hrest'
          simpa [hq] using hrest'
        | some d =>
          have hhome : b.home f r other = d := by simp [Binding.home, Forest.home, hb, hg, hd]
          have hbound := (isSome_of_definer? hd).1
          rw [hhome, definer?_define_bound hbound, hd] at hrest'
          by_cases hdq : d = q
          · subst hdq
            rw [if_pos rfl] at hrest' ⊢
            exact Binding.leaves_cons hv (by simpa [lt_size_of_getLocal? hbound] using hrest')
          · have hqd : q ≠ d := fun heq => hdq heq.symm
            rw [if_neg (by simpa using hdq)] at hrest' ⊢
            simpa [hqd] using hrest'
      · have hhome : b.home f r other = r := by simp [Binding.home, hb]
        rw [hhome, definer?_define_self hr, if_neg (by simpa using hq.symm)] at hrest'
        simpa [List.takeWhile_cons, hb, hq] using hrest'
    · have hother : name ≠ other := fun heq => hname heq.symm
      rw [bindingsOf_cons_ne hname]
      simpa [hother, definer?_define_ne _ hother] using hrest'

theorem of_mem_vars (h : Grows r all f f') {entry : String × Value}
    (he : entry ∈ (f'.scope r).vars) :
    entry ∈ (f.scope r).vars ∨ ∃ b, (entry.1, b) ∈ all ∧ b.Fits entry.2 := by
  induction h with
  | nil => exact .inl he
  | @cons f f' name b v rest hv hrest ih =>
    cases ih he with
    | inl hmem =>
      rw [define, scope_modify] at hmem
      split at hmem
      · cases Bindings.mem_set hmem with
        | inl heq => exact .inr ⟨b, by simp [heq], by simpa [heq] using hv⟩
        | inr hmem => exact .inl hmem
      · exact .inl hmem
    | inr hmem =>
      obtain ⟨b', hmem, hfits⟩ := hmem
      exact .inr ⟨b', List.mem_cons_of_mem _ hmem, hfits⟩

end Forest.Grows

end Spellbook
