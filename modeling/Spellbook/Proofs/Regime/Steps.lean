import Spellbook.Proofs.Regime.Basic

/-! What a step leaves as it was, and what there is after it that was not there before. -/
namespace Spellbook

open Region Refers

namespace Store

variable {s s' : Store}

theorem mem_lineage_of_parent {g p a : Ref .grimoire} (hp : (s.grimoire g).parent = some p)
    (hlt : p.index < g.index) (h : a ∈ s.lineage p) : a ∈ s.lineage g := by
  rw [lineage, hp]
  simp only [hlt, if_true]
  exact List.mem_cons_of_mem _ h

theorem lineage_trans {r g a : Ref .grimoire} (hg : g ∈ s.lineage r) (ha : a ∈ s.lineage g) :
    a ∈ s.lineage r := by
  obtain ⟨i⟩ := r
  induction i using Nat.strongRecOn with
  | _ i ih =>
    have hcons := hg
    rw [lineage] at hcons
    rcases List.mem_cons.1 hcons with rfl | hmore
    · exact ha
    · split at hmore
      · rename_i p hp
        split at hmore
        · rename_i hlt
          exact mem_lineage_of_parent hp hlt (ih p.index hlt hmore)
        · cases hmore
      · cases hmore

/-! The scope that a method starts in -/

variable {v : Value} {g : Ref .grimoire}

theorem parent_entered (s : Store) (v : Value) (g : Ref .grimoire) :
    ((s.entered v g).scopes.scope s.fresh).parent = some (s.grimoire g).scope := by
  unfold entered received
  cases ((s.opened (s.grimoire g).scope).grimoire g).parent with
  | none => simp [scope_fresh]
  | some p => simp [scope_fresh]

theorem self_entered (s : Store) (v : Value) (g : Ref .grimoire) :
    (s.entered v g).scopes.getLocal? s.fresh "self" = some v := by
  unfold entered received
  cases ((s.opened (s.grimoire g).scope).grimoire g).parent with
  | none => simp [fresh]
  | some p => simp [fresh]

theorem super_entered (s : Store) (v : Value) (g : Ref .grimoire) :
    (s.entered v g).scopes.getLocal? s.fresh "super" = (s.grimoire g).parent.map .grimoire := by
  have hnew : (s.opened (s.grimoire g).scope).scopes.getLocal? s.fresh "super" = none :=
    Forest.getLocal?_new _
  have hsame : ((s.opened (s.grimoire g).scope).grimoire g).parent = (s.grimoire g).parent := rfl
  unfold entered received
  rw [hsame]
  cases (s.grimoire g).parent with
  | none => simp [hnew]
  | some p => simp [fresh]

end Store

namespace Rules.Step

variable {R : Rules} {s s' : Store} (h : R.Step s s')

include h

theorem getLocal? {r : Ref .scope} {name : String} (hr : whole.Holds s r)
    (hb : ¬ R.binds s r name) : s'.scopes.getLocal? r name = s.scopes.getLocal? r name := by
  cases h with
  | alike h => exact h.getLocal? r name
  | grimoire | object | method => rfl
  | @bound q other v hq hother =>
    rw [Forest.getLocal?_define, if_neg]
    rintro ⟨rfl, _, rfl⟩
    exact hb hother
  | opened => rw [Forest.getLocal?, Forest.getLocal?, Store.scope_opened hr]
  | entered => rw [Forest.getLocal?, Forest.getLocal?, Store.scope_entered hr]

theorem grimoires {g : Ref .grimoire} (hg : whole.Holds s' g) :
    whole.Holds s g ∨ ∃ decl : GrimoireDecl, decl.Makes (s'.grimoire g) ∧
      whole.Holds s (s'.grimoire g) ∧ ((s'.grimoire g).parent = none → decl.parent = none) ∧
        R.declares s (s'.grimoire g).scope decl := by
  have hlt : g.index < s'.grimoires.size := holds_whole.1 hg
  cases h with
  | alike h => exact .inl (holds_whole.2 (h.grimoires ▸ hlt : g.index < s.grimoires.size))
  | @grimoire decl parent scope hp hscope hnone hd =>
    have hlt : g.index < s.grimoires.size + 1 := by simpa [Store.newGrimoire] using hlt
    rcases Nat.lt_succ_iff_lt_or_eq.1 hlt with hold | heq
    · exact .inl (holds_whole.2 hold)
    · obtain ⟨i⟩ := g
      obtain rfl : i = s.grimoires.size := heq
      refine .inr ⟨decl, ?_⟩
      simp only [Store.newGrimoire, Store.grimoire, Array.getD_eq_getD_getElem?,
        Array.getElem?_push_size, Option.getD_some]
      exact ⟨⟨rfl, rfl, rfl, rfl⟩, holds_grimoire.2 ⟨hscope, hp⟩, hnone, hd⟩
  | object | method | bound | opened | entered => exact .inl (holds_whole.2 hlt)

theorem methods {r : Ref .method} {f : Method} (hf : s'.method? r = some f) :
    s.method? r = some f ∨ whole.Holds s f ∧ R.receives s f.receiver f.owner f.decl := by
  cases h with
  | alike h => exact .inl (by rwa [Store.method?, h.methods] at hf)
  | @method new hnew hr =>
    simp only [Store.newMethod, Store.method?, Array.getElem?_push] at hf
    split at hf
    · cases hf
      exact .inr ⟨hnew, hr⟩
    · exact .inl hf
  | grimoire | object | bound | opened | entered => exact .inl hf

theorem scopes {r : Ref .scope} (hr : whole.Holds s' r) :
    whole.Holds s r ∨ r = s.fresh ∧ ((∃ p, whole.Holds s p ∧ s' = s.opened p) ∨
      ∃ v g decl, whole.Holds s v ∧ whole.Holds s g ∧ R.receives s v g decl ∧
        s' = s.entered v g) := by
  have hlt : r.index < s'.scopes.scopes.size := holds_whole.1 hr
  have hfresh : r.index < s.scopes.scopes.size + 1 → whole.Holds s r ∨ r = s.fresh := fun hlt =>
    (Nat.lt_succ_iff_lt_or_eq.1 hlt).imp holds_whole.2 fun heq => congrArg Ref.mk heq
  cases h with
  | alike h =>
    have hsize := congrArg Array.size h.scopes
    simp only [Array.size_map] at hsize
    exact .inl (holds_whole.2 (hsize ▸ hlt : r.index < s.scopes.scopes.size))
  | grimoire | object | method => exact .inl (holds_whole.2 hlt)
  | bound =>
    rw [Forest.size_define] at hlt
    exact .inl (holds_whole.2 hlt)
  | @opened p hp =>
    rw [Store.opened, Forest.size_push] at hlt
    exact (hfresh hlt).imp_right fun heq => ⟨heq, .inl ⟨p, hp, rfl⟩⟩
  | @entered v g decl hv hg hreceives =>
    rw [Store.size_entered] at hlt
    exact (hfresh hlt).imp_right fun heq => ⟨heq, .inr ⟨v, g, decl, hv, hg, hreceives, rfl⟩⟩

end Rules.Step

end Spellbook
