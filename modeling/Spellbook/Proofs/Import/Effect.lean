import Spellbook.Files.Snapshot
import Spellbook.Proofs.Evaluation.Actions
import Spellbook.Proofs.Import.Bindings
import Spellbook.Session

/-! What an import does to the bindings there are. The statements of a module run in a scope inside
the importing one, and an assignment goes to where its name is bound. So a module keeps what it
assigns to itself only under names that mean nothing to the importer, and under names it has
declared before. -/
namespace Spellbook

/-! Running a module -/

theorem Eval.of_bind_eq_ok {α β : Type} {x : Eval α} {k : α → Eval β} {m m' : Machine} {b : β}
    (h : (x >>= k) m = .ok b m') : ∃ a m₁, x m = .ok a m₁ ∧ k a m₁ = .ok b m' := by
  cases hx : x m with
  | ok a m₁ => exact ⟨a, m₁, rfl, by simpa only [Bind.bind, EStateM.bind, hx] using h⟩
  | error e m₁ => simp only [Bind.bind, EStateM.bind, hx, reduceCtorEq] at h

variable {w : World} {E : Evaluator} {m m' : Machine}

theorem Evaluator.eq_of_parentOf {parent : Option Ident} {g : Option (Ref .grimoire)}
    (h : Evaluator.parentOf w parent m = .ok g m') : m' = m := by
  cases parent with
  | none => cases h; rfl
  | some id =>
    cases hv : m.store.scopes.get? m.scope id.name with
    | none =>
      simp [Evaluator.parentOf, Eval.lookup, Eval.get?, Eval.look, Eval.fail, Eval.raise,
        Eval.location, Eval.trace, Bind.bind, EStateM.bind, hv] at h
    | some v =>
      cases v <;> simp_all [Evaluator.parentOf, Eval.lookup, Eval.get?, Eval.look, Eval.fail,
        Eval.raise, Eval.location, Eval.trace, Bind.bind, EStateM.bind, Pure.pure, EStateM.pure]

theorem Evaluator.eq_of_literal {fuel : Nat} {pos : Pos} {value : Literal} {v : Value}
    (h : (evaluator w fuel).expr (.literal pos value) m = .ok v m') :
    v = .ofLiteral value ∧ m' = m := by
  cases fuel with
  | zero => cases h
  | succ fuel => cases h; exact ⟨rfl, rfl⟩

theorem Evaluator.scopes_of_plain {fuel : Nat} {s : Stmt} {name : String} {b : Binding}
    {flow : Flow} (hs : s.binding? = some (name, b)) (h : (evaluator w fuel).stmt s m = .ok flow m') :
    ∃ v, b.Fits v ∧ flow = .value .none ∧ m'.scope = m.scope ∧
      m'.store.scopes = m.store.scopes.define (b.home m.store.scopes m.scope name) name v := by
  cases fuel with
  | zero => cases h
  | succ fuel =>
    unfold Stmt.binding? at hs
    split at hs
    · cases hs
      obtain ⟨v, m₁, hv, hassign⟩ := Eval.of_bind_eq_ok h
      obtain ⟨rfl, rfl⟩ := Evaluator.eq_of_literal hv
      cases hassign
      exact ⟨_, rfl, rfl, rfl, rfl⟩
    · cases hs
      cases h
      exact ⟨_, ⟨_, rfl⟩, rfl, rfl, rfl⟩
    · cases hs
      obtain ⟨_, m₁, hdeclare, hdone⟩ := Eval.of_bind_eq_ok h
      obtain ⟨_, m₂, hparent, hdefine⟩ := Eval.of_bind_eq_ok hdeclare
      obtain rfl := Evaluator.eq_of_parentOf hparent
      cases hdefine
      cases hdone
      exact ⟨_, ⟨_, rfl⟩, rfl, rfl, rfl⟩
    · cases hs

theorem Evaluator.grows_of_plain {fuel : Nat} {body : List Stmt} {last : Value} {flow : Flow}
    (hbody : ∀ s ∈ body, s.binding?.isSome = true)
    (h : (evaluator w fuel).blockAfter last body m = .ok flow m') :
    Forest.Grows m.scope (body.filterMap Stmt.binding?) m.store.scopes m'.store.scopes := by
  induction body generalizing last m with
  | nil =>
    cases h
    exact .nil
  | cons s rest ih =>
    obtain ⟨hs, hrest⟩ := List.forall_mem_cons.1 hbody
    obtain ⟨⟨name, b⟩, hb⟩ := Option.isSome_iff_exists.1 hs
    obtain ⟨flow₁, m₁, hstmt, h⟩ := Eval.of_bind_eq_ok h
    obtain ⟨v, hv, rfl, hscope, hscopes⟩ := Evaluator.scopes_of_plain hb hstmt
    rw [List.filterMap_cons_some hb]
    refine .cons hv ?_
    have hgrows := ih hrest h
    rwa [hscope, hscopes] at hgrows

theorem Program.IsPlain.program_eq {p : Program} (hp : p.IsPlain) (E : Evaluator) (runMain : Bool) :
    E.program p runMain = E.block p.statements := by
  have hmain : p.hasMain = false := by
    simp only [Program.hasMain, List.any_eq_false]
    intro s hs hmain
    have hplain := hp s hs
    cases s <;> simp_all [Stmt.isMain, Stmt.binding?]
  simp only [Evaluator.program, hmain, Bool.false_eq_true, if_false]

theorem Evaluator.of_runModule {pos : Pos} {name : String} {path : Path} {p : Program}
    {scope : Ref .scope} (h : E.runModule w pos name path p m = .ok scope m') :
    ∃ flow m₁, E.program p false (m.entering path) = .ok flow m₁ ∧
      scope = (m.store.scopes.push m.scope).1 ∧ m'.store = m₁.store ∧ m'.scope = m.scope := by
  simp only [Evaluator.runModule, Eval.look, Eval.push, Eval.create, Eval.caught, Eval.inFile,
    Eval.inScope, Eval.ownedBy, Eval.bracket, Bind.bind, EStateM.bind, Eval.modify_eq] at h
  unfold Machine.entering
  cases hrun : E.program p false _ with
  | ok flow m₁ =>
    rw [hrun] at h
    cases h
    exact ⟨flow, m₁, rfl, rfl, rfl, rfl⟩
  | error e m₁ =>
    rw [hrun] at h
    cases e <;> cases h

theorem Evaluator.of_load {pos : Pos} {name : String} {binder : Option Ident} {path : Path}
    (hpath : (Import.ofText name).locate w.files w.base = path)
    (hfresh : path.isAmong m.imported = false) (h : E.load w pos name binder m = .ok () m') :
    ∃ source scope m₁, w.files.read path = .ok source ∧ (parse source).diagnostics = [] ∧
      E.runModule w pos name path (parse source).program m = .ok scope m₁ ∧
      Evaluator.bindImport w pos name (Import.ofText name).grimoire binder scope m₁ =
        .ok () m' := by
  obtain ⟨_, m₀, hlook, hrest⟩ := Eval.of_bind_eq_ok h
  cases hlook
  simp only [hpath, hfresh, Bool.false_eq_true, if_false] at hrest
  obtain ⟨scope, m₁, hload, hbind⟩ := Eval.of_bind_eq_ok hrest
  cases hread : w.files.read path with
  | error e =>
    simp only [Evaluator.loadModule, hread] at hload
    cases hload
  | ok source =>
    cases hclean : (parse source).diagnostics with
    | nil =>
      simp only [Evaluator.loadModule, hread, hclean] at hload
      exact ⟨source, scope, m₁, rfl, hclean, hload, hbind⟩
    | cons d rest =>
      simp only [Evaluator.loadModule, hread, hclean] at hload
      cases hload

/-! Binding what was asked for -/

def Import.names (i : Import) (binder : Option Ident) (p : Program) : List String :=
  match i.grimoire, binder with
  | none, some id => [id.name]
  | some g, binder => [(binder.map (·.name)).getD g]
  | none, none => (p.bindings.filter fun entry => entry.2 = .grimoire).map (·.1)

def Machine.defineAll (m : Machine) (entries : List (String × Value)) : Machine :=
  entries.foldl (fun m entry => m.define entry.1 entry.2) m

theorem Machine.scope_defineAll (m : Machine) (entries : List (String × Value)) :
    (m.defineAll entries).scope = m.scope := by
  induction entries generalizing m with
  | nil => rfl
  | cons entry rest ih => exact ih (m.define entry.1 entry.2)

theorem Machine.imported_defineAll (m : Machine) (entries : List (String × Value)) :
    (m.defineAll entries).imported = m.imported := by
  induction entries generalizing m with
  | nil => rfl
  | cons entry rest ih => exact ih (m.define entry.1 entry.2)

theorem Machine.getLocal?_defineAll {m : Machine} (entries : List (String × Value))
    {q : Ref .scope} {name : String} (h : ¬ (q = m.scope ∧ name ∈ entries.map (·.1))) :
    (m.defineAll entries).store.scopes.getLocal? q name = m.store.scopes.getLocal? q name := by
  induction entries generalizing m with
  | nil => rfl
  | cons entry rest ih =>
    have hfirst : ¬ (q = m.scope ∧ m.scope.index < m.store.scopes.scopes.size ∧ name = entry.1) :=
      fun hn => h ⟨hn.1, by simp [hn.2.2]⟩
    have hrest : ¬ (q = m.scope ∧ name ∈ rest.map (·.1)) :=
      fun hn => h ⟨hn.1, List.mem_cons_of_mem _ hn.2⟩
    calc (m.defineAll (entry :: rest)).store.scopes.getLocal? q name
        = (m.define entry.1 entry.2).store.scopes.getLocal? q name :=
          ih (m := m.define entry.1 entry.2) hrest
      _ = m.store.scopes.getLocal? q name := by
          simp only [Machine.define, Forest.getLocal?_define, if_neg hfirst]

def Value.isGrimoire : Value → Bool
  | .grimoire _ => true
  | _ => false

theorem Evaluator.bindGrimoires_eq (all : List (String × Value)) (m : Machine) :
    Evaluator.bindGrimoires all m = .ok () (m.defineAll (all.filter (·.2.isGrimoire))) := by
  induction all generalizing m with
  | nil => rfl
  | cons entry rest ih =>
    obtain ⟨name, v⟩ := entry
    cases v with
    | grimoire r => exact ih (m.define name (.grimoire r))
    | _ => exact ih m

theorem Evaluator.getLocal?_bindImport {pos : Pos} {name : String} {i : Import}
    {binder : Option Ident} {scope : Ref .scope} {p : Program}
    (h : Evaluator.bindImport w pos name i.grimoire binder scope m = .ok () m')
    (hscope : ∀ entry ∈ (m.store.scopes.scope scope).vars, ∃ b, (entry.1, b) ∈ p.bindings ∧
      b.Fits entry.2) :
    m'.scope = m.scope ∧ ∀ q other, ¬ (q = m.scope ∧ other ∈ i.names binder p) →
      m'.store.scopes.getLocal? q other = m.store.scopes.getLocal? q other := by
  unfold Import.names
  cases hg : i.grimoire with
  | none =>
    cases binder with
    | none =>
      simp only [Evaluator.bindImport, hg, Bind.bind, EStateM.bind, Eval.view,
        Evaluator.bindGrimoires_eq] at h
      cases h
      refine ⟨Machine.scope_defineAll _ _, fun q other hq => Machine.getLocal?_defineAll _ ?_⟩
      rintro ⟨rfl, hother⟩
      refine hq ⟨rfl, ?_⟩
      obtain ⟨⟨_, v⟩, hmem, rfl⟩ := List.mem_map.1 hother
      obtain ⟨hmem, hv⟩ := List.mem_filter.1 hmem
      obtain ⟨b, hb, hfits⟩ := hscope _ (List.mem_mergeSort.1 hmem)
      cases v with
      | grimoire r =>
        obtain rfl := Binding.eq_grimoire_of_fits hfits
        simpa using hb
      | _ => cases hv
    | some id =>
      rw [hg] at h
      cases h
      exact ⟨rfl, fun q other hq => Machine.getLocal?_defineAll [(id.name, _)] hq⟩
  | some g =>
    simp only [Evaluator.bindImport, hg, Bind.bind, EStateM.bind, Eval.view] at h
    cases hv : m.store.scopes.getLocal? scope g with
    | none =>
      rw [hv] at h
      cases h
    | some v =>
      rw [hv] at h
      cases v with
      | grimoire r =>
        cases h
        exact ⟨rfl, fun q other hq => Machine.getLocal?_defineAll [(_, _)] hq⟩
      | _ => cases h

theorem Evaluator.space_of_bindImport {pos : Pos} {name : String} {id : Ident} {scope : Ref .scope}
    (hm : m.scope.index < m.store.scopes.scopes.size)
    (h : Evaluator.bindImport w pos name none (some id) scope m = .ok () m') :
    ∃ r, m'.store.scopes.get? m'.scope id.name = some (.space r) ∧
      m'.store.space r = ⟨id.name, scope⟩ := by
  cases h
  refine ⟨_, Forest.get?_define_self hm, ?_⟩
  simp [Store.space, Array.getD_eq_getD_getElem?]

/-! The effect of an import -/

/-- What a module assigns to a name before it declares the name. -/
def Program.lent (p : Program) (name : String) : List Binding :=
  (bindingsOf name p.bindings).takeWhile Binding.isLiteral

/-- The bindings of a name that a module keeps to itself. If the name is known to the importer they
begin with a declaration. -/
def Program.kept (p : Program) (known : Bool) (name : String) : List Binding :=
  if known then (bindingsOf name p.bindings).dropWhile Binding.isLiteral
  else bindingsOf name p.bindings

/-- The effect that the import of a plain module has on the bindings there were, and what its
members are if it has a name. -/
structure Imported (w : World) (i : Import) (binder : Option Ident) (p : Program) (m m' : Machine) :
    Prop where
  /-- A binding changes only if it is the nearest binding of a name that the module assigns. -/
  bindings : ∀ (r : Ref .scope) (name : String), r.index < m.store.scopes.scopes.size →
    ¬ (r = m.scope ∧ name ∈ i.names binder p) →
    Binding.Leaves
      (if m.store.scopes.definer? m.scope name = some r then (p.lent name).getLast? else none)
      (m.store.scopes.getLocal? r name) (m'.store.scopes.getLocal? r name)
  /-- A member is what the module has kept to itself. -/
  members : i.grimoire = none → ∀ id ∈ binder, ∀ (name : String) (here pos : Pos) (fuel : Nat),
    match (p.kept (m.store.scopes.definer? m.scope name).isSome name).getLast? with
    | some b => ∃ v, b.Fits v ∧
      (evaluator w (fuel + 2)).expr (.attr (.name ⟨id.name, here⟩) ⟨name, pos⟩) m' = .ok v m'
    | none => (evaluator w (fuel + 2)).expr (.attr (.name ⟨id.name, here⟩) ⟨name, pos⟩) m' =
      Eval.fail w pos (.noAttribute name ("namespace " ++ id.name)) m'

/-- Reading a member of a module looks into the scope of the module, and into no other. -/
theorem Evaluator.member_eq {r : Ref .space} {space name : String} {here pos : Pos} {fuel : Nat}
    (hspace : m.store.scopes.get? m.scope space = some (.space r)) :
    (evaluator w (fuel + 2)).expr (.attr (.name ⟨space, here⟩) ⟨name, pos⟩) m =
      match m.store.scopes.getLocal? (m.store.space r).scope name with
      | some v => .ok v m
      | none => Eval.fail w pos (.noAttribute name ("namespace " ++ (m.store.space r).name)) m := by
  cases hv : m.store.scopes.getLocal? (m.store.space r).scope name <;>
    simp [evaluator, Evaluator.evalExpr, Eval.lookup, Eval.get?, Eval.look, Eval.attr,
      Eval.spaceMember, Eval.view, Bind.bind, EStateM.bind, Pure.pure, EStateM.pure, hspace, hv]

section Effect

variable {fuel : Nat} {path : Path} {p : Program} {m₁ : Machine} {scope : Ref .scope} {pos : Pos}
  {name : String}

theorem Program.IsPlain.grows (hp : p.IsPlain)
    (h : (evaluator w fuel).runModule w pos name path p m = .ok scope m₁) :
    scope = (m.store.scopes.push m.scope).1 ∧ m₁.scope = m.scope ∧
      Forest.Grows scope p.bindings (m.store.scopes.push m.scope).2 m₁.store.scopes := by
  obtain ⟨flow, m₂, hrun, rfl, hstore, hscope⟩ := Evaluator.of_runModule h
  rw [hp.program_eq] at hrun
  exact ⟨rfl, hscope, hstore ▸ Evaluator.grows_of_plain hp hrun⟩

/-- The scope of a module after it was run: what it binds there, and what the scope makes of the
others. -/
structure Opened (p : Program) (m : Machine) (scope : Ref .scope) (f : Forest Value) : Prop where
  size : f.scopes.size = m.store.scopes.scopes.size + 1
  entries : ∀ entry ∈ (f.scope scope).vars, ∃ b, (entry.1, b) ∈ p.bindings ∧ b.Fits entry.2
  inside : ∀ name, Binding.Leaves
    (p.kept (m.store.scopes.definer? m.scope name).isSome name).getLast? none
    (f.getLocal? scope name)
  outside : ∀ (r : Ref .scope) name, r.index < m.store.scopes.scopes.size → Binding.Leaves
    (if m.store.scopes.definer? m.scope name = some r then (p.lent name).getLast? else none)
    (m.store.scopes.getLocal? r name) (f.getLocal? r name)

theorem Opened.of_grows {f : Forest Value} (hm : m.scope.index < m.store.scopes.scopes.size)
    (h : Forest.Grows (m.store.scopes.push m.scope).1 p.bindings
      (m.store.scopes.push m.scope).2 f) :
    Opened p m (m.store.scopes.push m.scope).1 f := by
  have hnew : (m.store.scopes.push m.scope).1.index <
      (m.store.scopes.push m.scope).2.scopes.size := by simp
  have hglobal : ∀ name, (m.store.scopes.push m.scope).2.isGlobal (m.store.scopes.push m.scope).1
      name = false := fun _ => Forest.isGlobal_new m.scope
  have hdefiner : ∀ name, (m.store.scopes.push m.scope).2.definer? (m.store.scopes.push m.scope).1
      name = m.store.scopes.definer? m.scope name := fun name => Forest.definer?_new hm
  refine ⟨by simpa using h.size, fun entry he => ?_, fun name => ?_, fun r name hr => ?_⟩
  · cases h.of_mem_vars he with
    | inl hold => simp [Forest.scope_push] at hold
    | inr hbound => exact hbound
  · rw [← Forest.getLocal?_new (f := m.store.scopes) m.scope]
    unfold Program.kept
    cases hd : m.store.scopes.definer? m.scope name with
    | none => exact h.here hnew hglobal (.inl ((hdefiner name).trans hd))
    | some d =>
      have hlt : d.index < m.store.scopes.scopes.size :=
        Nat.lt_of_le_of_lt (Forest.isSome_of_definer? hd).2 hm
      have hne : d ≠ (m.store.scopes.push m.scope).1 := by
        rintro rfl
        simp at hlt
      exact h.here_of_beyond hnew hglobal ((hdefiner name).trans hd) hne
  · have hne : r ≠ (m.store.scopes.push m.scope).1 := by
      rintro rfl
      simp at hr
    rw [← hdefiner, ← Forest.getLocal?_push (f := m.store.scopes) m.scope r (Nat.ne_of_lt hr)]
    exact h.elsewhere hnew hglobal hne

theorem Imported.of_run {i : Import} {binder : Option Ident}
    (hm : m.scope.index < m.store.scopes.scopes.size) (hp : p.IsPlain)
    (hrun : (evaluator w fuel).runModule w pos name path p m = .ok scope m₁)
    (hbind : Evaluator.bindImport w pos name i.grimoire binder scope m₁ = .ok () m') :
    Imported w i binder p m m' := by
  obtain ⟨rfl, hscope, hgrows⟩ := hp.grows hrun
  have hopened := Opened.of_grows hm hgrows
  obtain ⟨hscope', hlocal⟩ := Evaluator.getLocal?_bindImport hbind hopened.entries
  rw [hscope] at hlocal
  refine ⟨fun r other hr hnames => ?_, fun hg id hid other here pos fuel => ?_⟩
  · rw [hlocal r other hnames]
    exact hopened.outside r other hr
  · have hkept := hopened.inside other
    have hne : (m.store.scopes.push m.scope).1 ≠ m.scope := fun heq => by
      have hindex := congrArg Ref.index heq
      simp only [Forest.push_fst] at hindex
      omega
    rw [← hlocal _ other fun h => hne h.1] at hkept
    obtain rfl := Option.mem_def.1 hid
    rw [hg] at hbind
    have hm₁ : m₁.scope.index < m₁.store.scopes.scopes.size := by
      rw [hscope, hopened.size]
      omega
    obtain ⟨r, hr, hspace⟩ := Evaluator.space_of_bindImport hm₁ hbind
    rw [Evaluator.member_eq hr, hspace]
    cases hlast : (p.kept (m.store.scopes.definer? m.scope other).isSome other).getLast? with
    | none =>
      rw [hlast] at hkept
      have hnone : m'.store.scopes.getLocal? (m.store.scopes.push m.scope).1 other = none := hkept
      simp only [hnone]
    | some b =>
      rw [hlast] at hkept
      obtain ⟨v, hv, hget⟩ := hkept
      exact ⟨v, hv, by simp only [hget]⟩

end Effect

/-- The module assigns to no name that means something to the importer, before it declares it. -/
def Program.Apart (p : Program) (m : Machine) : Prop :=
  ∀ name, p.lent name ≠ [] → m.store.scopes.definer? m.scope name = none

/-- The import has changed no binding but those that its form asks for, and what the module assigns
can be read as its members. -/
structure Undisturbed (w : World) (i : Import) (binder : Option Ident) (p : Program)
    (m m' : Machine) : Prop where
  bindings : ∀ (r : Ref .scope) (name : String) (v : Value),
    m.store.scopes.getLocal? r name = some v → ¬ (r = m.scope ∧ name ∈ i.names binder p) →
    m'.store.scopes.getLocal? r name = some v
  members : i.grimoire = none → ∀ id ∈ binder, ∀ (name : String) (value : Literal),
    (bindingsOf name p.bindings).getLast? = some (.literal value) →
    ∀ (here pos : Pos) (fuel : Nat),
      (evaluator w (fuel + 2)).expr (.attr (.name ⟨id.name, here⟩) ⟨name, pos⟩) m' =
        .ok (.ofLiteral value) m'

theorem Program.Apart.kept_eq {p : Program} (hp : p.Apart m) (name : String) :
    p.kept (m.store.scopes.definer? m.scope name).isSome name = bindingsOf name p.bindings := by
  unfold Program.kept
  split
  · rename_i hknown
    have hlent : p.lent name = [] := by
      by_contra hlent
      simp [hp name hlent] at hknown
    calc (bindingsOf name p.bindings).dropWhile Binding.isLiteral
        = p.lent name ++ (bindingsOf name p.bindings).dropWhile Binding.isLiteral := by
          rw [hlent, List.nil_append]
      _ = bindingsOf name p.bindings := List.takeWhile_append_dropWhile
  · rfl

theorem Imported.undisturbed {i : Import} {binder : Option Ident} {p : Program}
    (h : Imported w i binder p m m') (hp : p.Apart m) : Undisturbed w i binder p m m' where
  bindings := by
    intro r name v hv hnames
    have hold : (m.store.scopes.getLocal? r name).isSome = true := by simp [hv]
    have hleaves := h.bindings r name (Forest.lt_size_of_getLocal? hold) hnames
    have hlast : (if m.store.scopes.definer? m.scope name = some r then (p.lent name).getLast?
        else none) = none := by
      by_cases hlent : p.lent name = []
      · simp [hlent]
      · simp [hp name hlent]
    rw [hlast] at hleaves
    exact hleaves.trans hv
  members := by
    intro hg id hid name value hlast here pos fuel
    have hmember := h.members hg id hid name here pos fuel
    rw [hp.kept_eq, hlast] at hmember
    obtain ⟨v, rfl, hread⟩ := hmember
    exact hread

/-- An import of a file that was imported before does nothing. Any other that succeeds has read a
text without errors; if that is a plain module, what it assigns to a name goes to the nearest
binding of the name that the importer can see, up to where the module declares the name, and nothing
else changes. So the importer is undisturbed if the module only assigns to names that mean nothing
to it. -/
theorem import_rebinds (w : World) (fuel : Nat) (pos : Pos) (name : String) (binder : Option Ident)
    (m m' : Machine) (flow : Flow) (hm : m.scope.index < m.store.scopes.scopes.size)
    (h : (evaluator w fuel).stmt (.load pos name binder) m = .ok flow m') :
    (((Import.ofText name).locate w.files w.base).isAmong m.imported = true → m' = m) ∧
    (((Import.ofText name).locate w.files w.base).isAmong m.imported = false →
      ∃ source, w.files.read ((Import.ofText name).locate w.files w.base) = .ok source ∧
        (parse source).diagnostics = [] ∧
        ((parse source).program.IsPlain →
          Imported w (Import.ofText name) binder (parse source).program m m' ∧
          ((parse source).program.Apart m →
            Undisturbed w (Import.ofText name) binder (parse source).program m m'))) := by
  cases fuel with
  | zero => cases h
  | succ fuel =>
    obtain ⟨_, m₁, hload, hdone⟩ := Eval.of_bind_eq_ok h
    cases hdone
    refine ⟨fun hbefore => ?_, fun hfresh => ?_⟩
    · obtain ⟨_, m₀, hlook, hrest⟩ := Eval.of_bind_eq_ok hload
      cases hlook
      simp only [hbefore, if_true] at hrest
      cases hrest
      rfl
    · obtain ⟨source, scope, m₁, hread, hclean, hrun, hbind⟩ := Evaluator.of_load rfl hfresh hload
      refine ⟨source, hread, hclean, fun hp => ?_⟩
      have himported := Imported.of_run hm hp hrun hbind
      exact ⟨himported, himported.undisturbed⟩

/-! A shared name -/

instance (p : Program) : Decidable p.IsPlain :=
  inferInstanceAs (Decidable (∀ s ∈ p.statements, s.binding?.isSome = true))

def World.twoNames : World :=
  ⟨Snapshot.files ⟨[], [(⟨"./lib.crl"⟩, .ok "x = 5\ny = 6\n")]⟩, ⟨"."⟩, 3, 8⟩

def Machine.oneName : Machine := (Machine.initial none).define "x" (.int 1)

def importTwoNames : Stmt := .load ⟨1, 1⟩ "lib" (some ⟨"ns", 1, 17⟩)

def outcomeLocal? {α : Type} (name : String) : EStateM.Result Halt Machine α → Option Value
  | .ok _ m => m.store.scopes.getLocal? Forest.outermost name
  | .error _ _ => none

theorem importTwoNames_ok : ∃ flow m',
    (evaluator .twoNames 4).stmt importTwoNames .oneName = .ok flow m' ∧
      m'.store.scopes.getLocal? Forest.outermost "x" = some (.int 5) := by
  have hx : outcomeLocal? "x" ((evaluator .twoNames 4).stmt importTwoNames .oneName) =
      some (.int 5) := by
    decide +kernel
  cases hrun : (evaluator .twoNames 4).stmt importTwoNames .oneName with
  | ok flow m' => exact ⟨flow, m', rfl, by rwa [hrun] at hx⟩
  | error e m' =>
    rw [hrun] at hx
    cases hx

theorem importTwoNames_fresh :
    ((Import.ofText "lib").locate World.twoNames.files World.twoNames.base).isAmong
      Machine.oneName.imported = false ∧
    World.twoNames.files.read ((Import.ofText "lib").locate World.twoNames.files
      World.twoNames.base) = .ok "x = 5\ny = 6\n" :=
  ⟨rfl, by rfl⟩

/-- The assignment to the name that is known goes to the importer, and is no member of the
module. -/
theorem import_rebinds_shared :
    ∃ flow m', (evaluator .twoNames 4).stmt importTwoNames .oneName = .ok flow m' ∧
      m'.store.scopes.getLocal? Forest.outermost "x" = some (.int 5) ∧
      ∀ here pos fuel,
        (evaluator .twoNames (fuel + 2)).expr (.attr (.name ⟨"ns", here⟩) ⟨"y", pos⟩) m' =
          .ok (.int 6) m' ∧
        (evaluator .twoNames (fuel + 2)).expr (.attr (.name ⟨"ns", here⟩) ⟨"x", pos⟩) m' =
          Eval.fail .twoNames pos (.noAttribute "x" "namespace ns") m' := by
  obtain ⟨flow, m', hok, _⟩ := importTwoNames_ok
  obtain ⟨hfresh, htext⟩ := importTwoNames_fresh
  obtain ⟨source, hread, _, himported⟩ :=
    (import_rebinds _ _ _ _ _ _ _ _ (by decide +kernel) hok).2 hfresh
  obtain rfl : "x = 5\ny = 6\n" = source := Except.ok.inj (htext.symm.trans hread)
  have h := (himported (by decide +kernel)).1
  refine ⟨flow, m', hok, ?_, fun here pos fuel => ⟨?_, ?_⟩⟩
  · have hx := h.bindings Forest.outermost "x" (by decide +kernel) (by decide +kernel)
    have hlast : (if Machine.oneName.store.scopes.definer? Machine.oneName.scope "x" =
        some Forest.outermost then ((parse "x = 5\ny = 6\n").program.lent "x").getLast? else none) =
        some (.literal (.int 5)) := by decide +kernel
    rw [hlast] at hx
    obtain ⟨v, rfl, hget⟩ := hx
    exact hget
  · have hy := h.members (by decide +kernel) _ rfl "y" here pos fuel
    have hlast : ((parse "x = 5\ny = 6\n").program.kept (Machine.oneName.store.scopes.definer?
        Machine.oneName.scope "y").isSome "y").getLast? = some (.literal (.int 6)) := by
      decide +kernel
    rw [hlast] at hy
    obtain ⟨v, rfl, hget⟩ := hy
    exact hget
  · have hx := h.members (by decide +kernel) _ rfl "x" here pos fuel
    have hlast : ((parse "x = 5\ny = 6\n").program.kept (Machine.oneName.store.scopes.definer?
        Machine.oneName.scope "x").isSome "x").getLast? = none := by
      decide +kernel
    rw [hlast] at hx
    exact hx

def Stmt.isGlobal : Stmt → Bool
  | .global .. => true
  | _ => false

def Code.isGlobal : Code → Bool
  | .stmt s => s.isGlobal
  | _ => false

/-- The import has changed what the name means to the importer. -/
theorem not_import_undisturbed :
    ¬ ∀ (w : World) (fuel : Nat) (pos : Pos) (name : String) (binder : Option Ident)
      (m m' : Machine) (flow : Flow) (source : String),
      m.scope.index < m.store.scopes.scopes.size →
      (evaluator w fuel).stmt (.load pos name binder) m = .ok flow m' →
      ((Import.ofText name).locate w.files w.base).isAmong m.imported = false →
      w.files.read ((Import.ofText name).locate w.files w.base) = .ok source →
      (parse source).program.IsPlain →
      (∀ s, (parse source).program.Has s → s.isGlobal = false) →
      Undisturbed w (Import.ofText name) binder (parse source).program m m' := by
  intro h
  obtain ⟨flow, m', hok, hx⟩ := importTwoNames_ok
  obtain ⟨hfresh, htext⟩ := importTwoNames_fresh
  have hglobal : ∀ s, (parse "x = 5\ny = 6\n").program.Has s → s.isGlobal = false := by
    intro s hs
    have hcode : (parse "x = 5\ny = 6\n").program.HasCode (.stmt s) := hs
    have hchecked := hcode.passes (fun c => !c.isGlobal) 1 (by decide +kernel)
    simpa [Code.isGlobal] using hchecked
  have hkept := (h _ _ _ _ _ _ _ _ _ (by decide +kernel) hok hfresh htext (by decide +kernel)
    hglobal).bindings Forest.outermost "x" (.int 1) (by decide +kernel) (by decide +kernel)
  rw [hx] at hkept
  cases hkept

end Spellbook
