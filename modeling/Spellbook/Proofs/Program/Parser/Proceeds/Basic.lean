import Spellbook.Proofs.Program.Parser.Trees
import Spellbook.Proofs.Token.Blocks
import Spellbook.Proofs.Token.Weight

/-! A logic for families of parses of one text. A family proceeds from a state if its members come
to the same outcome, take tokens from the front only, keep what has been reported, say of a lexical
error what its token says, and leave as many blocks open as they find unless they report something.
Two parsers side by side, and one parser with any fuel that is enough, are families alike. -/
namespace Spellbook

def Token.isIndent (t : Token) : Bool := t.kind == .indent

def Token.isDedent (t : Token) : Bool := t.kind == .dedent

/-- The tokens lead from some open blocks to others, by INDENT and DEDENT. -/
abbrev Levels := Accounts Token.isIndent Token.isDedent

/-- The kinds that neither end the text nor open or close a block. -/
def Kind.isFlat : Kind → Bool
  | .eof | .indent | .dedent => false
  | _ => true

namespace Accounts

variable {α : Type} {opens closes : α → Bool} {n k j : Nat} {xs ys : List α}

theorem lift (h : Accounts opens closes n xs k) (j : Nat) :
    Accounts opens closes (n + j) xs (k + j) where
  total := by
    have htotal := h.total
    omega
  part p hp := by
    have hpart := h.part p hp
    omega

theorem rest (h : Accounts opens closes n (xs ++ ys) k) (hx : Accounts opens closes n xs j) :
    Accounts opens closes j ys k where
  total := by
    have htotal := h.total
    have hfirst := hx.total
    simp only [List.countP_append] at htotal
    omega
  part p hp := by
    have hpart := h.part (xs ++ p) ((List.prefix_append_right_inj xs).2 hp)
    have hfirst := hx.total
    simp only [List.countP_append] at hpart
    omega

end Accounts

/-! Levels, token by token -/

section Levels

variable {t : Token} {ts : List Token} {n k : Nat}

theorem levels_indent (ht : t.kind = .indent) : Levels n (t :: ts) k ↔ Levels (n + 1) ts k := by
  have hi : t.isIndent = true := by simp [Token.isIndent, ht]
  have hd : t.isDedent = false := by simp [Token.isDedent, ht]
  simp [Accounts.cons_iff, hi, hd]

theorem levels_dedent (ht : t.kind = .dedent) : Levels (n + 1) (t :: ts) k ↔ Levels n ts k := by
  have hi : t.isIndent = false := by simp [Token.isIndent, ht]
  have hd : t.isDedent = true := by simp [Token.isDedent, ht]
  simp [Accounts.cons_iff, hi, hd]

theorem levels_other (hi : t.kind ≠ .indent) (hd : t.kind ≠ .dedent) :
    Levels n (t :: ts) k ↔ Levels n ts k := by
  have hi' : t.isIndent = false := by simp [Token.isIndent, hi]
  have hd' : t.isDedent = false := by simp [Token.isDedent, hd]
  simp [Accounts.cons_iff, hi', hd']

theorem not_levels_dedent (ht : t.kind = .dedent) : ¬ Levels 0 (t :: ts) k := by
  have hi : t.isIndent = false := by simp [Token.isIndent, ht]
  have hd : t.isDedent = true := by simp [Token.isDedent, ht]
  simp [Accounts.cons_iff, hi, hd]

theorem levels_of_flat (h : ∀ t ∈ ts, t.kind.isFlat = true) (n : Nat) : Levels n ts n := by
  induction ts with
  | nil => exact .nil n
  | cons t ts ih =>
    obtain ⟨ht, hts⟩ := List.forall_mem_cons.1 h
    have hi : t.kind ≠ .indent := fun hk => by simp [hk, Kind.isFlat] at ht
    have hd : t.kind ≠ .dedent := fun hk => by simp [hk, Kind.isFlat] at ht
    exact (levels_other hi hd).2 (ih hts)

end Levels

namespace Parser

/-- What is asked of a family of parses of a text: which members have to come to every outcome that
the others come to, and not only to the clean ones, whether blocks have to be closed, whether it may
fail, whether it has to leave blocks and reports alone, and whether it may run out of fuel. -/
structure Demand (ι : Type) where
  text : String
  exact : ι → Prop
  even : Prop
  fails : Prop
  flat : Prop
  spends : Prop

def Demand.full {ι : Type} (text : String) (spends : Prop) : Demand ι :=
  ⟨text, fun _ => True, True, True, False, spends⟩

/-- The members come to a result, and to the same. -/
def Demand.total {ι : Type} (text : String) : Demand ι :=
  ⟨text, fun _ => True, False, False, False, False⟩

def Demand.level {ι : Type} (text : String) (spends : Prop) : Demand ι :=
  ⟨text, fun _ => True, True, True, True, spends⟩

namespace State

def tokens (s : State) : List Token := s.cur :: s.ahead

/-- The tokens that are left are the last of a text, and they weigh no more than `k`. -/
structure Within (text : String) (k : Nat) (s : State) : Prop where
  suffix : s.tokens <:+ tokensOf text
  weight : weigh s.tokens ≤ k

/-- The blocks that are open here are all closed before the end. -/
def Closed (s : State) : Prop := ∃ n, Levels n s.tokens 0

/-- The tokens that are gone in a later state. -/
def taken (s s' : State) : List Token := s.tokens.take (s.tokens.length - s'.tokens.length)

/-- The tokens that are gone close the blocks that they open, and no others. -/
def Even (s s' : State) : Prop := Levels 0 (s.taken s') 0

instance (s s' : State) : Decidable (s.Even s') := inferInstanceAs (Decidable (Accounts ..))

/-- Tokens are taken from the front, and what has been reported is kept. -/
structure Leads (s s' : State) : Prop where
  tokens : s'.tokens <:+ s.tokens
  found : s.found <:+ s'.found

/-- The tokens that are gone neither open nor close a block, and nothing has been reported. -/
structure Along (s s' : State) : Prop where
  flat : ∀ t ∈ s.taken s', t.kind.isFlat = true
  found : s'.found = s.found

/-- What is asked of the way to a state, whether it is one of a result or of a failure. -/
structure Way {ι : Type} (d : Demand ι) (s s' : State) : Prop extends s.Leads s' where
  along : d.flat → s.Along s'
  quotes : ∀ e ∈ s'.found, e ∈ s.found ∨ e.Quotes (tokensOf d.text)

/-- If nothing is reported and the blocks are closed somewhere, those opened are closed here. -/
structure Step {ι : Type} (d : Demand ι) (s s' : State) : Prop extends s.Way d s' where
  even : d.even → s'.found = s.found → s.Closed → s.Even s'

variable {ι : Type} {d : Demand ι} {text : String} {s s' s'' : State} {k : Nat}

theorem taken_eq {ts : List Token} (h : s.tokens = ts ++ s'.tokens) : s.taken s' = ts := by
  simp [taken, h]

theorem Leads.tokens_eq (h : s.Leads s') : s.tokens = s.taken s' ++ s'.tokens := by
  obtain ⟨ts, hts⟩ := h.tokens
  rw [taken_eq hts.symm, hts]

theorem Leads.refl (s : State) : s.Leads s := ⟨List.suffix_rfl, List.suffix_rfl⟩

theorem Leads.trans (h : s.Leads s') (h' : s'.Leads s'') : s.Leads s'' :=
  ⟨h'.tokens.trans h.tokens, h.found.trans h'.found⟩

theorem Leads.taken_trans (h : s.Leads s') (h' : s'.Leads s'') :
    s.taken s'' = s.taken s' ++ s'.taken s'' := by
  apply taken_eq
  rw [List.append_assoc, ← h'.tokens_eq, ← h.tokens_eq]

theorem Leads.within (h : s.Leads s') (hs : s.Within text k) : s'.Within text k := by
  refine ⟨h.tokens.trans hs.suffix, ?_⟩
  have hweight := hs.weight
  rw [h.tokens_eq, weigh_append] at hweight
  omega

theorem Leads.found_eq (h : s.Leads s') (h' : s'.Leads s'') (hfound : s''.found = s.found) :
    s'.found = s.found ∧ s''.found = s'.found := by
  have hle := h.found.length_le
  have hle' := h'.found.length_le
  rw [hfound] at hle'
  have heq := h.found.eq_of_length (by omega)
  exact ⟨heq.symm, hfound.trans heq⟩

theorem Closed.rest (hs : s.Closed) (h : s.Leads s') (heven : s.Even s') : s'.Closed := by
  obtain ⟨n, hn⟩ := hs
  have hfirst := heven.lift n
  rw [h.tokens_eq] at hn
  simp only [Nat.zero_add] at hfirst
  exact ⟨n, hn.rest hfirst⟩

theorem taken_self (s : State) : s.taken s = [] := taken_eq (List.nil_append s.tokens).symm

theorem Way.refl (s : State) : s.Way d s := by
  refine ⟨.refl s, fun _ => ⟨?_, rfl⟩, fun _ => .inl⟩
  rw [taken_self]
  exact List.forall_mem_nil _

theorem Way.trans (h : s.Way d s') (h' : s'.Way d s'') : s.Way d s'' := by
  refine ⟨h.toLeads.trans h'.toLeads, fun hd => ⟨?_, (h'.along hd).found.trans (h.along hd).found⟩,
    fun e he => (h'.quotes e he).elim (h.quotes e) .inr⟩
  rw [h.toLeads.taken_trans h'.toLeads]
  exact List.forall_mem_append.2 ⟨(h.along hd).flat, (h'.along hd).flat⟩

theorem Even.refl (s : State) : s.Even s := by
  rw [Even, taken_self]
  exact .nil 0

theorem Even.trans (h : s.Even s') (h' : s'.Even s'') (hs : s.Leads s') (hs' : s'.Leads s'') :
    s.Even s'' := by
  rw [Even, hs.taken_trans hs']
  exact h.append h'

theorem Step.refl (s : State) : s.Step d s := ⟨.refl s, fun _ _ _ => .refl s⟩

theorem Step.trans (h : s.Step d s') (h' : s'.Step d s'') : s.Step d s'' := by
  refine ⟨h.toWay.trans h'.toWay, fun hd hfound hclosed => ?_⟩
  obtain ⟨hfirst, hrest⟩ := h.toLeads.found_eq h'.toLeads hfound
  have heven := h.even hd hfirst hclosed
  have heven' := h'.even hd hrest (hclosed.rest h.toLeads heven)
  exact heven.trans heven' h.toLeads h'.toLeads

def reporting (s : State) (e : Diagnostic) : State := { s with found := e :: s.found }

theorem Within.reporting (h : s.Within text k) (e : Diagnostic) : (s.reporting e).Within text k :=
  ⟨h.suffix, h.weight⟩

theorem Way.reporting (hn : ¬ d.flat) {e : Diagnostic} (he : e.Quotes (tokensOf d.text)) :
    s.Way d (s.reporting e) := by
  refine ⟨⟨List.suffix_rfl, List.suffix_cons _ _⟩, fun h => absurd h hn, fun e' he' => ?_⟩
  obtain rfl | he' := List.mem_cons.1 he'
  · exact .inr he
  · exact .inl he'

theorem Leads.reported (h : s.Leads s') {e : Diagnostic} (h' : (s'.reporting e).Leads s'') :
    s.Leads s'' ∧ s''.found ≠ s.found := by
  refine ⟨⟨h'.tokens.trans h.tokens, ?_⟩, fun hfound => ?_⟩
  · exact h.found.trans ((List.suffix_cons e s'.found).trans h'.found)
  · have hle := h.found.length_le
    have hle' := h'.found.length_le
    rw [hfound, State.reporting, List.length_cons] at hle'
    omega

theorem Within.ends (h : s.Within text k) : EndsWithEof s.tokens :=
  (endsWithEof_tokensOf text).of_suffix h.suffix (List.cons_ne_nil _ _)

/-- The next token is one of the text. -/
theorem Within.cur (h : s.Within text k) : s.cur.Read text :=
  Token.read_of_mem (h.suffix.subset List.mem_cons_self)

theorem Within.mono (h : s.Within text k) {j : Nat} (hle : k ≤ j) : s.Within text j :=
  ⟨h.suffix, Nat.le_trans h.weight hle⟩

theorem Within.pos (h : s.Within text k) : 0 < k := by
  have hweight := h.weight
  have hcur := s.cur.weight_pos
  simp only [tokens, weigh_cons] at hweight
  omega

theorem Within.eof_iff (h : s.Within text k) : s.cur.kind = .eof ↔ s.ahead = [] := h.ends.eof_iff

theorem Within.ahead (h : s.Within text (k + 1)) (hcur : s.cur.kind ≠ .eof) :
    ∃ t ts, s.ahead = t :: ts ∧ (⟨t, ts, s.found⟩ : State).Within text k := by
  have hne : s.ahead ≠ [] := fun hnil => hcur (h.eof_iff.2 hnil)
  obtain ⟨t, ts, hahead⟩ := List.exists_cons_of_ne_nil hne
  have hweight := h.weight
  have hpos := s.cur.weight_pos
  rw [tokens, hahead, weigh_cons] at hweight
  refine ⟨t, ts, hahead, ?_, ?_⟩
  · refine List.IsSuffix.trans ?_ h.suffix
    simp only [tokens, hahead]
    exact List.suffix_cons _ _
  · show weigh (t :: ts) ≤ k
    omega

theorem tokens_cons {t : Token} {ts : List Token} (hahead : s.ahead = t :: ts) :
    s.tokens = [s.cur] ++ (⟨t, ts, s.found⟩ : State).tokens := by
  simp [tokens, hahead]

theorem Step.one {t : Token} {ts : List Token} (hahead : s.ahead = t :: ts)
    (hcur : d.even ∨ d.flat → s.cur.kind.isFlat = true) : s.Step d ⟨t, ts, s.found⟩ := by
  have htokens := tokens_cons hahead
  refine ⟨⟨⟨⟨[s.cur], htokens.symm⟩, List.suffix_rfl⟩, fun hd => ⟨?_, rfl⟩, fun _ => .inl⟩,
    fun hd _ _ => ?_⟩
  · rw [taken_eq htokens]
    exact List.forall_mem_singleton.2 (hcur (.inr hd))
  · rw [Even, taken_eq htokens]
    exact levels_of_flat (List.forall_mem_singleton.2 (hcur (.inl hd))) 0

end State

open State

/-- The outcome is a result, with nothing reported, and the blocks around it are closed. -/
def Clean {α : Type} (s : State) : EStateM.Result Halt State α → Prop
  | .ok _ s' => s.Closed ∧ s'.found = s.found
  | .error _ _ => False

/-- The member has to come to the outcome. -/
def Demand.Binds {ι α : Type} (d : Demand ι) (s : State) (r : EStateM.Result Halt State α)
    (i : ι) : Prop :=
  d.exact i ∨ d.even ∧ Clean s r

/-- Outcomes from `s` on: a result in a state that lies within a bound and has a property, or a
failure if there may be one, or the end of the fuel if that may come. -/
def Allowed {ι α : Type} (d : Demand ι) (k : Nat) (s : State) (Q : α → State → Prop) :
    EStateM.Result Halt State α → Prop
  | .ok a s' => s.Step d s' ∧ s'.Within d.text k ∧ Q a s'
  | .error (.complaint e) s' => d.fails ∧ s.Way d s' ∧ e.Quotes (tokensOf d.text)
  | .error .outOfFuel _ => d.spends

/-- The members of the family come to the same outcome as far as they have to, and it is allowed. -/
def Proceeds {ι α : Type} (d : Demand ι) (k : Nat) (x : ι → Parse α) (s : State)
    (Q : α → State → Prop) : Prop :=
  ∃ r, (∀ i, d.Binds s r i → x i s = r) ∧ Allowed d k s Q r

section Binds

variable {ι α β : Type} {d : Demand ι} {k : Nat} {s s' : State} {i : ι}

theorem Demand.Binds.of_error {e : Halt}
    (h : d.Binds s (.error e s' : EStateM.Result Halt State α) i) (r : EStateM.Result _ _ β)
    (s' : State) : d.Binds s' r i :=
  .inl (h.resolve_right fun h => h.2)

theorem Demand.Binds.parts {r : EStateM.Result Halt State β} {Q : β → State → Prop} {a : α}
    (h : d.Binds s r i) (hstep : s.Step d s') (hallowed : Allowed d k s' Q r) :
    d.Binds s (.ok a s') i ∧ d.Binds s' r i := by
  obtain hexact | ⟨hd, hclean⟩ := h
  · exact ⟨.inl hexact, .inl hexact⟩
  · cases r with
    | error e s'' => exact hclean.elim
    | ok b s'' =>
      obtain ⟨hfirst, hrest⟩ := hstep.toLeads.found_eq hallowed.1.toLeads hclean.2
      have hclosed := hclean.1.rest hstep.toLeads (hstep.even hd hfirst hclean.1)
      exact ⟨.inr ⟨hd, hclean.1, hfirst⟩, .inr ⟨hd, hclosed, hrest⟩⟩

theorem Allowed.before {r : EStateM.Result Halt State β} {Q : β → State → Prop}
    (h : Allowed d k s' Q r) (hstep : s.Step d s') : Allowed d k s Q r := by
  match r, h with
  | .error (.complaint _) _, h => exact ⟨h.1, hstep.toWay.trans h.2.1, h.2.2⟩
  | .error .outOfFuel _, h => exact h
  | .ok _ _, h => exact ⟨hstep.trans h.1, h.2⟩

end Binds

/-- Something is asked of the result alone. -/
abbrev Made {α : Type} (P : α → Prop) : α → State → Prop := fun a _ => P a

abbrev Free {α : Type} : α → State → Prop := fun _ _ => True

namespace Proceeds

variable {ι α β : Type} {d : Demand ι} {j k : Nat} {s : State} {Q : α → State → Prop}
  {R : β → State → Prop} {c : Kind}

theorem const {x : Parse α} (h : Allowed d k s Q (x s)) :
    Proceeds d k (fun _ : ι => x) s Q :=
  ⟨x s, fun _ _ => rfl, h⟩

theorem of_eq {x y : ι → Parse α} (h : ∀ i, x i s = y i s) (hy : Proceeds d k y s Q) :
    Proceeds d k x s Q := by
  obtain ⟨r, hr, hallowed⟩ := hy
  exact ⟨r, fun i hi => (h i).trans (hr i hi), hallowed⟩

theorem pure {a : α} (hs : s.Within d.text k) (ha : Q a s) :
    Proceeds d k (fun _ : ι => (Pure.pure a : Parse α)) s Q :=
  const ⟨.refl s, hs, ha⟩

theorem complains {x : ι → Parse α} {e : Diagnostic} (hd : d.fails)
    (he : e.Quotes (tokensOf d.text)) (h : ∀ i, x i s = .error (.complaint e) s) :
    Proceeds d k x s Q :=
  ⟨_, fun i _ => h i, hd, .refl s, he⟩

theorem stuck {x : ι → Parse α} {pos : Pos} {c : Complaint} (hd : d.fails)
    (h : ∀ i, x i s = .error (.complaint ⟨pos, c⟩) s) (hc : ∀ reason, c ≠ .illegal reason) :
    Proceeds d k x s Q :=
  complains hd (Diagnostic.quotes_of_ne hc) h

theorem outOfFuel (hd : d.spends) :
    Proceeds d k (fun _ : ι => (Parser.outOfFuel : Parse α)) s Q :=
  ⟨_, fun _ _ => rfl, hd⟩

theorem failAt (hd : d.fails) (pos : Pos) {c : Complaint} (hc : ∀ reason, c ≠ .illegal reason) :
    Proceeds d k (fun _ : ι => (Parser.failAt pos c : Parse α)) s Q :=
  stuck hd (fun _ => rfl) hc

theorem unexpected (hd : d.fails) (c : Kind) :
    Proceeds d k (fun _ : ι => (Parser.unexpected c : Parse α)) s Q :=
  stuck hd (fun _ => rfl) nofun

theorem imp {Q' : α → State → Prop} {x : ι → Parse α} (h : Proceeds d j x s Q)
    (hle : j ≤ k) (hQ : ∀ a s', s'.Within d.text j → Q a s' → Q' a s') : Proceeds d k x s Q' := by
  obtain ⟨r, hr, hallowed⟩ := h
  refine ⟨r, hr, ?_⟩
  match r, hallowed with
  | .ok a s', hallowed =>
    exact ⟨hallowed.1, hallowed.2.1.mono hle, hQ a s' hallowed.2.1 hallowed.2.2⟩
  | .error (.complaint _) _, hallowed => exact hallowed
  | .error .outOfFuel _, hallowed => exact hallowed

theorem mono {x : ι → Parse α} (h : Proceeds d j x s Q) (hle : j ≤ k) :
    Proceeds d k x s Q :=
  h.imp hle fun _ _ _ hQ => hQ

theorem of_level {x : ι → Parse α} (hd : d.fails)
    (h : Proceeds (.level d.text d.spends) k x s Q) :
    Proceeds d k x s Q := by
  obtain ⟨r, hr, hallowed⟩ := h
  have hway : ∀ s', s.Way (@Demand.level ι d.text d.spends) s' → s.Way d s' :=
    fun s' h => ⟨h.toLeads, fun _ => h.along trivial, h.quotes⟩
  refine ⟨r, fun i _ => hr i (.inl trivial), ?_⟩
  match r, hallowed with
  | .ok _ s', hallowed =>
    exact ⟨⟨hway s' hallowed.1.toWay, fun _ => hallowed.1.even trivial⟩, hallowed.2⟩
  | .error (.complaint _) s', hallowed => exact ⟨hd, hway s' hallowed.2.1, hallowed.2.2⟩
  | .error .outOfFuel _, hallowed => exact hallowed

theorem mayFail {x : ι → Parse α} (h : Proceeds d k x s Q) :
    Proceeds { d with fails := True } k x s Q := by
  obtain ⟨r, hr, hallowed⟩ := h
  refine ⟨r, hr, ?_⟩
  match r, hallowed with
  | .ok _ _, ⟨⟨hway, heven⟩, hrest⟩ =>
    exact ⟨⟨⟨hway.toLeads, hway.along, hway.quotes⟩, heven⟩, hrest⟩
  | .error (.complaint _) _, ⟨_, hway, hquotes⟩ =>
    exact ⟨trivial, ⟨hway.toLeads, hway.along, hway.quotes⟩, hquotes⟩
  | .error .outOfFuel _, hallowed => exact hallowed

theorem bind {x : ι → Parse α} {f : ι → α → Parse β} (hx : Proceeds d j x s Q)
    (hf : ∀ a s', s'.Within d.text j → Q a s' → Proceeds d k (fun i => f i a) s' R) :
    Proceeds d k (fun i => x i >>= f i) s R := by
  obtain ⟨r, hr, hallowed⟩ := hx
  cases r with
  | error e s' =>
    refine ⟨.error e s', fun i hi => ?_, ?_⟩
    · simp only [Bind.bind, EStateM.bind, hr i (hi.of_error _ s)]
    · cases e <;> exact hallowed
  | ok a s' =>
    obtain ⟨hstep, hs', ha⟩ := hallowed
    obtain ⟨r', hr', hallowed'⟩ := hf a s' hs' ha
    refine ⟨r', fun i hi => ?_, hallowed'.before hstep⟩
    obtain ⟨hfirst, hrest⟩ := hi.parts (a := a) hstep hallowed'
    simp only [Bind.bind, EStateM.bind, hr i hfirst, hr' i hrest]

theorem map {x : ι → Parse α} {f : α → β} (hx : Proceeds d k x s Q)
    (hf : ∀ a s', s'.Within d.text k → Q a s' → R (f a) s') :
    Proceeds d k (fun i => f <$> x i) s R := by
  have hbind : Proceeds d k (fun i => x i >>= fun a => Pure.pure (f a)) s R :=
    hx.bind fun a s' hs' ha => .pure hs' (hf a s' hs' ha)
  exact hbind

theorem some {P : α → Prop} {x : ι → Parse α} (hx : Proceeds d k x s (Made P)) :
    Proceeds d k (fun i => Option.some <$> x i) s (Made fun r => ∀ a ∈ r, P a) :=
  hx.map fun _ _ _ ha _ h => Option.some.inj h ▸ ha

/-! Looking at tokens -/

theorem look {f : ι → Token → Parse α} (h : Proceeds d k (fun i => f i s.cur) s Q) :
    Proceeds d k (fun i => Parser.cur >>= f i) s Q := h

theorem check {f : ι → Bool → Parse α} (h : Proceeds d k (fun i => f i (s.cur.kind == c)) s Q) :
    Proceeds d k (fun i => Parser.check c >>= f i) s Q := h

theorem follows {f : ι → Bool → Parse α}
    (h : Proceeds d k (fun i => f i ((s.ahead.head?.map (·.kind)) == Option.some c)) s Q) :
    Proceeds d k (fun i => Parser.follows c >>= f i) s Q := h

/-! Taking tokens -/

theorem pass (hs : s.Within d.text (k + 1)) (hne : s.cur.kind ≠ .eof)
    (hcur : d.even ∨ d.flat → s.cur.kind.isFlat = true) :
    Proceeds d k (fun _ : ι => Parser.advance) s fun t _ => t = s.cur := by
  obtain ⟨t, ts, hahead, hwithin⟩ := hs.ahead hne
  apply const
  simp only [Parser.advance, hahead]
  exact ⟨.one hahead hcur, hwithin, rfl⟩

theorem advance (hs : s.Within d.text (k + 1)) (hcur : s.cur.kind.isFlat = true) :
    Proceeds d k (fun _ : ι => Parser.advance) s fun t _ => t = s.cur :=
  pass hs (fun h => by simp [h, Kind.isFlat] at hcur) fun _ => hcur

/-- The token that is there is taken, and then comes the one branch. Otherwise comes the other. -/
theorem ifAccept {x y : ι → Parse α} (hs : s.Within d.text (k + 1)) (hc : c.isFlat = true)
    (hx : ∀ s', s'.Within d.text k → Proceeds d j x s' Q) (hy : Proceeds d j y s Q) :
    Proceeds d j (fun i => Parser.accept c >>= fun b => if b = true then x i else y i) s Q := by
  by_cases hk : s.cur.kind = c
  · refine of_eq (fun i => ?_) ((advance hs (hk ▸ hc)).bind fun _ s' hs' _ => hx s' hs')
    simp only [Parser.accept, Parser.check, Bind.bind, EStateM.bind, hk, beq_self_eq_true,
      if_true, Pure.pure, EStateM.pure]
    cases Parser.advance s <;> rfl
  · refine of_eq (fun i => ?_) hy
    simp only [Parser.accept, Parser.check, Bind.bind, EStateM.bind, beq_eq_false_iff_ne.2 hk,
      Bool.false_eq_true, if_false, Pure.pure, EStateM.pure]

theorem ifAccepted {x y : ι → Parse α} (hs : s.Within d.text k) (hc : c.isFlat = true)
    (hx : ∀ s', s'.Within d.text k → Proceeds d j x s' Q) (hy : Proceeds d j y s Q) :
    Proceeds d j (fun i => Parser.accept c >>= fun b => if b = true then x i else y i) s Q := by
  obtain ⟨k, rfl⟩ := Nat.exists_eq_add_one.2 hs.pos
  exact ifAccept hs hc (fun s' hs' => hx s' (hs'.mono (Nat.le_succ k))) hy

/-- What is behind a mark is read if the mark is there, and otherwise taken to be `b`. -/
theorem ifMarked {P : β → Prop} {x : ι → Parse β} {f : ι → β → Parse α} {b : β}
    (hs : s.Within d.text k) (hc : c.isFlat = true)
    (hx : ∀ s', s'.Within d.text k → Proceeds d k x s' (Made P)) (hb : P b)
    (hf : ∀ b s', s'.Within d.text k → P b → Proceeds d j (fun i => f i b) s' Q) :
    Proceeds d j
      (fun i => Parser.accept c >>= fun a => if a = true then x i >>= f i else f i b) s Q :=
  ifAccepted hs hc (fun s' hs' => (hx s' hs').bind hf) (hf b s hs hb)

theorem accept (hs : s.Within d.text k) (hc : c.isFlat = true) :
    Proceeds d k (fun _ : ι => Parser.accept c) s Free := by
  have h : Proceeds d k (fun _ : ι => do
      if ← Parser.accept c then Pure.pure true else Pure.pure false) s Free :=
    ifAccepted hs hc (fun s' hs' => .pure hs' trivial) (.pure hs trivial)
  refine of_eq (fun i => ?_) h
  simp only [Bind.bind, EStateM.bind]
  cases hb : Parser.accept c s with
  | ok b s' => cases b <;> rfl
  | error e s' => rfl

theorem expect_of_ne (hk : s.cur.kind ≠ c) :
    Parser.expect c s = .error (.complaint ⟨s.cur.pos, .expected c s.cur⟩) s := by
  simp only [Parser.expect, Parser.check, Bind.bind, EStateM.bind, beq_eq_false_iff_ne.2 hk]
  rfl

section Fails

variable (hd : d.fails)

include hd

theorem expect (hs : s.Within d.text (k + 1)) (hc : c.isFlat = true) :
    Proceeds d k (fun _ : ι => Parser.expect c) s (Made fun t => t.Read d.text ∧ t.kind = c) := by
  by_cases hk : s.cur.kind = c
  · refine of_eq (fun _ => ?_)
      ((advance hs (hk ▸ hc)).imp (Nat.le_refl k) fun _ _ _ ht => ht ▸ ⟨hs.cur, hk⟩)
    simp [Parser.expect, Parser.check, Bind.bind, EStateM.bind, hk]
  · exact stuck hd (fun _ => expect_of_ne hk) nofun

theorem expected (hs : s.Within d.text k) (hc : c.isFlat = true) :
    Proceeds d k (fun _ : ι => Parser.expect c) s (Made fun t => t.Read d.text ∧ t.kind = c) := by
  obtain ⟨k, rfl⟩ := Nat.exists_eq_add_one.2 hs.pos
  exact (expect hd hs hc).mono (Nat.le_succ k)

theorem ident (hs : s.Within d.text (k + 1)) : Proceeds d k (fun _ : ι => Parser.ident) s
    (Made fun id => id.IsVariable ∧ HasToken d.text id.mark) :=
  (expect hd hs rfl).bind fun _ _ hs' ht =>
    .pure hs' ⟨ht.1.isVariable (.inl ht.2), ht.1.ident_mark ht.2 rfl⟩

theorem named (hs : s.Within d.text k) : Proceeds d k (fun _ : ι => Parser.ident) s
    (Made fun id => id.IsVariable ∧ HasToken d.text id.mark) := by
  obtain ⟨k, rfl⟩ := Nat.exists_eq_add_one.2 hs.pos
  exact (ident hd hs).mono (Nat.le_succ k)

end Fails

end Proceeds

end Parser

end Spellbook
