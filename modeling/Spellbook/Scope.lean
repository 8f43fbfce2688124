import Spellbook.Bindings
import Spellbook.Store.Ref
import Spellbook.Text.Lines
import Spellbook.Text.Quoted

/-! Scopes. Each is enclosed by an older one or by none, and a name means its binding in the
nearest scope that has one. -/
namespace Spellbook

structure Scope (α : Type) where
  /-- The scope around this one. -/
  parent : Option (Ref .scope)
  vars : Bindings α
  /-- Names whose assignments go to the outermost scope. -/
  globals : List String

/-- All scopes, addressed in the order of their creation. -/
structure Forest (α : Type) where
  scopes : Array (Scope α)

namespace Forest

variable {α : Type}

def single : Forest α := ⟨#[⟨none, [], []⟩]⟩

def outermost : Ref .scope := ⟨0⟩

/-- A scope by its address. An address that is not in use names an empty scope. -/
def scope (f : Forest α) (r : Ref .scope) : Scope α := f.scopes.getD r.index ⟨none, [], []⟩

def push (f : Forest α) (parent : Ref .scope) : Ref .scope × Forest α :=
  (⟨f.scopes.size⟩, ⟨f.scopes.push ⟨some parent, [], []⟩⟩)

def modify (f : Forest α) (r : Ref .scope) (change : Scope α → Scope α) : Forest α :=
  ⟨f.scopes.modify r.index change⟩

def define (f : Forest α) (r : Ref .scope) (name : String) (v : α) : Forest α :=
  f.modify r fun s => { s with vars := s.vars.set name v }

def getLocal? (f : Forest α) (r : Ref .scope) (name : String) : Option α :=
  (f.scope r).vars.get? name

/-- The nearest scope, from `r` outward, that binds the name. Enclosing scopes are older, so the
search ends. -/
def definer? (f : Forest α) (r : Ref .scope) (name : String) : Option (Ref .scope) :=
  if (f.getLocal? r name).isSome then some r
  else
    match (f.scope r).parent with
    | some p => if p.index < r.index then f.definer? p name else none
    | none => none
termination_by r.index

def get? (f : Forest α) (r : Ref .scope) (name : String) : Option α :=
  (f.definer? r name).bind fun d => f.getLocal? d name

/-- Rebinds a name where it is bound, if it is. -/
def assign? (f : Forest α) (r : Ref .scope) (name : String) (v : α) : Option (Forest α) :=
  (f.definer? r name).map fun d => f.define d name v

def root (f : Forest α) (r : Ref .scope) : Ref .scope :=
  match (f.scope r).parent with
  | some p => if p.index < r.index then f.root p else r
  | none => r
termination_by r.index

def declareGlobal (f : Forest α) (r : Ref .scope) (name : String) : Forest α :=
  f.modify r fun s =>
    if s.globals.contains name then s else { s with globals := name :: s.globals }

def isGlobal (f : Forest α) (r : Ref .scope) (name : String) : Bool :=
  (f.scope r).globals.contains name

/-- The scope that an assignment to the name in `r` goes to: the outermost one if the name was
declared global, else where the name is bound, else `r` itself. -/
def home (f : Forest α) (r : Ref .scope) (name : String) : Ref .scope :=
  if f.isGlobal r name then f.root r else (f.definer? r name).getD r

def entries (f : Forest α) (r : Ref .scope) : List (String × α) := (f.scope r).vars.sorted

def names (f : Forest α) (r : Ref .scope) : List String := (f.entries r).map (·.1)

def describe (f : Forest α) (r : Ref .scope) : String :=
  "Environment \x7b names: [" ++ Text.joined ", " ((f.names r).map Text.quoted) ++
    "], enclosed: " ++ toString (f.scope r).parent.isSome ++ " \x7d"

end Forest

end Spellbook
