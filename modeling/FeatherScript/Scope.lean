import FeatherScript.Value

/-!
# Scopes

A scope binds names to values and has a parent, unless it is a root. Scopes are numbered in the
order of their creation, a scope after its parent, and are shared by everything that holds their
number. A name is looked up along the chain from a scope to its root, and belongs to the first scope
on the chain that binds it; a name bound nowhere reads as null.

* `Scopes.resolve` reads a name, `Scopes.update` writes the binding it belongs to, or a new binding
  in the root.
* `Scopes.create?` adds a binding to a scope itself, and fails if that scope has one.
* `Scopes.enclose` makes a scope inside another one, `Scopes.addRoot` makes one more root.
-/

namespace FeatherScript

/-- The bindings made in one scope, each name once, and the scope around it. -/
structure Scope where
  bindings : List (Name × Value)
  parent : Option ScopeId
deriving DecidableEq, Inhabited

namespace Scope

/-- The value a scope itself binds to a name. -/
def lookup? (s : Scope) (name : Name) : Option Value := s.bindings.lookup name

def binds (s : Scope) (name : Name) : Bool := (s.lookup? name).isSome

/-- Bindings with one of them replaced, or added at the end. -/
def setIn (name : Name) (value : Value) : List (Name × Value) → List (Name × Value)
  | [] => [(name, value)]
  | (n, v) :: rest => if n = name then (n, value) :: rest else (n, v) :: setIn name value rest

def set (s : Scope) (name : Name) (value : Value) : Scope :=
  { s with bindings := setIn name value s.bindings }

theorem lookup_cons (n m : Name) (v : Value) (rest : List (Name × Value)) :
    ((m, v) :: rest).lookup n = if n = m then some v else rest.lookup n := by
  by_cases hName : n = m
  · subst hName
    simp
  · have hTest : (n == m) = false := beq_false_of_ne hName
    simp [List.lookup_cons, hTest, hName]

theorem lookup_setIn (name n : Name) (value : Value) (bindings : List (Name × Value)) :
    (setIn name value bindings).lookup n
      = if n = name then some value else bindings.lookup n := by
  induction bindings with
  | nil => exact lookup_cons n name value []
  | cons b rest ih =>
    obtain ⟨m, v⟩ := b
    rw [setIn, lookup_cons]
    by_cases hHead : m = name
    · subst hHead
      rw [if_pos rfl, lookup_cons]
      by_cases hName : n = m
      · rw [if_pos hName, if_pos hName]
      · rw [if_neg hName, if_neg hName, if_neg hName]
    · rw [if_neg hHead, lookup_cons, ih]
      by_cases hName : n = m
      · rw [if_pos hName, if_pos hName, if_neg (hName ▸ hHead)]
      · rw [if_neg hName, if_neg hName]

/-- A name that was set has its value, and every other name the value it had. -/
theorem lookup?_set (s : Scope) (name n : Name) (value : Value) :
    (s.set name value).lookup? n = if n = name then some value else s.lookup? n :=
  lookup_setIn name n value s.bindings

end Scope

/-- All scopes made so far. -/
structure Scopes where
  all : Array Scope
deriving DecidableEq

namespace Scopes

/-- One root scope without bindings. -/
def initial : Scopes := ⟨#[⟨[], none⟩]⟩

/-- The root scope of the initial scopes. -/
def global : ScopeId := 0

def scope? (g : Scopes) (id : ScopeId) : Option Scope := g.all[id]?

/-- The scope around a scope. -/
def parent? (g : Scopes) (id : ScopeId) : Option ScopeId := (g.scope? id).bind (·.parent)

/-- The scopes from a given one to its root. A parent is older than its child, so the chain ends. -/
def chain (g : Scopes) (id : ScopeId) : List ScopeId :=
  match g.scope? id with
  | none => []
  | some scope =>
    match scope.parent with
    | none => [id]
    | some parent => if parent < id then id :: chain g parent else [id]
termination_by id

def binds (g : Scopes) (id : ScopeId) (name : Name) : Bool :=
  (g.scope? id).any (·.binds name)

/-- The scope that a name belongs to, seen from a scope. -/
def owner? (g : Scopes) (id : ScopeId) (name : Name) : Option ScopeId :=
  (g.chain id).find? (g.binds · name)

/-- The value of a name, seen from a scope. -/
def resolve (g : Scopes) (id : ScopeId) (name : Name) : Value :=
  (((g.owner? id name).bind g.scope?).bind (·.lookup? name)).getD .null

/-- The last scope on the chain of a scope. -/
def root (g : Scopes) (id : ScopeId) : ScopeId := (g.chain id).getLastD id

/-- The scopes with a name bound to a value in one of them. -/
def write (g : Scopes) (id : ScopeId) (name : Name) (value : Value) : Scopes :=
  ⟨g.all.modify id (·.set name value)⟩

/-- The scopes with a new value for a name, in the scope it belongs to or else in the root. -/
def update (g : Scopes) (id : ScopeId) (name : Name) (value : Value) : Scopes :=
  let target := (g.owner? id name).getD (g.root id)
  g.write target name value

/-- The scopes with a new binding in one of them, unless it has one for the name. -/
def create? (g : Scopes) (id : ScopeId) (name : Name) (value : Value) : Option Scopes :=
  if g.binds id name then none else some (g.write id name value)

/-- A new scope without bindings, with the scope around it, if there is one. -/
def add (g : Scopes) (around : Option ScopeId) : ScopeId × Scopes :=
  (g.all.size, ⟨g.all.push ⟨[], around⟩⟩)

/-- A new scope without bindings inside a given one. -/
def enclose (g : Scopes) (outer : ScopeId) : ScopeId × Scopes := g.add (some outer)

/-- A new root without bindings. -/
def addRoot (g : Scopes) : ScopeId × Scopes := g.add none

def count (g : Scopes) (id : ScopeId) : Nat := (g.scope? id).elim 0 (·.bindings.length)

def isRoot (g : Scopes) (id : ScopeId) : Bool := (g.parent? id).isNone

def debug (g : Scopes) (id : ScopeId) : String :=
  "Environment \x7b "
    ++ s!"locals: {g.count id}, global: {g.isRoot id}" ++ " \x7d"

end Scopes

end FeatherScript
