import LambdaScript.Eval.Value

/-!
Scopes. A scope owns names in the order of their definition and has a parent, except for the root. Parents are
older than their scopes, so a search from a scope to the root ends. Scopes are kept in one store and are never
removed; the value of a name is that of the nearest scope that owns it.
-/

namespace LambdaScript

abbrev Vars := List (String × Value)

namespace Vars

def get? (vars : Vars) (name : String) : Option Value :=
  match vars with
  | [] => none
  | (n, v) :: rest => if n = name then some v else get? rest name

/-- Gives a name a value; a name that is there already keeps its place, a new one goes to the end. -/
def set (vars : Vars) (name : String) (value : Value) : Vars :=
  match vars with
  | [] => [(name, value)]
  | (n, v) :: rest => if n = name then (n, value) :: rest else (n, v) :: set rest name value

/-- Gives parameters the values of arguments, in order. A parameter without an argument is false, and arguments
beyond the parameters are dropped. -/
def bind (vars : Vars) : (params : List String) → (args : List Value) → Vars
  | [], _ => vars
  | param :: params, [] => bind (vars.set param Value.false) params []
  | param :: params, arg :: args => bind (vars.set param arg) params args

@[simp] theorem get?_set_self (vars : Vars) (name : String) (value : Value) :
    (vars.set name value).get? name = some value := by
  induction vars with
  | nil => simp [set, get?]
  | cons entry rest ih =>
    by_cases h : entry.1 = name <;> simp [set, get?, h, ih]

/-- Giving a name a value leaves the other names as they are. -/
theorem get?_set_of_ne (vars : Vars) {name other : String} (value : Value) (h : other ≠ name) :
    (vars.set name value).get? other = vars.get? other := by
  induction vars with
  | nil => simp [set, get?, Ne.symm h]
  | cons entry rest ih =>
    by_cases found : entry.1 = name
    · simp [set, get?, found, Ne.symm h]
    · simp [set, get?, found, ih]

end Vars

/-- A scope: its own names and its parent. -/
structure Scope where
  vars : Vars
  parent : Option ScopeId

/-- All scopes, by number. -/
structure Store where
  scopes : Array Scope

namespace Store

def root : ScopeId := 0

def ofRoot (vars : Vars) : Store := ⟨#[⟨vars, none⟩]⟩

def vars (store : Store) (scope : ScopeId) : Vars :=
  match store.scopes[scope]? with
  | some s => s.vars
  | none => []

def parent? (store : Store) (scope : ScopeId) : Option ScopeId :=
  store.scopes[scope]?.bind Scope.parent

def isRoot (store : Store) (scope : ScopeId) : Bool := (store.parent? scope).isNone

/-- The nearest scope that owns a name, from a scope up to the root. -/
def lookup (store : Store) (scope : ScopeId) (name : String) : Option ScopeId :=
  if ((store.vars scope).get? name).isSome then some scope
  else match store.parent? scope with
    | some parent => if parent < scope then store.lookup parent name else none
    | none => none
termination_by scope

/-- The value of a name, seen from a scope. -/
def read (store : Store) (scope : ScopeId) (name : String) : Option Value :=
  (store.lookup scope name).bind fun owner => (store.vars owner).get? name

/-- Opens a scope with names of its own under a parent. -/
def extend (store : Store) (parent : ScopeId) (vars : Vars) : Store × ScopeId :=
  let scope := store.scopes.size
  (⟨store.scopes.push ⟨vars, some parent⟩⟩, scope)

/-- Gives a name a value in a scope, whether or not an outer scope owns it. -/
def define (store : Store) (scope : ScopeId) (name : String) (value : Value) : Store :=
  ⟨store.scopes.modify scope fun s => ⟨s.vars.set name value, s.parent⟩⟩

/-- The scope that takes a new value for a name: the nearest one that owns it. The root, and no other scope,
takes in a name that no scope owns. -/
def ownerFor? (store : Store) (scope : ScopeId) (name : String) : Option ScopeId :=
  match store.lookup scope name with
  | some owner => some owner
  | none => if store.isRoot scope then some scope else none

/-- Gives a name a new value in the scope that takes it, if there is one. -/
def rebind (store : Store) (scope : ScopeId) (name : String) (value : Value) : Option Store :=
  (store.ownerFor? scope name).map fun owner => store.define owner name value

/-- The names in reach of a scope, its own first, each scope's between brackets. -/
def describe (store : Store) (scope : ScopeId) : String :=
  let own := "[" ++ ", ".intercalate ((store.vars scope).map Prod.fst) ++ "]"
  match store.parent? scope with
  | some parent => if parent < scope then own ++ " < " ++ store.describe parent else own
  | none => own
termination_by scope

end Store

end LambdaScript
