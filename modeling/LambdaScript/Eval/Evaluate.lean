import LambdaScript.Eval.Operate
import LambdaScript.Eval.Scope
import LambdaScript.Expr.Parser

/-!
Evaluation of expressions. Operands and arguments are evaluated from left to right, before the operator or the
function is applied; whether a value can be called is settled before its arguments are evaluated. What an
evaluation changed before it stopped stays changed.

Nesting is bounded: evaluation ends with `Stop.tooDeep` where fewer than three levels of `depth` are left. The
operands of an operator are one level further down than their node, the arguments and the body of a called
function three, and all other parts two, so that a bound on the levels is a bound on nested calls too.
-/

namespace LambdaScript

/-- What evaluation reads and changes: the scopes, the serial number for the next closure, and the text printed
so far. -/
structure World where
  store : Store
  nextSerial : Nat
  output : String

/-- A computation over a world; a stop keeps the world as it was when it came. -/
abbrev Eval := EStateM Stop World

namespace World

/-- A world with nothing but the builtins, in a fresh root scope. -/
def initial : World where
  store := .ofRoot [("print", .builtin .print), ("println", .builtin .println)]
  nextSerial := 0
  output := ""

def globals (world : World) : Vars := world.store.vars Store.root

end World

namespace Eval

def fail {α : Type} (cause : Cause) (pos : Option Position) : Eval α := throw (.at cause pos)

/-- Opens a scope under a parent. -/
def extend (parent : ScopeId) (vars : Vars) : Eval ScopeId := fun ⟨store, serial, output⟩ =>
  let (store, scope) := store.extend parent vars
  .ok scope ⟨store, serial, output⟩

def readVariable (scope : ScopeId) (name : String) (pos : Option Position) : Eval Value := fun world =>
  match world.store.read scope name with
  | some value => .ok value world
  | none => .error (.at (.undefinedVariable name) pos) world

def assignVariable (scope : ScopeId) (name : String) (value : Value) (pos : Option Position) : Eval Value :=
  fun ⟨store, serial, output⟩ =>
    match store.ownerFor? scope name with
    | some owner => .ok value ⟨store.define owner name value, serial, output⟩
    | none => .error (.at (.undefinedVariable name) pos) ⟨store, serial, output⟩

def write (text : String) : Eval Unit := fun ⟨store, serial, output⟩ =>
  .ok () ⟨store, serial, output ++ text⟩

/-- Makes a closure over a scope, with a serial number that no other has. -/
def newClosure (name : Option String) (params : List String) (body : Expr) (scope : ScopeId) : Eval Value :=
  fun ⟨store, serial, output⟩ =>
    .ok (.closure ⟨serial, name, params, body, scope⟩) ⟨store, serial + 1, output⟩

/-- Makes a function; one with a name of its own sees itself through a scope between it and its surroundings. -/
def makeFunction (name : Option String) (params : List String) (body : Expr) (scope : ScopeId) : Eval Value :=
  match name with
  | none => newClosure none params body scope
  | some n => do
    let inner ← extend scope []
    let value ← newClosure (some n) params body inner
    modify fun ⟨store, serial, output⟩ => ⟨store.define inner n value, serial, output⟩
    return value

/-- Calls a builtin: its first argument, or false without one, is printed and given back. -/
def callBuiltin (b : Builtin) (args : List Value) : Eval Value := do
  let value := args.head?.getD Value.false
  write (value.text ++ b.ending)
  return value

def enter (c : Closure) (args : List Value) : Eval ScopeId :=
  extend c.scope (Vars.bind [] c.params args)

def applyOperator (op : Operator) (left right : Value) (pos : Option Position) : Eval Value :=
  match op.apply left right with
  | .ok value => pure value
  | .error cause => fail cause pos

/-- The written form of an expression for a report, if it is not nested too deeply to be written. -/
def sourceFor (depth : Nat) (e : Expr) : Eval String :=
  match e.source? depth with
  | some text => pure text
  | none => throw .tooDeep

end Eval

open Eval in
/-- The value of an expression in a scope. -/
def evaluate : (depth : Nat) → Expr → ScopeId → Eval Value
  | depth + 3, e, scope =>
    match e with
    | .number value _ => pure (.number value)
    | .string value _ => pure (.string value)
    | .boolean value _ => pure (.boolean value)
    | .variable name pos => readVariable scope name pos
    | .lambda name params body _ => makeFunction name params body scope
    | .assign target value pos =>
      match target with
      | .variable name _ => do
        let v ← evaluate (depth + 1) value scope
        assignVariable scope name v pos
      | _ => do
        fail (.invalidTarget (← sourceFor (depth + 1) target)) pos
    | .binary op left right pos => do
      let l ← evaluate (depth + 2) left scope
      let r ← evaluate (depth + 2) right scope
      applyOperator op l r pos
    | .ifThen test consequent _ => do
      let t ← evaluate (depth + 1) test scope
      if t.isTruthy then evaluate (depth + 1) consequent scope else return Value.false
    | .ifThenElse test consequent alternative _ => do
      let t ← evaluate (depth + 1) test scope
      if t.isTruthy then evaluate (depth + 1) consequent scope else evaluate (depth + 1) alternative scope
    | .letIn bindings body _ => do
      let inner ← bindings.foldlM (fun outer b => do
        let value ← match b with
          | .bare _ => pure Value.false
          | .bound _ init => evaluate (depth + 1) init outer
        extend outer [(b.name, value)]) scope
      evaluate (depth + 1) body inner
    | .block body _ => body.foldlM (fun _ e => evaluate (depth + 1) e scope) Value.false
    | .call callee args pos => do
      match ← evaluate (depth + 1) callee scope with
      | .closure c => do
        let values ← args.mapM fun a => evaluate depth a scope
        let inner ← enter c values
        evaluate depth c.body inner
      | .builtin b => do
        let values ← args.mapM fun a => evaluate depth a scope
        callBuiltin b values
      | _ => do
        fail (.notCallable (← sourceFor (depth + 1) callee)) pos
  | _, _, _ => throw .tooDeep

/-- Calls a function from outside of any program. -/
def callFunction (depth : Nat) (c : Closure) (args : List Value) : Eval Value := do
  evaluate depth c.body (← Eval.enter c args)

/-- Reads a program and evaluates it in the root scope. -/
def runText (depth : Nat) (text : String) : Eval Value :=
  match parse depth text with
  | .ok program => evaluate depth program Store.root
  | .error stop => throw stop

end LambdaScript
