import LambdaScript.Token.Basic

/-!
Expressions. Every node carries the place of the token it was built from, which only reports use: two trees that
differ in places alone count as the same. The one node without a place is the truth value that stands for a
missing initial value of a named let.
-/

namespace LambdaScript

mutual

/-- An expression of the language. -/
inductive Expr where
  | number (value : Binary64) (pos : Option Position)
  | string (value : String) (pos : Option Position)
  | boolean (value : Bool) (pos : Option Position)
  | variable (name : String) (pos : Option Position)
  /-- A function; its own name, if it has one, is visible in its body. -/
  | lambda (name : Option String) (params : List String) (body : Expr) (pos : Option Position)
  | call (callee : Expr) (args : List Expr) (pos : Option Position)
  | ifThen (test consequent : Expr) (pos : Option Position)
  | ifThenElse (test consequent alternative : Expr) (pos : Option Position)
  /-- Any expression may stand on the left; only a variable can be assigned to. -/
  | assign (target value : Expr) (pos : Option Position)
  | binary (op : Operator) (left right : Expr) (pos : Option Position)
  /-- Each binding opens a scope that the later bindings and the body see. -/
  | letIn (bindings : List Binding) (body : Expr) (pos : Option Position)
  /-- Expressions one after the other; the last one gives the value. -/
  | block (body : List Expr) (pos : Option Position)

/-- A name bound by a let, with or without an initial value. -/
inductive Binding where
  | bare (name : String)
  | bound (name : String) (init : Expr)

end

def Binding.name : Binding → String
  | bare name => name
  | bound name _ => name

def Binding.init? : Binding → Option Expr
  | bare _ => none
  | bound _ init => some init

mutual

/-- Whether two expressions are the same but for places. -/
def Expr.agrees : Expr → Expr → Bool
  | .number a _, .number b _ => a == b
  | .string a _, .string b _ => a == b
  | .boolean a _, .boolean b _ => a == b
  | .variable a _, .variable b _ => a == b
  | .lambda n ps b _, .lambda m qs c _ => n == m && ps == qs && b.agrees c
  | .call f as _, .call g bs _ => f.agrees g && Expr.listAgrees as bs
  | .ifThen a b _, .ifThen c d _ => a.agrees c && b.agrees d
  | .ifThenElse a b c _, .ifThenElse d e f _ => a.agrees d && b.agrees e && c.agrees f
  | .assign a b _, .assign c d _ => a.agrees c && b.agrees d
  | .binary o a b _, .binary p c d _ => o == p && a.agrees c && b.agrees d
  | .letIn as a _, .letIn bs b _ => Binding.listAgrees as bs && a.agrees b
  | .block as _, .block bs _ => Expr.listAgrees as bs
  | _, _ => false

/-- Whether two lists of expressions are the same but for places. -/
def Expr.listAgrees : List Expr → List Expr → Bool
  | [], [] => true
  | a :: as, b :: bs => a.agrees b && Expr.listAgrees as bs
  | _, _ => false

def Binding.agrees : Binding → Binding → Bool
  | .bare m, .bare n => m == n
  | .bound m a, .bound n b => m == n && a.agrees b
  | _, _ => false

/-- Whether two lists of bindings are the same but for places. -/
def Binding.listAgrees : List Binding → List Binding → Bool
  | [], [] => true
  | a :: as, b :: bs => a.agrees b && Binding.listAgrees as bs
  | _, _ => false

end

mutual

/-- The number of nodes on the longest path down an expression. -/
def Expr.height : Expr → Nat
  | .number .. | .string .. | .boolean .. | .variable .. => 1
  | .lambda _ _ body _ => body.height + 1
  | .call callee args _ => max callee.height (Expr.listHeight args) + 1
  | .ifThen test consequent _ => max test.height consequent.height + 1
  | .ifThenElse test consequent alternative _ =>
    max test.height (max consequent.height alternative.height) + 1
  | .assign target value _ => max target.height value.height + 1
  | .binary _ left right _ => max left.height right.height + 1
  | .letIn bindings body _ => max (Binding.listHeight bindings) body.height + 1
  | .block body _ => Expr.listHeight body + 1

def Expr.listHeight : List Expr → Nat
  | [] => 0
  | e :: es => max e.height (Expr.listHeight es)

def Binding.height : Binding → Nat
  | .bare _ => 0
  | .bound _ init => init.height

def Binding.listHeight : List Binding → Nat
  | [] => 0
  | b :: bs => max b.height (Binding.listHeight bs)

end

end LambdaScript
