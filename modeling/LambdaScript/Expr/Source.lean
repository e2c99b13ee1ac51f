import LambdaScript.Expr.Basic

/-!
The written form of expressions, as reports and traces show it. Operator nodes stand in parentheses and blocks in
braces; functions, conditionals, lets and assignments go on as far as they can, without parentheses.
-/

namespace LambdaScript

/-- A function's head: the sign, its own name if it has one, and its parameters. -/
def lambdaHead (name : Option String) (params : List String) : String :=
  let shownName := match name with
    | some n => " " ++ n
    | none => ""
  "λ" ++ shownName ++ "(" ++ ", ".intercalate params ++ ")"

mutual

def Expr.source : Expr → String
  | .number value _ => value.literal
  | .string value _ => stringLiteral value
  | .boolean value _ => booleanText value
  | .variable name _ => name
  | .lambda name params body _ => lambdaHead name params ++ " " ++ body.source
  | .call callee args _ => callee.source ++ "(" ++ ", ".intercalate (Expr.sources args) ++ ")"
  | .ifThen test consequent _ => "if " ++ test.source ++ " then " ++ consequent.source
  | .ifThenElse test consequent alternative _ =>
    "if " ++ test.source ++ " then " ++ consequent.source ++ " else " ++ alternative.source
  | .assign target value _ => target.source ++ " = " ++ value.source
  | .binary op left right _ => "(" ++ left.source ++ " " ++ op.text ++ " " ++ right.source ++ ")"
  | .letIn bindings body _ => "let (" ++ ", ".intercalate (Binding.sources bindings) ++ ") " ++ body.source
  | .block body _ => "\x7b " ++ "; ".intercalate (Expr.sources body) ++ " \x7d"

def Expr.sources : List Expr → List String
  | [] => []
  | e :: es => e.source :: Expr.sources es

def Binding.source : Binding → String
  | .bare name => name
  | .bound name init => name ++ " = " ++ init.source

def Binding.sources : List Binding → List String
  | [] => []
  | b :: bs => b.source :: Binding.sources bs

end

/-- The written form of an expression, if that is not nested deeper than `depth`. -/
def Expr.source? (depth : Nat) (e : Expr) : Option String := if e.height ≤ depth then some e.source else none

end LambdaScript
