import LambdaScript.Eval.Value
import LambdaScript.Report.Fault

/-!
The meaning of operators. Arithmetic and order take numbers only; the left operand is checked first, then the
right, then whether a divisor is zero. Equality and the two connectives take any values, and the connectives
give back one of their operands.
-/

namespace LambdaScript.Operator

def numberOperand (op : Operator) : Value → Except Cause Binary64
  | .number value => .ok value
  | value => .error (.expectedNumber op.text value.operandText)

/-- A right operand that has to be a number other than zero. -/
def divisorOperand (op : Operator) (value : Value) : Except Cause Binary64 := do
  let divisor ← op.numberOperand value
  if divisor.isZero then .error (.divisionByZero op.text) else .ok divisor

def arithmetic (op : Operator) (f : Binary64 → Binary64 → Binary64) (left right : Value) : Except Cause Value := do
  let x ← op.numberOperand left
  let y ← op.numberOperand right
  return .number (f x y)

def comparison (op : Operator) (f : Binary64 → Binary64 → Bool) (left right : Value) : Except Cause Value := do
  let x ← op.numberOperand left
  let y ← op.numberOperand right
  return .boolean (f x y)

/-- The number that an operation of the host comes to, or the host's failure if it comes to none, which the
checks on the operands are there to rule out. -/
def hosted (kind text : String) : Option Binary64 → Except Cause Value
  | some z => .ok (.number z)
  | none => .error (.hostFailure kind text)

/-- The value of an operator between two values. -/
def apply (op : Operator) (left right : Value) : Except Cause Value :=
  match op with
  | .add => op.arithmetic Binary64.add left right
  | .subtract => op.arithmetic Binary64.sub left right
  | .multiply => op.arithmetic Binary64.mul left right
  | .divide => do
    let x ← op.numberOperand left
    let y ← op.divisorOperand right
    hosted "ZeroDivisionError" "float division by zero" (x.div? y)
  | .remainder => do
    let x ← op.numberOperand left
    -- the host has no remainder of an infinite dividend; its divisor is looked at all the same
    if x.isInfinite then
      let _ ← op.divisorOperand right
      return .number .nan
    else
      let y ← op.divisorOperand right
      hosted "ValueError" "math domain error" (x.remainder? y)
  | .and => .ok (if left.isTruthy then right else Value.false)
  | .or => .ok (if left.isTruthy then left else right)
  | .less => op.comparison Binary64.less left right
  | .greater => op.comparison (fun x y => y.less x) left right
  | .lessOrEqual => op.comparison Binary64.lessOrEqual left right
  | .greaterOrEqual => op.comparison (fun x y => y.lessOrEqual x) left right
  | .equal => .ok (.boolean (left.equals right))
  | .notEqual => .ok (.boolean (!left.equals right))
  | .assign | .unknown _ => .error (.meaninglessOperator op.text)

end LambdaScript.Operator
