import LambdaScript.Expr.Source
import LambdaScript.Number.Arithmetic

/-!
The values that programs compute with. Values of different types are never equal; functions are equal only to
themselves, which the serial number of a closure tells. Only false counts as false.
-/

namespace LambdaScript

abbrev ScopeId := Nat

/-- The functions that every program starts with. Both write their argument; the second ends the line. -/
inductive Builtin where
  | print
  | println
deriving DecidableEq, Repr

/-- A function together with the scope it was made in; each making of a function has its own serial number. -/
structure Closure where
  serial : Nat
  name : Option String
  params : List String
  body : Expr
  scope : ScopeId

/-- A value of the language. -/
inductive Value where
  | number (value : Binary64)
  | string (value : String)
  | boolean (value : Bool)
  | closure (closure : Closure)
  | builtin (builtin : Builtin)

def Builtin.name : Builtin → String
  | print => "print"
  | println => "println"

def Builtin.ending : Builtin → String
  | print => ""
  | println => "\n"

namespace Value

/-- The value that missing arguments and empty blocks have. -/
def false : Value := .boolean Bool.false

def text : Value → String
  | number value => value.literal
  | string value => value
  | boolean value => booleanText value
  | closure c => lambdaHead c.name c.params
  | builtin b => "<builtin " ++ b.name ++ ">"

/-- The text of a value in a report, where a string stands between quotes. -/
def operandText : Value → String
  | string value => "\"" ++ value ++ "\""
  | value => value.text

def isNumber : Value → Bool
  | number _ => Bool.true
  | _ => Bool.false

/-- Whether a value counts as true in a test. -/
def isTruthy : Value → Bool
  | boolean value => value
  | _ => Bool.true

/-- Whether two values are equal: numbers in value, closures by identity, all others by content. -/
def equals : Value → Value → Bool
  | number a, number b => a.equals b
  | string a, string b => a == b
  | boolean a, boolean b => a == b
  | closure a, closure b => a.serial == b.serial
  | builtin a, builtin b => a == b
  | _, _ => Bool.false

end Value

end LambdaScript
