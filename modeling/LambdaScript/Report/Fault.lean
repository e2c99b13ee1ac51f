import LambdaScript.Report.Message
import LambdaScript.Token.Basic

/-!
Faults: why reading, running or starting a program stops. A fault is a cause and, where one is known, the place
it was noticed at; the wording is a function of the cause alone, and the place follows it in parentheses.
-/

namespace LambdaScript

/-- The broad kinds of faults. -/
inductive Family where
  | general
  | parsing
  | evaluation
deriving DecidableEq, Repr

/-- What went wrong. -/
inductive Cause where
  /-- A string literal that starts at a place has no closing quote. -/
  | unterminatedString (start : Position)
  | numberOutOfRange
  | unknownOperator (text : String)
  | strayCharacter (char : Char)
  | expectedPunctuation (mark : String)
  | expectedKeyword (word : String)
  | expectedName
  | unexpectedEnd
  | unexpectedToken (token : Token)
  | undefinedVariable (name : String)
  /-- An operand of an arithmetic or order operator is no number. -/
  | expectedNumber (operator operand : String)
  | divisionByZero (operator : String)
  | invalidTarget (target : String)
  | notCallable (callee : String)
  | meaninglessOperator (operator : String)
  | missingExpression
  /-- The name of the interactive input was given as a file's. -/
  | reservedName (path : String)
  | unreadableFile (path : String)
  /-- A program file is passed over because code was given as well. -/
  | ignoredFile (path : String)
  | interrupted
  | nestedTooDeeply
  | hostFailure (kind text : String)
  /-- Wording of its own, and texts that it has no room for. -/
  | worded (family : Family) (pieces : List Piece) (spare : List String) (diagnosed internal : Bool)
deriving DecidableEq, Repr

namespace Cause

def family : Cause → Family
  | unterminatedString _ | numberOutOfRange | unknownOperator _ | strayCharacter _ | expectedPunctuation _
  | expectedKeyword _ | expectedName | unexpectedEnd | unexpectedToken _ => .parsing
  | undefinedVariable _ | expectedNumber .. | divisionByZero _ | invalidTarget _ | notCallable _ => .evaluation
  | worded family .. => family
  | _ => .general

def pieces : Cause → List Piece
  | unterminatedString start => [.plain "Unterminated string literal starting at ", .shown start.text]
  | numberOutOfRange => [.plain "Number literal out of range"]
  | unknownOperator text => [.plain "Unknown operator '", .shown text, .plain "'"]
  | strayCharacter char => [.plain "Can't handle character: '", .shown (String.singleton char), .plain "'"]
  | expectedPunctuation mark => [.plain "Expecting punctuation: \"", .shown mark, .plain "\""]
  | expectedKeyword word => [.plain "Expecting keyword: \"", .shown word, .plain "\""]
  | expectedName => [.plain "Expecting variable name"]
  | unexpectedEnd => [.plain "Unexpected end of input"]
  | unexpectedToken token =>
    [.plain "Unexpected token: ", .shown (token.kindName ++ " '" ++ token.lexeme ++ "'")]
  | undefinedVariable name => [.plain "Undefined variable '", .shown name, .plain "'"]
  | expectedNumber operator operand =>
    [.plain "Expected number for '", .shown operator, .plain "' but got ", .shown operand]
  | divisionByZero operator => [.plain "Division by zero in '", .shown operator, .plain "'"]
  | invalidTarget target => [.plain "Cannot assign to ", .shown target]
  | notCallable callee => [.plain "Trying to call non function expression: ", .shown callee]
  | meaninglessOperator operator => [.plain "can't apply operator '", .shown operator, .plain "'"]
  | missingExpression => [.plain "can't evaluate expression ", .shown "None"]
  | reservedName path => [.plain "'", .shown path, .plain "' is a reserved filename"]
  | unreadableFile path => [.plain "'", .shown path, .plain "' could not be opened"]
  | ignoredFile path => [.plain "'", .shown path, .plain "' ignored, running --eval code instead"]
  | interrupted => [.plain "keyboard interrupt"]
  | nestedTooDeeply => [.plain "maximum recursion depth exceeded (no tail-call elimination)"]
  | hostFailure kind text => [.plain "unknown error: '", .shown kind, .plain ": ", .shown text, .plain "'"]
  | worded _ pieces .. => pieces

/-- What a cause speaks of: the texts in its message, and those that this has no room for. -/
def shown (cause : Cause) : List String :=
  let spare := match cause with
    | worded _ _ spare .. => spare
    | _ => []
  cause.pieces.filterMap Piece.shown? ++ spare

/-- A cause with wording of its own, from a template and the texts for its places, if they go together. -/
def ofTemplate? (family : Family) (template : String) (texts : List String) (diagnosed internal : Bool) :
    Option Cause :=
  (fill template texts).map fun filled => worded family filled.1 filled.2 diagnosed internal

/-- Whether the fault lies with the host or the interpreter, not with the program. -/
def isInternal : Cause → Bool
  | meaninglessOperator _ | missingExpression | hostFailure .. => true
  | worded _ _ _ _ internal => internal
  | _ => false

def isDiagnosed : Cause → Bool
  | unreadableFile _ => false
  | worded _ _ _ diagnosed _ => diagnosed
  | _ => true

end Cause

/-- A cause and where it was noticed. -/
structure Fault where
  cause : Cause
  pos : Option Position
deriving DecidableEq, Repr

namespace Fault

def render (coloured : Bool) (fault : Fault) : String :=
  let message := renderPieces coloured fault.cause.pieces
  match fault.pos with
  | some pos => message ++ " (" ++ pos.text ++ ")"
  | none => message

def message (fault : Fault) : String := fault.render false

end Fault

/-- Why a computation ends without a result: a fault, or calls nested beyond the bound. -/
inductive Stop where
  | fault (fault : Fault)
  | tooDeep
deriving DecidableEq, Repr

def Stop.at (cause : Cause) (pos : Option Position) : Stop := .fault ⟨cause, pos⟩

end LambdaScript
