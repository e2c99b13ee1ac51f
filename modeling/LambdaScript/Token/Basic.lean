import LambdaScript.Number.Literal
import LambdaScript.Text.Place

/-!
Tokens and their written forms. A token list written with single blanks between the forms reads back as the
same list, so every token has one form that stands for it, whatever spelling it was read from.
-/

namespace LambdaScript

/-- The words that are no names. -/
inductive Keyword where
  | ifWord
  | thenWord
  | elseWord
  | lambdaWord
  | lambdaSign
  | letWord
deriving DecidableEq, Repr

namespace Keyword

def text : Keyword → String
  | ifWord => "if"
  | thenWord => "then"
  | elseWord => "else"
  | lambdaWord => "lambda"
  | lambdaSign => "λ"
  | letWord => "let"

def ofText? (text : String) : Option Keyword :=
  [ifWord, thenWord, elseWord, lambdaWord, lambdaSign, letWord].find? (·.text == text)

@[simp] theorem ofText?_text (k : Keyword) : ofText? k.text = some k := by
  cases k <;> decide

end Keyword

/-- The marks that separate and enclose. -/
inductive Punctuation where
  | comma
  | semicolon
  | openParen
  | closeParen
  | openBrace
  | closeBrace
  | openBracket
  | closeBracket
deriving DecidableEq, Repr

namespace Punctuation

def char : Punctuation → Char
  | comma => ','
  | semicolon => ';'
  | openParen => '('
  | closeParen => ')'
  | openBrace => '\x7b'
  | closeBrace => '\x7d'
  | openBracket => '['
  | closeBracket => ']'

def text (p : Punctuation) : String := String.singleton p.char

def ofChar? (c : Char) : Option Punctuation :=
  [comma, semicolon, openParen, closeParen, openBrace, closeBrace, openBracket, closeBracket].find? (·.char == c)

@[simp] theorem ofChar?_char (p : Punctuation) : ofChar? p.char = some p := by
  cases p <;> decide

end Punctuation

/-- The operators. Source text has the fourteen known ones; a tree built by hand may name any text. -/
inductive Operator where
  | assign
  | or
  | and
  | less
  | greater
  | lessOrEqual
  | greaterOrEqual
  | equal
  | notEqual
  | add
  | subtract
  | multiply
  | divide
  | remainder
  | unknown (text : String)
deriving DecidableEq, Repr

namespace Operator

def text : Operator → String
  | assign => "="
  | or => "||"
  | and => "&&"
  | less => "<"
  | greater => ">"
  | lessOrEqual => "<="
  | greaterOrEqual => ">="
  | equal => "=="
  | notEqual => "!="
  | add => "+"
  | subtract => "-"
  | multiply => "*"
  | divide => "/"
  | remainder => "%"
  | unknown text => text

def known : List Operator :=
  [assign, or, and, less, greater, lessOrEqual, greaterOrEqual, equal, notEqual, add, subtract, multiply,
    divide, remainder]

def ofText? (text : String) : Option Operator :=
  known.find? (·.text == text)

def ofText (text : String) : Operator :=
  (ofText? text).getD (.unknown text)

/-- How strongly an operator binds; equal strengths group to the left. -/
def precedence : Operator → Nat
  | assign => 1
  | or => 2
  | and => 3
  | less | greater | lessOrEqual | greaterOrEqual | equal | notEqual => 7
  | add | subtract => 10
  | multiply | divide | remainder => 20
  | unknown _ => 0

theorem ofText?_text_of_mem {o : Operator} (h : o ∈ known) : ofText? o.text = some o := by
  simp only [known, List.mem_cons, List.not_mem_nil, or_false] at h
  rcases h with rfl | rfl | rfl | rfl | rfl | rfl | rfl | rfl | rfl | rfl | rfl | rfl | rfl | rfl <;> decide

end Operator

/-- The units that source text is made of. -/
inductive Token where
  | number (value : Binary64)
  | string (value : String)
  | boolean (value : Bool)
  | keyword (word : Keyword)
  | identifier (name : String)
  | punctuation (mark : Punctuation)
  | operator (op : Operator)
deriving DecidableEq, Repr

def booleanText (value : Bool) : String :=
  if value then "true" else "false"

/-- The characters of a string with a backslash before every quote and backslash. -/
def escapeChars (cs : List Char) : List Char :=
  cs.flatMap fun c => if c = '\\' ∨ c = '"' then ['\\', c] else [c]

def stringLiteral (value : String) : String :=
  String.ofList ('"' :: (escapeChars value.toList ++ ['"']))

namespace Token

def lexeme : Token → String
  | number value => value.literal
  | string value => stringLiteral value
  | boolean value => booleanText value
  | keyword word => word.text
  | identifier name => name
  | punctuation mark => mark.text
  | operator op => op.text

def kindName : Token → String
  | number _ => "Number"
  | string _ => "String"
  | boolean _ => "Boolean"
  | keyword _ => "Keyword"
  | identifier _ => "Identifier"
  | punctuation _ => "Punctuation"
  | operator _ => "Operator"

end Token

/-- A token and the place of its first character. -/
structure PlacedToken where
  token : Token
  pos : Position
deriving DecidableEq, Repr

/-- The written forms of a token list with single blanks between them. -/
def unlex (tokens : List Token) : String :=
  " ".intercalate (tokens.map Token.lexeme)

end LambdaScript
