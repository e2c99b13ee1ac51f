import LambdaScript.Expr.Basic
import LambdaScript.Token.Stream

/-!
Reading expressions from tokens. Operators are combined by climbing their precedences, equal ones to the left;
argument lists belong to the nearest operand; functions, conditionals and lets take in as much as follows. The
reader looks one token ahead, and a fault leaves the stream where it was noticed.

Nesting is bounded: each nested expression, and each operator of a chain, takes one level of `depth`, and reading
ends with `Stop.tooDeep` when no level is left. Lists have no such bound. Their loops run along the text that is
left when they start, one character a round: each round uses up a token, so the text outlasts the rounds.
-/

namespace LambdaScript

/-- A reader of tokens; a fault keeps the stream as it was when the fault was noticed. -/
abbrev Parser := EStateM Stop TokenStream

namespace TokenStream

/-- A list longer than the number of tokens that are left: the text that is left, a blank for the token read
ahead, and one more. -/
def rounds (stream : TokenStream) : List Char := ' ' :: ' ' :: stream.cursor.rest

end TokenStream

namespace Token

/-- Whether a token is a punctuation mark, the given one if one is given. -/
def isPunctuation (mark : Option String) : Token → Bool
  | punctuation m => mark.all (· == m.text)
  | _ => false

/-- Whether a token is a keyword, the given one if one is given. -/
def isKeyword (word : Option String) : Token → Bool
  | keyword w => word.all (· == w.text)
  | _ => false

/-- Whether a token is an operator, the given one if one is given. -/
def isOperator (text : Option String) : Token → Bool
  | operator op => text.all (· == op.text)
  | _ => false

end Token

namespace Parser

def peek : Parser (Option PlacedToken) := fun stream =>
  match stream.peek with
  | (.ok token, stream) => .ok token stream
  | (.error fault, stream) => .error (.fault fault) stream

def next : Parser (Option PlacedToken) := fun stream =>
  match stream.next with
  | (.ok token, stream) => .ok token stream
  | (.error fault, stream) => .error (.fault fault) stream

/-- Stops with a cause, at a place if one is given and else where reading has come to. -/
def complain {α : Type} (cause : Cause) (pos : Option Position) : Parser α := fun stream =>
  .error (.at cause (some (pos.getD stream.pos))) stream

def peekIf (test : Token → Bool) : Parser (Option PlacedToken) := do
  match ← peek with
  | some token => pure (if test token.token then some token else none)
  | none => pure none

def sees (test : Token → Bool) : Parser Bool := do
  return (← peekIf test).isSome

def skipPunctuation (mark : String) : Parser Unit := do
  if ← sees (Token.isPunctuation mark) then
    let _ ← next
  else
    complain (.expectedPunctuation mark) none

def skipKeyword (word : String) : Parser Unit := do
  if ← sees (Token.isKeyword word) then
    let _ ← next
  else
    complain (.expectedKeyword word) none

/-- Stops because the next token cannot stand where it does. -/
def unexpected {α : Type} : Parser α := do
  match ← peek with
  | some token => complain (.unexpectedToken token.token) (some token.pos)
  | none => complain .unexpectedEnd none

/-- Reads items up to a closing mark or the end of the text, with separators between them; the last separator
may be left without an item. The items read so far are in reverse. -/
def itemsUntil {α : Type} (stop separator : String) (item : Parser α) :
    (rounds : List Char) → (first : Bool) → (items : List α) → Parser (List α)
  | [], _, items => pure items.reverse
  | _ :: rounds, first, items => do
    match ← peek with
    | none => pure items.reverse
    | some token =>
      if token.token.isPunctuation stop then pure items.reverse
      else do
        if !first then skipPunctuation separator
        if ← sees (Token.isPunctuation stop) then pure items.reverse
        else do
          let a ← item
          itemsUntil stop separator item rounds false (a :: items)

/-- Reads items between two marks, with separators between them. -/
def delimited {α : Type} (start stop separator : String) (item : Parser α) : Parser (List α) := do
  skipPunctuation start
  let stream ← get
  let items ← itemsUntil stop separator item stream.rounds true []
  skipPunctuation stop
  return items

def variableName : Parser String := do
  match ← next with
  | some ⟨.identifier name, _⟩ => pure name
  | some token => complain .expectedName (some token.pos)
  | none => complain .expectedName none

def ownName? : Parser (Option String) := do
  match ← peek with
  | some ⟨.identifier name, _⟩ => do
    let _ ← next
    pure (some name)
  | _ => pure none

/-- The token that a reader counts on. Were there none, the host would fail at looking for a part of it, but the readers
that count on one are only called where it was seen. -/
def expected (part : String) : Option PlacedToken → Parser PlacedToken
  | some token => pure token
  | none => throw (.at (.hostFailure "AttributeError" ("'NoneType' object has no attribute '" ++ part ++ "'")) none)

def herePos : Parser Position := do
  return (← expected "pos" (← peek)).pos

def nextPos : Parser Position := do
  return (← expected "pos" (← next)).pos

/-- Reads a binding: a name, and an initial value behind an equals sign. -/
def binding (expr : Parser Expr) : Parser Binding := do
  let name ← variableName
  if ← sees (Token.isOperator "=") then
    let _ ← next
    return .bound name (← expr)
  else
    return .bare name

def lambda (expr : Parser Expr) : Parser Expr := do
  let pos ← nextPos
  let name ← ownName?
  let params ← delimited "(" ")" "," variableName
  let body ← expr
  return .lambda name params body (some pos)

/-- The value a name is bound to by a named let: its initial value, or else the false without a place. -/
def initOrFalse (b : Binding) : Expr := b.init?.getD (.boolean false none)

/-- Reads a let from its keyword on. A named let is the call of a function of that name. -/
def letExpr (expr : Parser Expr) : Parser Expr := do
  let pos ← nextPos
  match ← ownName? with
  | some name => do
    let bindings ← delimited "(" ")" "," (binding expr)
    let body ← expr
    return .call (.lambda (some name) (bindings.map Binding.name) body (some pos)) (bindings.map initOrFalse) (some pos)
  | none => do
    let bindings ← delimited "(" ")" "," (binding expr)
    let body ← expr
    return .letIn bindings body (some pos)

/-- Reads a conditional from its keyword on; before a block `then` may be left out. -/
def conditional (expr : Parser Expr) : Parser Expr := do
  let pos ← nextPos
  let test ← expr
  if !(← sees (Token.isPunctuation "\x7b")) then skipKeyword "then"
  let consequent ← expr
  if ← sees (Token.isKeyword "else") then
    let _ ← next
    let alternative ← expr
    return .ifThenElse test consequent alternative (some pos)
  else
    return .ifThen test consequent (some pos)

/-- Reads the truth value that was seen to come next. -/
def truthValue (value : Bool) : Parser Expr := do
  let token ← expected "value" (← next)
  return .boolean value (some token.pos)

/-- What the expressions between braces amount to: false if there are none, and one alone is itself. -/
def blockOf (pos : Position) : List Expr → Expr
  | [] => .boolean false (some pos)
  | [e] => e
  | es => .block es (some pos)

def block (expr : Parser Expr) : Parser Expr := do
  let pos ← herePos
  let body ← delimited "\x7b" "\x7d" ";" expr
  return blockOf pos body

/-- Reads an operand without the argument lists behind it. -/
def atom (expr : Parser Expr) : Parser Expr := do
  match ← peek with
  | some ⟨.punctuation .openParen, _⟩ => do
    let _ ← next
    let e ← expr
    skipPunctuation ")"
    return e
  | some ⟨.punctuation .openBrace, _⟩ => block expr
  | some ⟨.keyword .letWord, _⟩ => letExpr expr
  | some ⟨.keyword .ifWord, _⟩ => conditional expr
  | some ⟨.keyword .lambdaWord, _⟩ => lambda expr
  | some ⟨.keyword .lambdaSign, _⟩ => lambda expr
  | some ⟨.boolean value, _⟩ => truthValue value
  | some ⟨.identifier name, pos⟩ => do
    let _ ← next
    return .variable name (some pos)
  | some ⟨.number value, pos⟩ => do
    let _ ← next
    return .number value (some pos)
  | some ⟨.string value, pos⟩ => do
    let _ ← next
    return .string value (some pos)
  | _ => unexpected

/-- Reads an argument list and applies an expression to it. -/
def application (expr : Parser Expr) (callee : Expr) : Parser Expr := do
  let pos ← herePos
  let args ← delimited "(" ")" "," expr
  return .call callee args (some pos)

/-- Applies an expression to the argument lists that follow it. -/
def applications (expr : Parser Expr) : (rounds : List Char) → Expr → Parser Expr
  | [], callee => pure callee
  | _ :: rounds, callee => do
    if ← sees (Token.isPunctuation "(") then
      applications expr rounds (← application expr callee)
    else
      pure callee

/-- Applies an expression to all argument lists that follow it. -/
def applied (expr : Parser Expr) (callee : Expr) : Parser Expr := do
  let stream ← get
  applications expr stream.rounds callee

/-- Reads an operand: an atom and the argument lists behind it. -/
def operand (expr : Parser Expr) : Parser Expr := do
  applied expr (← atom expr)

def peekOperator : Parser (Option (Operator × Position)) := do
  match ← peek with
  | some ⟨.operator op, pos⟩ => pure (some (op, pos))
  | _ => pure none

def combine (op : Operator) (pos : Position) (left right : Expr) : Expr :=
  match op with
  | .assign => .assign left right (some pos)
  | op => .binary op left right (some pos)

mutual

/-- Reads an expression. -/
def expression : (depth : Nat) → Parser Expr
  | 0 => throw .tooDeep
  | depth + 1 => do
    let left ← operand (expression depth)
    let tree ← climb depth left 0
    applied (expression depth) tree

/-- Goes on from an expression with the operators behind it that bind more strongly than `precedence`. -/
def climb : (depth : Nat) → (left : Expr) → (precedence : Nat) → Parser Expr
  | 0, _, _ => throw .tooDeep
  | depth + 1, left, precedence => do
    match ← peekOperator with
    | none => pure left
    | some (op, pos) =>
      if precedence < op.precedence then do
        let _ ← next
        let first ← operand (expression depth)
        let right ← climb depth first op.precedence
        climb depth (combine op pos left right) precedence
      else
        pure left

end

/-- Reads expressions up to the end of the text, with semicolons between them; those read so far are in
reverse. -/
def programFrom (expr : Parser Expr) : (rounds : List Char) → (body : List Expr) → Parser (List Expr)
  | [], body => pure body.reverse
  | _ :: rounds, body => do
    match ← peek with
    | none => pure body.reverse
    | some _ => do
      let e ← expr
      if (← peek).isSome then skipPunctuation ";"
      programFrom expr rounds (e :: body)

/-- Reads a whole program, a block that stands at the start of the text. -/
def program (depth : Nat) : Parser Expr := do
  let stream ← get
  let body ← programFrom (expression depth) stream.rounds []
  return .block body (some .start)

end Parser

/-- Reads the program that a text holds. -/
def parse (depth : Nat) (text : String) : Except Stop Expr :=
  match Parser.program depth (.ofText text) with
  | .ok program _ => .ok program
  | .error stop _ => .error stop

end LambdaScript
