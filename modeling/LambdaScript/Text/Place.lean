/-!
Places in source text, and its lines. Lines count from 1 and columns from 0; a column counts code points, and every
newline starts a fresh line. A place after some characters depends on those characters alone, so places can be
computed piece by piece. A cursor keeps what is left to read of a text, how much has been read, and the place this
leads to; it only moves forward, and moving it over some characters moves its place behind them. A text has one line
more than newlines, and joining its lines with newlines gives it back.
-/

namespace LambdaScript

/-! ### Positions -/

/-- A line and a column. -/
structure Position where
  line : Nat
  column : Nat
deriving DecidableEq, Repr, Inhabited

namespace Position

def start : Position := ⟨1, 0⟩

def after (p : Position) (c : Char) : Position :=
  if c = '\n' then ⟨p.line + 1, 0⟩ else ⟨p.line, p.column + 1⟩

/-- The place behind a run of characters that starts here. -/
def afterAll (p : Position) (cs : List Char) : Position :=
  cs.foldl after p

@[simp] theorem afterAll_nil (p : Position) : p.afterAll [] = p := rfl

@[simp] theorem afterAll_cons (p : Position) (c : Char) (cs : List Char) :
    p.afterAll (c :: cs) = (p.after c).afterAll cs := rfl

@[simp] theorem afterAll_append (p : Position) (cs ds : List Char) :
    p.afterAll (cs ++ ds) = (p.afterAll cs).afterAll ds := by
  simp [afterAll]

def text (p : Position) : String :=
  p.line.repr ++ ":" ++ p.column.repr

end Position

/-! ### Cursors -/

/-- The rest of a text, the number of characters before it, and its place. -/
structure Cursor where
  rest : List Char
  index : Nat
  pos : Position
deriving DecidableEq, Repr

namespace Cursor

def ofText (text : String) : Cursor := ⟨text.toList, 0, .start⟩

def atEnd (cursor : Cursor) : Bool := cursor.rest.isEmpty

def peek (cursor : Cursor) (offset : Nat) : Option Char := cursor.rest[offset]?

/-- The cursor behind the next character; at the end it stays where it is. -/
def next (cursor : Cursor) : Cursor :=
  match cursor.rest with
  | [] => cursor
  | c :: cs => ⟨cs, cursor.index + 1, cursor.pos.after c⟩

/-- The cursor behind the next `n` characters, or at the end if there are fewer. -/
def advance : Nat → Cursor → Cursor
  | 0, cursor => cursor
  | n + 1, cursor => advance n cursor.next

@[simp] theorem rest_advance (n : Nat) (cursor : Cursor) : (advance n cursor).rest = cursor.rest.drop n := by
  induction n generalizing cursor with
  | zero => rfl
  | succ n ih =>
    rw [advance, ih]
    cases h : cursor.rest <;> simp [next, h]

/-- Advancing moves the place behind the characters passed. -/
@[simp] theorem pos_advance (n : Nat) (cursor : Cursor) :
    (advance n cursor).pos = cursor.pos.afterAll (cursor.rest.take n) := by
  induction n generalizing cursor with
  | zero => rfl
  | succ n ih =>
    rw [advance, ih]
    cases h : cursor.rest <;> simp [next, h]

end Cursor

/-! ### Lines -/

namespace Text

/-- The lines of a text whose first line begins with some characters, given in reverse. -/
def linesFrom (line : List Char) : List Char → List (List Char)
  | [] => [line.reverse]
  | c :: cs => if c = '\n' then line.reverse :: linesFrom [] cs else linesFrom (c :: line) cs

def lines (text : String) : List (List Char) := linesFrom [] text.toList

/-- The lines that reading a text line by line delivers: a newline at its end starts no further line. -/
def inputLines (text : String) : List String :=
  let all := (lines text).map String.ofList
  if all.getLast? = some "" then all.dropLast else all

/-- A text with every line ending written as a newline, behind characters given in reverse; a carriage return
and the newline behind it are one ending. -/
def unifyFrom (done : List Char) : List Char → List Char
  | [] => done.reverse
  | '\r' :: '\n' :: cs => unifyFrom ('\n' :: done) cs
  | c :: cs => unifyFrom ((if c = '\r' then '\n' else c) :: done) cs

def unifyLineEndings (text : String) : String := String.ofList (unifyFrom [] text.toList)

end Text

end LambdaScript
