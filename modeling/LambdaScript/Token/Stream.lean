import LambdaScript.Text.Place
import LambdaScript.Token.Scan

/-!
Reading tokens one after the other, with one token of lookahead. A fault leaves the cursor where it was noticed,
so reading can be tried again from there: behind an operator run or a number that is out of range, at the end
for an unterminated string, and before a character that starts no token.
-/

namespace LambdaScript

namespace LexicalFault

/-- The fault of a lexeme that starts at one place and was given up at another. An unterminated string is
reported where the text ends and names its start; all other faults are reported at the start. -/
def toFault (start stopped : Position) : LexicalFault → Fault
  | unterminatedString => ⟨.unterminatedString start, some stopped⟩
  | numberOutOfRange => ⟨.numberOutOfRange, some start⟩
  | unknownOperator run => ⟨.unknownOperator run, some start⟩
  | strayCharacter char => ⟨.strayCharacter char, some start⟩

end LexicalFault

namespace Cursor

def skipGap (cursor : Cursor) : Cursor := advance (gapLength cursor.rest) cursor

/-- Reads the next token, if the text goes on; the second part is the cursor afterwards. -/
def readToken (cursor : Cursor) : Except Fault (Option PlacedToken) × Cursor :=
  let start := cursor.skipGap
  match start.rest with
  | [] => (.ok none, start)
  | c :: cs =>
    match scanToken c cs with
    | (.ok token, n) => (.ok (some ⟨token, start.pos⟩), advance n start)
    | (.error fault, n) =>
      let stopped := advance n start
      (.error (fault.toFault start.pos stopped.pos), stopped)

theorem length_rest_readToken {cursor after : Cursor} {token : PlacedToken}
    (h : cursor.readToken = (.ok (some token), after)) : after.rest.length < cursor.rest.length := by
  unfold readToken at h
  simp only at h
  split at h
  · simp at h
  · next c cs start_rest =>
    have start_le : (c :: cs).length ≤ cursor.rest.length := by
      rw [← start_rest, skipGap, rest_advance, List.length_drop]
      omega
    split at h
    · next scanned n scan =>
      obtain ⟨-, rfl⟩ := Prod.mk.inj h
      have n_pos := scanToken_pos scan
      rw [rest_advance, start_rest, List.length_drop]
      simp only [List.length_cons] at start_le ⊢
      omega
    · simp at h

/-- Reads tokens up to the end of the text or the first fault, behind those read already, in reverse. -/
def readAllFrom (read : List PlacedToken) (cursor : Cursor) : Except Fault (List PlacedToken) × Cursor :=
  match h : cursor.readToken with
  | (.ok (some token), after) =>
    have := length_rest_readToken h
    readAllFrom (token :: read) after
  | (.ok none, after) => (.ok read.reverse, after)
  | (.error fault, after) => (.error fault, after)
termination_by cursor.rest.length

end Cursor

/-- A cursor and the token read ahead of need, if there is one. -/
structure TokenStream where
  cursor : Cursor
  ahead : Option PlacedToken
deriving DecidableEq, Repr

namespace TokenStream

def ofText (text : String) : TokenStream := ⟨.ofText text, none⟩

def pos (stream : TokenStream) : Position := stream.cursor.pos

/-- The next token, which stays to be delivered; none at the end of the text. -/
def peek (stream : TokenStream) : Except Fault (Option PlacedToken) × TokenStream :=
  match stream.ahead with
  | some token => (.ok (some token), stream)
  | none =>
    match stream.cursor.readToken with
    | (.ok token, cursor) => (.ok token, ⟨cursor, token⟩)
    | (.error fault, cursor) => (.error fault, ⟨cursor, none⟩)

/-- Whether no token is left to be delivered. -/
def atEnd (stream : TokenStream) : Except Fault Bool × TokenStream :=
  match stream.peek with
  | (.ok token, stream) => (.ok token.isNone, stream)
  | (.error fault, stream) => (.error fault, stream)

/-- Delivers the next token; none at the end of the text. -/
def next (stream : TokenStream) : Except Fault (Option PlacedToken) × TokenStream :=
  match stream.ahead with
  | some token => (.ok (some token), ⟨stream.cursor, none⟩)
  | none =>
    match stream.cursor.readToken with
    | (.ok token, cursor) => (.ok token, ⟨cursor, none⟩)
    | (.error fault, cursor) => (.error fault, ⟨cursor, none⟩)

/-- Delivers all tokens that are left; if a fault stops it, the tokens before it are gone. -/
def rest (stream : TokenStream) : Except Fault (List PlacedToken) × TokenStream :=
  let (tokens, cursor) := stream.cursor.readAllFrom stream.ahead.toList
  (tokens, ⟨cursor, none⟩)

end TokenStream

/-- The tokens of a text. -/
def tokenize (text : String) : Except Fault (List PlacedToken) :=
  ((Cursor.ofText text).readAllFrom []).1

end LambdaScript
