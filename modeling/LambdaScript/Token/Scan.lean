import LambdaScript.Report.Fault
import LambdaScript.Text.Character

/-!
What a text begins with. Each class of lexemes has a function for the length of the longest prefix in the
class; `gapLength` covers the blanks and comments before a token. Reading is then a matter of taking that many
characters and decoding them, so no character is read twice or dropped.
-/

namespace LambdaScript

def isSpace (c : Char) : Bool := c == ' ' || c == '\t' || c == '\r' || c == '\n'

def isOperatorChar (c : Char) : Bool := "+-*/%=&|<>!".toList.contains c

def isNameStart (c : Char) : Bool := Text.isLetter c || c == '_'

def isNamePart (c : Char) : Bool := Text.isAlphanumeric c || c == '_' || c == '?' || c == '!'

/-- A character that goes on a name if a letter or an underscore follows its run. -/
def isJoiner (c : Char) : Bool := c == '-' || c == '<' || c == '>' || c == '='

/-- The length of the blanks and comments that a text begins with, counted on from `n`. A comment runs from a
hash sign through the end of its line. -/
def gapLengthFrom (inComment : Bool) (n : Nat) : List Char → Nat
  | [] => n
  | c :: cs =>
    if inComment then gapLengthFrom (c != '\n') (n + 1) cs
    else if isSpace c then gapLengthFrom false (n + 1) cs
    else if c == '#' then gapLengthFrom true (n + 1) cs
    else n

/-- The length of the blanks and comments that a text begins with. -/
def gapLength (cs : List Char) : Nat := gapLengthFrom false 0 cs

/-- Whether a name starts behind the joiners that a text begins with. -/
def joinsOn (cs : List Char) : Bool :=
  match cs.dropWhile isJoiner with
  | [] => false
  | c :: _ => isNameStart c

/-- The length of the rest of a name that a text begins with, counted on from `n`. -/
def nameLengthFrom (n : Nat) : List Char → Nat
  | [] => n
  | c :: cs =>
    if isNamePart c || (isJoiner c && joinsOn cs) then nameLengthFrom (n + 1) cs else n

/-- The token that a name-like text is: a truth value, a keyword, or else a name. -/
def wordToken (text : String) : Token :=
  if text == "true" then .boolean true
  else if text == "false" then .boolean false
  else match Keyword.ofText? text with
    | some word => .keyword word
    | none => .identifier text

def digitsValue (cs : List Char) : Nat :=
  cs.foldl (fun value c => 10 * value + (c.toNat - '0'.toNat)) 0

/-- The digits of a number literal before its point, and those behind the point if it has one. -/
def numberParts (cs : List Char) : List Char × Option (List Char) :=
  let whole := cs.takeWhile Char.isDigit
  match cs.drop whole.length with
  | '.' :: rest => (whole, some (rest.takeWhile Char.isDigit))
  | _ => (whole, none)

/-- The value and the length of the string behind an opening quote, with the value so far in reverse; none if
the string does not end. A backslash takes the next character as it is. -/
def stringBody (escaped : Bool) (value : List Char) (n : Nat) : List Char → Option (List Char × Nat)
  | [] => none
  | c :: cs =>
    if escaped then stringBody false (c :: value) (n + 1) cs
    else if c == '\\' then stringBody true value (n + 1) cs
    else if c == '"' then some (value.reverse, n + 1)
    else stringBody false (c :: value) (n + 1) cs

/-- Why a text begins with no token. -/
inductive LexicalFault where
  | unterminatedString
  | numberOutOfRange
  | unknownOperator (run : String)
  | strayCharacter (char : Char)
deriving DecidableEq, Repr

/-- The token that a text without a leading gap begins with, and the number of characters read for it; for a
fault, the number read until it was noticed. -/
def scanToken (c : Char) (cs : List Char) : Except LexicalFault Token × Nat :=
  if c == '"' then
    match stringBody false [] 1 cs with
    | some (value, n) => (.ok (.string (String.ofList value)), n)
    | none => (.error .unterminatedString, cs.length + 1)
  else if c.isDigit then
    let (whole, fraction?) := numberParts (c :: cs)
    let fraction := fraction?.getD []
    let n := whole.length + (if fraction?.isSome then 1 + fraction.length else 0)
    let value := Binary64.ofDecimal false (digitsValue (whole ++ fraction)) fraction.length
    (if value.isFinite then .ok (.number value) else .error .numberOutOfRange, n)
  else if isNameStart c then
    let n := nameLengthFrom 1 cs
    (.ok (wordToken (String.ofList ((c :: cs).take n))), n)
  else match Punctuation.ofChar? c with
    | some mark => (.ok (.punctuation mark), 1)
    | none =>
      if isOperatorChar c then
        let run := (c :: cs).takeWhile isOperatorChar
        let text := String.ofList run
        match Operator.ofText? text with
        | some op => (.ok (.operator op), run.length)
        | none => (.error (.unknownOperator text), run.length)
      else (.error (.strayCharacter c), 0)

/-- Counting a name on from a later start adds the difference. -/
theorem le_nameLengthFrom (n : Nat) (cs : List Char) : n ≤ nameLengthFrom n cs := by
  induction cs generalizing n with
  | nil => exact Nat.le_refl n
  | cons c cs ih =>
    rw [nameLengthFrom]
    split
    · exact Nat.le_of_succ_le (ih (n + 1))
    · exact Nat.le_refl n

theorem lt_of_stringBody {escaped : Bool} {value result : List Char} {n m : Nat} {cs : List Char}
    (h : stringBody escaped value n cs = some (result, m)) : n < m := by
  induction cs generalizing escaped value n with
  | nil => simp [stringBody] at h
  | cons c cs ih =>
    rw [stringBody] at h
    split at h
    · exact Nat.lt_of_succ_lt (ih h)
    · split at h
      · exact Nat.lt_of_succ_lt (ih h)
      · split at h
        · simp only [Option.some.injEq, Prod.mk.injEq] at h
          omega
        · exact Nat.lt_of_succ_lt (ih h)

theorem scanToken_pos {c : Char} {cs : List Char} {token : Token} {n : Nat}
    (h : scanToken c cs = (.ok token, n)) : 0 < n := by
  unfold scanToken at h
  split at h
  · split at h
    · next value m body =>
      simp only [Prod.mk.injEq] at h
      have := lt_of_stringBody body
      omega
    · simp at h
  · split at h
    · next digit =>
      simp only [Prod.mk.injEq] at h
      have : 0 < ((c :: cs).takeWhile Char.isDigit).length := by simp [digit]
      have whole_eq : (numberParts (c :: cs)).1 = (c :: cs).takeWhile Char.isDigit := by
        simp only [numberParts]
        split <;> rfl
      rw [whole_eq] at h
      omega
    · split at h
      · simp only [Prod.mk.injEq] at h
        have := le_nameLengthFrom 1 cs
        omega
      · split at h
        · simp only [Prod.mk.injEq] at h
          omega
        · split at h
          · next op_char =>
            have : 0 < ((c :: cs).takeWhile isOperatorChar).length := by simp [op_char]
            simp only at h
            split at h
            · simp only [Prod.mk.injEq] at h
              omega
            · simp at h
          · simp at h

end LambdaScript
