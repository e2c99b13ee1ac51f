import LambdaScript.Number.Binary64

/-!
The written form of numbers. A whole number is written out exactly, any other with the fewest decimal places
that read back to it, and never with an exponent; of two decimals with that many places the nearer is taken, the
even one of two equally near. Zero is written without a sign.
-/

namespace LambdaScript

-- powers are the built-in ones, whatever other powers of naturals are in scope
attribute [local instance(high)] instPowNat

/-- A natural in decimal digits, filled up with leading zeros to a given width. -/
def paddedDigits (width n : Nat) : String :=
  let digits := n.repr
  String.ofList (List.replicate (width - digits.length) '0') ++ digits

/-- The decimal `digits / 10 ^ places`, written with all its places. -/
def positional (digits places : Nat) : String :=
  (digits / 10 ^ places).repr ++ "." ++ paddedDigits places (digits % 10 ^ places)

namespace Magnitude

/-- The digits of the nearest decimal with `places` places that reads back to a finite magnitude, if there is
one: a decimal that reads back has the magnitude's neighbour on its side among such decimals. -/
def digitsAt? (m : Magnitude) (places : Nat) : Option Nat :=
  let scaled := m.units * 10 ^ places
  let below := scaled / unitsPerOne
  let nearest := halfEven scaled unitsPerOne
  let other := if nearest = below then below + 1 else below
  if ofDecimal nearest places = m then some nearest
  else if ofDecimal other places = m then some other
  else none

/-- The digits and places of the shortest decimal with at least one place that reads back to a finite
magnitude; 1074 places write every one exactly. -/
def shortestDecimal (m : Magnitude) : Nat × Nat :=
  ((List.range' 1 1073).findSome? fun places => (m.digitsAt? places).map (·, places)).getD
    (m.units * 5 ^ (1074 : Nat), 1074)

def literal (m : Magnitude) : String :=
  if !m.isFinite then "inf"
  else if m.units % unitsPerOne = 0 then (m.units / unitsPerOne).repr
  else positional m.shortestDecimal.1 m.shortestDecimal.2

end Magnitude

def Binary64.literal : Binary64 → String
  | .nan => "nan"
  | .signed negative m => if negative && m.place != 0 then "-" ++ m.literal else m.literal

end LambdaScript
