import LambdaScript.Number.Binary64

/-!
Arithmetic and order. Every operation is exact in units and then rounded once. A sum that vanishes is negative
only if both terms are; a remainder takes the sign of the dividend and is exact. Quotients and remainders are
partial, as the host has them. NaN is neither equal to, below nor above any number, itself included, and the two
zeros are equal.
-/

namespace LambdaScript.Binary64

/-- A finite magnitude with a sign as a whole number of units. -/
def signedUnits (negative : Bool) (m : Magnitude) : Int :=
  if negative then -(m.units : Int) else m.units

/-- The number nearest to a whole number of units; `zeroSign` is the sign of a vanishing one. -/
def ofUnits (zeroSign : Bool) (n : Int) : Binary64 :=
  if n = 0 then .signed zeroSign .zero else .signed (decide (n < 0)) (.ofRatio n.natAbs 1)

def negate : Binary64 → Binary64
  | .nan => .nan
  | .signed negative m => .signed (!negative) m

/-- The sum; opposite infinities have none. -/
def add : Binary64 → Binary64 → Binary64
  | .signed s m, .signed t n =>
    if m.isFinite then
      if n.isFinite then ofUnits (s && t) (signedUnits s m + signedUnits t n) else .signed t n
    else if n.isFinite || s == t then .signed s m else .nan
  | _, _ => .nan

def sub (x y : Binary64) : Binary64 := add x (negate y)

/-- The product; zero times infinity has none. -/
def mul : Binary64 → Binary64 → Binary64
  | .signed s m, .signed t n =>
    if m.isFinite && n.isFinite then .signed (s != t) (.ofRatio (m.units * n.units) Magnitude.unitsPerOne)
    else if m.place = 0 ∨ n.place = 0 then .nan
    else .signed (s != t) .infinity
  | _, _ => .nan

/-- The place of a number other than NaN on the number line, zero in the middle. -/
def linePlace (negative : Bool) (m : Magnitude) : Int :=
  if negative then -(m.place : Int) else m.place

/-- Whether two numbers are equal in value. -/
def equals : Binary64 → Binary64 → Bool
  | .signed s m, .signed t n => linePlace s m == linePlace t n
  | _, _ => false

def less : Binary64 → Binary64 → Bool
  | .signed s m, .signed t n => decide (linePlace s m < linePlace t n)
  | _, _ => false

/-- Whether the first number is below the second or equal to it. -/
def lessOrEqual : Binary64 → Binary64 → Bool
  | .signed s m, .signed t n => decide (linePlace s m ≤ linePlace t n)
  | _, _ => false

def isZero : Binary64 → Bool
  | .nan => false
  | .signed _ m => m.place == 0

def isInfinite : Binary64 → Bool
  | .nan => false
  | .signed _ m => !m.isFinite

/-- The quotient, which no zero divisor has; two infinities have NaN. -/
def div? : Binary64 → Binary64 → Option Binary64
  | .signed s m, .signed t n =>
    if n.place = 0 then none
    else if m.isFinite then
      if n.isFinite then some (.signed (s != t) (.ofRatio (m.units * Magnitude.unitsPerOne) n.units))
      else some (.signed (s != t) .zero)
    else if n.isFinite then some (.signed (s != t) .infinity) else some .nan
  | _, y => if y.isZero then none else some .nan

/-- The remainder of division toward zero, with the dividend's sign. Neither an infinite dividend nor a zero divisor
has one, unless the other of the two is NaN, and an infinite divisor leaves a finite dividend as it is. -/
def remainder? : Binary64 → Binary64 → Option Binary64
  | .signed s m, .signed _ n =>
    if !m.isFinite || n.place = 0 then none
    else if !n.isFinite then some (.signed s m)
    else some (.signed s (.ofRatio (m.units % n.units) 1))
  | _, _ => some .nan

end LambdaScript.Binary64
