import LambdaScript.Number.Rounding

/-!
The numbers of the language: IEEE 754 binary64. A number other than NaN is a sign and a magnitude, and a
magnitude is held by its place among all magnitudes in increasing order, from zero to infinity. That place is the
bit pattern without its sign, so order of places is order of values. A finite magnitude is a whole number of
units of `2 ^ (-1074)`, the least positive number; any quotient of naturals rounds to the magnitude nearest to
it, a half going to the even place.
-/

namespace LambdaScript

-- powers are the built-in ones, whatever other powers of naturals are in scope
attribute [local instance(high)] instPowNat

/-- The absolute value of a number, by its place in increasing order. -/
structure Magnitude where
  place : Nat
  place_le : place ≤ 2047 * 2 ^ (52 : Nat)
deriving DecidableEq, Repr

namespace Magnitude

def infinityPlace : Nat := 2047 * 2 ^ (52 : Nat)

def zero : Magnitude := ⟨0, Nat.zero_le _⟩

def infinity : Magnitude := ⟨infinityPlace, Nat.le_refl _⟩

def isFinite (m : Magnitude) : Bool := decide (m.place < infinityPlace)

/-- The units in the number one. -/
def unitsPerOne : Nat := 2 ^ (1074 : Nat)

/-- The value of a finite magnitude in units: below `2 ^ 52` places are values, and from there on each run of
`2 ^ 52` places doubles the step between neighbours. -/
def units (m : Magnitude) : Nat :=
  let scale := m.place / 2 ^ (52 : Nat)
  let fraction := m.place % 2 ^ (52 : Nat)
  if scale = 0 then fraction else (2 ^ (52 : Nat) + fraction) * 2 ^ (scale - 1)

/-- The magnitude nearest to `n / d` units, with the even place if two are equally near; a quotient from half a
step above the last finite magnitude on is infinite. -/
def ofRatio (n d : Nat) : Magnitude :=
  let doublings := (n / d).log2 - 52
  ⟨min infinityPlace (doublings * 2 ^ (52 : Nat) + halfEven n (d * 2 ^ doublings)), Nat.min_le_left _ _⟩

/-- The magnitude nearest to the decimal `digits / 10 ^ places`. -/
def ofDecimal (digits places : Nat) : Magnitude :=
  ofRatio (digits * unitsPerOne) (10 ^ places)

end Magnitude

/-- A number: not-a-number, or a magnitude with a sign. Zero and infinity have both signs. -/
inductive Binary64 where
  | nan
  | signed (negative : Bool) (magnitude : Magnitude)
deriving DecidableEq, Repr

namespace Binary64

def zero : Binary64 := .signed false .zero

def isFinite : Binary64 → Bool
  | .nan => false
  | .signed _ m => m.isFinite

/-- The number with a given 64-bit pattern; every pattern above infinity is NaN. -/
def ofBits (bits : Nat) : Binary64 :=
  let place := bits % 2 ^ (63 : Nat)
  if h : place ≤ 2047 * 2 ^ (52 : Nat) then .signed (decide (2 ^ (63 : Nat) ≤ bits)) ⟨place, h⟩ else .nan

/-- The 64-bit pattern; NaN has many and none is singled out. -/
def toBits? : Binary64 → Option Nat
  | .nan => none
  | .signed negative m => some ((if negative then 2 ^ (63 : Nat) else 0) + m.place)

def ofDecimal (negative : Bool) (digits places : Nat) : Binary64 :=
  .signed negative (.ofDecimal digits places)

/-- The lower 63 bits of a pattern are a place, the highest bit is the sign. -/
theorem ofBits_of_mod {bits place : Nat} (place_le : place ≤ 2047 * 2 ^ (52 : Nat)) (h : bits % 2 ^ (63 : Nat) = place) :
    ofBits bits = .signed (decide (2 ^ (63 : Nat) ≤ bits)) ⟨place, place_le⟩ := by
  subst h
  exact dif_pos place_le

theorem ofBits_of_toBits? {x : Binary64} {bits : Nat} (h : x.toBits? = some bits) : ofBits bits = x := by
  cases x with
  | nan => cases h
  | signed negative m =>
    obtain ⟨place, place_le⟩ := m
    cases h
    cases negative
    · show ofBits (0 + place) = .signed false ⟨place, place_le⟩
      rw [ofBits_of_mod place_le (by omega), decide_eq_false (by omega)]
    · show ofBits (2 ^ (63 : Nat) + place) = .signed true ⟨place, place_le⟩
      rw [ofBits_of_mod place_le (by omega), decide_eq_true (by omega)]

end Binary64

end LambdaScript
