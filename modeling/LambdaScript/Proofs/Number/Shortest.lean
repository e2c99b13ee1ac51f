import LambdaScript.Proofs.Number.Value
import Mathlib.Algebra.Order.Floor.Semifield
import Mathlib.Data.Nat.Cast.Order.Field
import Mathlib.Data.Nat.Digits.Lemmas
import Mathlib.Data.Rat.Floor
import Mathlib.Tactic.LinearCombination
import Mathlib.Tactic.NormNum

/-!
The shortest decimals of numbers. A decimal is the shortest for a number if it is read as that number with the fewest
digits, and is nearest to it among those with as many digits, the even one of two equally near. A number that is not
whole has just one such decimal, the one that is searched for by its number of places: between it and a shorter decimal
with more places there would be a power of ten, which could do with a place less.
-/

namespace LambdaScript

-- powers are the built-in ones, whatever other powers of naturals are in scope
attribute [local instance(high)] instPowNat

/-- The decimal `digits * 10 ^ exponent`. -/
structure Decimal where
  digits : Nat
  exponent : Int
deriving DecidableEq, Repr

namespace Decimal

def value (d : Decimal) : ℚ := d.digits * 10 ^ d.exponent

/-- The magnitude that a decimal is read as. -/
def read (d : Decimal) : Magnitude := .ofDecimal (d.digits * 10 ^ d.exponent.toNat) (-d.exponent).toNat

/-- The number of digits, without the zeros that the exponent stands for. -/
def length (d : Decimal) : Nat := (Nat.digits 10 d.digits).length

/-- A decimal that is read as a magnitude, with the fewest digits, and of all with as many digits the nearest; of
two equally near it is the even one. -/
structure IsShortest (d : Decimal) (m : Magnitude) : Prop where
  read_eq : d.read = m
  fewest : ∀ other : Decimal, other.read = m → d.length ≤ other.length
  nearest : ∀ other : Decimal, other.read = m → other.length = d.length →
    |d.value - m.value| ≤ |other.value - m.value|
  even : ∀ other : Decimal, other.read = m → other.length = d.length →
    |d.value - m.value| = |other.value - m.value| → other.value = d.value ∨ d.digits % 2 = 0

theorem value_neg_natCast (digits places : Nat) : value ⟨digits, -places⟩ = digits / 10 ^ places := by
  rw [value, zpow_neg, zpow_natCast, div_eq_mul_inv]

theorem read_natCast (digits n : Nat) : read ⟨digits, n⟩ = .ofDecimal (digits * 10 ^ n) 0 := by
  simp [read]

theorem read_neg_natCast (digits places : Nat) : read ⟨digits, -places⟩ = .ofDecimal digits places := by
  simp [read]

end Decimal

namespace Magnitude

attribute [local irreducible] unitsPerOne shortestDecimal

/-! ### Rounding to the nearest natural -/

theorem halfEven_dist (n : Nat) {d : Nat} (hd : 0 < d) : |(halfEven n d : ℚ) - n / d| ≤ 1 / 2 := by
  obtain ⟨hlow, hhigh⟩ := halfEven_near n hd
  have hpos : (0 : ℚ) < d := by exact_mod_cast hd
  have hlow : 2 * (n : ℚ) ≤ (2 * halfEven n d + 1) * d := by exact_mod_cast hlow
  have hhigh : 2 * (halfEven n d : ℚ) * d ≤ 2 * n + d := by exact_mod_cast hhigh
  have hn : (n : ℚ) / d * d = n := div_mul_cancel₀ _ hpos.ne'
  rw [abs_le]
  constructor <;> nlinarith

/-- Where both neighbours are equally near, rounding takes the even one. -/
theorem halfEven_even {n d : Nat} (hd : 0 < d) (h : |(halfEven n d : ℚ) - n / d| = 1 / 2) : halfEven n d % 2 = 0 := by
  have hpos : (0 : ℚ) < d := by exact_mod_cast hd
  have hn : (n : ℚ) / d * d = n := div_mul_cancel₀ _ hpos.ne'
  have htie : 2 * halfEven n d * d = 2 * n + d ∨ 2 * halfEven n d * d + d = 2 * n := by
    rcases (abs_eq (by norm_num)).mp h with hup | hdown
    · left
      have hscaled : 2 * (halfEven n d : ℚ) * d = 2 * n + d := by linear_combination (2 * d : ℚ) * hup + 2 * hn
      exact_mod_cast hscaled
    · right
      have hscaled : 2 * (halfEven n d : ℚ) * d + d = 2 * n := by linear_combination (2 * d : ℚ) * hdown + 2 * hn
      exact_mod_cast hscaled
  have hsplit := Nat.div_add_mod n d
  have hhalf : 2 * (n % d) = d := by
    have hrest := Nat.mod_lt n hd
    obtain ⟨hlow, hhigh⟩ := halfEven_bounds n d
    have hmul (q : Nat) : 2 * q * d = 2 * (d * q) := by rw [Nat.mul_assoc, Nat.mul_comm q]
    rcases (show halfEven n d = n / d ∨ halfEven n d = n / d + 1 by omega) with hround | hround
    · rw [hround, hmul] at htie
      omega
    · rw [hround, hmul, Nat.mul_succ] at htie
      omega
  simp only [halfEven, hhalf, Nat.lt_irrefl, if_false]
  omega

/-- No natural is nearer than the one within half a unit; an equally near one is next to it, as both are half a unit
away. -/
theorem nearest_of_dist {x : ℚ} {nearest n : Nat} (hdist : |(nearest : ℚ) - x| ≤ 1 / 2) (hne : n ≠ nearest) :
    |(nearest : ℚ) - x| ≤ |(n : ℚ) - x| ∧
      (|(nearest : ℚ) - x| = |(n : ℚ) - x| → |(nearest : ℚ) - x| = 1 / 2 ∧ n % 2 ≠ nearest % 2) := by
  have hstep : (1 : ℚ) ≤ |(n : ℚ) - nearest| := by
    have hint : (1 : ℤ) ≤ |(n : ℤ) - nearest| := Int.one_le_abs (by omega)
    exact_mod_cast hint
  have htriangle : |(n : ℚ) - nearest| ≤ |(n : ℚ) - x| + |(nearest : ℚ) - x| := by
    rw [abs_sub_comm (nearest : ℚ) x]
    exact abs_sub_le _ _ _
  constructor
  · linarith
  · intro hequal
    have hhalf : |(nearest : ℚ) - x| = 1 / 2 := by linarith
    refine ⟨hhalf, ?_⟩
    have hnext : |(n : ℤ) - nearest| ≤ 1 := by
      have hcast : |(n : ℚ) - nearest| ≤ 1 := by linarith
      exact_mod_cast hcast
    have hbetween := abs_le.mp hnext
    omega

/-! ### The neighbours of a number among decimals -/

section

variable {m : Magnitude} {places digits n : Nat}

theorem value_mul_ten_pow (m : Magnitude) (places : Nat) :
    m.value * 10 ^ places = ((m.units * 10 ^ places : Nat) : ℚ) / unitsPerOne := by
  rw [value]
  push_cast
  ring

/-- The neighbours of a magnitude among the decimals with a number of places. -/
theorem neighbours (m : Magnitude) (places : Nat) :
    ((m.units * 10 ^ places / unitsPerOne : Nat) : ℚ) ≤ m.value * 10 ^ places ∧
      m.value * 10 ^ places ≤ ((m.units * 10 ^ places / unitsPerOne + 1 : Nat) : ℚ) := by
  rw [value_mul_ten_pow]
  constructor
  · exact Nat.cast_div_le
  · rw [Nat.cast_succ, ← Nat.floor_div_eq_div (K := ℚ)]
    exact (Nat.lt_floor_add_one _).le

/-- If a decimal is read as a magnitude, the neighbour between them is read so too. -/
theorem ofDecimal_neighbour (hm : m.isFinite = true) (hn : ofDecimal n places = m) :
    (n ≤ m.units * 10 ^ places / unitsPerOne → ofDecimal (m.units * 10 ^ places / unitsPerOne) places = m) ∧
      (m.units * 10 ^ places / unitsPerOne < n →
        ofDecimal (m.units * 10 ^ places / unitsPerOne + 1) places = m) := by
  have hten : (0 : ℚ) < 10 ^ places := by positivity
  have hread : RoundsTo (n / 10 ^ places) m := hn ▸ roundsTo_ofDecimal n places
  have hvalue := roundsTo_value hm
  obtain ⟨hbelow, habove⟩ := neighbours m places
  generalize m.units * 10 ^ places / unitsPerOne = whole at hbelow habove
  constructor
  · intro hle
    apply hread.ofDecimal_eq hvalue
    · rw [div_le_div_iff_of_pos_right hten]
      exact_mod_cast hle
    · rwa [div_le_iff₀ hten]
  · intro hlt
    apply hvalue.ofDecimal_eq hread
    · rwa [le_div_iff₀ hten]
    · rw [div_le_div_iff_of_pos_right hten]
      exact_mod_cast hlt

/-- If some decimal with a number of places is read as a magnitude, one is found there. -/
theorem exists_digitsAt? (hm : m.isFinite = true) (hn : ofDecimal n places = m) :
    ∃ digits, m.digitsAt? places = some digits := by
  obtain ⟨hlow, hhigh⟩ := ofDecimal_neighbour hm hn
  have hbounds := halfEven_bounds (m.units * 10 ^ places) unitsPerOne
  simp only [digitsAt?]
  generalize halfEven (m.units * 10 ^ places) unitsPerOne = nearest at hbounds
  generalize m.units * 10 ^ places / unitsPerOne = whole at *
  by_cases hnearest : ofDecimal nearest places = m
  · exact ⟨nearest, if_pos hnearest⟩
  · rw [if_neg hnearest]
    refine ⟨_, if_pos ?_⟩
    rcases Nat.lt_or_ge whole n with hmore | hless
    · have hup := hhigh hmore
      rw [if_pos]
      · exact hup
      · by_contra hother
        obtain rfl : nearest = whole + 1 := by omega
        exact hnearest hup
    · have hdown := hlow hless
      rw [if_neg]
      · exact hdown
      · rintro rfl
        exact hnearest hdown

/-- **What is found at a number of places is nearest**: no other decimal with as many places that is read as the
magnitude is nearer to it, and of two equally near the even one is found. -/
theorem digitsAt?_nearest (hm : m.isFinite = true) (hdigits : m.digitsAt? places = some digits)
    (hn : ofDecimal n places = m) (hne : n ≠ digits) :
    |(digits : ℚ) - m.value * 10 ^ places| ≤ |(n : ℚ) - m.value * 10 ^ places| ∧
      (|(digits : ℚ) - m.value * 10 ^ places| = |(n : ℚ) - m.value * 10 ^ places| →
        digits % 2 = 0 ∧ n % 2 = 1) := by
  obtain ⟨hlow, hhigh⟩ := ofDecimal_neighbour hm hn
  obtain ⟨hbelow, habove⟩ := neighbours m places
  have hbounds := halfEven_bounds (m.units * 10 ^ places) unitsPerOne
  have hdist := halfEven_dist (m.units * 10 ^ places) unitsPerOne_pos
  have heven := halfEven_even (n := m.units * 10 ^ places) unitsPerOne_pos
  simp only [digitsAt?] at hdigits
  rw [← value_mul_ten_pow] at hdist heven
  generalize halfEven (m.units * 10 ^ places) unitsPerOne = nearest at *
  generalize m.units * 10 ^ places / unitsPerOne = whole at *
  generalize m.value * 10 ^ places = x at *
  by_cases hnearest : ofDecimal nearest places = m
  · rw [if_pos hnearest, Option.some.injEq] at hdigits
    subst hdigits
    obtain ⟨hle, htie⟩ := nearest_of_dist hdist hne
    refine ⟨hle, fun hequal => ?_⟩
    obtain ⟨hhalf, hparity⟩ := htie hequal
    have hzero := heven hhalf
    omega
  · -- the nearest one is not read as the magnitude, so all that are lie on its other side
    rw [if_neg hnearest] at hdigits
    have hfound := (Option.ite_none_right_eq_some.mp hdigits).2
    rcases Nat.lt_or_ge whole n with hmore | hless
    · have hup := hhigh hmore
      have hside : nearest = whole := by
        rcases (show nearest = whole ∨ nearest = whole + 1 by omega) with hdown | rfl
        · exact hdown
        · exact absurd hup hnearest
      rw [if_pos hside, Option.some.injEq] at hfound
      subst hfound
      have hfar : ((whole + 1 : Nat) : ℚ) < n := by exact_mod_cast (show whole + 1 < n by omega)
      rw [abs_of_nonneg (by linarith), abs_of_nonneg (by linarith)]
      exact ⟨by linarith, fun hequal => by linarith⟩
    · have hdown := hlow hless
      have hside : nearest ≠ whole := by
        rintro rfl
        exact hnearest hdown
      rw [if_neg hside, Option.some.injEq] at hfound
      subst hfound
      have hfar : (n : ℚ) < whole := by exact_mod_cast (show n < whole by omega)
      rw [abs_of_nonpos (by linarith), abs_of_nonpos (by linarith)]
      exact ⟨by linarith, fun hequal => by linarith⟩

/-! ### The search for the least number of places -/

/-- What is found is the least number of places at which some decimal is read as the magnitude. -/
theorem shortestDecimal_spec (hm : m.isFinite = true) :
    0 < m.shortestDecimal.2 ∧ m.digitsAt? m.shortestDecimal.2 = some m.shortestDecimal.1 ∧
      ∀ fewer, 0 < fewer → fewer < m.shortestDecimal.2 → m.digitsAt? fewer = none := by
  have hexact (places : Nat) (hplaces : unitsPerOne = 2 ^ places) :
      m.digitsAt? places = some (m.units * 5 ^ places) := by
    have hscaled : m.units * 10 ^ places = m.units * 5 ^ places * unitsPerOne := by
      rw [hplaces, Nat.mul_assoc, ← Nat.mul_pow]
    simp only [digitsAt?, hscaled, halfEven_mul _ unitsPerOne_pos]
    exact if_pos (ofDecimal_all_places hm places hplaces)
  rw [shortestDecimal]
  cases hfound : (List.range' 1 1073).findSome? fun places => (m.digitsAt? places).map (·, places) with
  | none =>
      rw [Option.getD_none]
      refine ⟨Nat.succ_pos _, hexact 1074 (by rw [unitsPerOne]), fun fewer hpos hless => ?_⟩
      have hnone := List.findSome?_eq_none_iff.mp hfound fewer (List.mem_range'_1.mpr ⟨hpos, by omega⟩)
      exact Option.map_eq_none_iff.mp hnone
  | some found =>
      obtain ⟨before, places, after, hrange, hat, hbefore⟩ := List.findSome?_eq_some_iff.mp hfound
      obtain ⟨digits, hdigits, rfl⟩ := Option.map_eq_some_iff.mp hat
      obtain ⟨count, hcount, rfl, hrest⟩ := List.range'_eq_append_iff.mp hrange
      have hplaces : places = 1 + count := by
        have hhead := congrArg List.head? hrest
        rw [List.head?_cons, List.head?_range'] at hhead
        split at hhead
        · cases hhead
        · have hstart := Option.some.inj hhead
          omega
      rw [Option.getD_some]
      refine ⟨by omega, hdigits, fun fewer hpos hless => ?_⟩
      have hnone := hbefore fewer (List.mem_range'_1.mpr ⟨hpos, by omega⟩)
      exact Option.map_eq_none_iff.mp hnone

/-- Rounding keeps a power of two that divides a whole number of units. -/
theorem dvd_units_ofRatio {k : Nat} (hfinite : (ofRatio (n * 2 ^ k) 1).isFinite = true) :
    2 ^ k ∣ (ofRatio (n * 2 ^ k) 1).units := by
  rw [units_ofRatio hfinite, Nat.one_mul]
  generalize (n * 2 ^ k / 1).log2 - 52 = doublings
  rcases Nat.le_total doublings k with hfew | hmany
  · obtain ⟨rest, rfl⟩ := Nat.exists_eq_add_of_le hfew
    rw [mul_two_pow_add, halfEven_mul _ (Nat.two_pow_pos doublings), ← mul_two_pow_add]
    exact Nat.dvd_mul_left _ _
  · exact Nat.dvd_mul_left_of_dvd (Nat.pow_dvd_pow 2 hmany) _

/-- A decimal without places behind the point is read as a whole number. -/
theorem whole_of_ofDecimal (hm : m.isFinite = true) (hn : ofDecimal n 0 = m) : m.units % unitsPerOne = 0 := by
  have hwhole (k : Nat) (hfinite : (ofRatio (n * 2 ^ k) 1).isFinite = true) :
      (ofRatio (n * 2 ^ k) 1).units % 2 ^ k = 0 := Nat.mod_eq_zero_of_dvd (dvd_units_ofRatio hfinite)
  rw [ofDecimal, Nat.pow_zero, unitsPerOne] at hn
  rw [← hn] at hm ⊢
  rw [unitsPerOne]
  exact hwhole 1074 hm

/-- With fewer places no decimal is read as a magnitude that is not whole. -/
theorem ofDecimal_ne_of_fewer (hm : m.isFinite = true) (hwhole : m.units % unitsPerOne ≠ 0)
    (hfewer : places < m.shortestDecimal.2) : ofDecimal n places ≠ m := by
  intro hn
  rcases Nat.eq_zero_or_pos places with rfl | hpos
  · exact hwhole (whole_of_ofDecimal hm hn)
  · obtain ⟨digits, hdigits⟩ := exists_digitsAt? hm hn
    rw [(shortestDecimal_spec hm).2.2 places hpos hfewer] at hdigits
    cases hdigits

/-! ### Powers of ten -/

/-- A unit is a little less than `5 * 10 ^ (-324)`. -/
theorem unitsPerOne_bounds : 2024 * 10 ^ (320 : Nat) ≤ unitsPerOne ∧ unitsPerOne ≤ 2025 * 10 ^ (320 : Nat) := by
  rw [unitsPerOne]
  decide +kernel

/-- Of the powers of ten only one is some units but few, and it is nearly two units. -/
theorem near_power_of_few_units {count : Nat} (hcount : count ≠ 0)
    (hbelow : 2 * unitsPerOne ≤ 2 * (count * 10 ^ places) + 10 ^ places)
    (habove : 2 * (count * 10 ^ places) ≤ 2 * unitsPerOne + 10 ^ places) :
    39 * unitsPerOne ≤ 40 * (count * 10 ^ places) ∧ 40 * (count * 10 ^ places) ≤ 41 * unitsPerOne := by
  obtain ⟨hlow, hhigh⟩ := unitsPerOne_bounds
  have hmono {i j : Nat} (hle : i ≤ j) : 10 ^ i ≤ 10 ^ j := Nat.pow_le_pow_right (by decide) hle
  have hsplit (e : Nat) : 10 ^ (320 + e) = 10 ^ (320 : Nat) * 10 ^ e := Nat.pow_add 10 320 e
  generalize 10 ^ (320 : Nat) = big at hlow hhigh hsplit
  have hbig : 0 < big := by
    have hpos := unitsPerOne_pos
    omega
  -- half a unit is little beside the twenty units and more of a greater power, and a lesser one is rounded to none
  rcases Nat.lt_trichotomy places (320 + 3) with hless | heq | hmore
  · have hsmall : 10 ^ places ≤ big * 10 ^ 2 := (hmono (by omega)).trans_eq (hsplit 2)
    omega
  · have hsame : 10 ^ places = big * 10 ^ 3 := (congrArg (10 ^ ·) heq).trans (hsplit 3)
    rw [hsame] at hbelow habove ⊢
    have htwo : count = 2 := by
      apply Nat.le_antisymm <;> by_contra hother <;> nlinarith
    rw [htwo] at hbelow habove ⊢
    omega
  · have hlarge : big * 10 ^ 4 ≤ 10 ^ places := by
      obtain ⟨more, hplaces⟩ := Nat.exists_eq_add_of_lt hmore
      rw [show places = 320 + (4 + more) by omega, hsplit]
      exact Nat.mul_le_mul_left big (hmono (Nat.le_add_right 4 more))
    have hone : 10 ^ places ≤ count * 10 ^ places := Nat.le_mul_of_pos_left _ (Nat.pos_of_ne_zero hcount)
    omega

/-- Where steps are doubled, a quotient has many of them. -/
theorem step_le_of_doublings {d doublings : Nat} (hd : 0 < d) (hdoublings : (n / d).log2 - 52 = doublings)
    (hpos : 0 < doublings) : 2 ^ (52 : Nat) * (d * 2 ^ doublings) ≤ n := by
  have hne : n / d ≠ 0 := by
    intro hzero
    rw [hzero, Nat.log2_zero] at hdoublings
    omega
  have hbits : 2 ^ (52 + doublings) ≤ n / d :=
    Nat.le_trans (Nat.pow_le_pow_right Nat.two_pos (by omega)) (Nat.log2_self_le hne)
  calc 2 ^ (52 : Nat) * (d * 2 ^ doublings) = 2 ^ (52 + doublings) * d := by
        rw [Nat.pow_add, Nat.mul_assoc, Nat.mul_comm d]
    _ ≤ n := (Nat.le_div_iff_mul_le hd).mp hbits

/-- **A power of ten is read as a number near to it**, if not as zero. Steps between numbers are small beside the
numbers, except for a few units, and there is one power of ten only that is a few units. -/
theorem near_power_of_ten (hm : m.isFinite = true) (hunits : m.units ≠ 0) (h : ofDecimal 1 places = m) :
    39 * unitsPerOne ≤ 40 * (m.units * 10 ^ places) ∧ 40 * (m.units * 10 ^ places) ≤ 41 * unitsPerOne := by
  have hten : 0 < 10 ^ places := Nat.pow_pos (by decide)
  rw [ofDecimal, Nat.one_mul] at h
  obtain ⟨hbelow, habove⟩ := units_ofRatio_near hten (h ▸ hm)
  rw [h] at hbelow habove
  generalize hdoublings : (unitsPerOne / 10 ^ places).log2 - 52 = doublings at hbelow habove
  rcases Nat.eq_zero_or_pos doublings with rfl | hpos
  · rw [Nat.pow_zero, Nat.mul_one] at hbelow habove
    exact near_power_of_few_units hunits hbelow habove
  · have hstep := step_le_of_doublings hten hdoublings hpos
    omega

end

/-! ### The decimal with the least number of places is the shortest -/

section

variable {m : Magnitude} {digits places c q k : Nat} (hm : m.isFinite = true) (hwhole : m.units % unitsPerOne ≠ 0)
  (hfound : m.shortestDecimal = (digits, places))

include hm hwhole hfound

/-- What is found is read as the magnitude, and no decimal with fewer places is. -/
theorem found_spec : m.digitsAt? places = some digits ∧ 0 < places ∧
    ∀ {c q : Nat}, ofDecimal c q = m → places ≤ q := by
  obtain ⟨hplaces, hdigits, -⟩ := shortestDecimal_spec hm
  rw [hfound] at hplaces hdigits
  refine ⟨hdigits, hplaces, fun {c q} h => ?_⟩
  by_contra hless
  refine ofDecimal_ne_of_fewer hm hwhole ?_ h
  rw [hfound]
  exact Nat.lt_of_not_le hless

/-- A decimal that is read as a magnitude that is not whole has places behind the point, no fewer than are found. -/
theorem exists_places {other : Decimal} (hread : other.read = m) :
    ∃ c q : Nat, other = ⟨c, -q⟩ ∧ ofDecimal c q = m ∧ places ≤ q ∧ 0 < c := by
  obtain ⟨-, hplaces, hfewest⟩ := found_spec hm hwhole hfound
  obtain ⟨c, exponent⟩ := other
  obtain ⟨q, rfl | rfl⟩ := Int.eq_nat_or_neg exponent
  · rw [Decimal.read_natCast] at hread
    have hnone := hfewest hread
    omega
  · rw [Decimal.read_neg_natCast] at hread
    refine ⟨c, q, rfl, hread, hfewest hread, Nat.pos_of_ne_zero ?_⟩
    rintro rfl
    have hzero : RoundsTo 0 m := by
      have hrounds := roundsTo_ofDecimal 0 q
      rwa [hread, Nat.cast_zero, zero_div] at hrounds
    have hread : ofDecimal 0 0 = m := hzero.ofDecimal_eq hzero (by simp) (by simp)
    have hnone := hfewest hread
    omega

/-- A power of ten between a decimal that is read as the magnitude and the one that is found has one digit, for with
more it could do with a place less. -/
theorem eq_zero_of_power_between (hc : ofDecimal c q = m) (hlow : c * 10 ^ places ≤ 10 ^ k * 10 ^ q)
    (hhigh : 10 ^ k ≤ digits) : k = 0 ∧ ofDecimal 1 places = m := by
  obtain ⟨hdigits, hplaces, hfewest⟩ := found_spec hm hwhole hfound
  have hten (e : Nat) : (0 : ℚ) < 10 ^ e := by positivity
  have hbelow : (c : ℚ) / 10 ^ q ≤ 10 ^ k / 10 ^ places := by
    rw [div_le_div_iff₀ (hten q) (hten places)]
    exact_mod_cast hlow
  have habove : (10 : ℚ) ^ k / 10 ^ places ≤ digits / 10 ^ places := by
    rw [div_le_div_iff_of_pos_right (hten places)]
    exact_mod_cast hhigh
  have hread {n p : Nat} (h : (n : ℚ) / 10 ^ p = 10 ^ k / 10 ^ places) : ofDecimal n p = m :=
    (hc ▸ roundsTo_ofDecimal c q).ofDecimal_eq (ofDecimal_of_digitsAt? hdigits ▸ roundsTo_ofDecimal digits places)
      (h ▸ hbelow) (h ▸ habove)
  cases k with
  | zero => exact ⟨rfl, hread (by simp)⟩
  | succ k =>
      obtain ⟨less, rfl⟩ := Nat.exists_eq_succ_of_ne_zero (Nat.ne_of_gt hplaces)
      have hfewer : ofDecimal (10 ^ k) less = m := hread (by push_cast; rw [pow_succ, pow_succ]; field_simp)
      exact absurd (hfewest hfewer) (Nat.not_succ_le_self less)

/-- Where a power of ten is read as the magnitude, what is found with as many places is near to it. -/
theorem near_of_power_of_ten (hone : ofDecimal 1 places = m) :
    39 / 40 ≤ m.value * 10 ^ places ∧ |(digits : ℚ) - m.value * 10 ^ places| ≤ 1 / 40 := by
  obtain ⟨hdigits, -, -⟩ := found_spec hm hwhole hfound
  have hunits : m.units ≠ 0 := by
    intro hzero
    rw [hzero, Nat.zero_mod] at hwhole
    exact hwhole rfl
  obtain ⟨hlow, hhigh⟩ := near_power_of_ten hm hunits hone
  have hpos : (0 : ℚ) < unitsPerOne := by exact_mod_cast unitsPerOne_pos
  have hbelow : 39 / 40 ≤ m.value * 10 ^ places := by
    rw [value_mul_ten_pow, div_le_div_iff₀ (by norm_num) hpos]
    exact_mod_cast (show 39 * unitsPerOne ≤ m.units * 10 ^ places * 40 by omega)
  have habove : m.value * 10 ^ places ≤ 41 / 40 := by
    rw [value_mul_ten_pow, div_le_div_iff₀ hpos (by norm_num)]
    exact_mod_cast (show m.units * 10 ^ places * 40 ≤ 41 * unitsPerOne by omega)
  refine ⟨hbelow, ?_⟩
  have hnear : |((1 : Nat) : ℚ) - m.value * 10 ^ places| ≤ 1 / 40 := by
    rw [Nat.cast_one, abs_le]
    constructor <;> linarith
  by_cases hsame : 1 = digits
  · rw [← hsame]
    exact hnear
  · exact (digitsAt?_nearest hm hdigits hone hsame).1.trans hnear

/-- A decimal that is read as the magnitude has at least as many digits as the one that is found, and if it has just
as many but more places, it is farther from the magnitude. -/
theorem farther_of_more_places (hc : ofDecimal c q = m) (hpos : 0 < c) (hplaces : places ≤ q) :
    (Nat.digits 10 digits).length ≤ (Nat.digits 10 c).length ∧
      ((Nat.digits 10 c).length = (Nat.digits 10 digits).length → places < q →
        |(digits : ℚ) / 10 ^ places - m.value| < |(c : ℚ) / 10 ^ q - m.value|) := by
  have hmono {i j : Nat} (hle : i ≤ j) : 10 ^ i ≤ 10 ^ j := Nat.pow_le_pow_right (by decide) hle
  cases hlength : (Nat.digits 10 digits).length with
  | zero =>
      refine ⟨Nat.zero_le _, fun hzero => ?_⟩
      rw [List.length_eq_zero_iff, Nat.digits_eq_nil_iff_eq_zero] at hzero
      omega
  | succ k =>
      have hfull : 10 ^ k ≤ digits := (Nat.lt_digits_length_iff (by decide) digits).mp (by omega)
      constructor
      · by_contra hshort
        have hc' : c < 10 ^ k := (Nat.digits_length_le_iff (by decide) c).mp (by omega)
        obtain ⟨rfl, -⟩ :=
          eq_zero_of_power_between hm hwhole hfound hc (Nat.mul_le_mul hc'.le (hmono hplaces)) hfull
        omega
      · intro hsame hmore
        have hc' : c < 10 ^ (k + 1) := (Nat.digits_length_le_iff (by decide) c).mp (by omega)
        have hten : 10 ^ (k + 1) * 10 ^ places ≤ 10 ^ k * 10 ^ q := by
          rw [← Nat.pow_add, ← Nat.pow_add]
          exact hmono (by omega)
        obtain ⟨rfl, hone⟩ :=
          eq_zero_of_power_between hm hwhole hfound hc (Nat.le_trans (Nat.mul_le_mul_right _ hc'.le) hten) hfull
        obtain ⟨hlow, hclose⟩ := near_of_power_of_ten hm hwhole hfound hone
        have hT : (0 : ℚ) < 10 ^ places := by positivity
        have hscale (z : ℚ) : |z - m.value| * 10 ^ places = |z * 10 ^ places - m.value * 10 ^ places| := by
          rw [← sub_mul, abs_mul, abs_of_pos hT]
        have hfar : (c : ℚ) / 10 ^ q * 10 ^ places ≤ 9 / 10 := by
          have hdigit : c * 10 ^ places * 10 ≤ 9 * 10 ^ q := by
            have hmul := Nat.mul_le_mul (show c ≤ 9 by omega) (hmono hmore)
            rwa [Nat.pow_succ, ← Nat.mul_assoc] at hmul
          rw [div_mul_eq_mul_div, div_le_div_iff₀ (by positivity) (by norm_num)]
          exact_mod_cast hdigit
        rw [← mul_lt_mul_iff_of_pos_right hT, hscale, hscale, div_mul_cancel₀ _ hT.ne']
        calc |(digits : ℚ) - m.value * 10 ^ places| ≤ 1 / 40 := hclose
          _ < 39 / 40 - 9 / 10 := by norm_num
          _ ≤ m.value * 10 ^ places - c / 10 ^ q * 10 ^ places := by linarith
          _ ≤ |c / 10 ^ q * 10 ^ places - m.value * 10 ^ places| := by
            rw [abs_sub_comm]
            exact le_abs_self _

/-- Another decimal with as many digits as the one that is found is no nearer to the magnitude, and if it is as near,
only the one that is found is even. -/
theorem nearest_of_length_eq {other : Decimal} (hread : other.read = m)
    (hlength : other.length = Decimal.length ⟨digits, -places⟩) (hne : other ≠ ⟨digits, -places⟩) :
    Decimal.value ⟨digits, -places⟩ ≠ other.value ∧
      |Decimal.value ⟨digits, -places⟩ - m.value| ≤ |other.value - m.value| ∧
      (|Decimal.value ⟨digits, -places⟩ - m.value| = |other.value - m.value| →
        digits % 2 = 0 ∧ other.digits % 2 = 1) := by
  obtain ⟨c, q, rfl, hc, hplaces, hpos⟩ := exists_places hm hwhole hfound hread
  rw [Decimal.value_neg_natCast, Decimal.value_neg_natCast]
  rcases Nat.lt_or_eq_of_le hplaces with hmore | rfl
  · have hless := (farther_of_more_places hm hwhole hfound hc hpos hplaces).2 hlength hmore
    refine ⟨fun hvalue => ?_, hless.le, fun hequal => absurd hequal hless.ne⟩
    rw [hvalue] at hless
    exact lt_irrefl _ hless
  · have hT : (0 : ℚ) < 10 ^ places := by positivity
    have hscale (n : Nat) : |(n : ℚ) / 10 ^ places - m.value| = |n - m.value * 10 ^ places| / 10 ^ places := by
      rw [← abs_of_pos hT, ← abs_div, sub_div, abs_of_pos hT, mul_div_cancel_right₀ _ hT.ne']
    have hdigits : c ≠ digits := by
      rintro rfl
      exact hne rfl
    obtain ⟨hle, htie⟩ := digitsAt?_nearest hm (found_spec hm hwhole hfound).1 hc hdigits
    rw [hscale, hscale, div_le_div_iff_of_pos_right hT, div_left_inj' hT.ne', ne_eq, div_left_inj' hT.ne']
    exact ⟨fun hvalue => hdigits (by exact_mod_cast hvalue.symm), hle, htie⟩

/-- **A number that is not whole has one shortest decimal**, and it is the one with the least number of places. -/
theorem isShortest_iff {d : Decimal} : d.IsShortest m ↔ d = ⟨digits, -places⟩ := by
  have hread : Decimal.read ⟨digits, -places⟩ = m := by
    rw [Decimal.read_neg_natCast]
    exact ofDecimal_of_digitsAt? (found_spec hm hwhole hfound).1
  have hfewest {other : Decimal} (h : other.read = m) : Decimal.length ⟨digits, -places⟩ ≤ other.length := by
    obtain ⟨c, q, rfl, hc, hplaces, hpos⟩ := exists_places hm hwhole hfound h
    exact (farther_of_more_places hm hwhole hfound hc hpos hplaces).1
  constructor
  · intro h
    by_contra hne
    have hlength := Nat.le_antisymm (h.fewest _ hread) (hfewest h.read_eq)
    obtain ⟨hvalue, hle, htie⟩ := nearest_of_length_eq hm hwhole hfound h.read_eq hlength hne
    have hequal := (h.nearest _ hread hlength.symm).antisymm hle
    obtain ⟨-, hodd⟩ := htie hequal.symm
    rcases h.even _ hread hlength.symm hequal with hsame | heven
    · exact hvalue hsame
    · omega
  · rintro rfl
    refine ⟨hread, fun other h => hfewest h, fun other h hlength => ?_, fun other h hlength hequal => ?_⟩
    · by_cases hne : other = ⟨digits, -places⟩
      · rw [hne]
      · exact (nearest_of_length_eq hm hwhole hfound h hlength hne).2.1
    · by_cases hne : other = ⟨digits, -places⟩
      · exact .inl (by rw [hne])
      · exact .inr ((nearest_of_length_eq hm hwhole hfound h hlength hne).2.2 hequal).1

end

end Magnitude
end LambdaScript
