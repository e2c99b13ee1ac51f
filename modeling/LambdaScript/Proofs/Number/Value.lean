import LambdaScript.Number.Arithmetic
import LambdaScript.Proofs.Number.Overflow
import LambdaScript.Proofs.Number.ReadBack
import Mathlib.Algebra.Order.Field.Rat
import Mathlib.Data.Nat.Log
import Mathlib.Tactic.FieldSimp
import Mathlib.Tactic.Linarith
import Mathlib.Tactic.Positivity
import Mathlib.Tactic.Ring

/-!
The exact values of numbers. A finite magnitude is a whole number of units, and rounding to magnitudes is monotone:
what lies between two rationals that round to one magnitude rounds to it too. A whole number of units with few enough
bits in front of its trailing zeros is a magnitude itself, so rounding leaves it as it is.
-/

namespace LambdaScript

-- powers are the built-in ones, whatever other powers of naturals are in scope
attribute [local instance(high)] instPowNat

/-- Whole parts keep the order of quotients. -/
theorem div_le_div_of_cross {n d n' d' : Nat} (hd : 0 < d) (hd' : 0 < d') (h : n * d' ≤ n' * d) : n / d ≤ n' / d' := by
  rw [Nat.le_div_iff_mul_le hd']
  have hfloor := Nat.div_mul_le_self n d
  nlinarith

/-- Rounding keeps the order of quotients. -/
theorem halfEven_mono {n d n' d' : Nat} (hd : 0 < d) (hd' : 0 < d') (h : n * d' ≤ n' * d) :
    halfEven n d ≤ halfEven n' d' := by
  rcases Nat.lt_or_eq_of_le (div_le_div_of_cross hd hd' h) with hless | hsame
  · have hup := (halfEven_bounds n d).2
    have hdown := (halfEven_bounds n' d').1
    omega
  · have hsplit := Nat.div_add_mod n d
    have hsplit' := Nat.div_add_mod n' d'
    have hrest : n % d * d' ≤ n' % d' * d := by
      rw [← hsame] at hsplit'
      nlinarith
    simp only [halfEven, hsame]
    have hdouble : 2 * (n' % d') < d' → 2 * (n % d) < d := fun hlow => by nlinarith
    have hdouble' : d < 2 * (n % d) → d' < 2 * (n' % d') := fun hhigh => by nlinarith
    split_ifs <;> omega

namespace Magnitude

attribute [local irreducible] unitsPerOne

/-- The units at a place that is given by a number of at most 53 bits behind some runs of places. -/
theorem units_mk {doublings q : Nat} (hq : q ≤ 2 ^ (53 : Nat)) (hfull : 0 < doublings → 2 ^ (52 : Nat) ≤ q)
    (h : doublings * 2 ^ (52 : Nat) + q ≤ 2047 * 2 ^ (52 : Nat)) :
    units ⟨doublings * 2 ^ (52 : Nat) + q, h⟩ = q * 2 ^ doublings := by
  have hunits (scale fraction : Nat) (hfraction : fraction < 2 ^ (52 : Nat))
      (hplace : doublings * 2 ^ (52 : Nat) + q = scale * 2 ^ (52 : Nat) + fraction) :
      units ⟨doublings * 2 ^ (52 : Nat) + q, h⟩ =
        if scale = 0 then fraction else (2 ^ (52 : Nat) + fraction) * 2 ^ (scale - 1) := by
    have hscale : (doublings * 2 ^ (52 : Nat) + q) / 2 ^ (52 : Nat) = scale := by omega
    have hrest : (doublings * 2 ^ (52 : Nat) + q) % 2 ^ (52 : Nat) = fraction := by omega
    simp only [units, hscale, hrest]
  by_cases hsmall : q < 2 ^ (52 : Nat)
  · obtain rfl : doublings = 0 := by omega
    rw [hunits 0 q hsmall rfl, if_pos rfl, Nat.pow_zero, Nat.mul_one]
  · by_cases hbelow : q < 2 ^ (53 : Nat)
    · rw [hunits (doublings + 1) (q - 2 ^ (52 : Nat)) (by omega) (by omega), if_neg (Nat.succ_ne_zero _),
        Nat.add_sub_cancel, Nat.add_sub_cancel' (Nat.le_of_not_lt hsmall)]
    · obtain rfl : q = 2 ^ (53 : Nat) := by omega
      rw [hunits (doublings + 2) 0 (by omega) (by omega), if_neg (Nat.succ_ne_zero _)]
      show 2 ^ (52 : Nat) * 2 ^ (doublings + 1) = _
      rw [Nat.pow_succ]
      omega

/-- **What a quotient is rounded to**, in units: with its doublings taken out it is rounded to a natural. -/
theorem units_ofRatio {n d : Nat} (hfinite : (ofRatio n d).isFinite = true) :
    (ofRatio n d).units = halfEven n (d * 2 ^ ((n / d).log2 - 52)) * 2 ^ ((n / d).log2 - 52) := by
  obtain ⟨hhigh, hlow⟩ := halfEven_doublings (n := n) (d := d) rfl
  generalize hdoublings : (n / d).log2 - 52 = doublings at hhigh hlow
  have hfinite := of_decide_eq_true hfinite
  simp only [ofRatio, hdoublings, infinityPlace] at hfinite ⊢
  have hplace : doublings * 2 ^ (52 : Nat) + halfEven n (d * 2 ^ doublings) ≤ 2047 * 2 ^ (52 : Nat) := by omega
  simp only [Nat.min_eq_right hplace]
  exact units_mk hhigh hlow hplace

/-- A quotient differs from the units it is rounded to by no more than half a step. -/
theorem units_ofRatio_near {n d : Nat} (hd : 0 < d) (hfinite : (ofRatio n d).isFinite = true) :
    2 * n ≤ 2 * ((ofRatio n d).units * d) + d * 2 ^ ((n / d).log2 - 52) ∧
      2 * ((ofRatio n d).units * d) ≤ 2 * n + d * 2 ^ ((n / d).log2 - 52) := by
  have hstep : 0 < d * 2 ^ ((n / d).log2 - 52) := Nat.mul_pos hd (Nat.two_pow_pos _)
  have hnear := halfEven_near n hstep
  rw [units_ofRatio hfinite]
  generalize (n / d).log2 - 52 = doublings at hnear
  constructor <;> nlinarith [hnear.1, hnear.2]

/-- Rounding to magnitudes keeps the order of quotients. -/
theorem place_ofRatio_mono {n d n' d' : Nat} (hd : 0 < d) (hd' : 0 < d') (h : n * d' ≤ n' * d) :
    (ofRatio n d).place ≤ (ofRatio n' d').place := by
  have hlog : (n / d).log2 ≤ (n' / d').log2 := by
    rw [Nat.log2_eq_log_two, Nat.log2_eq_log_two]
    exact Nat.log_mono_right (div_le_div_of_cross hd hd' h)
  obtain ⟨hhigh, -⟩ := halfEven_doublings (n := n) (d := d) rfl
  obtain ⟨-, hlow⟩ := halfEven_doublings (n := n') (d := d') rfl
  apply min_le_min_left
  generalize hdoublings : (n / d).log2 - 52 = doublings at *
  generalize hdoublings' : (n' / d').log2 - 52 = doublings' at *
  rcases Nat.lt_or_eq_of_le (show doublings ≤ doublings' by omega) with hless | rfl
  · have hfull := hlow (by omega)
    omega
  · have hcross : n * (d' * 2 ^ doublings) ≤ n' * (d * 2 ^ doublings) := by nlinarith [Nat.two_pow_pos doublings]
    have hrounded := halfEven_mono (Nat.mul_pos hd (Nat.two_pow_pos doublings))
      (Nat.mul_pos hd' (Nat.two_pow_pos doublings)) hcross
    omega

/-- Some of the doublings of a natural are done first. -/
theorem mul_two_pow_add (c k more : Nat) : c * 2 ^ (k + more) = c * 2 ^ more * 2 ^ k := by
  rw [Nat.pow_add, Nat.mul_comm (2 ^ k), Nat.mul_assoc]

/-- **A whole number of units that has few enough bits before its trailing zeros is a magnitude.** -/
theorem units_ofRatio_of_bits {c e : Nat} (hc : c < 2 ^ (53 : Nat))
    (hfinite : (ofRatio (c * 2 ^ e) 1).isFinite = true) :
    (ofRatio (c * 2 ^ e) 1).units = c * 2 ^ e := by
  rw [units_ofRatio hfinite, Nat.div_one]
  have hdoublings : (c * 2 ^ e).log2 - 52 ≤ e := by
    by_cases hzero : c * 2 ^ e = 0
    · rw [hzero]
      exact Nat.zero_le e
    · have hbits : c * 2 ^ e < 2 ^ (53 + e) := by
        rw [Nat.pow_add]
        exact Nat.mul_lt_mul_of_pos_right hc (Nat.two_pow_pos e)
      have := (Nat.log2_lt hzero).mpr hbits
      omega
  generalize (c * 2 ^ e).log2 - 52 = doublings at hdoublings
  obtain ⟨rest, rfl⟩ := Nat.exists_eq_add_of_le hdoublings
  rw [Nat.one_mul, mul_two_pow_add, halfEven_mul _ (Nat.two_pow_pos doublings)]

/-! ### Values as rationals -/

theorem unitsPerOne_pos : 0 < unitsPerOne := by
  have hpos (e : Nat) : 0 < 2 ^ e := Nat.two_pow_pos e
  rw [unitsPerOne]
  exact hpos 1074

/-- The exact value of a finite magnitude. -/
def value (m : Magnitude) : ℚ := m.units / unitsPerOne

theorem value_nonneg (m : Magnitude) : 0 ≤ m.value := by
  unfold value
  positivity

theorem value_mul_unitsPerOne (m : Magnitude) : m.value * unitsPerOne = m.units := by
  have hpos : (0 : ℚ) < unitsPerOne := by exact_mod_cast unitsPerOne_pos
  rw [value, div_mul_cancel₀ _ hpos.ne']

/-- Finite magnitudes are told apart by their values. -/
theorem value_injective {m n : Magnitude} (hm : m.isFinite = true) (hn : n.isFinite = true) (h : m.value = n.value) :
    m = n := by
  have hunits : m.units = n.units := by
    have hscaled : (m.units : ℚ) = n.units := by rw [← value_mul_unitsPerOne, h, value_mul_unitsPerOne]
    exact_mod_cast hscaled
  rw [← ofRatio_units hm Nat.one_pos, hunits, ofRatio_units hn Nat.one_pos]

theorem value_eq_zero_iff {m : Magnitude} (hm : m.isFinite = true) : m.value = 0 ↔ m = zero := by
  have hzero : zero.value = 0 := by simp [value, units, zero]
  constructor
  · intro h
    exact value_injective hm (by decide) (h.trans hzero.symm)
  · rintro rfl
    exact hzero

/-- A rational is rounded to a magnitude. -/
def RoundsTo (x : ℚ) (m : Magnitude) : Prop :=
  ∃ n d : Nat, 0 < d ∧ x * unitsPerOne = n / d ∧ ofRatio n d = m

/-- A finite magnitude is what its value is rounded to. -/
theorem roundsTo_value {m : Magnitude} (hm : m.isFinite = true) : RoundsTo m.value m := by
  refine ⟨m.units, 1, Nat.one_pos, ?_, ?_⟩
  · rw [value_mul_unitsPerOne, Nat.cast_one, div_one]
  · simpa only [Nat.mul_one] using ofRatio_units hm Nat.one_pos

/-- A decimal is read as the magnitude it is rounded to. -/
theorem roundsTo_ofDecimal (digits places : Nat) :
    RoundsTo (digits / 10 ^ places) (ofDecimal digits places) := by
  refine ⟨digits * unitsPerOne, 10 ^ places, Nat.pow_pos (by decide), ?_, rfl⟩
  push_cast
  ring

/-- **Rounding is monotone**: what lies between two rationals that are rounded to one magnitude is rounded to it. -/
theorem RoundsTo.between {x y z : ℚ} {m : Magnitude} {n d : Nat} (hx : RoundsTo x m) (hz : RoundsTo z m)
    (hxy : x ≤ y) (hyz : y ≤ z) (hd : 0 < d) (hy : y * unitsPerOne = n / d) : ofRatio n d = m := by
  obtain ⟨a, b, hb, hxab, hlow⟩ := hx
  obtain ⟨e, f, hf, hzef, hhigh⟩ := hz
  have hpos : (0 : ℚ) ≤ unitsPerOne := Nat.cast_nonneg _
  have hcross {i j k l : Nat} {u v : ℚ} (hj : 0 < j) (hl : 0 < l) (hu : u * unitsPerOne = i / j)
      (hv : v * unitsPerOne = k / l) (huv : u ≤ v) : i * l ≤ k * j := by
    have hquotients := mul_le_mul_of_nonneg_right huv hpos
    rw [hu, hv, div_le_div_iff₀ (by exact_mod_cast hj) (by exact_mod_cast hl)] at hquotients
    exact_mod_cast hquotients
  have hbelow := place_ofRatio_mono hb hd (hcross hb hd hxab hy hxy)
  have habove := place_ofRatio_mono hd hf (hcross hd hf hy hzef hyz)
  rw [hlow] at hbelow
  rw [hhigh] at habove
  have hplace : (ofRatio n d).place = m.place := Nat.le_antisymm habove hbelow
  cases hround : ofRatio n d with
  | mk place place_le =>
      cases m with
      | mk other other_le =>
          rw [hround] at hplace
          cases hplace
          rfl

/-- A decimal between two rationals that are rounded to one magnitude is read as it. -/
theorem RoundsTo.ofDecimal_eq {x z : ℚ} {m : Magnitude} {digits places : Nat} (hx : RoundsTo x m) (hz : RoundsTo z m)
    (hlow : x ≤ digits / 10 ^ places) (hhigh : (digits : ℚ) / 10 ^ places ≤ z) : ofDecimal digits places = m := by
  apply hx.between hz hlow hhigh (Nat.pow_pos (by decide))
  push_cast
  ring

end Magnitude

/-- The exact value of a finite number. -/
def Binary64.value : Binary64 → ℚ
  | .nan => 0
  | .signed negative m => if negative then -m.value else m.value

end LambdaScript
