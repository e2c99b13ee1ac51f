import LambdaScript.Proofs.Number.Value

/-!
Remainders. The remainder of one finite number by another is a multiple of the step of both, and it is below the divisor
and no greater than the dividend. So it has no more bits before its trailing zeros than one of them, and rounding leaves
it as it is: the remainder is exact.
-/

namespace LambdaScript

-- powers are the built-in ones, whatever other powers of naturals are in scope
attribute [local instance(high)] instPowNat

namespace Magnitude

attribute [local irreducible] unitsPerOne

variable {m n : Magnitude}

/-- A magnitude has at most 53 bits before its trailing zeros. -/
theorem exists_bits (m : Magnitude) : ∃ c e, c < 2 ^ (53 : Nat) ∧ m.units = c * 2 ^ e := by
  have hfraction : m.place % 2 ^ (52 : Nat) < 2 ^ (52 : Nat) := Nat.mod_lt _ (Nat.two_pow_pos 52)
  by_cases hscale : m.place / 2 ^ (52 : Nat) = 0
  · refine ⟨m.place % 2 ^ (52 : Nat), 0, by omega, ?_⟩
    rw [units, if_pos hscale, Nat.pow_zero, Nat.mul_one]
  · refine ⟨2 ^ (52 : Nat) + m.place % 2 ^ (52 : Nat), m.place / 2 ^ (52 : Nat) - 1, by omega, ?_⟩
    rw [units, if_neg hscale]

theorem units_ne_zero (hn : n.isFinite = true) (hplace : n.place ≠ 0) : n.units ≠ 0 := by
  intro hunits
  have hvalue : n.value = 0 := by rw [value, hunits, Nat.cast_zero, zero_div]
  apply hplace
  rw [(value_eq_zero_iff hn).mp hvalue]
  rfl

/-- A remainder has no more bits before its trailing zeros than the dividend or the divisor. -/
theorem exists_bits_mod {b c d e k : Nat} (hc : c < b) (hd : d < b) (hpos : 0 < d) :
    ∃ r j, r < b ∧ c * 2 ^ e % (d * 2 ^ k) = r * 2 ^ j := by
  -- the coarser of the two steps is a multiple of the finer one
  rcases Nat.le_total k e with hle | hle
  · obtain ⟨more, rfl⟩ := Nat.exists_eq_add_of_le hle
    refine ⟨c * 2 ^ more % d, k, Nat.lt_trans (Nat.mod_lt _ hpos) hd, ?_⟩
    rw [mul_two_pow_add, Nat.mul_mod_mul_right]
  · obtain ⟨more, rfl⟩ := Nat.exists_eq_add_of_le hle
    refine ⟨c % (d * 2 ^ more), e, Nat.lt_of_le_of_lt (Nat.mod_le _ _) hc, ?_⟩
    rw [mul_two_pow_add d, Nat.mul_mod_mul_right]

/-- **The remainder of magnitudes is a magnitude.** -/
theorem units_ofRatio_mod (hm : m.isFinite = true) (hn : n.units ≠ 0) :
    (ofRatio (m.units % n.units) 1).isFinite = true ∧ (ofRatio (m.units % n.units) 1).units = m.units % n.units := by
  have hfinite : (ofRatio (m.units % n.units) 1).isFinite = true := by
    have hplace : (ofRatio (m.units % n.units) 1).place ≤ (ofRatio (m.units * 1) 1).place :=
      place_ofRatio_mono Nat.one_pos Nat.one_pos (by rw [Nat.mul_one, Nat.mul_one, Nat.mul_one]; exact Nat.mod_le _ _)
    rw [ofRatio_units hm Nat.one_pos] at hplace
    exact decide_eq_true (Nat.lt_of_le_of_lt hplace (of_decide_eq_true hm))
  obtain ⟨c, e, hc, hcunits⟩ := m.exists_bits
  obtain ⟨d, k, hd, hdunits⟩ := n.exists_bits
  have hpos : 0 < d := by
    apply Nat.pos_of_ne_zero
    rintro rfl
    rw [Nat.zero_mul] at hdunits
    exact hn hdunits
  obtain ⟨r, j, hr, hmod⟩ := exists_bits_mod (e := e) (k := k) hc hd hpos
  rw [← hcunits, ← hdunits] at hmod
  rw [hmod] at hfinite ⊢
  exact ⟨hfinite, units_ofRatio_of_bits hr hfinite⟩

/-- What is left of a magnitude after another one is taken off as often as it goes. -/
theorem value_ofRatio_mod (hm : m.isFinite = true) (hn : n.units ≠ 0) :
    (ofRatio (m.units % n.units) 1).value + (m.units / n.units : Nat) * n.value = m.value ∧
      (ofRatio (m.units % n.units) 1).value < n.value := by
  have hpos : (0 : ℚ) < unitsPerOne := by exact_mod_cast unitsPerOne_pos
  have hunits := (units_ofRatio_mod hm hn).2
  constructor
  · have hsplit : m.units % n.units + m.units / n.units * n.units = m.units := by
      rw [Nat.mul_comm]
      exact Nat.mod_add_div _ _
    rw [value, value, value, hunits, mul_div_assoc', ← add_div]
    congr 1
    exact_mod_cast hsplit
  · rw [value, value, hunits, div_lt_div_iff_of_pos_right hpos]
    exact_mod_cast Nat.mod_lt _ (Nat.pos_of_ne_zero hn)

end Magnitude

namespace Binary64

variable {x y : Binary64}

theorem isInfinite_of_isFinite (hx : x.isFinite = true) : x.isInfinite = false := by
  cases x with
  | nan => rfl
  | signed s m =>
      have hm : m.isFinite = true := hx
      rw [isInfinite, hm, Bool.not_true]

theorem place_ne_zero {t : Bool} {n : Magnitude} (hzero : (signed t n).isZero = false) : n.place ≠ 0 := by
  simpa [isZero] using hzero

/-- Every divisor but zero has a quotient. -/
theorem exists_div? (x : Binary64) (hzero : y.isZero = false) : ∃ z, x.div? y = some z := by
  cases x with
  | nan => exact ⟨.nan, by simp [div?, hzero]⟩
  | signed s m =>
      cases y with
      | nan => exact ⟨.nan, rfl⟩
      | signed t n =>
          rw [div?, if_neg (place_ne_zero hzero)]
          split_ifs <;> exact ⟨_, rfl⟩

/-- A dividend that is not infinite and a divisor other than zero have a remainder. -/
theorem exists_remainder? (hx : x.isInfinite = false) (hzero : y.isZero = false) : ∃ z, x.remainder? y = some z := by
  cases x with
  | nan => exact ⟨.nan, rfl⟩
  | signed s m =>
      cases y with
      | nan => exact ⟨.nan, rfl⟩
      | signed t n =>
          have hm : (!m.isFinite) = false := hx
          have hnone : ¬(!m.isFinite || n.place = 0) = true := by simp [hm, place_ne_zero hzero]
          rw [remainder?, if_neg hnone]
          split_ifs <;> exact ⟨_, rfl⟩

/-- An infinite divisor leaves a finite dividend. -/
theorem remainder?_of_isInfinite (hx : x.isFinite = true) (hy : y.isInfinite = true) : x.remainder? y = some x := by
  cases x with
  | nan => cases hx
  | signed s m =>
      cases y with
      | nan => cases hy
      | signed t n =>
          have hm : m.isFinite = true := hx
          have hn : (!n.isFinite) = true := hy
          have hplace : n.place ≠ 0 := by
            intro hplace
            rw [Magnitude.isFinite, hplace] at hn
            cases hn
          simp [remainder?, hm, hn, hplace]

/-- The remainder of finite numbers: it has the sign of the dividend or is zero, it is smaller than the divisor, and it
is what is left of the dividend after a whole number of divisors. -/
structure IsRemainder (x y r : Binary64) : Prop where
  isFinite : r.isFinite = true
  sign : r.value = 0 ∨ 0 < r.value * x.value
  less : |r.value| < |y.value|
  multiple : ∃ k : ℤ, x.value - r.value = k * y.value

/-- There is one remainder. -/
theorem IsRemainder.value_eq {x y r r' : Binary64} (h : IsRemainder x y r) (h' : IsRemainder x y r') :
    r.value = r'.value := by
  have hnear : |r.value - r'.value| < |y.value| := by
    have hsign {z : Binary64} (hz : IsRemainder x y z) :
        (0 ≤ x.value → 0 ≤ z.value ∧ z.value < |y.value|) ∧ (x.value ≤ 0 → 0 ≤ -z.value ∧ -z.value < |y.value|) := by
      have hbounds := abs_lt.mp hz.less
      rcases hz.sign with hnone | hsame
      · constructor <;> intro _ <;> constructor <;> linarith
      · constructor <;> intro hx <;> constructor <;> nlinarith
    rcases le_total 0 x.value with hx | hx
    · obtain ⟨hr, hless⟩ := (hsign h).1 hx
      obtain ⟨hr', hless'⟩ := (hsign h').1 hx
      exact abs_sub_lt_of_nonneg_of_lt hr hless hr' hless'
    · obtain ⟨hr, hless⟩ := (hsign h).2 hx
      obtain ⟨hr', hless'⟩ := (hsign h').2 hx
      have hless := abs_sub_lt_of_nonneg_of_lt hr' hless' hr hless
      rwa [neg_sub_neg] at hless
  obtain ⟨k, hk⟩ := h.multiple
  obtain ⟨k', hk'⟩ := h'.multiple
  have hdiff : r.value - r'.value = (k' - k : ℤ) * y.value := by
    push_cast
    linarith
  have hk : k' - k = 0 := by
    by_contra hne
    have hone : (1 : ℚ) ≤ |((k' - k : ℤ) : ℚ)| := by exact_mod_cast Int.one_le_abs hne
    rw [hdiff, abs_mul] at hnear
    nlinarith [abs_nonneg y.value]
  rw [hk, Int.cast_zero, zero_mul] at hdiff
  exact sub_eq_zero.mp hdiff

theorem abs_value (negative : Bool) (m : Magnitude) : |(signed negative m).value| = m.value := by
  cases negative with
  | false => exact abs_of_nonneg m.value_nonneg
  | true => exact (abs_neg m.value).trans (abs_of_nonneg m.value_nonneg)

theorem remainder?_signed {s t : Bool} {m n : Magnitude} (hm : m.isFinite = true) (hn : n.isFinite = true)
    (hplace : n.place ≠ 0) :
    (signed s m).remainder? (signed t n) = some (.signed s (.ofRatio (m.units % n.units) 1)) := by
  simp [remainder?, hm, hn, hplace]

/-- **The remainder is exact**, and it has the sign of the dividend. -/
theorem exists_isRemainder (hx : x.isFinite = true) (hy : y.isFinite = true) (hzero : y.isZero = false) :
    ∃ r, x.remainder? y = some r ∧ IsRemainder x y r := by
  cases x with
  | nan => cases hx
  | signed s m =>
      cases y with
      | nan => cases hy
      | signed t n =>
          have hplace : n.place ≠ 0 := place_ne_zero hzero
          have hn := Magnitude.units_ne_zero hy hplace
          obtain ⟨hfinite, -⟩ := Magnitude.units_ofRatio_mod hx hn
          obtain ⟨hsplit, hless⟩ := Magnitude.value_ofRatio_mod hx hn
          refine ⟨_, remainder?_signed hx hy hplace, ?_⟩
          generalize Magnitude.ofRatio (m.units % n.units) 1 = r at hfinite hsplit hless
          generalize m.units / n.units = q at hsplit
          have hmultiple : 0 ≤ (q : ℚ) * n.value := mul_nonneg (Nat.cast_nonneg q) n.value_nonneg
          refine ⟨hfinite, ?_, ?_, ?_⟩
          · rcases r.value_nonneg.eq_or_lt with hnone | hpos
            · left
              simp [value, ← hnone]
            · right
              have hdividend : 0 < m.value := by linarith
              cases s with
              | false => exact mul_pos hpos hdividend
              | true => exact mul_pos_of_neg_of_neg (neg_neg_of_pos hpos) (neg_neg_of_pos hdividend)
          · rw [abs_value, abs_value]
            exact hless
          · refine ⟨if s = t then q else -q, ?_⟩
            cases s <;> cases t <;> simp [value] <;> linarith

end Binary64

end LambdaScript
