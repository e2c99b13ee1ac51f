import LambdaScript.Number.Binary64

/-!
Where numbers end. The greatest finite magnitude is `(2 ^ 53 - 1) * 2 ^ 971`, and half a step above it, at
`2 ^ 1024 - 2 ^ 970`, rounding goes up to infinity, for that is the even neighbour. A decimal literal is out of range
exactly from there on.
-/

namespace LambdaScript

-- powers are the built-in ones, whatever other powers of naturals are in scope
attribute [local instance(high)] instPowNat

/-- An even natural is reached from half a step below it on. -/
theorem le_halfEven_iff_of_even {n d m : Nat} (hd : 0 < d) (hm : m % 2 = 0) :
    m ≤ halfEven n d ↔ 2 * m * d ≤ 2 * n + d := by
  constructor
  · intro hle
    calc 2 * m * d ≤ 2 * halfEven n d * d := Nat.mul_le_mul_right d (Nat.mul_le_mul_left 2 hle)
      _ ≤ 2 * n + d := (halfEven_near n hd).2
  · intro hle
    have hsplit := Nat.div_add_mod n d
    have hrest := Nat.mod_lt n hd
    have hwhole := (halfEven_bounds n d).1
    by_cases hbelow : m ≤ n / d
    · exact Nat.le_trans hbelow hwhole
    · -- the quotient is less than the even number by one, and by no more than half a step
      have hnext : m = n / d + 1 := by
        have hmul : 2 * m * d < 2 * (n / d + 2) * d := by
          have hexpand : 2 * (n / d + 2) * d = 2 * (d * (n / d)) + 4 * d := by
            rw [Nat.mul_assoc, Nat.add_mul, Nat.mul_comm (n / d), Nat.mul_add]
            omega
          omega
        have hlt := Nat.lt_of_mul_lt_mul_right hmul
        omega
      have hexpand : 2 * m * d = 2 * (d * (n / d)) + 2 * d := by
        rw [hnext, Nat.mul_assoc, Nat.add_mul, Nat.mul_comm (n / d), Nat.mul_add, Nat.one_mul]
      have hhalf : d ≤ 2 * (n % d) := by omega
      simp only [halfEven]
      split
      · omega
      · split
        · omega
        · omega

namespace Magnitude

/-- Half a step above the greatest finite magnitude. -/
def overflow : Nat := (2 ^ (54 : Nat) - 1) * 2 ^ (970 : Nat)

/-- Scaled down by its doublings a quotient has at most 53 bits, and all of them if there are any doublings. -/
theorem halfEven_doublings {n d doublings : Nat} (hd : doublings = (n / d).log2 - 52) :
    halfEven n (d * 2 ^ doublings) ≤ 2 ^ (53 : Nat) ∧
      (0 < doublings → 2 ^ (52 : Nat) ≤ halfEven n (d * 2 ^ doublings)) := by
  obtain ⟨hlow, hhigh⟩ := halfEven_bounds n (d * 2 ^ doublings)
  rw [← Nat.div_div_eq_div_mul] at hlow hhigh
  constructor
  · have hbits : n / d < 2 ^ (53 : Nat) * 2 ^ doublings := by
      rw [← Nat.pow_add]
      exact Nat.lt_of_lt_of_le Nat.lt_log2_self (Nat.pow_le_pow_right (by decide) (by omega))
    have hquotient := (Nat.div_lt_iff_lt_mul (Nat.two_pow_pos doublings)).mpr hbits
    omega
  · intro hpos
    have hne : n / d ≠ 0 := by
      intro hzero
      rw [hzero, Nat.log2_zero] at hd
      omega
    have hbits : 2 ^ (52 : Nat) * 2 ^ doublings ≤ n / d := by
      rw [← Nat.pow_add]
      exact Nat.le_trans (Nat.pow_le_pow_right (by decide) (by omega)) (Nat.log2_self_le hne)
    exact Nat.le_trans ((Nat.le_div_iff_mul_le (Nat.two_pow_pos doublings)).mpr hbits) hlow

theorem two_pow_add_mul (m j d : Nat) : 2 ^ (m + j) * d = 2 ^ j * (2 ^ m * d) := by
  rw [Nat.pow_add, Nat.mul_comm (2 ^ m), Nat.mul_assoc]

/-- The place of a quotient of units is below one where a run of places ends if the quotient is less than half a step
above the last magnitude of that run. -/
theorem place_lt_iff (top : Nat) {n d doublings : Nat} (hd : 0 < d) (hdoublings : doublings = (n / d).log2 - 52) :
    doublings * 2 ^ (52 : Nat) + halfEven n (d * 2 ^ doublings) < (top + 3) * 2 ^ (52 : Nat) ↔
      n < (2 ^ (54 : Nat) - 1) * (2 ^ top * d) := by
  obtain ⟨hhigh, hlow⟩ := halfEven_doublings hdoublings
  rcases Nat.lt_trichotomy doublings (top + 1) with hless | rfl | hmore
  · have hbits : n / d < 2 ^ (top + 53) :=
      Nat.lt_of_lt_of_le Nat.lt_log2_self (Nat.pow_le_pow_right (by decide) (by omega))
    have hn := (Nat.div_lt_iff_lt_mul hd).mp hbits
    rw [two_pow_add_mul] at hn
    generalize 2 ^ top * d = step at hn
    omega
  · have hreach := le_halfEven_iff_of_even (n := n) (m := 2 ^ (53 : Nat))
      (Nat.mul_pos hd (Nat.two_pow_pos (top + 1))) (by decide)
    have hstep : d * 2 ^ (top + 1) = 2 * (2 ^ top * d) := by
      rw [Nat.mul_comm, two_pow_add_mul, Nat.pow_one]
    rw [hstep] at hreach hhigh ⊢
    generalize 2 ^ top * d = step at hreach hhigh ⊢
    generalize halfEven n (2 * step) = rounded at hreach hhigh ⊢
    omega
  · have hne : n / d ≠ 0 := by
      intro hzero
      rw [hzero, Nat.log2_zero] at hdoublings
      omega
    have hbits : 2 ^ (top + 54) ≤ n / d :=
      Nat.le_trans (Nat.pow_le_pow_right (by decide) (by omega)) (Nat.log2_self_le hne)
    have hn := (Nat.le_div_iff_mul_le hd).mp hbits
    rw [two_pow_add_mul] at hn
    have hfull := hlow (by omega)
    generalize 2 ^ top * d = step at hn
    omega

/-- A quotient of units is finite if it is less than half a step above the greatest finite magnitude. -/
theorem ofRatio_isFinite_iff {n d : Nat} (hd : 0 < d) :
    (ofRatio n d).isFinite = true ↔ n < (2 ^ (54 : Nat) - 1) * (2 ^ (970 + 1074 : Nat) * d) := by
  rw [← place_lt_iff (970 + 1074) hd rfl, isFinite, decide_eq_true_iff, ofRatio]
  show min infinityPlace _ < infinityPlace ↔ _
  rw [infinityPlace]
  omega

/-- **A decimal is out of range exactly from the overflow on.** -/
theorem ofDecimal_isFinite_iff {digits places : Nat} :
    (ofDecimal digits places).isFinite = true ↔ digits < overflow * 10 ^ places := by
  have hscale (m j t : Nat) : digits * 2 ^ j < (2 ^ (54 : Nat) - 1) * (2 ^ (m + j) * t) ↔
      digits < (2 ^ (54 : Nat) - 1) * 2 ^ m * t := by
    rw [two_pow_add_mul, Nat.mul_comm (2 ^ j), ← Nat.mul_assoc, ← Nat.mul_assoc,
      Nat.mul_lt_mul_right (Nat.two_pow_pos j)]
  rw [ofDecimal, ofRatio_isFinite_iff (Nat.pow_pos (by decide)), unitsPerOne, overflow]
  apply hscale

end Magnitude

end LambdaScript
