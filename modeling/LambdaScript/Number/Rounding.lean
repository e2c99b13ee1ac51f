/-!
Rounding a quotient of naturals to the nearest natural, a half going to the even neighbour. The result is within
half a unit of the quotient, and a quotient that is whole stays as it is.
-/

namespace LambdaScript

/-- The natural nearest to `n / d`, the even one of two equally near. -/
def halfEven (n d : Nat) : Nat :=
  let whole := n / d
  let rest := 2 * (n % d)
  if rest < d then whole
  else if d < rest then whole + 1
  else whole + whole % 2

theorem halfEven_mul (q : Nat) {d : Nat} (h : 0 < d) : halfEven (q * d) d = q := by
  simp [halfEven, h]

theorem halfEven_bounds (n d : Nat) : n / d ≤ halfEven n d ∧ halfEven n d ≤ n / d + 1 := by
  simp only [halfEven]
  split
  · omega
  · split <;> omega

theorem halfEven_near (n : Nat) {d : Nat} (h : 0 < d) :
    2 * n ≤ (2 * halfEven n d + 1) * d ∧ 2 * halfEven n d * d ≤ 2 * n + d := by
  have split_n := Nat.div_add_mod n d
  have rest_lt := Nat.mod_lt n h
  have below : (2 * (n / d) + 1) * d = 2 * (d * (n / d)) + d := by
    rw [Nat.add_mul, Nat.one_mul, Nat.mul_assoc, Nat.mul_comm (n / d) d]
  have below' : 2 * (n / d) * d = 2 * (d * (n / d)) := by
    rw [Nat.mul_assoc, Nat.mul_comm (n / d) d]
  have above : (2 * (n / d + 1) + 1) * d = 2 * (d * (n / d)) + 3 * d := by
    rw [Nat.mul_add, Nat.add_assoc, Nat.add_mul, below']
  have above' : 2 * (n / d + 1) * d = 2 * (d * (n / d)) + 2 * d := by
    rw [Nat.mul_add, Nat.add_mul, below']
  simp only [halfEven]
  split
  · rw [below, below']
    omega
  · split
    · rw [above, above']
      omega
    · rcases Nat.mod_two_eq_zero_or_one (n / d) with even | odd
      · simp only [even, Nat.add_zero]
        rw [below, below']
        omega
      · rw [odd, above, above']
        omega

end LambdaScript
