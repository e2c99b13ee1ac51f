import LambdaScript.Token.Scan

/-!
The written form of a finite magnitude reads back to it. A magnitude is a whole number of units, so a decimal
that is exactly its value rounds to it; the shortest decimal is one that reads back by its choice, and the one
with 1074 places, taken if there is no shorter, is exact. The digits of the written form have the value of the
decimal that was written.
-/

namespace LambdaScript

-- powers are the built-in ones, whatever other powers of naturals are in scope
attribute [local instance(high)] instPowNat

/-! ### Rounding what is exact -/

namespace Magnitude

-- `2 ^ 1074` and the search over 1073 places are never to be evaluated.
attribute [local irreducible] unitsPerOne shortestDecimal

/-- A magnitude behind the first run of places has its leading bit just above the fraction. -/
theorem log2_units {scale fraction : Nat} (hfraction : fraction < 2 ^ (52 : Nat)) :
    ((2 ^ (52 : Nat) + fraction) * 2 ^ scale).log2 = 52 + scale := by
  have hpos : 0 < 2 ^ scale := Nat.two_pow_pos scale
  have hlow : 2 ^ 52 * 2 ^ scale ≤ (2 ^ 52 + fraction) * 2 ^ scale := Nat.mul_le_mul_right _ (by omega)
  have hhigh : (2 ^ 52 + fraction) * 2 ^ scale < 2 ^ 53 * 2 ^ scale := Nat.mul_lt_mul_of_pos_right (by omega) hpos
  rw [← Nat.pow_add] at hlow hhigh
  rw [Nat.log2_eq_iff (Nat.mul_ne_zero (by omega) (Nat.ne_of_gt hpos)), Nat.add_right_comm]
  exact ⟨hlow, hhigh⟩

/-- **An exact quotient rounds to its value**: the magnitude nearest to a finite magnitude is that one. -/
theorem ofRatio_units {m : Magnitude} (hm : m.isFinite = true) {d : Nat} (hd : 0 < d) :
    ofRatio (m.units * d) d = m := by
  obtain ⟨place, hplace⟩ := m
  simp only [isFinite, infinityPlace] at hm
  have hbelow : place < 2047 * 2 ^ 52 := of_decide_eq_true hm
  have hfraction : place % 2 ^ 52 < 2 ^ 52 := Nat.mod_lt _ (by decide)
  have hsplit : place / 2 ^ 52 * 2 ^ 52 + place % 2 ^ 52 = place := Nat.div_add_mod' place (2 ^ 52)
  simp only [ofRatio, Nat.mul_div_cancel _ hd, mk.injEq, infinityPlace]
  generalize hs : place / 2 ^ 52 = scale at hsplit
  generalize hf : place % 2 ^ 52 = fraction at hsplit hfraction
  cases scale with
  | zero =>
      have hunits : units ⟨place, hplace⟩ = fraction := by simp only [units, hs, hf, if_pos]
      have hlog : fraction.log2 - 52 = 0 := by
        by_cases hzero : fraction = 0
        · rw [hzero]; rfl
        · have := (Nat.log2_lt hzero).mpr hfraction
          omega
      rw [hunits, hlog, Nat.pow_zero, Nat.mul_one, halfEven_mul _ hd]
      omega
  | succ scale =>
      have hunits : units ⟨place, hplace⟩ = (2 ^ 52 + fraction) * 2 ^ scale := by
        simp only [units, hs, hf, Nat.add_one_ne_zero, if_false, Nat.add_sub_cancel]
      have hscaled : (2 ^ 52 + fraction) * 2 ^ scale * d = (2 ^ 52 + fraction) * (d * 2 ^ scale) := by
        rw [Nat.mul_assoc, Nat.mul_comm (2 ^ scale)]
      rw [hunits, log2_units hfraction, Nat.add_sub_cancel_left, hscaled,
        halfEven_mul _ (Nat.mul_pos hd (Nat.two_pow_pos scale))]
      omega

/-- A decimal that is exactly the value of a finite magnitude reads back to it. -/
theorem ofDecimal_of_exact {m : Magnitude} (hm : m.isFinite = true) {digits places : Nat}
    (hexact : digits * unitsPerOne = m.units * 10 ^ places) : ofDecimal digits places = m := by
  rw [ofDecimal, hexact]
  exact ofRatio_units hm (Nat.pow_pos (by decide))

/-- A whole number reads back. -/
theorem ofDecimal_whole {m : Magnitude} (hm : m.isFinite = true) (hwhole : m.units % unitsPerOne = 0) :
    ofDecimal (m.units / unitsPerOne) 0 = m := by
  apply ofDecimal_of_exact hm
  rw [Nat.div_mul_cancel (Nat.dvd_of_mod_eq_zero hwhole), Nat.pow_zero, Nat.mul_one]

/-- The digits chosen at some number of places read back. -/
theorem ofDecimal_of_digitsAt? {m : Magnitude} {places digits : Nat}
    (h : m.digitsAt? places = some digits) : ofDecimal digits places = m := by
  simp only [digitsAt?] at h
  generalize halfEven (m.units * 10 ^ places) unitsPerOne = nearest at h
  generalize (if nearest = m.units * 10 ^ places / unitsPerOne then _ else _) = other at h
  by_cases hnearest : ofDecimal nearest places = m
  · rw [if_pos hnearest, Option.some.injEq] at h
    rwa [← h]
  · rw [if_neg hnearest] at h
    by_cases hother : ofDecimal other places = m
    · rw [if_pos hother, Option.some.injEq] at h
      rwa [← h]
    · rw [if_neg hother] at h
      cases h

/-- With a place for every halving of one down to the unit, every finite magnitude is written exactly. -/
theorem ofDecimal_all_places {m : Magnitude} (hm : m.isFinite = true) (places : Nat)
    (hplaces : unitsPerOne = 2 ^ places) : ofDecimal (m.units * 5 ^ places) places = m := by
  apply ofDecimal_of_exact hm
  rw [hplaces, Nat.mul_assoc, ← Nat.mul_pow]

/-- **The shortest decimal reads back**, and it has a place behind the point. -/
theorem ofDecimal_shortestDecimal {m : Magnitude} (hm : m.isFinite = true) :
    ofDecimal m.shortestDecimal.1 m.shortestDecimal.2 = m ∧ 0 < m.shortestDecimal.2 := by
  rw [shortestDecimal]
  cases hfound : (List.range' 1 1073).findSome? fun places => (m.digitsAt? places).map (·, places) with
  | none =>
      rw [Option.getD_none]
      have hback := ofDecimal_all_places hm 1074 (by rw [unitsPerOne])
      exact ⟨hback, Nat.succ_pos _⟩
  | some found =>
      obtain ⟨places, hplaces, hat⟩ := List.exists_of_findSome?_eq_some hfound
      obtain ⟨digits, hdigits, rfl⟩ := Option.map_eq_some_iff.mp hat
      rw [List.mem_range'_1] at hplaces
      rw [Option.getD_some]
      exact ⟨ofDecimal_of_digitsAt? hdigits, hplaces.1⟩

end Magnitude

/-! ### The digits of the written form -/

theorem digitsValue_eq_ofDigitChars (cs : List Char) : digitsValue cs = Nat.ofDigitChars 10 cs 0 := by
  rw [digitsValue, Nat.ofDigitChars_eq_foldl]

/-- The digits of a natural have its value. -/
theorem digitsValue_repr (n : Nat) : digitsValue n.repr.toList = n := by
  rw [digitsValue_eq_ofDigitChars, Nat.toList_repr, Nat.ofDigitChars_ten_toDigits]

/-- Digits behind others count for themselves; those before them move up by as many places. -/
theorem digitsValue_append (cs ds : List Char) :
    digitsValue (cs ++ ds) = 10 ^ ds.length * digitsValue cs + digitsValue ds := by
  simp only [digitsValue_eq_ofDigitChars]
  rw [Nat.ofDigitChars_append, Nat.ofDigitChars_eq_ofDigitChars_zero]

theorem isDigit_of_mem_repr {n : Nat} {c : Char} (h : c ∈ n.repr.toList) : c.isDigit = true := by
  rw [Nat.toList_repr] at h
  exact Nat.isDigit_of_mem_toDigits (by decide) (by decide) h

theorem repr_toList_ne_nil (n : Nat) : n.repr.toList ≠ [] := by
  rw [Nat.toList_repr]
  exact Nat.toDigits_ne_nil

theorem toList_paddedDigits (width n : Nat) :
    (paddedDigits width n).toList = List.replicate (width - n.repr.length) '0' ++ n.repr.toList := by
  simp [paddedDigits]

/-- Leading zeros leave the value as it is. -/
theorem digitsValue_paddedDigits (width n : Nat) : digitsValue (paddedDigits width n).toList = n := by
  rw [toList_paddedDigits, digitsValue_append, digitsValue_repr, digitsValue_eq_ofDigitChars,
    Nat.ofDigitChars_replicate_zero, Nat.mul_zero, Nat.mul_zero, Nat.zero_add]

/-- Digits that are few enough are filled up to the width exactly. -/
theorem length_paddedDigits {width n : Nat} (hwidth : 0 < width) (hn : n < 10 ^ width) :
    (paddedDigits width n).toList.length = width := by
  have hshort : n.repr.length ≤ width := (Nat.length_repr_le_iff hwidth).mpr hn
  rw [toList_paddedDigits, List.length_append, List.length_replicate, String.length_toList]
  omega

theorem isDigit_of_mem_paddedDigits {width n : Nat} {c : Char} (h : c ∈ (paddedDigits width n).toList) :
    c.isDigit = true := by
  rw [toList_paddedDigits, List.mem_append] at h
  rcases h with hzero | hrepr
  · rw [(List.mem_replicate.mp hzero).2]
    rfl
  · exact isDigit_of_mem_repr hrepr

/-- The characters of a number literal: digits, and digits behind a point if it has one. -/
def literalChars (whole : List Char) (fraction? : Option (List Char)) : List Char :=
  whole ++ match fraction? with
    | none => []
    | some fraction => '.' :: fraction

theorem length_literalChars (whole : List Char) (fraction? : Option (List Char)) :
    (literalChars whole fraction?).length =
      whole.length + (if fraction?.isSome then 1 + (fraction?.getD []).length else 0) := by
  cases fraction? <;> simp [literalChars, Nat.add_comm]

namespace Magnitude

theorem literal_of_whole {m : Magnitude} (hm : m.isFinite = true) (hwhole : m.units % unitsPerOne = 0) :
    m.literal = (m.units / unitsPerOne).repr := by
  rw [literal, hm, Bool.not_true, if_neg Bool.false_ne_true, if_pos hwhole]

theorem literal_of_fraction {m : Magnitude} (hm : m.isFinite = true) (hwhole : m.units % unitsPerOne ≠ 0) :
    m.literal = positional m.shortestDecimal.1 m.shortestDecimal.2 := by
  rw [literal, hm, Bool.not_true, if_neg Bool.false_ne_true, if_neg hwhole]

/-- **The written form of a finite magnitude** is a number literal that reads back to it. -/
theorem literal_reads_back {m : Magnitude} (hm : m.isFinite = true) :
    ∃ whole fraction?, m.literal.toList = literalChars whole fraction? ∧ whole ≠ [] ∧
      (∀ c ∈ whole, c.isDigit = true) ∧ (∀ c ∈ fraction?.getD [], c.isDigit = true) ∧
      ofDecimal (digitsValue (whole ++ fraction?.getD [])) (fraction?.getD []).length = m := by
  by_cases hwhole : m.units % unitsPerOne = 0
  · refine ⟨(m.units / unitsPerOne).repr.toList, none, ?_, repr_toList_ne_nil _,
      fun c => isDigit_of_mem_repr, fun c hc => absurd hc List.not_mem_nil, ?_⟩
    · rw [literal_of_whole hm hwhole, literalChars, List.append_nil]
    · rw [Option.getD_none, List.append_nil, digitsValue_repr]
      exact ofDecimal_whole hm hwhole
  · obtain ⟨hback, hplaces⟩ := ofDecimal_shortestDecimal hm
    rw [literal_of_fraction hm hwhole]
    generalize m.shortestDecimal = decimal at hback hplaces ⊢
    obtain ⟨digits, places⟩ := decimal
    have hlength : (paddedDigits places (digits % 10 ^ places)).toList.length = places :=
      length_paddedDigits hplaces (Nat.mod_lt _ (Nat.pow_pos (by decide)))
    refine ⟨(digits / 10 ^ places).repr.toList, some (paddedDigits places (digits % 10 ^ places)).toList, ?_,
      repr_toList_ne_nil _, fun c => isDigit_of_mem_repr, fun c => isDigit_of_mem_paddedDigits, ?_⟩
    · simp only [positional, String.toList_append, literalChars, List.append_assoc]
      rfl
    · rw [Option.getD_some, digitsValue_append, digitsValue_repr, digitsValue_paddedDigits, hlength,
        Nat.div_add_mod]
      exact hback

end Magnitude

end LambdaScript
