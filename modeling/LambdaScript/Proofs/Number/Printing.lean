import LambdaScript.Eval.Value
import LambdaScript.Proofs.Number.Shortest
import LambdaScript.Proofs.Token.RoundTrip

/-!
Numbers as text. The written form of a finite number is made of digits, with a point among them if the number is not
whole and a minus sign in front if it is below zero. It denotes a whole number exactly and any other by its shortest
decimal; it is read as one token, the number itself; and no two numbers but the zeros have the same form.
-/

namespace LambdaScript

-- powers are the built-in ones, whatever other powers of naturals are in scope
attribute [local instance(high)] instPowNat

/-- The rational that a text of the form `-?digits` or `-?digits.digits` denotes. -/
inductive Denotes : List Char → ℚ → Prop where
  | whole {ds : List Char} (hne : ds ≠ []) (hds : ∀ c ∈ ds, c.isDigit = true) : Denotes ds (digitsValue ds)
  | point {ds fs : List Char} (hne : ds ≠ []) (hfne : fs ≠ []) (hds : ∀ c ∈ ds, c.isDigit = true)
      (hfs : ∀ c ∈ fs, c.isDigit = true) : Denotes (ds ++ '.' :: fs) (digitsValue (ds ++ fs) / 10 ^ fs.length)
  | minus {cs : List Char} {x : ℚ} (hsign : '-' ∉ cs) (h : Denotes cs x) : Denotes ('-' :: cs) (-x)

theorem point_not_mem_digits {ds : List Char} (hds : ∀ c ∈ ds, c.isDigit = true) : '.' ∉ ds := fun hmem =>
  absurd (hds _ hmem) (by decide)

theorem digits_append_ne_dash {ds : List Char} (hne : ds ≠ []) (hds : ∀ c ∈ ds, c.isDigit = true)
    (rest cs : List Char) : ds ++ rest ≠ '-' :: cs := by
  intro hsame
  cases ds with
  | nil => exact hne rfl
  | cons d ds =>
      obtain ⟨rfl, -⟩ := List.cons.inj hsame
      exact absurd (hds '-' List.mem_cons_self) (by decide)

/-- A text denotes one rational at most. -/
theorem Denotes.unique {cs : List Char} {x y : ℚ} (h : Denotes cs x) (h' : Denotes cs y) : x = y := by
  induction h generalizing y with
  | whole hne hds =>
      cases h' with
      | whole => rfl
      | point => exact absurd (List.mem_append_right _ List.mem_cons_self) (point_not_mem_digits hds)
      | minus => exact absurd (hds '-' List.mem_cons_self) (by decide)
  | @point ds fs hne _ hds hfs =>
      generalize hcs : ds ++ '.' :: fs = cs at h'
      cases h' with
      | whole _ hall => exact absurd (hcs ▸ List.mem_append_right _ List.mem_cons_self) (point_not_mem_digits hall)
      | point =>
          rw [List.append_cons_inj_of_notMem (point_not_mem_digits hds) (point_not_mem_digits hfs)] at hcs
          obtain ⟨rfl, -, rfl⟩ := hcs
          rfl
      | minus => exact absurd hcs (digits_append_ne_dash hne hds _ _)
  | @minus cs _ _ _ ih =>
      generalize hcs : '-' :: cs = es at h'
      cases h' with
      | whole hne hds => exact absurd ((List.append_nil _).trans hcs.symm) (digits_append_ne_dash hne hds [] cs)
      | point hne _ hds => exact absurd hcs.symm (digits_append_ne_dash hne hds _ cs)
      | minus _ h =>
          obtain ⟨-, rfl⟩ := List.cons.inj hcs
          rw [ih h]

theorem denotes_repr (n : Nat) : Denotes n.repr.toList n := by
  have h := Denotes.whole (repr_toList_ne_nil n) fun c => isDigit_of_mem_repr
  rwa [digitsValue_repr] at h

/-- A decimal that is written out denotes itself. -/
theorem denotes_positional (digits : Nat) {places : Nat} (hplaces : 0 < places) :
    Denotes (positional digits places).toList (digits / 10 ^ places) := by
  have hlength : (paddedDigits places (digits % 10 ^ places)).toList.length = places :=
    length_paddedDigits hplaces (Nat.mod_lt _ (Nat.pow_pos (by decide)))
  have hfne : (paddedDigits places (digits % 10 ^ places)).toList ≠ [] := by
    rw [← List.length_pos_iff, hlength]
    exact hplaces
  have h := Denotes.point (repr_toList_ne_nil (digits / 10 ^ places)) hfne (fun c => isDigit_of_mem_repr)
    fun c => isDigit_of_mem_paddedDigits
  rw [digitsValue_append, digitsValue_repr, digitsValue_paddedDigits, hlength, Nat.div_add_mod] at h
  simpa [positional] using h

namespace Magnitude

attribute [local irreducible] unitsPerOne shortestDecimal

theorem value_eq_natCast_iff {m : Magnitude} {n : Nat} : m.value = n ↔ m.units = n * unitsPerOne := by
  have hpos : (unitsPerOne : ℚ) ≠ 0 := by exact_mod_cast unitsPerOne_pos.ne'
  rw [value, div_eq_iff hpos]
  exact_mod_cast Iff.rfl

/-- A whole number is written out exactly. -/
theorem literal_of_value {m : Magnitude} (hm : m.isFinite = true) {n : Nat} (hn : m.value = n) :
    m.literal = n.repr := by
  have hunits := value_eq_natCast_iff.mp hn
  rw [literal_of_whole hm (by rw [hunits, Nat.mul_mod_left]), hunits, Nat.mul_div_cancel _ unitsPerOne_pos]

/-- **A number that is not whole is written as its shortest decimal.** -/
theorem denotes_literal_shortest {m : Magnitude} (hm : m.isFinite = true) (hfraction : ∀ n : Nat, m.value ≠ n) :
    (∃ d : Decimal, d.IsShortest m) ∧ ∀ d : Decimal, d.IsShortest m → Denotes m.literal.toList d.value := by
  have hwhole : m.units % unitsPerOne ≠ 0 := by
    intro hrest
    obtain ⟨n, hn⟩ := Nat.dvd_of_mod_eq_zero hrest
    exact hfraction n (value_eq_natCast_iff.mpr (hn.trans (Nat.mul_comm _ n)))
  rw [literal_of_fraction hm hwhole]
  have hplaces := (shortestDecimal_spec hm).1
  cases hfound : m.shortestDecimal with
  | mk digits places =>
      rw [hfound] at hplaces
      refine ⟨⟨_, (isShortest_iff hm hwhole hfound).mpr rfl⟩, fun d hd => ?_⟩
      rw [(isShortest_iff hm hwhole hfound).mp hd, Decimal.value_neg_natCast]
      exact denotes_positional digits hplaces

/-- The written form of a magnitude has no minus sign in it. -/
theorem dash_not_mem_literal {m : Magnitude} (hm : m.isFinite = true) : '-' ∉ m.literal.toList := by
  obtain ⟨whole, fraction?, hchars, -, hwhole, hfraction, -⟩ := literal_reads_back hm
  intro hmem
  rcases List.mem_append.mp (hchars ▸ hmem) with hmem | hmem
  · exact absurd (hwhole _ hmem) (by decide)
  · cases fraction? with
    | none => cases hmem
    | some fraction =>
        rcases List.mem_cons.mp hmem with hpoint | hmem
        · exact absurd hpoint (by decide)
        · exact absurd (hfraction _ hmem) (by decide)

/-- The written form of a finite magnitude denotes a rational. -/
theorem exists_denotes_literal {m : Magnitude} (hm : m.isFinite = true) : ∃ q, Denotes m.literal.toList q := by
  by_cases hwhole : ∃ n : Nat, m.value = n
  · obtain ⟨n, hn⟩ := hwhole
    rw [literal_of_value hm hn]
    exact ⟨n, denotes_repr n⟩
  · obtain ⟨⟨d, hd⟩, hdenotes⟩ := denotes_literal_shortest hm (not_exists.mp hwhole)
    exact ⟨d.value, hdenotes d hd⟩

theorem tokenize_literal {m : Magnitude} (hm : m.isFinite = true) :
    tokenize m.literal = .ok [⟨.number (.signed false m), .start⟩] := by
  have htokens := tokenize_lexeme (.number hm)
  rw [Token.lexeme, Binary64.literal, Bool.false_and, if_neg Bool.false_ne_true] at htokens
  exact htokens

theorem literal_injective {m n : Magnitude} (hm : m.isFinite = true) (hn : n.isFinite = true)
    (h : m.literal = n.literal) : m = n := by
  have htokens := (tokenize_literal hm).symm.trans ((congrArg tokenize h).trans (tokenize_literal hn))
  have htoken := (PlacedToken.mk.inj (List.cons.inj (Except.ok.inj htokens)).1).1
  exact (Binary64.signed.inj (Token.number.inj htoken)).2

theorem place_eq_zero_iff {m : Magnitude} : m.place = 0 ↔ m = .zero := by
  cases m
  simp [zero]

end Magnitude

namespace Binary64

/-- The written form of a number is that of its magnitude, behind a minus sign if it is below zero. -/
theorem literal_cases (negative : Bool) {m : Magnitude} (hm : m.isFinite = true) :
    ((negative = false ∨ m = .zero) ∧ (signed negative m).literal = m.literal ∧ (signed negative m).value = m.value) ∨
      negative = true ∧ m ≠ .zero ∧ (signed negative m).literal = "-" ++ m.literal ∧
        (signed negative m).value = -m.value := by
  cases negative with
  | false => exact .inl ⟨.inl rfl, by simp [literal], by simp [value]⟩
  | true =>
      by_cases hzero : m = .zero
      · have hplace := Magnitude.place_eq_zero_iff.mpr hzero
        have hvalue := (Magnitude.value_eq_zero_iff hm).mpr hzero
        exact .inl ⟨.inr hzero, by simp [literal, hplace], by simp [value, hvalue]⟩
      · have hplace : m.place ≠ 0 := fun h => hzero (Magnitude.place_eq_zero_iff.mp h)
        exact .inr ⟨rfl, hzero, by simp [literal, hplace], by simp [value]⟩

section

variable {negative : Bool} {m : Magnitude} (hm : m.isFinite = true)

include hm

theorem exists_denotes_literal : ∃ q, Denotes (signed negative m).literal.toList q := by
  obtain ⟨q, hq⟩ := m.exists_denotes_literal hm
  rcases literal_cases negative hm with ⟨-, hliteral, -⟩ | ⟨-, -, hliteral, -⟩
  · exact ⟨q, hliteral ▸ hq⟩
  · rw [hliteral, String.toList_append]
    exact ⟨-q, .minus (m.dash_not_mem_literal hm) hq⟩

/-- A whole number is written as the integer it is. -/
theorem literal_of_value {n : ℤ} (hn : (signed negative m).value = n) : (signed negative m).literal = n.repr := by
  have hnonneg := m.value_nonneg
  rcases literal_cases negative hm with ⟨-, hliteral, hvalue⟩ | ⟨-, hzero, hliteral, hvalue⟩
  · rw [hn] at hvalue
    obtain ⟨k, rfl⟩ := Int.eq_ofNat_of_zero_le (show 0 ≤ n by exact_mod_cast hvalue ▸ hnonneg)
    rw [hliteral, m.literal_of_value hm (by exact_mod_cast hvalue.symm)]
    rfl
  · have hpos : 0 < m.value := lt_of_le_of_ne hnonneg fun h => hzero ((Magnitude.value_eq_zero_iff hm).mp h.symm)
    have hn : m.value = ((-n : ℤ) : ℚ) := by
      push_cast
      linarith
    obtain ⟨k, hk⟩ := Int.eq_succ_of_zero_lt (show 0 < -n by exact_mod_cast hn ▸ hpos)
    obtain rfl : n = Int.negSucc k := by omega
    rw [hliteral, m.literal_of_value (n := k + 1) hm (by rw [hn, hk]; push_cast; rfl)]
    rfl

/-- A number that is not whole is written as its shortest decimal. -/
theorem denotes_literal_shortest (hwhole : ∀ n : ℤ, (signed negative m).value ≠ n) :
    (∃ d : Decimal, d.IsShortest m) ∧ ∀ d : Decimal, d.IsShortest m →
      Denotes (signed negative m).literal.toList (if negative then -d.value else d.value) := by
  have hfraction (n : Nat) : m.value ≠ n := by
    intro hvalue
    cases negative with
    | false => exact hwhole n (by simpa [value] using hvalue)
    | true => exact hwhole (-n) (by simpa [value] using hvalue)
  obtain ⟨hexists, hdenotes⟩ := m.denotes_literal_shortest hm hfraction
  refine ⟨hexists, fun d hd => ?_⟩
  rcases literal_cases negative hm with ⟨rfl | hzero, hliteral, -⟩ | ⟨rfl, -, hliteral, -⟩
  · rw [hliteral]
    exact hdenotes d hd
  · exact absurd ((Magnitude.value_eq_zero_iff hm).mpr hzero) (by exact_mod_cast hfraction 0)
  · rw [hliteral, String.toList_append]
    exact .minus (m.dash_not_mem_literal hm) (hdenotes d hd)

/-- The written form of a number that is not negative is read as that number. -/
theorem tokenize_literal (hnonneg : 0 ≤ (signed negative m).value) :
    tokenize (signed negative m).literal = .ok [⟨.number (.signed false m), .start⟩] := by
  rcases literal_cases negative hm with ⟨-, hliteral, -⟩ | ⟨-, hzero, -, hvalue⟩
  · rw [hliteral]
    exact m.tokenize_literal hm
  · have hnone : m.value = 0 := by linarith [m.value_nonneg]
    exact absurd ((Magnitude.value_eq_zero_iff hm).mp hnone) hzero

theorem literal_injective {negative' : Bool} {n : Magnitude} (hn : n.isFinite = true)
    (h : (signed negative m).literal = (signed negative' n).literal) :
    signed negative m = signed negative' n ∨ m = .zero ∧ n = .zero := by
  have hdash {a b : Magnitude} (ha : a.isFinite = true) : a.literal ≠ "-" ++ b.literal := by
    intro h
    apply a.dash_not_mem_literal ha
    rw [h, String.toList_append]
    exact List.mem_cons_self
  -- only two forms of the same kind can be equal, both with a minus sign or both without
  rcases literal_cases negative hm with ⟨hsign, hliteral, -⟩ | ⟨rfl, -, hliteral, -⟩ <;>
    rcases literal_cases negative' hn with ⟨hsign', hliteral', -⟩ | ⟨rfl, -, hliteral', -⟩ <;>
    rw [hliteral, hliteral'] at h
  · obtain rfl := Magnitude.literal_injective hm hn h
    rcases hsign with rfl | hzero
    · rcases hsign' with rfl | hzero
      · exact .inl rfl
      · exact .inr ⟨hzero, hzero⟩
    · exact .inr ⟨hzero, hzero⟩
  · exact absurd h (hdash hm)
  · exact absurd h.symm (hdash hn)
  · rw [String.append_right_inj] at h
    exact .inl (congrArg _ (Magnitude.literal_injective hm hn h))

end

end Binary64

/-- **Numbers and their written forms.** The form of a finite number has digits, with a point among them or without,
and no exponent, and denotes one rational. It is the exact integer if the number is whole, and else it denotes the
shortest decimal that is read as the number. The form of a number that is not negative is read as one token, that
number, and different numbers are shown as different texts, unless both are zeros. -/
theorem literal_inverse {negative : Bool} {m : Magnitude} (hm : m.isFinite = true) :
    let x : Binary64 := .signed negative m
    (∃! q, Denotes x.literal.toList q) ∧
    (∀ n : ℤ, x.value = n → x.literal = n.repr) ∧
    ((∀ n : ℤ, x.value ≠ n) → (∃ d : Decimal, d.IsShortest m) ∧
      ∀ d : Decimal, d.IsShortest m → Denotes x.literal.toList (if negative then -d.value else d.value)) ∧
    (0 ≤ x.value → tokenize x.literal = .ok [⟨.number (.signed false m), .start⟩]) ∧
    ∀ y : Binary64, y.isFinite = true → (Value.number x).text = (Value.number y).text →
      x = y ∨ x.isZero = true ∧ y.isZero = true := by
  obtain ⟨q, hq⟩ : ∃ q, Denotes (Binary64.signed negative m).literal.toList q := Binary64.exists_denotes_literal hm
  refine ⟨⟨q, hq, fun other hother => hother.unique hq⟩, fun n => Binary64.literal_of_value hm,
    Binary64.denotes_literal_shortest hm, Binary64.tokenize_literal hm, fun y hy h => ?_⟩
  cases y with
  | nan => cases hy
  | signed negative' n =>
      rcases Binary64.literal_injective hm hy h with hsame | ⟨hzero, hzero'⟩
      · exact .inl hsame
      · exact .inr ⟨by rw [hzero]; rfl, by rw [hzero']; rfl⟩

theorem literal_inverse_between_decimals :
    let m : Magnitude := ⟨1073 * 2 ^ (52 : Nat) + 1, by decide⟩
    m.isFinite = true ∧ (Binary64.signed true m).literal = "-1125899906842624.2" ∧
      (∃! q, Denotes "-1125899906842624.2".toList q) ∧
      tokenize "1125899906842624.2" = .ok [⟨.number (.signed false m), .start⟩] := by
  intro m
  have hfinite : m.isFinite = true := by decide
  have hnegative : (Binary64.signed true m).literal = "-1125899906842624.2" := by decide +kernel
  have hpositive : (Binary64.signed false m).literal = "1125899906842624.2" := by decide +kernel
  refine ⟨hfinite, hnegative, ?_, ?_⟩
  · rw [← hnegative]
    exact (literal_inverse hfinite).1
  · rw [← hpositive]
    exact (literal_inverse hfinite).2.2.2.1 m.value_nonneg

end LambdaScript
