import LambdaScript.Eval.Operate
import LambdaScript.Proofs.Number.Remainder

/-!
Operators between any two values. An operator that takes numbers finds fault with the left operand first, then with the
right one, then with a divisor that is zero, and computes if there is no fault. All other operators take any values.
-/

namespace LambdaScript.Operator

/-- The operators that make a number of two numbers. -/
def computing : List Operator := [.add, .subtract, .multiply, .divide, .remainder]

/-- The operators that compare two numbers. -/
def comparing : List Operator := [.less, .greater, .lessOrEqual, .greaterOrEqual]

/-- The operators whose right operand must not be zero. -/
def dividing : List Operator := [.divide, .remainder]

/-- The operators that take any values. -/
def general : List Operator := [.equal, .notEqual, .and, .or]

variable {op : Operator} {left right value : Value}

theorem mem_known_iff : op ∈ known ↔ op = .assign ∨ op ∈ computing ++ comparing ++ general := by
  simp only [known, computing, comparing, general, List.cons_append, List.nil_append, List.mem_cons, List.not_mem_nil,
    or_false]
  constructor <;> intro h <;> rcases h with h | h | h | h | h | h | h | h | h | h | h | h | h | h <;> simp [h]

/-- What an operator that takes numbers asks of its right operand. -/
def rightOperand (op : Operator) : Value → Except Cause Binary64 :=
  if op ∈ dividing then op.divisorOperand else op.numberOperand

theorem numberOperand_of_not_number (h : value.isNumber = false) :
    op.numberOperand value = .error (.expectedNumber op.text value.operandText) := by
  cases value with
  | number x => cases h
  | _ => rfl

theorem number_of_numberOperand {x : Binary64} (h : op.numberOperand value = .ok x) : value = .number x := by
  cases value <;> cases h
  rfl

theorem number_of_divisorOperand {y : Binary64} (h : op.divisorOperand value = .ok y) :
    value = .number y ∧ y.isZero = false := by
  unfold divisorOperand at h
  cases hnumber : op.numberOperand value with
  | error cause =>
      rw [hnumber] at h
      cases h
  | ok x =>
      rw [hnumber] at h
      simp only [Bind.bind, Except.bind] at h
      by_cases hzero : x.isZero = true
      · rw [if_pos hzero] at h
        cases h
      · rw [if_neg hzero] at h
        cases h
        exact ⟨number_of_numberOperand hnumber, Bool.eq_false_iff.mpr hzero⟩

theorem number_of_rightOperand {y : Binary64} (h : op.rightOperand value = .ok y) :
    value = .number y ∧ (op ∈ dividing → y.isZero = false) := by
  unfold rightOperand at h
  split at h
  · obtain ⟨hnumber, hzero⟩ := number_of_divisorOperand h
    exact ⟨hnumber, fun _ => hzero⟩
  · next hop => exact ⟨number_of_numberOperand h, fun hdivides => absurd hdivides hop⟩

theorem rightOperand_of_not_number (h : value.isNumber = false) :
    op.rightOperand value = .error (.expectedNumber op.text value.operandText) := by
  unfold rightOperand
  split
  · rw [divisorOperand, numberOperand_of_not_number h]
    rfl
  · exact numberOperand_of_not_number h

theorem rightOperand_of_zero {y : Binary64} (hop : op ∈ dividing) (hzero : y.isZero = true) :
    op.rightOperand (.number y) = .error (.divisionByZero op.text) := by
  rw [rightOperand, if_pos hop]
  show (if y.isZero = true then _ else _) = _
  rw [if_pos hzero]

theorem rightOperand_of_number {y : Binary64} (hzero : op ∈ dividing → y.isZero = false) :
    op.rightOperand (.number y) = .ok y := by
  unfold rightOperand
  split
  · next hop =>
    show (if y.isZero = true then _ else _) = _
    rw [hzero hop, if_neg Bool.false_ne_true]
  · rfl

/-- The operators that take numbers are all made alike: they read the left operand, then the right one, and put
together what they read. That the host could fail there is ruled out by what was asked of the right operand. -/
structure TakesAs (op : Operator) (combine : Binary64 → Binary64 → Except Cause Value) : Prop where
  apply_eq : ∀ left right, op.apply left right = (do
    let x ← op.numberOperand left
    let y ← op.rightOperand right
    combine x y)
  computes : op ∈ computing → ∀ x y, (op ∈ dividing → y.isZero = false) → ∃ z, combine x y = .ok (.number z)
  compares : op ∈ comparing → ∀ x y, ∃ b, combine x y = .ok (.boolean b)

theorem takesAs_number {f : Binary64 → Binary64 → Binary64} (hop : op ∉ comparing)
    (h : ∀ left right, op.apply left right = (do
      let x ← op.numberOperand left
      let y ← op.rightOperand right
      return .number (f x y))) : op.TakesAs fun x y => .ok (.number (f x y)) :=
  ⟨h, fun _ x y _ => ⟨f x y, rfl⟩, fun hcompares => absurd hcompares hop⟩

theorem takesAs_boolean {f : Binary64 → Binary64 → Bool} (hop : op ∉ computing)
    (h : ∀ left right, op.apply left right = (do
      let x ← op.numberOperand left
      let y ← op.rightOperand right
      return .boolean (f x y))) : op.TakesAs fun x y => .ok (.boolean (f x y)) :=
  ⟨h, fun hcomputes => absurd hcomputes hop, fun _ x y => ⟨f x y, rfl⟩⟩

/-- What division makes of two numbers. -/
def quotient (x y : Binary64) : Except Cause Value := hosted "ZeroDivisionError" "float division by zero" (x.div? y)

/-- What `%` makes of two numbers: NaN of an infinite dividend, and else the remainder that the host has. -/
def rest (x y : Binary64) : Except Cause Value :=
  if x.isInfinite then .ok (.number .nan) else hosted "ValueError" "math domain error" (x.remainder? y)

theorem takesAs_divide : divide.TakesAs quotient where
  apply_eq _ _ := rfl
  computes hop x y hzero := by
    obtain ⟨z, hz⟩ := Binary64.exists_div? x (hzero (by decide))
    exact ⟨z, by rw [quotient, hz, hosted]⟩
  compares hop := absurd hop (by decide)

theorem takesAs_remainder : remainder.TakesAs rest where
  apply_eq left right := by
    -- the divisor is read in both branches of the guard, so it may as well be read before it
    show (do
      let x ← remainder.numberOperand left
      if x.isInfinite then
        let _ ← remainder.divisorOperand right
        return .number .nan
      else
        let y ← remainder.divisorOperand right
        hosted "ValueError" "math domain error" (x.remainder? y)) = (do
      let x ← remainder.numberOperand left
      let y ← remainder.divisorOperand right
      rest x y)
    congr 1
    funext x
    unfold rest
    split <;> rfl
  computes hop x y hzero := by
    unfold rest
    split
    · exact ⟨.nan, rfl⟩
    · next hx =>
      obtain ⟨z, hz⟩ := Binary64.exists_remainder? (Bool.eq_false_iff.mpr hx) (hzero (by decide))
      exact ⟨z, by rw [hz, hosted]⟩
  compares hop := absurd hop (by decide)

theorem exists_takesAs (hop : op ∈ computing ++ comparing) : ∃ combine, op.TakesAs combine := by
  rcases List.mem_append.mp hop with hop | hop
  · simp only [computing, List.mem_cons, List.not_mem_nil, or_false] at hop
    rcases hop with rfl | rfl | rfl | rfl | rfl
    · exact ⟨_, takesAs_number (by decide) fun _ _ => rfl⟩
    · exact ⟨_, takesAs_number (by decide) fun _ _ => rfl⟩
    · exact ⟨_, takesAs_number (by decide) fun _ _ => rfl⟩
    · exact ⟨_, takesAs_divide⟩
    · exact ⟨_, takesAs_remainder⟩
  · simp only [comparing, List.mem_cons, List.not_mem_nil, or_false] at hop
    rcases hop with rfl | rfl | rfl | rfl <;>
      exact ⟨_, takesAs_boolean (by decide) fun left right => rfl⟩

namespace TakesAs

variable {combine : Binary64 → Binary64 → Except Cause Value}

theorem left_fault (h : op.TakesAs combine) (hleft : left.isNumber = false) :
    op.apply left right = .error (.expectedNumber op.text left.operandText) := by
  rw [h.apply_eq, numberOperand_of_not_number hleft]
  rfl

theorem right_fault {x : Binary64} (h : op.TakesAs combine) (hright : right.isNumber = false) :
    op.apply (.number x) right = .error (.expectedNumber op.text right.operandText) := by
  rw [h.apply_eq, rightOperand_of_not_number hright]
  rfl

theorem zero_fault {x y : Binary64} (h : op.TakesAs combine) (hop : op ∈ dividing) (hzero : y.isZero = true) :
    op.apply (.number x) (.number y) = .error (.divisionByZero op.text) := by
  rw [h.apply_eq, rightOperand_of_zero hop hzero]
  rfl

theorem of_numbers {x y : Binary64} (h : op.TakesAs combine) (hzero : op ∈ dividing → y.isZero = false) :
    op.apply (.number x) (.number y) = combine x y := by
  rw [h.apply_eq, rightOperand_of_number hzero]
  rfl

/-- What is put together is a number or a truth value, if no divisor is zero. -/
theorem exists_value {x y : Binary64} (h : op.TakesAs combine) (hop : op ∈ computing ++ comparing)
    (hzero : op ∈ dividing → y.isZero = false) :
    ∃ value, combine x y = .ok value ∧ ((∃ z, value = .number z) ∨ ∃ b, value = .boolean b) := by
  rcases List.mem_append.mp hop with hcomputes | hcompares
  · obtain ⟨z, hz⟩ := h.computes hcomputes x y hzero
    exact ⟨_, hz, .inl ⟨z, rfl⟩⟩
  · obtain ⟨b, hb⟩ := h.compares hcompares x y
    exact ⟨_, hb, .inr ⟨b, rfl⟩⟩

/-- There is a value only of numbers, and of no zero as a divisor. -/
theorem operands (h : op.TakesAs combine) (hvalue : op.apply left right = .ok value) :
    ∃ x y, left = .number x ∧ right = .number y ∧ (op ∈ dividing → y.isZero = false) := by
  rw [h.apply_eq] at hvalue
  cases hx : op.numberOperand left with
  | error cause =>
      rw [hx] at hvalue
      cases hvalue
  | ok x =>
      cases hy : op.rightOperand right with
      | error cause =>
          rw [hx, hy] at hvalue
          cases hvalue
      | ok y =>
          obtain ⟨hnumber, hzero⟩ := number_of_rightOperand hy
          exact ⟨x, y, number_of_numberOperand hx, hnumber, hzero⟩

end TakesAs

theorem exists_ok_of_general (hop : op ∈ general) (left right : Value) : ∃ value, op.apply left right = .ok value := by
  simp only [general, List.mem_cons, List.not_mem_nil, or_false] at hop
  rcases hop with rfl | rfl | rfl | rfl <;> exact ⟨_, rfl⟩

theorem ne_hostFailure_of_takesNumbers (hop : op ∈ computing ++ comparing) (kind text : String) :
    op.apply left right ≠ .error (.hostFailure kind text) := by
  intro hfails
  obtain ⟨combine, htakes⟩ := exists_takesAs hop
  cases left with
  | number x =>
      cases right with
      | number y =>
          by_cases hzero : op ∈ dividing ∧ y.isZero = true
          · rw [htakes.zero_fault hzero.1 hzero.2] at hfails
            cases hfails
          · have hnonzero : op ∈ dividing → y.isZero = false := fun hdivides => by
              rw [Bool.eq_false_iff]
              exact fun hy => hzero ⟨hdivides, hy⟩
            obtain ⟨value, hvalue, -⟩ := htakes.exists_value (x := x) hop hnonzero
            rw [htakes.of_numbers hnonzero, hvalue] at hfails
            cases hfails
      | _ =>
          rw [htakes.right_fault rfl] at hfails
          cases hfails
  | _ =>
      rw [htakes.left_fault rfl] at hfails
      cases hfails

/-- The host never fails at an operator. -/
theorem apply_ne_hostFailure (op : Operator) (left right : Value) (kind text : String) :
    op.apply left right ≠ .error (.hostFailure kind text) := by
  cases op with
  | add | subtract | multiply | divide | remainder | less | greater | lessOrEqual | greaterOrEqual =>
      exact ne_hostFailure_of_takesNumbers (by decide) kind text
  | _ =>
      intro hfails
      cases hfails

end LambdaScript.Operator
