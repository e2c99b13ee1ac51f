import LambdaScript.Eval.Evaluate
import LambdaScript.Proofs.Eval.Operators
import LambdaScript.Proofs.Eval.Store
import LambdaScript.Proofs.Expr.Tandem

/-!
Worlds that differ in places alone. The only places in a world are those in the bodies of its closures, so two
worlds are alike if they are equal but for these: the same scopes with the same names in the same order, values of
the same kinds, and closures with the same serial numbers over the same scopes. Nothing that a program or a report
shows of a value tells alike values apart.
-/

namespace LambdaScript

variable {ρ : Position → Position → Prop}

/-! ### Values -/

/-- Values that are equal but for the places in the body of a closure. -/
inductive Value.Like (ρ : Position → Position → Prop) : Value → Value → Prop where
  | number (value : Binary64) : Value.Like ρ (.number value) (.number value)
  | string (value : String) : Value.Like ρ (.string value) (.string value)
  | boolean (value : Bool) : Value.Like ρ (.boolean value) (.boolean value)
  | closure (serial : Nat) (name : Option String) (params : List String) (scope : ScopeId) {body body' : Expr}
      (hbody : body.Like ρ body') :
      Value.Like ρ (.closure ⟨serial, name, params, body, scope⟩) (.closure ⟨serial, name, params, body', scope⟩)
  | builtin (builtin : Builtin) : Value.Like ρ (.builtin builtin) (.builtin builtin)

namespace Value

theorem like_refl (hρ : ∀ pos, ρ pos pos) (value : Value) : value.Like ρ value := by
  cases value with
  | number value => exact .number value
  | string value => exact .string value
  | boolean value => exact .boolean value
  | closure c => exact .closure c.serial c.name c.params c.scope (c.body.like_refl hρ)
  | builtin builtin => exact .builtin builtin

variable {value value' other other' : Value}

theorem Like.text_eq (h : value.Like ρ value') : value.text = value'.text := by cases h <;> rfl

theorem Like.isTruthy_eq (h : value.Like ρ value') : value.isTruthy = value'.isTruthy := by cases h <;> rfl

theorem Like.equals_eq (h : value.Like ρ value') (hother : other.Like ρ other') :
    value.equals other = value'.equals other' := by
  cases h <;> cases hother <;> rfl

end Value

/-! ### Operators -/

/-- What an operator gives on both sides: values that are alike, or the same cause. -/
inductive Operator.AppliedAlike (ρ : Position → Position → Prop) : Except Cause Value → Except Cause Value → Prop where
  | value {value value' : Value} (hvalue : value.Like ρ value') : AppliedAlike ρ (.ok value) (.ok value')
  | cause (cause : Cause) : AppliedAlike ρ (.error cause) (.error cause)

namespace Operator

variable {op : Operator} {left left' right right' : Value}

theorem numberOperand_eq_of_like (h : left.Like ρ left') : op.numberOperand left = op.numberOperand left' := by
  cases h <;> rfl

theorem rightOperand_eq_of_like (h : right.Like ρ right') : op.rightOperand right = op.rightOperand right' := by
  have hnumber : op.numberOperand right = op.numberOperand right' := numberOperand_eq_of_like h
  unfold rightOperand
  split
  · unfold divisorOperand
    rw [hnumber]
  · exact hnumber

theorem AppliedAlike.bind {m : Except Cause Binary64} {f : Binary64 → Except Cause Value}
    (hf : ∀ x, m = .ok x → AppliedAlike ρ (f x) (f x)) : AppliedAlike ρ (m >>= f) (m >>= f) := by
  cases h : m with
  | error cause => exact .cause cause
  | ok x => exact hf x h

theorem appliedAlike_of_takesNumbers (hop : op ∈ computing ++ comparing) (hleft : left.Like ρ left')
    (hright : right.Like ρ right') : AppliedAlike ρ (op.apply left right) (op.apply left' right') := by
  obtain ⟨combine, htakes⟩ := exists_takesAs hop
  rw [htakes.apply_eq, htakes.apply_eq, numberOperand_eq_of_like hleft, rightOperand_eq_of_like hright]
  refine .bind fun x _ => .bind fun y hy => ?_
  obtain ⟨_, hvalue, ⟨z, rfl⟩ | ⟨b, rfl⟩⟩ := htakes.exists_value (x := x) hop (number_of_rightOperand hy).2
  · rw [hvalue]
    exact .value (.number z)
  · rw [hvalue]
    exact .value (.boolean b)

theorem appliedAlike_apply (op : Operator) (hleft : left.Like ρ left') (hright : right.Like ρ right') :
    AppliedAlike ρ (op.apply left right) (op.apply left' right') := by
  cases op with
  | add | subtract | multiply | divide | remainder | less | greater | lessOrEqual | greaterOrEqual =>
      exact appliedAlike_of_takesNumbers (by decide) hleft hright
  | equal | notEqual =>
      simp only [apply, hleft.equals_eq hright]
      exact .value (.boolean _)
  | and =>
      simp only [apply, hleft.isTruthy_eq]
      split
      · exact .value hright
      · exact .value (.boolean Bool.false)
  | or =>
      simp only [apply, hleft.isTruthy_eq]
      split
      · exact .value hleft
      · exact .value hright
  | assign | unknown => exact .cause _

end Operator

/-! ### Scopes -/

namespace Vars

variable {vars vars' : Vars}

/-- The same names in the same order, with values that are alike. -/
abbrev Like (ρ : Position → Position → Prop) (vars vars' : Vars) : Prop :=
  List.Forall₂ (fun entry other => entry.1 = other.1 ∧ entry.2.Like ρ other.2) vars vars'

theorem Like.get? (h : vars.Like ρ vars') (name : String) :
    Option.Rel (Value.Like ρ) (vars.get? name) (vars'.get? name) := by
  induction h with
  | nil => exact .none
  | @cons entry other vars vars' hentry _ ih =>
      obtain ⟨n, v⟩ := entry
      obtain ⟨n, v'⟩ := other
      obtain ⟨rfl, hvalue⟩ := hentry
      by_cases hname : n = name
      · simpa [Vars.get?, hname] using Option.Rel.some hvalue
      · simpa [Vars.get?, hname] using ih

theorem Like.set (h : vars.Like ρ vars') (name : String) {value value' : Value} (hvalue : value.Like ρ value') :
    (vars.set name value).Like ρ (vars'.set name value') := by
  induction h with
  | nil => exact .cons ⟨rfl, hvalue⟩ .nil
  | @cons entry other vars vars' hentry hrest ih =>
      obtain ⟨n, v⟩ := entry
      obtain ⟨n, v'⟩ := other
      obtain ⟨rfl, hold⟩ := hentry
      by_cases hname : n = name
      · simpa [Vars.set, hname] using ⟨hvalue, hrest⟩
      · simpa [Vars.set, hname] using ⟨hold, ih⟩

theorem Like.bind {args args' : List Value} (hargs : List.Forall₂ (Value.Like ρ) args args') (params : List String) :
    ∀ {vars vars' : Vars}, vars.Like ρ vars' → (vars.bind params args).Like ρ (vars'.bind params args') := by
  induction params generalizing args args' with
  | nil => exact fun h => h
  | cons param params ih =>
      intro vars vars' h
      cases hargs with
      | nil => exact ih .nil (h.set param (.boolean Bool.false))
      | cons harg hargs => exact ih hargs (h.set param harg)

theorem Like.names_eq (h : vars.Like ρ vars') : vars.names = vars'.names := by
  induction h with
  | nil => rfl
  | cons hentry _ ih => exact congrArg₂ List.cons hentry.1 ih

end Vars

/-- The same scopes, with the same names in the same order and values that are alike. -/
structure Store.Like (ρ : Position → Position → Prop) (store store' : Store) : Prop where
  size_eq : store.scopes.size = store'.scopes.size
  parent?_eq : ∀ scope, store.parent? scope = store'.parent? scope
  vars : ∀ scope, (store.vars scope).Like ρ (store'.vars scope)

namespace Store.Like

variable {store store' : Store}

theorem extend (h : store.Like ρ store') (parent : ScopeId) {vars vars' : Vars} (hvars : vars.Like ρ vars') :
    (store.extend parent vars).2 = (store'.extend parent vars').2 ∧
      (store.extend parent vars).1.Like ρ (store'.extend parent vars').1 := by
  refine ⟨h.size_eq, ?_, fun scope => ?_, fun scope => ?_⟩
  · rw [size_extend, size_extend, h.size_eq]
  · by_cases hnew : scope = store.scopes.size
    · subst hnew
      rw [parent?_extend_self, h.size_eq, parent?_extend_self]
    · rw [parent?_extend_of_ne hnew, parent?_extend_of_ne (h.size_eq ▸ hnew), h.parent?_eq]
  · by_cases hnew : scope = store.scopes.size
    · subst hnew
      rw [vars_extend_self, h.size_eq, vars_extend_self]
      exact hvars
    · rw [vars_extend_of_ne hnew, vars_extend_of_ne (h.size_eq ▸ hnew)]
      exact h.vars scope

theorem define (h : store.Like ρ store') (scope : ScopeId) (name : String) {value value' : Value}
    (hvalue : value.Like ρ value') : (store.define scope name value).Like ρ (store'.define scope name value') := by
  refine ⟨?_, fun other => ?_, fun other => ?_⟩
  · rw [size_define, size_define, h.size_eq]
  · rw [parent?_define, parent?_define, h.parent?_eq]
  · by_cases hsame : other = scope
    · subst hsame
      by_cases hsize : other < store.scopes.size
      · rw [vars_define_self hsize, vars_define_self (h.size_eq ▸ hsize)]
        exact (h.vars other).set name hvalue
      · have hold := Nat.le_of_not_lt hsize
        rw [vars_of_size_le (by rwa [size_define]), vars_of_size_le (by rwa [size_define, ← h.size_eq])]
        exact .nil
    · rw [vars_define_of_ne hsame, vars_define_of_ne hsame]
      exact h.vars other

theorem lookup_eq (h : store.Like ρ store') (scope : ScopeId) (name : String) :
    store.lookup scope name = store'.lookup scope name := by
  have howns (scope : ScopeId) : ((store.vars scope).get? name).isSome = ((store'.vars scope).get? name).isSome := by
    rw [Bool.eq_iff_iff, Vars.isSome_get?, Vars.isSome_get?, (h.vars scope).names_eq]
  induction scope using Nat.strongRecOn with
  | ind scope ih =>
      rw [Store.lookup, Store.lookup, howns, h.parent?_eq]
      cases hparent : store'.parent? scope with
      | none => rfl
      | some parent =>
          by_cases holder : parent < scope
          · simp only [holder, if_true, ih parent holder]
          · simp only [holder, if_false]

theorem read (h : store.Like ρ store') (scope : ScopeId) (name : String) :
    Option.Rel (Value.Like ρ) (store.read scope name) (store'.read scope name) := by
  unfold Store.read
  rw [h.lookup_eq]
  cases store'.lookup scope name with
  | none => exact .none
  | some owner => exact (h.vars owner).get? name

theorem ownerFor?_eq (h : store.Like ρ store') (scope : ScopeId) (name : String) :
    store.ownerFor? scope name = store'.ownerFor? scope name := by
  rw [Store.ownerFor?, Store.ownerFor?, Store.isRoot, Store.isRoot, h.lookup_eq, h.parent?_eq]

end Store.Like

/-- Worlds that are equal but for the places in the bodies of closures. -/
structure World.Like (ρ : Position → Position → Prop) (world world' : World) : Prop where
  store : world.store.Like ρ world'.store
  nextSerial_eq : world.nextSerial = world'.nextSerial
  output_eq : world.output = world'.output

theorem World.like_refl (hρ : ∀ pos, ρ pos pos) (world : World) : world.Like ρ world := by
  refine ⟨⟨rfl, fun _ => rfl, fun scope => ?_⟩, rfl, rfl⟩
  exact List.forall₂_same.mpr fun entry _ => ⟨rfl, entry.2.like_refl hρ⟩

end LambdaScript
