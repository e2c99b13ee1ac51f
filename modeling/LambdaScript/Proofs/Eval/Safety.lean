import LambdaScript.Proofs.Eval.Leads
import LambdaScript.Proofs.Eval.Operators
import LambdaScript.Proofs.Eval.Store
import LambdaScript.Proofs.Expr.Placed

/-!
Evaluation never fails inside. Every closure in reach of a program has a body that reading made, so whatever
is evaluated is a node with a meaning; what can go wrong is an error of the program, and it is reported at the
place of a node. The invariant is on all values in all scopes, since a closure can be called long after the
call that made it.
-/

namespace LambdaScript

variable {P : Position → Prop}

/-- A value whose body, if it is a closure, is placed. -/
def Value.IsPlaced (P : Position → Prop) : Value → Prop
  | .closure c => c.body.IsPlaced P
  | _ => True

/-- A world in which every closure has a placed body. -/
def World.IsPlaced (P : Position → Prop) (world : World) : Prop :=
  ∀ scope, ∀ entry ∈ world.store.vars scope, entry.2.IsPlaced P

theorem World.IsPlaced.mono {Q : Position → Prop} {world : World} (h : world.IsPlaced P) (himp : ∀ pos, P pos → Q pos) :
    world.IsPlaced Q := by
  intro scope entry hentry
  have hvalue := h scope entry hentry
  cases hentryValue : entry.2 with
  | closure c =>
      rw [hentryValue] at hvalue
      exact Expr.IsPlaced.mono hvalue himp
  | _ => trivial

/-- The errors of programs that run. -/
def Cause.IsOfEvaluation : Cause → Prop
  | undefinedVariable _ | expectedNumber .. | divisionByZero _ | invalidTarget _ | notCallable _ => True
  | _ => False

/-- Why evaluation stops: for an error of the program at a place that satisfies `P`, or for want of levels. -/
def Stop.IsOfEvaluation (P : Position → Prop) : Stop → Prop
  | .tooDeep => True
  | .fault reported => reported.cause.IsOfEvaluation ∧ ∃ pos, reported.pos = some pos ∧ P pos

/-! ### Operators -/

namespace Operator

/-- Why an operator gives no value: for its operands, or for having no meaning. -/
def IsCause (op : Operator) : Cause → Prop
  | .expectedNumber .. | .divisionByZero _ => True
  | .meaninglessOperator _ => op ∉ known ∨ op = .assign
  | _ => False

theorem IsCause.isOfEvaluation {op : Operator} {cause : Cause} (h : op.IsCause cause) (hop : op ∈ known)
    (hassign : op ≠ .assign) : cause.IsOfEvaluation := by
  cases cause with
  | expectedNumber | divisionByZero => trivial
  | meaninglessOperator =>
      rcases h with hunknown | hmeaningless
      · exact absurd hop hunknown
      · exact absurd hmeaningless hassign
  | _ => exact h.elim

theorem isCause_numberOperand {op : Operator} {value : Value} {cause : Cause}
    (h : op.numberOperand value = .error cause) : op.IsCause cause := by
  cases value <;> cases h <;> trivial

theorem isCause_divisorOperand {op : Operator} {value : Value} {cause : Cause}
    (h : op.divisorOperand value = .error cause) : op.IsCause cause := by
  unfold divisorOperand at h
  cases hnumber : op.numberOperand value with
  | error other =>
      rw [hnumber] at h
      cases h
      exact isCause_numberOperand hnumber
  | ok divisor =>
      rw [hnumber] at h
      simp only [Bind.bind, Except.bind] at h
      split at h <;> cases h
      trivial

theorem isCause_rightOperand {op : Operator} {value : Value} {cause : Cause}
    (h : op.rightOperand value = .error cause) : op.IsCause cause := by
  unfold rightOperand at h
  split at h
  · exact isCause_divisorOperand h
  · exact isCause_numberOperand h

/-- What an operator gives: an operand or another value that is no closure, or a cause. -/
def IsOutcome (op : Operator) (left right : Value) : Except Cause Value → Prop
  | .ok value => value = left ∨ value = right ∨ ∀ c, value ≠ .closure c
  | .error cause => op.IsCause cause

section

variable {op : Operator} {left right : Value}

theorem isOutcome_bind {m : Except Cause Binary64} {f : Binary64 → Except Cause Value}
    (hm : ∀ cause, m = .error cause → op.IsCause cause) (hf : ∀ x, m = .ok x → IsOutcome op left right (f x)) :
    IsOutcome op left right (m >>= f) := by
  cases h : m with
  | error cause => exact hm cause h
  | ok x => exact hf x h

theorem isOutcome_number (x : Binary64) : IsOutcome op left right (.ok (.number x)) := by
  refine .inr (.inr fun c hclosure => ?_)
  cases hclosure

theorem isOutcome_boolean (b : Bool) : IsOutcome op left right (.ok (.boolean b)) := by
  refine .inr (.inr fun c hclosure => ?_)
  cases hclosure

theorem isOutcome_of_takesNumbers (hop : op ∈ computing ++ comparing) :
    IsOutcome op left right (op.apply left right) := by
  obtain ⟨combine, htakes⟩ := exists_takesAs hop
  rw [htakes.apply_eq]
  refine isOutcome_bind (fun _ => isCause_numberOperand) fun x _ => ?_
  refine isOutcome_bind (fun _ => isCause_rightOperand) fun y hy => ?_
  obtain ⟨_, hvalue, ⟨z, rfl⟩ | ⟨b, rfl⟩⟩ := htakes.exists_value (x := x) hop (number_of_rightOperand hy).2
  · rw [hvalue]
    exact isOutcome_number z
  · rw [hvalue]
    exact isOutcome_boolean b

end

theorem isOutcome_apply (op : Operator) (left right : Value) :
    IsOutcome op left right (op.apply left right) := by
  cases op with
  | add | subtract | multiply | divide | remainder | less | greater | lessOrEqual | greaterOrEqual =>
      exact isOutcome_of_takesNumbers (by decide)
  | equal | notEqual => exact isOutcome_boolean _
  | and =>
      show IsOutcome _ left right (.ok (if left.isTruthy then right else Value.false))
      by_cases htruthy : left.isTruthy = true
      · rw [if_pos htruthy]
        exact .inr (.inl rfl)
      · rw [if_neg htruthy]
        exact isOutcome_boolean Bool.false
  | or =>
      show IsOutcome _ left right (.ok (if left.isTruthy then left else right))
      by_cases htruthy : left.isTruthy = true
      · rw [if_pos htruthy]
        exact .inl rfl
      · rw [if_neg htruthy]
        exact .inr (.inl rfl)
  | assign => exact .inr rfl
  | unknown text => exact .inl (by simp [known])

/-- A value that an operator gives has what both operands have, if all values other than closures have it. -/
theorem IsOutcome.value {op : Operator} {left right value : Value} {Q : Value → Prop}
    (h : IsOutcome op left right (.ok value)) (hleft : Q left) (hright : Q right)
    (hplain : ∀ value, (∀ c, value ≠ .closure c) → Q value) : Q value := by
  rcases h with rfl | rfl | hother
  · exact hleft
  · exact hright
  · exact hplain value hother

/-- Operators that compute with numbers, where the host would fail on other operands. -/
def TakesNumbers (op : Operator) : Prop := op ≠ .and ∧ op ≠ .or ∧ op ≠ .equal ∧ op ≠ .notEqual

/-- Operands that an operator can compute with: numbers where it needs them, and no zero as a divisor. -/
def Accepts (op : Operator) (left right : Value) : Prop :=
  op.TakesNumbers → ∃ x y, left = .number x ∧ right = .number y ∧
    (op = .divide ∨ op = .remainder → y.isZero = false)

theorem accepts_of_takesNumbers {op : Operator} {left right value : Value} (hop : op ∈ computing ++ comparing)
    (h : op.apply left right = .ok value) : op.Accepts left right := by
  intro _
  obtain ⟨combine, htakes⟩ := exists_takesAs hop
  obtain ⟨x, y, hleft, hright, hzero⟩ := htakes.operands h
  refine ⟨x, y, hleft, hright, fun hdivides => hzero ?_⟩
  rcases hdivides with rfl | rfl <;> decide

/-- An operator gives a value only of operands that it can compute with. -/
theorem accepts_of_apply {op : Operator} {left right value : Value} (h : op.apply left right = .ok value) :
    op.Accepts left right := by
  cases op with
  | add | subtract | multiply | divide | remainder | less | greater | lessOrEqual | greaterOrEqual =>
      exact accepts_of_takesNumbers (by decide) h
  | and => exact fun hnumbers => absurd rfl hnumbers.1
  | or => exact fun hnumbers => absurd rfl hnumbers.2.1
  | equal => exact fun hnumbers => absurd rfl hnumbers.2.2.1
  | notEqual => exact fun hnumbers => absurd rfl hnumbers.2.2.2
  | assign | unknown => cases h

end Operator

/-! ### Steps of evaluation -/

/-- From a placed world a computation leads to a placed world and a result that satisfies `Q`, or stops for an
error of the program. -/
def IsSafe {α : Type} (P : Position → Prop) (m : Eval α) (Q : α → Prop) : Prop :=
  ∀ world : World, world.IsPlaced P →
    Leads (fun stop _ => stop.IsOfEvaluation P) m world fun a after => after.IsPlaced P ∧ Q a

/-- A safe computation that leaves a placed world also where it stops. -/
def KeepsPlaced {α : Type} (P : Position → Prop) (m : Eval α) (Q : α → Prop) : Prop :=
  ∀ world : World, world.IsPlaced P →
    Leads (fun stop after => stop.IsOfEvaluation P ∧ after.IsPlaced P) m world fun a after => after.IsPlaced P ∧ Q a

theorem KeepsPlaced.isSafe {α : Type} {m : Eval α} {Q : α → Prop} (h : KeepsPlaced P m Q) : IsSafe P m Q := by
  intro world hworld
  have hkept := h world hworld
  unfold Leads at hkept ⊢
  cases hm : m world with
  | ok a after =>
      rw [hm] at hkept
      exact hkept
  | error stop after =>
      rw [hm] at hkept
      exact hkept.1

namespace KeepsPlaced

variable {α β : Type} {scope : ScopeId} {name : String} {value : Value}

theorem bind {m : Eval α} {f : α → Eval β} {Q : α → Prop} {R : β → Prop} (hm : KeepsPlaced P m Q)
    (hf : ∀ a, Q a → KeepsPlaced P (f a) R) : KeepsPlaced P (m >>= f) R := by
  intro world hworld
  refine .bind ((hm world hworld).mono fun a after hafter => ?_)
  exact hf a hafter.2 after hafter.1

theorem pure {a : α} {Q : α → Prop} (h : Q a) : KeepsPlaced P (Pure.pure a) Q := fun _ hworld => .pure ⟨hworld, h⟩

theorem tooDeep {Q : α → Prop} : KeepsPlaced P (throw .tooDeep : Eval α) Q :=
  fun _ hworld => .throw ⟨trivial, hworld⟩

theorem fail {cause : Cause} {pos : Position} {Q : α → Prop} (hcause : cause.IsOfEvaluation) (hpos : P pos) :
    KeepsPlaced P (Eval.fail cause (some pos) : Eval α) Q :=
  fun _ hworld => .throw ⟨⟨hcause, pos, rfl, hpos⟩, hworld⟩

end KeepsPlaced

theorem World.IsPlaced.extend {store : Store} {serial : Nat} {output : String} {parent : ScopeId}
    {vars : Vars}
    (h : World.IsPlaced P ⟨store, serial, output⟩) (hvars : ∀ entry ∈ vars, entry.2.IsPlaced P) :
    World.IsPlaced P ⟨(store.extend parent vars).1, serial, output⟩ := by
  intro scope entry hentry
  rcases Store.mem_vars_extend hentry with hnew | hold
  · exact hvars entry hnew
  · exact h scope entry hold

theorem World.IsPlaced.define {store : Store} {serial : Nat} {output : String} {scope : ScopeId}
    {name : String}
    {value : Value} (h : World.IsPlaced P ⟨store, serial, output⟩) (hvalue : value.IsPlaced P) (next : Nat) :
    World.IsPlaced P ⟨store.define scope name value, next, output⟩ := by
  intro other entry hentry
  rcases Store.mem_vars_define hentry with hnew | hold
  · exact hnew ▸ hvalue
  · exact h other entry hold

namespace Eval

variable {scope : ScopeId} {name : String} {value : Value}

theorem keepsPlaced_extend {vars : Vars} (hvars : ∀ entry ∈ vars, entry.2.IsPlaced P) :
    KeepsPlaced P (extend scope vars) fun _ => True := fun _ hworld => ⟨hworld.extend hvars, trivial⟩

theorem keepsPlaced_readVariable {pos : Position} (hpos : P pos) :
    KeepsPlaced P (readVariable scope name (some pos)) (Value.IsPlaced P) := by
  intro world hworld
  unfold Leads readVariable
  cases hread : world.store.read scope name with
  | none => exact ⟨⟨trivial, pos, rfl, hpos⟩, hworld⟩
  | some value =>
      refine ⟨hworld, ?_⟩
      obtain ⟨owner, -, hvalue⟩ := Option.bind_eq_some_iff.mp hread
      exact hworld owner (name, value) (Vars.mem_of_get? hvalue)

theorem keepsPlaced_assignVariable {pos : Position} (hpos : P pos) (hvalue : value.IsPlaced P) :
    KeepsPlaced P (assignVariable scope name value (some pos)) (Value.IsPlaced P) := by
  intro world hworld
  unfold Leads assignVariable
  cases howner : world.store.ownerFor? scope name with
  | none =>
      simp only [howner]
      exact ⟨⟨trivial, pos, rfl, hpos⟩, hworld⟩
  | some owner =>
      simp only [howner]
      exact ⟨hworld.define hvalue _, hvalue⟩

theorem keepsPlaced_newClosure {own : Option String} {params : List String} {body : Expr}
    (hbody : body.IsPlaced P) :
    KeepsPlaced P (newClosure own params body scope) (Value.IsPlaced P) := fun _ hworld => ⟨hworld, hbody⟩

theorem keepsPlaced_makeFunction (own : Option String) {params : List String} {body : Expr}
    (hbody : body.IsPlaced P) :
    KeepsPlaced P (makeFunction own params body scope) (Value.IsPlaced P) := by
  cases own with
  | none => exact keepsPlaced_newClosure hbody
  | some own =>
      refine .bind (keepsPlaced_extend (List.forall_mem_nil _)) fun inner _ => ?_
      refine .bind (keepsPlaced_newClosure hbody) fun value hvalue => ?_
      refine KeepsPlaced.bind (Q := fun _ => True) (fun world hworld => ?_) fun _ _ => .pure hvalue
      exact ⟨hworld.define hvalue _, trivial⟩

theorem keepsPlaced_callBuiltin {b : Builtin} {args : List Value} (hargs : ∀ arg ∈ args, arg.IsPlaced P) :
    KeepsPlaced P (callBuiltin b args) (Value.IsPlaced P) := by
  have hvalue : (args.head?.getD Value.false).IsPlaced P := by
    cases args with
    | nil => trivial
    | cons arg args => exact hargs arg List.mem_cons_self
  refine KeepsPlaced.bind (Q := fun _ => True) (fun world hworld => ?_) fun _ _ => .pure hvalue
  exact ⟨hworld, trivial⟩

theorem keepsPlaced_applyOperator {op : Operator} {left right : Value} {pos : Position} (hop : op ∈ Operator.known)
    (hassign : op ≠ .assign) (hleft : left.IsPlaced P) (hright : right.IsPlaced P) (hpos : P pos) :
    KeepsPlaced P (applyOperator op left right (some pos)) (Value.IsPlaced P) := by
  have houtcome := Operator.isOutcome_apply op left right
  unfold applyOperator
  cases happly : op.apply left right with
  | error cause =>
      rw [happly] at houtcome
      exact .fail (houtcome.isOfEvaluation hop hassign) hpos
  | ok value =>
      rw [happly] at houtcome
      refine .pure (houtcome.value hleft hright fun value hplain => ?_)
      cases value with
      | closure c => exact absurd rfl (hplain c)
      | _ => trivial

theorem keepsPlaced_sourceFor {depth : Nat} {e : Expr} : KeepsPlaced P (sourceFor depth e) fun _ => True := by
  unfold sourceFor
  cases e.source? depth with
  | none => exact .tooDeep
  | some text => exact .pure trivial

end Eval

namespace KeepsPlaced

variable {α β : Type} {init : β}

theorem foldlM {xs : List α} {f : β → α → Eval β} {Q : β → Prop} (hinit : Q init)
    (hround : ∀ b x, x ∈ xs → Q b → KeepsPlaced P (f b x) Q) : KeepsPlaced P (xs.foldlM f init) Q := by
  intro world hworld
  have hloop := Leads.foldlM (J := fun b after => World.IsPlaced P after ∧ Q b) (s := world)
    (E := fun stop after => stop.IsOfEvaluation P ∧ World.IsPlaced P after) ⟨hworld, hinit⟩
    fun b x hmem before hbefore => hround b x hmem hbefore.2 before hbefore.1
  exact hloop

theorem mapM {xs : List α} {f : α → Eval β} {Q : β → Prop} (hround : ∀ x ∈ xs, KeepsPlaced P (f x) Q) :
    KeepsPlaced P (xs.mapM f) fun bs => ∀ b ∈ bs, Q b := by
  intro world hworld
  refine Leads.mapM (J := fun bs after => World.IsPlaced P after ∧ ∀ b ∈ bs, Q b) ⟨hworld, List.forall_mem_nil _⟩ ?_
  intro bs x hmem before hbefore
  refine (hround x hmem before hbefore.1).mono fun b after hafter => ⟨hafter.1, ?_⟩
  intro c hc
  rcases List.mem_append.mp hc with hold | hnew
  · exact hbefore.2 c hold
  · exact List.mem_singleton.mp hnew ▸ hafter.2

end KeepsPlaced

/-! ### Evaluation -/

/-- The scopes of a let, given that its initial values are safe. -/
theorem keepsPlaced_bindings {eval : Expr → ScopeId → Eval Value} {bindings : List Binding} (scope : ScopeId)
    (hbindings : ∀ binding ∈ bindings, binding.IsPlaced P)
    (heval : ∀ e scope, e.IsPlaced P → KeepsPlaced P (eval e scope) (Value.IsPlaced P)) :
    KeepsPlaced P (bindings.foldlM (fun outer b => do
      let value ← match b with
        | .bare _ => pure Value.false
        | .bound _ init => eval init outer
      Eval.extend outer [(b.name, value)]) scope) fun _ => True := by
  refine .foldlM trivial fun outer binding hmem _ => ?_
  have hbinding := hbindings binding hmem
  have hextend (value : Value) (hvalue : value.IsPlaced P) :
      KeepsPlaced P (Eval.extend outer [(binding.name, value)]) fun _ => True :=
    Eval.keepsPlaced_extend fun entry hentry => List.mem_singleton.mp hentry ▸ hvalue
  cases binding with
  | bare name => exact .bind (.pure (Q := Value.IsPlaced P) trivial) hextend
  | bound name init => exact .bind (heval init outer (hbinding init rfl)) hextend

theorem keepsPlaced_evaluate (depth : Nat) (e : Expr) (scope : ScopeId) (he : e.IsPlaced P) :
    KeepsPlaced P (evaluate depth e scope) (Value.IsPlaced P) := by
  induction depth using Nat.strongRecOn generalizing e scope with
  | ind depth ih =>
      match depth, ih with
      | 0, _ | 1, _ | 2, _ => exact .tooDeep
      | depth + 3, ih =>
          -- all parts are evaluated with fewer levels
          have heval (k : Nat) (hk : k < 3) (e : Expr) (scope : ScopeId) (he : e.IsPlaced P) :
              KeepsPlaced P (evaluate (depth + k) e scope) (Value.IsPlaced P) :=
            ih (depth + k) (Nat.add_lt_add_left hk depth) e scope he
          have hone := heval 1 (by decide)
          cases he with
          | number value pos => exact .pure trivial
          | string value pos => exact .pure trivial
          | boolean value pos => exact .pure trivial
          | «variable» name hpos => exact Eval.keepsPlaced_readVariable hpos
          | @lambda name params body pos hbody => exact Eval.keepsPlaced_makeFunction name hbody
          | @assign target value pos hvalue hpos =>
              cases target with
              | «variable» name _ =>
                  exact .bind (hone value scope hvalue) fun v hv => Eval.keepsPlaced_assignVariable hpos hv
              | _ => exact .bind Eval.keepsPlaced_sourceFor fun text _ => .fail trivial hpos
          | @binary op left right pos hop hassign hleft hright hpos =>
              refine .bind (heval 2 (by decide) left scope hleft) fun l hl => ?_
              refine .bind (heval 2 (by decide) right scope hright) fun r hr => ?_
              exact Eval.keepsPlaced_applyOperator hop hassign hl hr hpos
          | @ifThen test consequent pos htest hconsequent =>
              refine .bind (hone test scope htest) fun t _ => ?_
              split
              · exact hone consequent scope hconsequent
              · exact .pure trivial
          | @ifThenElse test consequent alternative pos htest hconsequent halternative =>
              refine .bind (hone test scope htest) fun t _ => ?_
              split
              · exact hone consequent scope hconsequent
              · exact hone alternative scope halternative
          | @letIn bindings body pos hbindings hbody =>
              exact .bind (keepsPlaced_bindings scope hbindings hone) fun inner _ => hone body inner hbody
          | @block body pos hbody =>
              exact .foldlM (Q := Value.IsPlaced P) trivial fun _ e hmem _ => hone e scope (hbody e hmem)
          | @call callee args pos hcallee hargs hpos =>
              have hzero := heval 0 (by decide)
              have hvalues :
                  KeepsPlaced P (args.mapM fun a => evaluate depth a scope) fun vs => ∀ v ∈ vs, v.IsPlaced P :=
                .mapM fun arg hmem => hzero arg scope (hargs arg hmem)
              refine .bind (hone callee scope hcallee) fun f hf => ?_
              cases f with
              | closure c =>
                  refine .bind hvalues fun values hargs => ?_
                  refine .bind (Eval.keepsPlaced_extend fun entry hentry => ?_) fun inner _ => hzero c.body inner hf
                  rcases Vars.mem_of_mem_bind hentry with hnone | harg | hfalse
                  · cases hnone
                  · exact hargs entry.2 harg
                  · exact hfalse ▸ trivial
              | builtin b => exact .bind hvalues fun values hargs => Eval.keepsPlaced_callBuiltin hargs
              | _ => exact .bind Eval.keepsPlaced_sourceFor fun text _ => .fail trivial hpos

/-- **Evaluation of placed trees is safe.** -/
theorem isSafe_evaluate (depth : Nat) (e : Expr) (scope : ScopeId) (he : e.IsPlaced P) :
    IsSafe P (evaluate depth e scope) (Value.IsPlaced P) := (keepsPlaced_evaluate depth e scope he).isSafe

end LambdaScript
