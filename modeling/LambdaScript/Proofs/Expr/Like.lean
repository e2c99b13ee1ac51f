import LambdaScript.Expr.Source
import Mathlib.Data.List.Forall2

/-!
Trees that differ in places alone. `Expr.Like ρ` relates trees of one shape whose places are related by `ρ` node
by node. With equality for `ρ` it is equality of trees; whatever `ρ` is, related trees agree, read the same when
they are written out, and are nested equally deep.
-/

namespace LambdaScript

mutual

/-- Two trees are the same up to places, and places at the same node are related. -/
inductive Expr.Like (ρ : Position → Position → Prop) : Expr → Expr → Prop where
  | number (value : Binary64) {p q : Option Position} (hpos : Option.Rel ρ p q) :
      Expr.Like ρ (.number value p) (.number value q)
  | string (value : String) {p q : Option Position} (hpos : Option.Rel ρ p q) :
      Expr.Like ρ (.string value p) (.string value q)
  | boolean (value : Bool) {p q : Option Position} (hpos : Option.Rel ρ p q) :
      Expr.Like ρ (.boolean value p) (.boolean value q)
  | variable (name : String) {p q : Option Position} (hpos : Option.Rel ρ p q) :
      Expr.Like ρ (.variable name p) (.variable name q)
  | lambda (name : Option String) (params : List String) {body body' : Expr} {p q : Option Position}
      (hbody : Expr.Like ρ body body') (hpos : Option.Rel ρ p q) :
      Expr.Like ρ (.lambda name params body p) (.lambda name params body' q)
  | call {callee callee' : Expr} {args args' : List Expr} {p q : Option Position} (hcallee : Expr.Like ρ callee callee')
      (hargs : List.Forall₂ (Expr.Like ρ) args args') (hpos : Option.Rel ρ p q) :
      Expr.Like ρ (.call callee args p) (.call callee' args' q)
  | ifThen {test test' consequent consequent' : Expr} {p q : Option Position} (htest : Expr.Like ρ test test')
      (hconsequent : Expr.Like ρ consequent consequent') (hpos : Option.Rel ρ p q) :
      Expr.Like ρ (.ifThen test consequent p) (.ifThen test' consequent' q)
  | ifThenElse {test test' consequent consequent' alternative alternative' : Expr} {p q : Option Position}
      (htest : Expr.Like ρ test test') (hconsequent : Expr.Like ρ consequent consequent')
      (halternative : Expr.Like ρ alternative alternative') (hpos : Option.Rel ρ p q) :
      Expr.Like ρ (.ifThenElse test consequent alternative p) (.ifThenElse test' consequent' alternative' q)
  | assign {target target' value value' : Expr} {p q : Option Position} (htarget : Expr.Like ρ target target')
      (hvalue : Expr.Like ρ value value') (hpos : Option.Rel ρ p q) :
      Expr.Like ρ (.assign target value p) (.assign target' value' q)
  | binary (op : Operator) {left left' right right' : Expr} {p q : Option Position} (hleft : Expr.Like ρ left left')
      (hright : Expr.Like ρ right right') (hpos : Option.Rel ρ p q) :
      Expr.Like ρ (.binary op left right p) (.binary op left' right' q)
  | letIn {bindings bindings' : List Binding} {body body' : Expr} {p q : Option Position}
      (hbindings : List.Forall₂ (Binding.Like ρ) bindings bindings') (hbody : Expr.Like ρ body body')
      (hpos : Option.Rel ρ p q) : Expr.Like ρ (.letIn bindings body p) (.letIn bindings' body' q)
  | block {body body' : List Expr} {p q : Option Position} (hbody : List.Forall₂ (Expr.Like ρ) body body')
      (hpos : Option.Rel ρ p q) : Expr.Like ρ (.block body p) (.block body' q)

/-- Two bindings of one name, with initial values that are the same up to places, or without. -/
inductive Binding.Like (ρ : Position → Position → Prop) : Binding → Binding → Prop where
  | bare (name : String) : Binding.Like ρ (.bare name) (.bare name)
  | bound (name : String) {init init' : Expr} (hinit : Expr.Like ρ init init') :
      Binding.Like ρ (.bound name init) (.bound name init')

end

variable {ρ : Position → Position → Prop}

theorem Binding.Like.name_eq {b b' : Binding} (h : b.Like ρ b') : b.name = b'.name := by
  cases h <;> rfl

/-! ### What does not depend on places -/

mutual

/-- Trees that differ in places alone agree. -/
theorem Expr.Like.agrees : ∀ {e e' : Expr}, e.Like ρ e' → e.agrees e' = true
  | _, _, .number .. | _, _, .string .. | _, _, .boolean .. | _, _, .variable .. => by simp [Expr.agrees]
  | _, _, .lambda _ _ hbody _ => by simp [Expr.agrees, hbody.agrees]
  | _, _, .call hcallee hargs _ => by simp [Expr.agrees, hcallee.agrees, listAgrees_of_like hargs]
  | _, _, .ifThen htest hconsequent _ => by simp [Expr.agrees, htest.agrees, hconsequent.agrees]
  | _, _, .ifThenElse htest hconsequent halternative _ => by
      simp [Expr.agrees, htest.agrees, hconsequent.agrees, halternative.agrees]
  | _, _, .assign htarget hvalue _ => by simp [Expr.agrees, htarget.agrees, hvalue.agrees]
  | _, _, .binary _ hleft hright _ => by simp [Expr.agrees, hleft.agrees, hright.agrees]
  | _, _, .letIn hbindings hbody _ => by simp [Expr.agrees, hbody.agrees, bindingsAgree_of_like hbindings]
  | _, _, .block hbody _ => by simp [Expr.agrees, listAgrees_of_like hbody]
termination_by structural e => e

theorem Binding.Like.agrees : ∀ {b b' : Binding}, b.Like ρ b' → b.agrees b' = true
  | _, _, .bare _ => by simp [Binding.agrees]
  | _, _, .bound _ hinit => by simp [Binding.agrees, hinit.agrees]
termination_by structural b => b

theorem listAgrees_of_like : ∀ {es es' : List Expr}, List.Forall₂ (Expr.Like ρ) es es' →
    Expr.listAgrees es es' = true
  | _, _, .nil => by rw [Expr.listAgrees]
  | _, _, .cons he hes => by simp [Expr.listAgrees, he.agrees, listAgrees_of_like hes]
termination_by structural es => es

theorem bindingsAgree_of_like : ∀ {bs bs' : List Binding}, List.Forall₂ (Binding.Like ρ) bs bs' →
    Binding.listAgrees bs bs' = true
  | _, _, .nil => by rw [Binding.listAgrees]
  | _, _, .cons hb hbs => by simp [Binding.listAgrees, hb.agrees, bindingsAgree_of_like hbs]
termination_by structural bs => bs

end

mutual

/-- Trees that differ in places alone are written in the same way. -/
theorem Expr.Like.source_eq : ∀ {e e' : Expr}, e.Like ρ e' → e.source = e'.source
  | _, _, .number .. | _, _, .string .. | _, _, .boolean .. | _, _, .variable .. => rfl
  | _, _, .lambda _ _ hbody _ => by simp only [Expr.source, hbody.source_eq]
  | _, _, .call hcallee hargs _ => by simp only [Expr.source, hcallee.source_eq, sources_eq_of_like hargs]
  | _, _, .ifThen htest hconsequent _ => by simp only [Expr.source, htest.source_eq, hconsequent.source_eq]
  | _, _, .ifThenElse htest hconsequent halternative _ => by
      simp only [Expr.source, htest.source_eq, hconsequent.source_eq, halternative.source_eq]
  | _, _, .assign htarget hvalue _ => by simp only [Expr.source, htarget.source_eq, hvalue.source_eq]
  | _, _, .binary _ hleft hright _ => by simp only [Expr.source, hleft.source_eq, hright.source_eq]
  | _, _, .letIn hbindings hbody _ => by
      simp only [Expr.source, hbody.source_eq, bindingSources_eq_of_like hbindings]
  | _, _, .block hbody _ => by simp only [Expr.source, sources_eq_of_like hbody]
termination_by structural e => e

theorem Binding.Like.source_eq : ∀ {b b' : Binding}, b.Like ρ b' → b.source = b'.source
  | _, _, .bare _ => rfl
  | _, _, .bound _ hinit => by simp only [Binding.source, hinit.source_eq]
termination_by structural b => b

theorem sources_eq_of_like : ∀ {es es' : List Expr}, List.Forall₂ (Expr.Like ρ) es es' →
    Expr.sources es = Expr.sources es'
  | _, _, .nil => rfl
  | _, _, .cons he hes => by simp only [Expr.sources, he.source_eq, sources_eq_of_like hes]
termination_by structural es => es

theorem bindingSources_eq_of_like : ∀ {bs bs' : List Binding}, List.Forall₂ (Binding.Like ρ) bs bs' →
    Binding.sources bs = Binding.sources bs'
  | _, _, .nil => rfl
  | _, _, .cons hb hbs => by simp only [Binding.sources, hb.source_eq, bindingSources_eq_of_like hbs]
termination_by structural bs => bs

end

mutual

/-- Trees that differ in places alone are nested equally deep. -/
theorem Expr.Like.height_eq : ∀ {e e' : Expr}, e.Like ρ e' → e.height = e'.height
  | _, _, .number .. | _, _, .string .. | _, _, .boolean .. | _, _, .variable .. => by simp only [Expr.height]
  | _, _, .lambda _ _ hbody _ => by simp only [Expr.height, hbody.height_eq]
  | _, _, .call hcallee hargs _ => by simp only [Expr.height, hcallee.height_eq, listHeight_eq_of_like hargs]
  | _, _, .ifThen htest hconsequent _ => by simp only [Expr.height, htest.height_eq, hconsequent.height_eq]
  | _, _, .ifThenElse htest hconsequent halternative _ => by
      simp only [Expr.height, htest.height_eq, hconsequent.height_eq, halternative.height_eq]
  | _, _, .assign htarget hvalue _ => by simp only [Expr.height, htarget.height_eq, hvalue.height_eq]
  | _, _, .binary _ hleft hright _ => by simp only [Expr.height, hleft.height_eq, hright.height_eq]
  | _, _, .letIn hbindings hbody _ => by
      simp only [Expr.height, hbody.height_eq, bindingHeight_eq_of_like hbindings]
  | _, _, .block hbody _ => by simp only [Expr.height, listHeight_eq_of_like hbody]
termination_by structural e => e

theorem Binding.Like.height_eq : ∀ {b b' : Binding}, b.Like ρ b' → b.height = b'.height
  | _, _, .bare _ => by simp only [Binding.height]
  | _, _, .bound _ hinit => by simp only [Binding.height, hinit.height_eq]
termination_by structural b => b

theorem listHeight_eq_of_like : ∀ {es es' : List Expr}, List.Forall₂ (Expr.Like ρ) es es' →
    Expr.listHeight es = Expr.listHeight es'
  | _, _, .nil => rfl
  | _, _, .cons he hes => by simp only [Expr.listHeight, he.height_eq, listHeight_eq_of_like hes]
termination_by structural es => es

theorem bindingHeight_eq_of_like : ∀ {bs bs' : List Binding}, List.Forall₂ (Binding.Like ρ) bs bs' →
    Binding.listHeight bs = Binding.listHeight bs'
  | _, _, .nil => rfl
  | _, _, .cons hb hbs => by simp only [Binding.listHeight, hb.height_eq, bindingHeight_eq_of_like hbs]
termination_by structural bs => bs

end

theorem Expr.Like.source?_eq {e e' : Expr} (h : e.Like ρ e') (depth : Nat) : e.source? depth = e'.source? depth := by
  rw [Expr.source?, Expr.source?, h.height_eq, h.source_eq]

/-! ### Equal places -/

theorem eq_of_optionRel_eq {p q : Option Position} (h : Option.Rel Eq p q) : p = q := by
  cases h with
  | some hpos => rw [hpos]
  | none => rfl

mutual

/-- Trees that do not differ in places either are equal. -/
theorem Expr.Like.eq : ∀ {e e' : Expr}, e.Like Eq e' → e = e'
  | _, _, .number _ hpos | _, _, .string _ hpos | _, _, .boolean _ hpos | _, _, .variable _ hpos => by
      rw [eq_of_optionRel_eq hpos]
  | _, _, .lambda _ _ hbody hpos => by rw [hbody.eq, eq_of_optionRel_eq hpos]
  | _, _, .call hcallee hargs hpos => by rw [hcallee.eq, eq_of_like hargs, eq_of_optionRel_eq hpos]
  | _, _, .ifThen htest hconsequent hpos => by rw [htest.eq, hconsequent.eq, eq_of_optionRel_eq hpos]
  | _, _, .ifThenElse htest hconsequent halternative hpos => by
      rw [htest.eq, hconsequent.eq, halternative.eq, eq_of_optionRel_eq hpos]
  | _, _, .assign htarget hvalue hpos => by rw [htarget.eq, hvalue.eq, eq_of_optionRel_eq hpos]
  | _, _, .binary _ hleft hright hpos => by rw [hleft.eq, hright.eq, eq_of_optionRel_eq hpos]
  | _, _, .letIn hbindings hbody hpos => by rw [bindings_eq_of_like hbindings, hbody.eq, eq_of_optionRel_eq hpos]
  | _, _, .block hbody hpos => by rw [eq_of_like hbody, eq_of_optionRel_eq hpos]
termination_by structural e => e

theorem Binding.Like.eq : ∀ {b b' : Binding}, b.Like Eq b' → b = b'
  | _, _, .bare _ => rfl
  | _, _, .bound _ hinit => by rw [hinit.eq]
termination_by structural b => b

theorem eq_of_like : ∀ {es es' : List Expr}, List.Forall₂ (Expr.Like Eq) es es' → es = es'
  | _, _, .nil => rfl
  | _, _, .cons he hes => by rw [he.eq, eq_of_like hes]
termination_by structural es => es

theorem bindings_eq_of_like : ∀ {bs bs' : List Binding}, List.Forall₂ (Binding.Like Eq) bs bs' → bs = bs'
  | _, _, .nil => rfl
  | _, _, .cons hb hbs => by rw [hb.eq, bindings_eq_of_like hbs]
termination_by structural bs => bs

end

/-! ### Trees beside themselves -/

theorem optionRel_refl (hρ : ∀ pos, ρ pos pos) (p : Option Position) : Option.Rel ρ p p := by
  cases p with
  | none => exact .none
  | some pos => exact .some (hρ pos)

mutual

/-- A tree is like itself. -/
theorem Expr.like_refl (hρ : ∀ pos, ρ pos pos) : ∀ e : Expr, e.Like ρ e
  | .number value p => .number value (optionRel_refl hρ p)
  | .string value p => .string value (optionRel_refl hρ p)
  | .boolean value p => .boolean value (optionRel_refl hρ p)
  | .variable name p => .variable name (optionRel_refl hρ p)
  | .lambda name params body p => .lambda name params (body.like_refl hρ) (optionRel_refl hρ p)
  | .call callee args p => .call (callee.like_refl hρ) (forall₂_like_refl hρ args) (optionRel_refl hρ p)
  | .ifThen test consequent p => .ifThen (test.like_refl hρ) (consequent.like_refl hρ) (optionRel_refl hρ p)
  | .ifThenElse test consequent alternative p =>
      .ifThenElse (test.like_refl hρ) (consequent.like_refl hρ) (alternative.like_refl hρ) (optionRel_refl hρ p)
  | .assign target value p => .assign (target.like_refl hρ) (value.like_refl hρ) (optionRel_refl hρ p)
  | .binary op left right p => .binary op (left.like_refl hρ) (right.like_refl hρ) (optionRel_refl hρ p)
  | .letIn bindings body p =>
      .letIn (forall₂_bindingLike_refl hρ bindings) (body.like_refl hρ) (optionRel_refl hρ p)
  | .block body p => .block (forall₂_like_refl hρ body) (optionRel_refl hρ p)

theorem Binding.like_refl (hρ : ∀ pos, ρ pos pos) : ∀ b : Binding, b.Like ρ b
  | .bare name => .bare name
  | .bound name init => .bound name (init.like_refl hρ)

theorem forall₂_like_refl (hρ : ∀ pos, ρ pos pos) : ∀ es : List Expr, List.Forall₂ (Expr.Like ρ) es es
  | [] => .nil
  | e :: es => .cons (e.like_refl hρ) (forall₂_like_refl hρ es)

theorem forall₂_bindingLike_refl (hρ : ∀ pos, ρ pos pos) :
    ∀ bs : List Binding, List.Forall₂ (Binding.Like ρ) bs bs
  | [] => .nil
  | b :: bs => .cons (b.like_refl hρ) (forall₂_bindingLike_refl hρ bs)

end

end LambdaScript
