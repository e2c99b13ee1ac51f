import LambdaScript.Proofs.Eval.Alike

/-!
Two evaluations side by side. Evaluating trees that differ in places alone, in worlds that do, takes the same steps:
the results are alike, or both evaluations stop for the same cause, and the worlds they leave are alike again. The
judgement is about all worlds that are alike, since a closure carries its body from the world it was made in to the
calls that come later.
-/

namespace LambdaScript

variable {ρ : Position → Position → Prop}

/-- From worlds that are alike two computations come to worlds that are alike, with related results, or they both
stop for the same cause. -/
def GoAlong {α β : Type} (ρ : Position → Position → Prop) (m : Eval α) (m' : Eval β) (R : α → β → Prop) : Prop :=
  ∀ world world' : World, world.Like ρ world' →
    match m world, m' world' with
    | .ok a after, .ok b after' => after.Like ρ after' ∧ R a b
    | .error stop after, .error stop' after' => after.Like ρ after' ∧ stop.Like ρ stop'
    | _, _ => False

namespace GoAlong

variable {α β γ δ : Type} {R : α → β → Prop} {S : γ → δ → Prop}

theorem pure {a : α} {b : β} (h : R a b) : GoAlong ρ (Pure.pure a) (Pure.pure b) R := fun _ _ hworld => ⟨hworld, h⟩

theorem throw {stop stop' : Stop} (h : stop.Like ρ stop') :
    GoAlong ρ (MonadExcept.throw stop : Eval α) (MonadExcept.throw stop' : Eval β) R := fun _ _ hworld => ⟨hworld, h⟩

theorem fail {cause : Cause} {p q : Option Position} (hpos : Option.Rel ρ p q) :
    GoAlong ρ (Eval.fail cause p : Eval α) (Eval.fail cause q : Eval β) R := throw (.fault cause hpos)

theorem bind {m : Eval α} {m' : Eval β} {f : α → Eval γ} {g : β → Eval δ} (hm : GoAlong ρ m m' R)
    (hf : ∀ a b, R a b → GoAlong ρ (f a) (g b) S) : GoAlong ρ (m >>= f) (m' >>= g) S := by
  intro world world' hworld
  have hfirst := hm world world' hworld
  simp only [Bind.bind, EStateM.bind]
  cases hrun : m world with
  | ok a after =>
      cases hrun' : m' world' with
      | ok b after' =>
          rw [hrun, hrun'] at hfirst
          exact hf a b hfirst.2 after after' hfirst.1
      | error stop' after' =>
          rw [hrun, hrun'] at hfirst
          exact hfirst.elim
  | error stop after =>
      cases hrun' : m' world' with
      | ok b after' =>
          rw [hrun, hrun'] at hfirst
          exact hfirst.elim
      | error stop' after' =>
          rw [hrun, hrun'] at hfirst
          exact hfirst

theorem foldlM {xs : List α} {ys : List β} {f : γ → α → Eval γ} {g : δ → β → Eval δ} (hxs : List.Forall₂ R xs ys)
    (hround : ∀ c d x y, S c d → R x y → GoAlong ρ (f c x) (g d y) S) {init : γ} {init' : δ} (hinit : S init init') :
    GoAlong ρ (xs.foldlM f init) (ys.foldlM g init') S := by
  induction hxs generalizing init init' with
  | nil => exact pure hinit
  | @cons x y xs ys hxy _ ih =>
      rw [List.foldlM_cons, List.foldlM_cons]
      exact bind (hround init init' x y hinit hxy) fun c d hcd => ih hcd

theorem mapM {xs : List α} {ys : List β} {f : α → Eval γ} {g : β → Eval δ} (hxs : List.Forall₂ R xs ys)
    (hround : ∀ x y, R x y → GoAlong ρ (f x) (g y) S) : GoAlong ρ (xs.mapM f) (ys.mapM g) (List.Forall₂ S) := by
  induction hxs with
  | nil =>
      rw [List.mapM_nil, List.mapM_nil]
      exact pure .nil
  | @cons x y xs ys hxy _ ih =>
      rw [List.mapM_cons, List.mapM_cons]
      exact bind (hround x y hxy) fun c d hcd => bind ih fun cs ds hrest => pure (.cons hcd hrest)

end GoAlong

/-! ### Steps of evaluation -/

namespace Eval

theorem goAlong_extend (parent : ScopeId) {vars vars' : Vars} (hvars : vars.Like ρ vars') :
    GoAlong ρ (extend parent vars) (extend parent vars') Eq := by
  intro world world' hworld
  obtain ⟨hstore, hserial, houtput⟩ := hworld
  obtain ⟨hscope, hextended⟩ := hstore.extend parent hvars
  exact ⟨⟨hextended, hserial, houtput⟩, hscope⟩

theorem goAlong_readVariable (scope : ScopeId) (name : String) {p q : Option Position} (hpos : Option.Rel ρ p q) :
    GoAlong ρ (readVariable scope name p) (readVariable scope name q) (Value.Like ρ) := by
  intro world world' hworld
  have hread := hworld.store.read scope name
  simp only [readVariable]
  generalize world.store.read scope name = value? at hread ⊢
  generalize world'.store.read scope name = value?' at hread ⊢
  cases hread with
  | none => exact ⟨hworld, .fault _ hpos⟩
  | some hvalue => exact ⟨hworld, hvalue⟩

theorem goAlong_assignVariable (scope : ScopeId) (name : String) {value value' : Value} {p q : Option Position}
    (hvalue : value.Like ρ value') (hpos : Option.Rel ρ p q) :
    GoAlong ρ (assignVariable scope name value p) (assignVariable scope name value' q) (Value.Like ρ) := by
  intro world world' hworld
  obtain ⟨hstore, hserial, houtput⟩ := hworld
  unfold assignVariable
  simp only [hstore.ownerFor?_eq]
  cases world'.store.ownerFor? scope name with
  | none => exact ⟨⟨hstore, hserial, houtput⟩, .fault _ hpos⟩
  | some owner => exact ⟨⟨hstore.define owner name hvalue, hserial, houtput⟩, hvalue⟩

theorem goAlong_write (text : String) : GoAlong ρ (write text) (write text) fun _ _ => True := by
  intro world world' hworld
  obtain ⟨hstore, hserial, houtput⟩ := hworld
  exact ⟨⟨hstore, hserial, congrArg (· ++ text) houtput⟩, trivial⟩

theorem goAlong_newClosure (name : Option String) (params : List String) {body body' : Expr} (scope : ScopeId)
    (hbody : body.Like ρ body') :
    GoAlong ρ (newClosure name params body scope) (newClosure name params body' scope) (Value.Like ρ) := by
  intro world world' hworld
  obtain ⟨store, serial, output⟩ := world
  obtain ⟨store', serial', output'⟩ := world'
  obtain ⟨hstore, rfl, rfl⟩ := hworld
  exact ⟨⟨hstore, rfl, rfl⟩, .closure serial name params scope hbody⟩

theorem goAlong_makeFunction (name : Option String) (params : List String) {body body' : Expr} (scope : ScopeId)
    (hbody : body.Like ρ body') :
    GoAlong ρ (makeFunction name params body scope) (makeFunction name params body' scope) (Value.Like ρ) := by
  cases name with
  | none => exact goAlong_newClosure none params scope hbody
  | some name =>
      refine .bind (goAlong_extend scope .nil) ?_
      rintro inner _ rfl
      refine .bind (goAlong_newClosure (some name) params inner hbody) fun value value' hvalue => ?_
      refine GoAlong.bind (R := fun _ _ => True) (fun world world' hworld => ?_) fun _ _ _ => .pure hvalue
      obtain ⟨hstore, hserial, houtput⟩ := hworld
      exact ⟨⟨hstore.define inner name hvalue, hserial, houtput⟩, trivial⟩

theorem goAlong_callBuiltin (b : Builtin) {args args' : List Value} (hargs : List.Forall₂ (Value.Like ρ) args args') :
    GoAlong ρ (callBuiltin b args) (callBuiltin b args') (Value.Like ρ) := by
  have hvalue : (args.head?.getD Value.false).Like ρ (args'.head?.getD Value.false) := by
    cases hargs with
    | nil => exact .boolean Bool.false
    | cons harg _ => exact harg
  simp only [callBuiltin, hvalue.text_eq]
  exact .bind (goAlong_write _) fun _ _ _ => .pure hvalue

theorem goAlong_enter {c c' : Closure} {args args' : List Value} (hc : (Value.closure c).Like ρ (.closure c'))
    (hargs : List.Forall₂ (Value.Like ρ) args args') : GoAlong ρ (enter c args) (enter c' args') Eq := by
  cases hc with
  | closure serial name params scope hbody => exact goAlong_extend scope (Vars.Like.bind hargs params .nil)

theorem goAlong_applyOperator (op : Operator) {left left' right right' : Value} {p q : Option Position}
    (hleft : left.Like ρ left') (hright : right.Like ρ right') (hpos : Option.Rel ρ p q) :
    GoAlong ρ (applyOperator op left right p) (applyOperator op left' right' q) (Value.Like ρ) := by
  have happly := Operator.appliedAlike_apply op hleft hright
  unfold applyOperator
  generalize op.apply left right = outcome at happly ⊢
  generalize op.apply left' right' = outcome' at happly ⊢
  cases happly with
  | value hvalue => exact .pure hvalue
  | cause cause => exact .fail hpos

theorem goAlong_sourceFor (depth : Nat) {e e' : Expr} (he : e.Like ρ e') :
    GoAlong ρ (sourceFor depth e) (sourceFor depth e') Eq := by
  unfold sourceFor
  rw [he.source?_eq]
  cases e'.source? depth with
  | none => exact .throw .tooDeep
  | some text => exact .pure rfl

theorem goAlong_failWithSource (depth : Nat) (cause : String → Cause) {e e' : Expr} {p q : Option Position}
    (he : e.Like ρ e') (hpos : Option.Rel ρ p q) :
    GoAlong ρ (do fail (cause (← sourceFor depth e)) p : Eval Value) (do fail (cause (← sourceFor depth e')) q)
      (Value.Like ρ) := by
  refine .bind (goAlong_sourceFor depth he) ?_
  rintro text _ rfl
  exact .fail hpos

end Eval

/-! ### Evaluation -/

/-- The scopes of a let, given that its initial values are evaluated alike. -/
theorem goAlong_bindings {eval : Expr → ScopeId → Eval Value} {bindings bindings' : List Binding} (scope : ScopeId)
    (hbindings : List.Forall₂ (Binding.Like ρ) bindings bindings')
    (heval : ∀ {e e'} (scope : ScopeId), e.Like ρ e' → GoAlong ρ (eval e scope) (eval e' scope) (Value.Like ρ)) :
    GoAlong ρ
      (bindings.foldlM (fun outer b => do
        let value ← match b with
          | .bare _ => pure Value.false
          | .bound _ init => eval init outer
        Eval.extend outer [(b.name, value)]) scope)
      (bindings'.foldlM (fun outer b => do
        let value ← match b with
          | .bare _ => pure Value.false
          | .bound _ init => eval init outer
        Eval.extend outer [(b.name, value)]) scope) Eq := by
  refine .foldlM hbindings ?_ rfl
  rintro outer _ b b' rfl hb
  cases hb with
  | bare name =>
      exact .bind (.pure (.boolean Bool.false)) fun value value' hvalue =>
        Eval.goAlong_extend outer (.cons ⟨rfl, hvalue⟩ .nil)
  | bound name hinit =>
      exact .bind (heval outer hinit) fun value value' hvalue => Eval.goAlong_extend outer (.cons ⟨rfl, hvalue⟩ .nil)

/-- **Trees that differ in places alone are evaluated alike.** -/
theorem goAlong_evaluate (depth : Nat) {e e' : Expr} (scope : ScopeId) (he : e.Like ρ e') :
    GoAlong ρ (evaluate depth e scope) (evaluate depth e' scope) (Value.Like ρ) := by
  induction depth using Nat.strongRecOn generalizing e e' scope with
  | ind depth ih =>
      match depth, ih with
      | 0, _ | 1, _ | 2, _ => exact .throw .tooDeep
      | depth + 3, ih =>
          -- all parts are evaluated with fewer levels
          have heval (k : Nat) (hk : k < 3) {e e' : Expr} (scope : ScopeId) (he : e.Like ρ e') :
              GoAlong ρ (evaluate (depth + k) e scope) (evaluate (depth + k) e' scope) (Value.Like ρ) :=
            ih (depth + k) (Nat.add_lt_add_left hk depth) scope he
          have hone {e e' : Expr} (scope : ScopeId) (he : e.Like ρ e') := heval 1 (by decide) scope he
          cases he with
          | number value hpos => exact .pure (.number value)
          | string value hpos => exact .pure (.string value)
          | boolean value hpos => exact .pure (.boolean value)
          | «variable» name hpos => exact Eval.goAlong_readVariable scope name hpos
          | lambda name params hbody hpos => exact Eval.goAlong_makeFunction name params scope hbody
          | assign htarget hvalue hpos =>
              have hinvalid := Eval.goAlong_failWithSource (depth + 1) .invalidTarget htarget hpos
              cases htarget with
              | «variable» name _ =>
                  exact .bind (hone scope hvalue) fun v v' hv => Eval.goAlong_assignVariable scope name hv hpos
              | _ => exact hinvalid
          | binary op hleft hright hpos =>
              refine .bind (heval 2 (by decide) scope hleft) fun l l' hl => ?_
              refine .bind (heval 2 (by decide) scope hright) fun r r' hr => ?_
              exact Eval.goAlong_applyOperator op hl hr hpos
          | ifThen htest hconsequent hpos =>
              refine .bind (hone scope htest) fun t t' ht => ?_
              rw [ht.isTruthy_eq]
              split
              · exact hone scope hconsequent
              · exact .pure (.boolean Bool.false)
          | ifThenElse htest hconsequent halternative hpos =>
              refine .bind (hone scope htest) fun t t' ht => ?_
              rw [ht.isTruthy_eq]
              split
              · exact hone scope hconsequent
              · exact hone scope halternative
          | letIn hbindings hbody hpos =>
              refine .bind (goAlong_bindings scope hbindings hone) ?_
              rintro inner _ rfl
              exact hone inner hbody
          | block hbody hpos =>
              exact .foldlM hbody (fun _ _ _ _ _ he => hone scope he) (.boolean Bool.false)
          | call hcallee hargs hpos =>
              have hzero {e e' : Expr} (scope : ScopeId) (he : e.Like ρ e') := heval 0 (by decide) scope he
              have hvalues := GoAlong.mapM hargs fun _ _ harg => hzero scope harg
              refine .bind (hone scope hcallee) fun f f' hf => ?_
              cases hf with
              | closure serial name params inner hbody =>
                  refine .bind hvalues fun values values' hvalues => ?_
                  refine .bind (Eval.goAlong_enter (.closure serial name params inner hbody) hvalues) ?_
                  rintro scope _ rfl
                  exact hzero scope hbody
              | builtin b => exact .bind hvalues fun values values' hvalues => Eval.goAlong_callBuiltin b hvalues
              | _ => exact Eval.goAlong_failWithSource (depth + 1) .notCallable hcallee hpos

end LambdaScript
