import LambdaScript.Proofs.Expr.Completeness
import LambdaScript.Proofs.Expr.Faithful

/-!
Written forms read as what they are written for. The tokens of a faithful tree are taken in by the reader of
expressions up to where the surroundings go on, and the tree that is read is the faithful one up to places. A closed
tree can moreover be followed by argument lists, and any tree but an assignment is an operand.
-/

namespace LambdaScript

namespace Parser

open Grammar

variable {text : String} {fault : Option Fault} {rest : List PlacedToken}

/-! ### Expressions with one operator, or none -/

/-- Where no operator follows, going on from an operand is over at once. -/
theorem takes_climb_end {b : Bool} (hends : Ends fault b rest) (depth : Nat) (left : Expr) (precedence : Nat) :
    Takes text fault (climb depth left precedence) [] rest (· = left) := by
  cases depth with
  | zero =>
      rw [Takes, climb]
      exact Runs.throw rfl
  | succ depth =>
      rw [Takes, climb]
      exact Accepts.peekOperator_bind_none hends.clear hends.no_operator (Runs.pure ⟨rfl, rfl⟩)

/-- An operand that no operator follows is an expression. -/
theorem isTakenBy_expression {b : Bool} {ts : List PlacedToken} {V : Expr → Prop}
    (h : ∀ depth, IsTakenBy text (operand (expression depth)) b ts V) (depth : Nat) :
    IsTakenBy text (expression depth) b ts V := by
  intro fault rest hends
  cases depth with
  | zero =>
      rw [Takes, expression]
      exact Runs.throw rfl
  | succ depth =>
      rw [Takes, expression]
      refine (h depth rest hends).bind fun e he => ?_
      refine (takes_climb_end hends depth e 0).bind ?_
      rintro _ rfl
      refine (takes_applied_end hends.clear hends.no_call).mono ?_
      rintro _ rfl
      exact he

/-- Two operands with an operator between them, the first one closed, are an expression. -/
theorem isTakenBy_link {b : Bool} {op : Operator} {pos : Position} {ts us : List PlacedToken} {V W : Expr → Prop}
    (hop : op ∈ Operator.known) (hleft : ∀ depth, IsOperandOf text (expression depth) ts V)
    (hright : ∀ depth, IsTakenBy text (operand (expression depth)) b us W) (depth : Nat) :
    IsTakenBy text (expression depth) b (ts ++ ⟨.operator op, pos⟩ :: us) fun tree =>
      ∃ left right, V left ∧ W right ∧ tree = combine op pos left right := by
  intro fault rest hends
  cases depth with
  | zero =>
      rw [Takes, expression]
      exact Runs.throw rfl
  | succ depth =>
      rw [Takes, expression, List.append_assoc]
      refine ((hleft depth).takes .cons (by simp)).bind fun left hl => ?_
      have hclimb : Takes text fault (climb depth left 0) (⟨.operator op, pos⟩ :: us) rest fun tree =>
          ∃ right, W right ∧ tree = combine op pos left right := by
        cases depth with
        | zero =>
            rw [Takes, climb]
            exact Runs.throw rfl
        | succ depth =>
            rw [Takes, climb]
            refine Accepts.peekOperator_bind ?_
            simp only [precedence_pos hop, if_true]
            refine .next_bind ((hright depth rest hends).bind fun right hr => ?_)
            refine (takes_climb_end hends depth right op.precedence).bind ?_
            rintro _ rfl
            refine (takes_climb_end hends depth _ 0).mono ?_
            rintro _ rfl
            exact ⟨_, hr, rfl⟩
      refine hclimb.bind ?_
      rintro tree ⟨right, hr, rfl⟩
      refine (takes_applied_end hends.clear hends.no_call).mono ?_
      rintro _ rfl
      exact ⟨left, right, hl, hr, rfl⟩

/-! ### Written forms -/

/-- What reading makes of the written form of a tree: the same tree, up to places. -/
structure IsReadBack (text : String) (ts : List PlacedToken) (e : Expr) : Prop where
  starts : Starts ts
  closed : e.isOpen = false → ∀ depth, IsOperandOf text (expression depth) ts (e.agrees · = true)
  operand : e.isAssign = false → ∀ depth, IsTakenBy text (operand (expression depth)) e.takesElse ts (e.agrees · = true)
  expression : ∀ depth, IsTakenBy text (expression depth) e.takesElse ts (e.agrees · = true)

namespace IsReadBack

variable {ts : List PlacedToken} {e : Expr}

theorem of_closed (hstarts : Starts ts)
    (h : ∀ depth, IsOperandOf text (Parser.expression depth) ts (e.agrees · = true)) : IsReadBack text ts e := by
  have htaken (depth : Nat) :
      IsTakenBy text (Parser.operand (Parser.expression depth)) e.takesElse ts (e.agrees · = true) :=
    fun _ rest hends => (h depth).takes hends.clear hends.no_call
  exact ⟨hstarts, fun _ => h, fun _ => htaken, isTakenBy_expression htaken⟩

theorem of_opened (hopen : e.isOpen = true) (hstarts : Starts ts)
    (h : ∀ depth, IsTakenBy text (atom (Parser.expression depth)) e.takesElse ts (e.agrees · = true)) :
    IsReadBack text ts e := by
  have htaken (depth : Nat) := isTakenBy_operand (h depth)
  exact ⟨hstarts, fun hclosed => absurd (hopen.symm.trans hclosed) (by decide), fun _ => htaken,
    isTakenBy_expression htaken⟩

theorem of_leaf {token : Token} {pos : Position} (hleaf : IsLeaf token)
    (h : ∀ tree, IsLeafTree ⟨token, pos⟩ tree → e.agrees tree = true) : IsReadBack text [⟨token, pos⟩] e := by
  have hstarts : Starts [⟨token, pos⟩] := ⟨_, [], rfl, fun mark hmark => by cases hleaf <;> cases hmark⟩
  exact .of_closed hstarts fun depth => (isOperandOf_leaf hleaf).mono h

theorem isItemOf (h : IsReadBack text ts e) (depth : Nat) :
    IsItemOf text (Parser.expression depth) ts (e.agrees · = true) :=
  ⟨h.starts, fun _ rest hends => h.expression depth rest (hends.of_le fun _ => rfl)⟩

end IsReadBack

theorem listAgrees_of_forall₂ {es es' : List Expr} (h : List.Forall₂ (fun e e' => e.agrees e' = true) es es') :
    Expr.listAgrees es es' = true := by
  induction h with
  | nil => rw [Expr.listAgrees]
  | cons he _ ih => rw [Expr.listAgrees, he, ih]; rfl

theorem bindingsAgree_of_forall₂ {bs bs' : List Binding} (h : List.Forall₂ (fun b b' => b.agrees b' = true) bs bs') :
    Binding.listAgrees bs bs' = true := by
  induction h with
  | nil => rw [Binding.listAgrees]
  | cons hb _ ih => rw [Binding.listAgrees, hb, ih]; rfl

theorem blockOf_of_two (pos : Position) {body : List Expr} (htwo : 2 ≤ body.length) :
    blockOf pos body = .block body (some pos) := by
  match body with
  | _ :: _ :: _ => rfl

end Parser

namespace Grammar

open LambdaScript.Parser

variable {text : String}

mutual

/-- **The written form of a faithful tree is read as that tree.** -/
theorem Written.isReadBack : ∀ {ts : List PlacedToken} {e : Expr}, Written ts e → IsReadBack text ts e
  | _, _, .number value pos p => .of_leaf (.number value) (by rintro _ ⟨⟩; simp [Expr.agrees])
  | _, _, .string value pos p => .of_leaf (.string value) (by rintro _ ⟨⟩; simp [Expr.agrees])
  | _, _, .boolean value pos p => .of_leaf (.boolean value) (by rintro _ ⟨⟩; simp [Expr.agrees])
  | _, _, .variable name pos p => .of_leaf (.identifier name) (by rintro _ ⟨⟩; simp [Expr.agrees])
  | _, _, .lambda p hname hparams hbody => by
      refine .of_opened rfl ⟨_, _, rfl, fun mark hmark => nomatch hmark⟩ fun depth => ?_
      refine (isTakenBy_lambda (.inr rfl) hname hparams (hbody.isReadBack.expression depth)).mono ?_
      rintro _ ⟨body, hbody, rfl⟩
      simp [Expr.agrees, hbody]
  | _, _, .call p hclosed hcallee hargs => by
      refine .of_closed (hcallee.isReadBack.starts.append _) fun depth => ?_
      refine (isOperandOf_call (hcallee.isReadBack.closed hclosed depth)
        ((isReadBack_items hargs).imp fun hitem => hitem.isItemOf depth)).mono ?_
      rintro _ ⟨callee, args, hcallee, hargs, rfl⟩
      simp [Expr.agrees, hcallee, listAgrees_of_forall₂ hargs]
  | _, _, .ifThen p htest hconsequent => by
      refine .of_opened rfl ⟨_, _, rfl, fun mark hmark => nomatch hmark⟩ fun depth => ?_
      refine (isTakenBy_conditional (htest.isReadBack.expression depth)
        (.inl ⟨_, _, rfl, hconsequent.isReadBack.expression depth⟩)).mono ?_
      rintro _ ⟨test, consequent, htest, hconsequent, rfl⟩
      simp [Expr.agrees, htest, hconsequent]
  | _, _, .ifThenElse p hedge htest hconsequent halternative => by
      refine .of_opened rfl ⟨_, _, rfl, fun mark hmark => nomatch hmark⟩ fun depth => ?_
      refine (isTakenBy_conditional_else (htest.isReadBack.expression depth)
        (.inl ⟨_, _, rfl, hedge ▸ hconsequent.isReadBack.expression depth⟩)
        (halternative.isReadBack.expression depth)).mono ?_
      rintro _ ⟨test, consequent, alternative, htest, hconsequent, halternative, rfl⟩
      simp [Expr.agrees, htest, hconsequent, halternative]
  | _, _, .assign p hclosed hassign htarget hvalue => by
      refine ⟨htarget.isReadBack.starts.append _, (nomatch ·), (nomatch ·), fun depth => ?_⟩
      refine (isTakenBy_link (by decide) (htarget.isReadBack.closed hclosed) (hvalue.isReadBack.operand hassign)
        depth).mono ?_
      rintro _ ⟨target, value, htarget, hvalue, rfl⟩
      simp [Expr.agrees, combine, htarget, hvalue]
  | _, _, .binary p hop hne hclosed hassign hleft hright => by
      refine .of_closed ⟨_, _, rfl, fun mark hmark => .inl (Token.punctuation.inj hmark).symm⟩ fun depth => ?_
      refine (isOperandOf_group (isTakenBy_link hop (hleft.isReadBack.closed hclosed)
        (hright.isReadBack.operand hassign) depth)).mono ?_
      rintro _ ⟨left, right, hleft, hright, rfl⟩
      rw [← operatorTree_iff.mp (.binary hne)]
      simp [Expr.agrees, hleft, hright]
  | _, _, .letIn p hbindings hbody => by
      refine .of_opened rfl ⟨_, _, rfl, fun mark hmark => nomatch hmark⟩ fun depth => ?_
      refine (isTakenBy_letExpr .none (isReadBack_bindings hbindings depth)
        (hbody.isReadBack.expression depth)).mono ?_
      rintro _ ⟨bindings, body, hbindings, hbody, ⟨⟩⟩
      simp [Expr.agrees, bindingsAgree_of_forall₂ hbindings, hbody]
  | _, _, .block p htwo hbody => by
      refine .of_closed ⟨_, _, rfl, fun mark hmark => .inr (Token.punctuation.inj hmark).symm⟩ fun depth => ?_
      refine (isOperandOf_block ((isReadBack_items hbody).imp fun hitem => hitem.isItemOf depth)).mono ?_
      rintro _ ⟨body, hbody, rfl⟩
      rw [blockOf_of_two _ (hbody.length_eq ▸ htwo)]
      simp [Expr.agrees, listAgrees_of_forall₂ hbody]

theorem isReadBack_items : ∀ {mark : Punctuation} {ts : List PlacedToken} {es : List Expr},
    Separated mark Written ts es → Separated mark (IsReadBack text) ts es
  | _, _, _, .nil => .nil
  | _, _, _, .last he => .last he.isReadBack
  | _, _, _, .cons he hes => .cons he.isReadBack (isReadBack_items hes)

theorem WrittenBinding.isReadBack : ∀ {ts : List PlacedToken} {b : Binding}, WrittenBinding ts b →
    ∀ depth, IsItemOf text (binding (expression depth)) ts (b.agrees · = true)
  | _, _, .bare name pos => fun depth => (isItemOf_binding_bare name pos).mono (by rintro _ rfl; simp [Binding.agrees])
  | _, _, .bound hinit => fun depth => (isItemOf_binding_bound (hinit.isReadBack.expression depth)).mono (by
      rintro _ ⟨init, hinit, rfl⟩
      simp [Binding.agrees, hinit])

theorem isReadBack_bindings : ∀ {ts : List PlacedToken} {bs : List Binding}, Separated .comma WrittenBinding ts bs →
    ∀ depth, Separated .comma (fun us b => IsItemOf text (binding (expression depth)) us (b.agrees · = true)) ts bs
  | _, _, .nil => fun _ => .nil
  | _, _, .last hb => fun depth => .last (hb.isReadBack depth)
  | _, _, .cons hb hbs => fun depth => .cons (hb.isReadBack depth) (isReadBack_bindings hbs depth)

end

end Grammar

end LambdaScript
