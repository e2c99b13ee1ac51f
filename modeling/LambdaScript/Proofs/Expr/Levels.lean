import LambdaScript.Proofs.Eval.Outlast

/-!
Reading with more levels. A reader takes levels only for the expressions inside of what it reads, so it outlasts itself
if the reader of those does: where they give out nothing was read, and everywhere else the same tokens are taken away
and the same tree is made of them. A text that is read with some levels is read in the same way with more of them.
-/

namespace LambdaScript

variable {α β : Type}

/-- Reading shows nothing. -/
def TokenStream.shown (_ : TokenStream) : List Char := []

/-- A reader that needs no levels. -/
theorem Outlasts.reader (p : Parser α) : Outlasts TokenStream.shown p p := refl fun _ => List.prefix_rfl

/-- A reader whose levels give out at once. -/
theorem Outlasts.unread (p : Parser α) : Outlasts TokenStream.shown p (MonadExcept.throw .tooDeep) :=
  tooDeep fun _ => List.prefix_rfl

/-- What both readers do first makes no difference. -/
theorem Outlasts.after {f f' : α → Parser β} (p : Parser α) (h : ∀ a, Outlasts TokenStream.shown (f' a) (f a)) :
    Outlasts TokenStream.shown (p >>= f') (p >>= f) := bind (reader p) h

namespace Parser

section Lists

variable {item item' : Parser α} (hitem : Outlasts TokenStream.shown item' item)

include hitem

theorem outlasts_itemsUntil (stop separator : String) (rounds : List Char) : ∀ (first : Bool) (items : List α),
    Outlasts TokenStream.shown (itemsUntil stop separator item' rounds first items)
      (itemsUntil stop separator item rounds first items) := by
  induction rounds with
  | nil => exact fun first items => .pure items.reverse
  | cons round rounds ih =>
      intro first items
      have hrest : Outlasts TokenStream.shown
          (do
            if ← sees (Token.isPunctuation stop) then Pure.pure items.reverse
            else do
              let a ← item'
              itemsUntil stop separator item' rounds false (a :: items))
          (do
            if ← sees (Token.isPunctuation stop) then Pure.pure items.reverse
            else do
              let a ← item
              itemsUntil stop separator item rounds false (a :: items)) := by
        refine .after _ fun seen => ?_
        cases seen with
        | true => exact .pure items.reverse
        | false => exact .bind hitem fun a => ih false (a :: items)
      rw [itemsUntil, itemsUntil]
      refine .after _ fun token? => ?_
      cases token? with
      | none => exact .pure items.reverse
      | some token =>
          dsimp only
          split
          · exact .pure items.reverse
          · cases first with
            | true => exact hrest
            | false => exact .after _ fun _ => hrest

theorem outlasts_delimited (start stop separator : String) :
    Outlasts TokenStream.shown (delimited start stop separator item') (delimited start stop separator item) := by
  refine .after _ fun _ => .after _ fun stream => ?_
  refine .bind (outlasts_itemsUntil hitem stop separator stream.rounds true []) fun items => ?_
  exact .reader _

end Lists

section Phrases

variable {expr expr' : Parser Expr} (hexpr : Outlasts TokenStream.shown expr' expr)

include hexpr

theorem outlasts_binding : Outlasts TokenStream.shown (binding expr') (binding expr) := by
  refine .after _ fun name => .after _ fun seen => ?_
  cases seen with
  | true => exact .after _ fun _ => .bind hexpr fun _ => .pure _
  | false => exact .pure _

theorem outlasts_lambda : Outlasts TokenStream.shown (lambda expr') (lambda expr) :=
  .after _ fun _ => .after _ fun _ => .after _ fun _ => .bind hexpr fun _ => .pure _

theorem outlasts_letExpr : Outlasts TokenStream.shown (letExpr expr') (letExpr expr) := by
  have hbindings := outlasts_delimited (outlasts_binding hexpr) "(" ")" ","
  refine .after _ fun pos => .after _ fun name => ?_
  cases name with
  | none => exact .bind hbindings fun bindings => .bind hexpr fun _ => .pure _
  | some name => exact .bind hbindings fun bindings => .bind hexpr fun _ => .pure _

theorem outlasts_conditional : Outlasts TokenStream.shown (conditional expr') (conditional expr) := by
  refine .after _ fun pos => .bind hexpr fun test => .after _ fun brace => ?_
  have hbranch : Outlasts TokenStream.shown
      (do
        let consequent ← expr'
        if ← sees (Token.isKeyword "else") then
          let _ ← next
          let alternative ← expr'
          return Expr.ifThenElse test consequent alternative pos
        else
          return Expr.ifThen test consequent pos)
      (do
        let consequent ← expr
        if ← sees (Token.isKeyword "else") then
          let _ ← next
          let alternative ← expr
          return Expr.ifThenElse test consequent alternative pos
        else
          return Expr.ifThen test consequent pos) := by
    refine .bind hexpr fun consequent => .after _ fun seen => ?_
    cases seen with
    | true => exact .after _ fun _ => .bind hexpr fun _ => .pure _
    | false => exact .pure _
  cases brace with
  | true => exact hbranch
  | false => exact .after _ fun _ => hbranch

theorem outlasts_block : Outlasts TokenStream.shown (block expr') (block expr) :=
  .after _ fun _ => .bind (outlasts_delimited hexpr _ _ _) fun _ => .pure _

theorem outlasts_atom : Outlasts TokenStream.shown (atom expr') (atom expr) := by
  have hgroup : Outlasts TokenStream.shown
      (do
        let _ ← next
        let e ← expr'
        skipPunctuation ")"
        return e)
      (do
        let _ ← next
        let e ← expr
        skipPunctuation ")"
        return e) := .after _ fun _ => .bind hexpr fun e => .reader _
  refine .after _ fun token? => ?_
  obtain _ | ⟨token, pos⟩ := token?
  · exact .reader _
  · cases token with
    | punctuation mark =>
        cases mark with
        | openParen => exact hgroup
        | openBrace => exact outlasts_block hexpr
        | _ => exact .reader _
    | keyword word =>
        cases word with
        | letWord => exact outlasts_letExpr hexpr
        | ifWord => exact outlasts_conditional hexpr
        | lambdaWord => exact outlasts_lambda hexpr
        | lambdaSign => exact outlasts_lambda hexpr
        | _ => exact .reader _
    | _ => exact .reader _

theorem outlasts_applications (rounds : List Char) : ∀ callee : Expr,
    Outlasts TokenStream.shown (applications expr' rounds callee) (applications expr rounds callee) := by
  induction rounds with
  | nil => exact fun callee => .pure callee
  | cons round rounds ih =>
      intro callee
      refine .after _ fun seen => ?_
      cases seen with
      | false => exact .pure callee
      | true =>
          have happlication : Outlasts TokenStream.shown (application expr' callee) (application expr callee) :=
            .after _ fun pos => .bind (outlasts_delimited hexpr _ _ _) fun _ => .pure _
          exact .bind happlication ih

theorem outlasts_applied (callee : Expr) : Outlasts TokenStream.shown (applied expr' callee) (applied expr callee) :=
  .after _ fun stream => outlasts_applications hexpr stream.rounds callee

theorem outlasts_operand : Outlasts TokenStream.shown (operand expr') (operand expr) :=
  .bind (outlasts_atom hexpr) (outlasts_applied hexpr)

theorem outlasts_programFrom (rounds : List Char) : ∀ body : List Expr,
    Outlasts TokenStream.shown (programFrom expr' rounds body) (programFrom expr rounds body) := by
  induction rounds with
  | nil => exact fun body => .pure body.reverse
  | cons round rounds ih =>
      intro body
      rw [programFrom, programFrom]
      refine .after _ fun token? => ?_
      cases token? with
      | none => exact .pure body.reverse
      | some token =>
          refine .bind hexpr fun e => .after _ fun behind? => ?_
          cases behind? with
          | none => exact ih (e :: body)
          | some behind => exact .after _ fun _ => ih (e :: body)

end Phrases

/-- The two readers that take levels. -/
theorem outlasts_expression_and_climb (depth extra : Nat) :
    Outlasts TokenStream.shown (expression (depth + extra)) (expression depth) ∧
      ∀ left precedence,
        Outlasts TokenStream.shown (climb (depth + extra) left precedence) (climb depth left precedence) := by
  induction depth with
  | zero => exact ⟨.unread _, fun _ _ => .unread _⟩
  | succ depth ih =>
      obtain ⟨hexpr, hclimb⟩ := ih
      rw [show depth + 1 + extra = depth + extra + 1 by omega]
      constructor
      · rw [expression, expression]
        refine .bind (outlasts_operand hexpr) fun left => .bind (hclimb left 0) fun tree => ?_
        exact outlasts_applied hexpr tree
      · intro left precedence
        rw [climb, climb]
        refine .after _ fun operator? => ?_
        cases operator? with
        | none => exact .pure left
        | some found =>
            obtain ⟨op, pos⟩ := found
            dsimp only
            split
            · refine .after _ fun _ => .bind (outlasts_operand hexpr) fun first => ?_
              exact .bind (hclimb first op.precedence) fun right => hclimb (combine op pos left right) precedence
            · exact .pure left

theorem outlasts_program (depth extra : Nat) :
    Outlasts TokenStream.shown (program (depth + extra)) (program depth) := by
  refine .after _ fun stream => ?_
  exact .bind (outlasts_programFrom (outlasts_expression_and_climb depth extra).1 stream.rounds []) fun _ => .pure _

end Parser

/-- **More levels never change what is read**, unless the fewer were too few. -/
theorem parse_of_more_levels (depth extra : Nat) (text : String) :
    parse depth text = .error .tooDeep ∨ parse (depth + extra) text = parse depth text := by
  have hrun := (Parser.outlasts_program depth extra (.ofText text)).2
  unfold parse
  cases hprogram : Parser.program depth (.ofText text) with
  | ok program after =>
      rw [hprogram] at hrun
      exact .inr (by simp only [hrun])
  | error stop after =>
      rw [hprogram] at hrun
      cases stop with
      | tooDeep => exact .inl rfl
      | fault fault => exact .inr (by simp only [hrun])

end LambdaScript
