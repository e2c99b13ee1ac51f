import LambdaScript.Proofs.Expr.Tandem

/-!
Reading displaced tokens. Every reader of a phrase keeps step with itself on tokens that differ in places, and on
tokens with a semicolon behind them. The levels are the same on both sides; the rounds of the loops are not, and
they always suffice.
-/

namespace LambdaScript

namespace Parser

variable {ρ : Position → Position → Prop} {tail ts us : List PlacedToken}

/-! ### Trees of related parts -/

theorem like_blockOf {body body' : List Expr} {p q : Position} (hbody : List.Forall₂ (Expr.Like ρ) body body')
    (hpos : ρ p q) :
    (blockOf p body).Like ρ (blockOf q body') := by
  cases hbody with
  | nil => exact .boolean false (.some hpos)
  | cons hfirst hrest =>
      cases hrest with
      | nil => exact hfirst
      | cons hsecond hrest => exact .block (.cons hfirst (.cons hsecond hrest)) (.some hpos)

theorem like_initOrFalse {b b' : Binding} (h : b.Like ρ b') : (initOrFalse b).Like ρ (initOrFalse b') := by
  cases h with
  | bare name => exact .boolean false .none
  | bound name hinit => exact hinit

theorem like_combine (op : Operator) {p q : Position} {left left' right right' : Expr} (hpos : ρ p q)
    (hleft : left.Like ρ left') (hright : right.Like ρ right') :
    (combine op p left right).Like ρ (combine op q left' right') := by
  cases op with
  | assign => exact .assign hleft hright (.some hpos)
  | _ => exact .binary _ hleft hright (.some hpos)

theorem names_eq_of_like {bs bs' : List Binding} (h : List.Forall₂ (Binding.Like ρ) bs bs') :
    bs.map Binding.name = bs'.map Binding.name := by
  induction h with
  | nil => rfl
  | cons hb _ ih => rw [List.map_cons, List.map_cons, hb.name_eq, ih]

/-! ### Names -/

theorem keepStep_variableName : KeepStep ρ tail variableName variableName Eq := by
  intro ts us hpair
  cases hpair with
  | nil =>
      exact FailsAtEnd.inStep (.next_bind (.complain .expectedName none)) (.next_bind (.complain .expectedName none))
  | @cons t u ts us hlike hrest =>
      refine .next_bind ?_
      obtain ⟨token, p⟩ := t
      obtain ⟨token, q⟩ := u
      obtain ⟨rfl, -⟩ := hlike
      cases token with
      | identifier name => exact .pure hrest rfl
      | _ => exact .complain .expectedName _ _

theorem keepStep_ownName (htail : IsBarred tail) : KeepStep ρ tail ownName? ownName? Eq := by
  intro ts us hpair
  refine .peek_bind ?_
  cases hpair with
  | nil =>
      cases tail with
      | nil => exact .pure .nil rfl
      | cons first tail =>
          obtain ⟨token, pos⟩ := first
          obtain rfl : token = .punctuation .semicolon := htail _ rfl
          exact .pure .nil rfl
  | @cons t u ts us hlike hrest =>
      obtain ⟨token, p⟩ := t
      obtain ⟨token, q⟩ := u
      obtain ⟨rfl, hpos⟩ := hlike
      cases token with
      | identifier name => exact .next_bind (.pure hrest rfl)
      | _ => exact .pure (.cons ⟨rfl, hpos⟩ hrest) rfl

/-! ### Lists -/

/-- What reads items, and then the mark that closes their list. -/
def closed {α : Type} (stop : String) (items : Parser (List α)) : Parser (List α) := do
  let all ← items
  skipPunctuation stop
  return all

section Lists

variable {α β γ δ : Type} {R : α → β → Prop} {S : γ → δ → Prop} {item : Parser α} {item' : Parser β}
  {start stop separator : String}

theorem failsAtEnd_closed_itemsUntil (rounds : List Char) (first : Bool) (items : List α) :
    FailsAtEnd (closed stop (itemsUntil stop separator item rounds first items)) (.expectedPunctuation stop) := by
  have hskip := FailsAtEnd.skip (Token.isPunctuation stop) (.expectedPunctuation stop)
  unfold closed
  cases rounds with
  | nil => exact hskip.bind_left _
  | cons round rounds =>
      rw [itemsUntil, bind_assoc]
      exact .peek_bind (hskip.bind_left _)

theorem inStep_closed_pure (tail : List PlacedToken) (stop : String) {items : List α} {items' : List β}
    (hpair : List.Forall₂ (PlacedToken.Like ρ) ts us) (hitems : List.Forall₂ R items items') :
    InStep ρ tail (closed stop (Pure.pure items.reverse)) (closed stop (Pure.pure items'.reverse)) ts us
      (List.Forall₂ R) := by
  simp only [closed, pure_bind]
  refine .skip_bind hpair ?_
  rintro t u ts us rfl rfl - hrest
  exact .pure hrest (List.forall₂_reverse_iff.mpr hitems)

variable (htail : IsBarred tail) (hstop : Token.isPunctuation stop (.punctuation .semicolon) = false)
  (hitem : KeepStep ρ tail item item' R)

include htail hstop hitem

variable (separator) in
/-- At the place of an item the list may end, or an item follows and then the loop. -/
theorem inStep_closed_item {rounds rounds' : List Char} {items : List α} {items' : List β}
    (hloop : ∀ (a : α) (b : β) {ts' us' : List PlacedToken}, List.Forall₂ (PlacedToken.Like ρ) ts' us' → R a b →
      ts' <:+ ts → InStep ρ tail (closed stop (itemsUntil stop separator item rounds false (a :: items)))
        (closed stop (itemsUntil stop separator item' rounds' false (b :: items'))) ts' us' (List.Forall₂ R))
    (hpair : List.Forall₂ (PlacedToken.Like ρ) ts us) (hitems : List.Forall₂ R items items') :
    InStep ρ tail
      (closed stop do
        if ← sees (Token.isPunctuation stop) then Pure.pure items.reverse
        else do
          let a ← item
          itemsUntil stop separator item rounds false (a :: items))
      (closed stop do
        if ← sees (Token.isPunctuation stop) then Pure.pure items'.reverse
        else do
          let a ← item'
          itemsUntil stop separator item' rounds' false (a :: items')) ts us (List.Forall₂ R) := by
  have hclose := inStep_closed_pure tail stop hpair hitems
  unfold closed at hclose hloop ⊢
  rw [bind_assoc, bind_assoc]
  refine .sees_bind htail hstop hpair (fun _ _ _ _ _ _ _ _ => hclose) ?_
  simp only [Bool.false_eq_true, if_false, bind_assoc]
  refine (hitem hpair).bind fun a b ts' us' hab hsuffix hrest => ?_
  simpa only [bind_assoc] using hloop a b hrest hab hsuffix

variable (separator) in
/-- Behind an item the loop over a list keeps step with itself. -/
theorem inStep_itemsUntil (rounds : List Char) : ∀ {rounds' : List Char} {items : List α} {items' : List β}
    {ts us : List PlacedToken}, List.Forall₂ (PlacedToken.Like ρ) ts us → List.Forall₂ R items items' →
    ts.length ≤ rounds.length → ts.length ≤ rounds'.length →
    InStep ρ tail (closed stop (itemsUntil stop separator item rounds false items))
      (closed stop (itemsUntil stop separator item' rounds' false items')) ts us (List.Forall₂ R) := by
  induction rounds with
  | nil =>
      intro rounds' items items' ts us hpair _ hfits _
      obtain rfl : ts = [] := List.eq_nil_of_length_eq_zero (Nat.le_zero.mp hfits)
      cases hpair
      exact (failsAtEnd_closed_itemsUntil _ _ _).inStep (failsAtEnd_closed_itemsUntil _ _ _)
  | cons round rounds ih =>
      intro rounds' items items' ts us hpair hitems hfits hfits'
      cases hpair with
      | nil => exact (failsAtEnd_closed_itemsUntil _ _ _).inStep (failsAtEnd_closed_itemsUntil _ _ _)
      | @cons t u ts us hlike hrest =>
          cases rounds' with
          | nil => simp at hfits'
          | cons round' rounds' =>
              have hclose := inStep_closed_pure tail stop (.cons hlike hrest) hitems
              have hbody := inStep_closed_item separator htail hstop hitem
                (fun a b ts' us' hpair hab hsuffix => ih hpair (.cons hab hitems)
                  (Nat.le_trans hsuffix.length_le (Nat.le_of_succ_le_succ hfits))
                  (Nat.le_trans hsuffix.length_le (Nat.le_of_succ_le_succ hfits'))) hrest hitems
              unfold closed at hclose hbody ⊢
              rw [itemsUntil, itemsUntil, bind_assoc, bind_assoc]
              refine .peek_bind ?_
              simp only [List.head?_cons, List.cons_append, hlike.token_eq]
              by_cases hclosing : u.token.isPunctuation stop = true
              · simpa only [hclosing, if_true] using hclose
              · simp only [hclosing, Bool.not_false, if_true, Bool.false_eq_true, if_false, bind_assoc] at hbody ⊢
                refine .skip_bind (.cons hlike hrest) ?_
                rintro _ _ _ _ hts hus - -
                cases hts
                cases hus
                exact hbody

variable (separator) in
/-- At the start of a list the loop keeps step with itself. -/
theorem inStep_list {rounds rounds' : List Char} (hpair : List.Forall₂ (PlacedToken.Like ρ) ts us)
    (hfits : ts.length < rounds.length) (hfits' : ts.length < rounds'.length) :
    InStep ρ tail (closed stop (itemsUntil stop separator item rounds true []))
      (closed stop (itemsUntil stop separator item' rounds' true [])) ts us (List.Forall₂ R) := by
  cases hpair with
  | nil => exact (failsAtEnd_closed_itemsUntil _ _ _).inStep (failsAtEnd_closed_itemsUntil _ _ _)
  | @cons t u ts us hlike hrest =>
      obtain _ | ⟨round, rounds⟩ := rounds
      · simp at hfits
      obtain _ | ⟨round', rounds'⟩ := rounds'
      · simp at hfits'
      have hclose := inStep_closed_pure (R := R) tail stop (.cons hlike hrest) .nil
      have hbody := inStep_closed_item separator htail hstop hitem
        (fun a b ts' us' hpair hab hsuffix => inStep_itemsUntil separator htail hstop hitem rounds hpair
          (.cons hab .nil)
          (Nat.le_trans hsuffix.length_le (Nat.le_of_lt_succ hfits))
          (Nat.le_trans hsuffix.length_le (Nat.le_of_lt_succ hfits'))) (.cons hlike hrest) .nil
      unfold closed at hclose hbody ⊢
      rw [itemsUntil, itemsUntil, bind_assoc, bind_assoc]
      refine .peek_bind ?_
      simp only [List.head?_cons, List.cons_append, hlike.token_eq]
      by_cases hclosing : u.token.isPunctuation stop = true
      · simpa only [hclosing, if_true] using hclose
      · simpa only [hclosing, Bool.not_true, Bool.false_eq_true, if_false, pure_bind] using hbody

/-- A list between two marks keeps step with itself, and takes tokens away. -/
theorem InStep.delimited_bind {f : List α → Parser γ} {g : List β → Parser δ}
    (hpair : List.Forall₂ (PlacedToken.Like ρ) ts us)
    (h : ∀ as bs ts' us', List.Forall₂ R as bs → ts'.length < ts.length →
      List.Forall₂ (PlacedToken.Like ρ) ts' us' → InStep ρ tail (f as) (g bs) ts' us' S) :
    InStep ρ tail (delimited start stop separator item >>= f) (delimited start stop separator item' >>= g) ts us S := by
  unfold delimited
  simp only [bind_assoc]
  refine .skip_bind hpair ?_
  rintro t u ts us rfl rfl - hpair
  refine .get_bind fun stream other hrounds hrounds' => ?_
  have hlist := inStep_list separator htail hstop hitem hpair hrounds (hpair.length_eq ▸ hrounds')
  have hbind := hlist.bind (f := f) (g := g) fun as bs ts' us' hall hsuffix hrest =>
    h as bs ts' us' hall (Nat.lt_succ_of_le hsuffix.length_le) hrest
  simpa only [closed, bind_assoc] using hbind

end Lists

/-! ### Phrases -/

section Phrases

variable {expr : Parser Expr} (htail : IsBarred tail) (hexpr : KeepStep ρ tail expr expr (Expr.Like ρ))

include htail hexpr

theorem keepStep_binding : KeepStep ρ tail (binding expr) (binding expr) (Binding.Like ρ) := by
  intro ts us hpair
  refine (keepStep_variableName hpair).bind ?_
  rintro name _ ts us rfl - hpair
  refine .sees_bind htail rfl hpair ?_ (.pure hpair (.bare name))
  rintro t u ts us rfl rfl - hpair
  refine .next_bind ((hexpr hpair).bind fun init init' ts us hinit _ hpair => ?_)
  exact .pure hpair (.bound name hinit)

theorem inStep_lambda {t u : PlacedToken} (hpos : ρ t.pos u.pos) (hpair : List.Forall₂ (PlacedToken.Like ρ) ts us) :
    InStep ρ tail (lambda expr) (lambda expr) (t :: ts) (u :: us) (Expr.Like ρ) := by
  refine .nextPos_bind ((keepStep_ownName htail hpair).bind ?_)
  rintro name _ ts us rfl - hpair
  refine .delimited_bind htail rfl keepStep_variableName hpair fun params params' ts us hparams _ hpair => ?_
  obtain rfl := List.forall₂_eq_eq_eq ▸ hparams
  refine (hexpr hpair).bind fun body body' ts us hbody _ hpair => ?_
  exact .pure hpair (.lambda name params hbody (.some hpos))

theorem inStep_letExpr {t u : PlacedToken} (hpos : ρ t.pos u.pos) (hpair : List.Forall₂ (PlacedToken.Like ρ) ts us) :
    InStep ρ tail (letExpr expr) (letExpr expr) (t :: ts) (u :: us) (Expr.Like ρ) := by
  have hbinding := keepStep_binding htail hexpr
  refine .nextPos_bind ((keepStep_ownName htail hpair).bind ?_)
  rintro name _ ts us rfl - hpair
  cases name with
  | none =>
      refine .delimited_bind htail rfl hbinding hpair fun bindings bindings' ts us hbindings _ hpair => ?_
      refine (hexpr hpair).bind fun body body' ts us hbody _ hpair => ?_
      exact .pure hpair (.letIn hbindings hbody (.some hpos))
  | some name =>
      refine .delimited_bind htail rfl hbinding hpair fun bindings bindings' ts us hbindings _ hpair => ?_
      refine (hexpr hpair).bind fun body body' ts us hbody _ hpair => ?_
      have hinits : List.Forall₂ (Expr.Like ρ) (bindings.map initOrFalse) (bindings'.map initOrFalse) :=
        List.forall₂_map_left_iff.mpr (List.forall₂_map_right_iff.mpr (hbindings.imp fun _ _ => like_initOrFalse))
      rw [names_eq_of_like hbindings]
      exact .pure hpair (.call (.lambda (some name) _ hbody (.some hpos)) hinits (.some hpos))

theorem inStep_conditional {t u : PlacedToken} (hpos : ρ t.pos u.pos)
    (hpair : List.Forall₂ (PlacedToken.Like ρ) ts us) :
    InStep ρ tail (conditional expr) (conditional expr) (t :: ts) (u :: us) (Expr.Like ρ) := by
  refine .nextPos_bind ((hexpr hpair).bind fun test test' ts us htest _ hpair => ?_)
  -- what is read from the branch on, with or without a `then` before it
  have hbranch {ts us : List PlacedToken} (hpair : List.Forall₂ (PlacedToken.Like ρ) ts us) :
      InStep ρ tail
        (do
          let consequent ← expr
          if ← sees (Token.isKeyword "else") then
            let _ ← next
            let alternative ← expr
            return .ifThenElse test consequent alternative (some t.pos)
          else
            return .ifThen test consequent (some t.pos))
        (do
          let consequent ← expr
          if ← sees (Token.isKeyword "else") then
            let _ ← next
            let alternative ← expr
            return .ifThenElse test' consequent alternative (some u.pos)
          else
            return .ifThen test' consequent (some u.pos)) ts us (Expr.Like ρ) := by
    refine (hexpr hpair).bind fun consequent consequent' ts us hconsequent _ hpair => ?_
    refine .sees_bind htail rfl hpair ?_ (.pure hpair (.ifThen htest hconsequent (.some hpos)))
    rintro t' u' ts us rfl rfl - hpair
    refine .next_bind ((hexpr hpair).bind fun alternative alternative' ts us halternative _ hpair => ?_)
    exact .pure hpair (.ifThenElse htest hconsequent halternative (.some hpos))
  refine .sees_bind htail rfl hpair (fun _ _ _ _ _ _ _ _ => hbranch hpair) (.skip_bind hpair ?_)
  rintro t' u' ts us rfl rfl - hpair
  exact hbranch hpair

theorem inStep_block {t u : PlacedToken} (hpos : ρ t.pos u.pos)
    (hpair : List.Forall₂ (PlacedToken.Like ρ) (t :: ts) (u :: us)) :
    InStep ρ tail (block expr) (block expr) (t :: ts) (u :: us) (Expr.Like ρ) := by
  refine .herePos_bind (.delimited_bind htail rfl hexpr hpair fun body body' ts us hbody _ hpair => ?_)
  exact .pure hpair (like_blockOf hbody hpos)

theorem keepStep_atom : KeepStep ρ tail (atom expr) (atom expr) (Expr.Like ρ) := by
  intro ts us hpair
  cases hpair with
  | nil =>
      have hfails : FailsAtEnd (atom expr) .unexpectedEnd := .peek_bind (.peek_bind (.complain .unexpectedEnd none))
      exact hfails.inStep hfails
  | @cons t u ts us hlike hrest =>
      refine .peek_bind ?_
      obtain ⟨token, p⟩ := t
      obtain ⟨token, q⟩ := u
      obtain ⟨rfl, hpos⟩ := hlike
      have hboth : List.Forall₂ (PlacedToken.Like ρ) (⟨token, p⟩ :: ts) (⟨token, q⟩ :: us) := .cons ⟨rfl, hpos⟩ hrest
      have hunexpected : InStep ρ tail unexpected unexpected (⟨token, p⟩ :: ts) (⟨token, q⟩ :: us) (Expr.Like ρ) :=
        .peek_bind (.complain (.unexpectedToken token) (some p) (some q))
      cases token with
      | punctuation mark =>
          cases mark with
          | openParen =>
              refine .next_bind ((hexpr hrest).bind fun e e' ts us he _ hpair => .skip_bind hpair ?_)
              rintro t u ts us rfl rfl - hpair
              exact .pure hpair he
          | openBrace => exact inStep_block htail hexpr hpos hboth
          | _ => exact hunexpected
      | keyword word =>
          cases word with
          | letWord => exact inStep_letExpr htail hexpr hpos hrest
          | ifWord => exact inStep_conditional htail hexpr hpos hrest
          | lambdaWord => exact inStep_lambda htail hexpr hpos hrest
          | lambdaSign => exact inStep_lambda htail hexpr hpos hrest
          | _ => exact hunexpected
      | boolean value => exact .next_bind (.pure hrest (.boolean value (.some hpos)))
      | identifier name => exact .next_bind (.pure hrest (.variable name (.some hpos)))
      | number value => exact .next_bind (.pure hrest (.number value (.some hpos)))
      | string value => exact .next_bind (.pure hrest (.string value (.some hpos)))
      | operator op => exact hunexpected

theorem inStep_applications (rounds : List Char) : ∀ {rounds' : List Char} {callee callee' : Expr}
    {ts us : List PlacedToken}, List.Forall₂ (PlacedToken.Like ρ) ts us → callee.Like ρ callee' →
    ts.length < rounds.length → ts.length < rounds'.length →
    InStep ρ tail (applications expr rounds callee) (applications expr rounds' callee') ts us (Expr.Like ρ) := by
  induction rounds with
  | nil => exact fun _ _ hfits => absurd hfits (Nat.not_lt_zero _)
  | cons round rounds ih =>
      intro rounds' callee callee' ts us hpair hcallee hfits hfits'
      obtain _ | ⟨round', rounds'⟩ := rounds'
      · exact absurd hfits' (Nat.not_lt_zero _)
      refine .sees_bind htail rfl hpair ?_ (.pure hpair hcallee)
      rintro t u ts us rfl rfl hlike hrest
      simp only [application, bind_assoc, pure_bind, if_true]
      refine .herePos_bind (.delimited_bind htail rfl hexpr (.cons hlike hrest) ?_)
      intro args args' ts' us' hargs hshorter hpair
      have hfits := Nat.lt_of_lt_of_le hshorter (Nat.le_of_lt_succ hfits)
      have hfits' := Nat.lt_of_lt_of_le hshorter (Nat.le_of_lt_succ hfits')
      exact ih hpair (.call hcallee hargs (.some hlike.pos)) hfits hfits'

theorem inStep_applied {callee callee' : Expr} (hpair : List.Forall₂ (PlacedToken.Like ρ) ts us)
    (hcallee : callee.Like ρ callee') :
    InStep ρ tail (applied expr callee) (applied expr callee') ts us (Expr.Like ρ) := by
  refine .get_bind fun stream other hrounds hrounds' => ?_
  exact inStep_applications htail hexpr stream.rounds hpair hcallee hrounds (hpair.length_eq ▸ hrounds')

theorem keepStep_operand : KeepStep ρ tail (operand expr) (operand expr) (Expr.Like ρ) := by
  intro ts us hpair
  exact (keepStep_atom htail hexpr hpair).bind fun callee callee' ts us hcallee _ hpair =>
    inStep_applied htail hexpr hpair hcallee

end Phrases

/-! ### Expressions -/

/-- A semicolon, and nothing as well, ends a chain of operators. -/
theorem inStep_climb {depth : Nat} (htail : IsBarred tail)
    (hexpr : KeepStep ρ tail (expression depth) (expression depth) (Expr.Like ρ))
    (hclimb : ∀ left left' precedence, left.Like ρ left' →
      KeepStep ρ tail (climb depth left precedence) (climb depth left' precedence) (Expr.Like ρ))
    {left left' : Expr} (precedence : Nat) (hleft : left.Like ρ left') :
    KeepStep ρ tail (climb (depth + 1) left precedence) (climb (depth + 1) left' precedence) (Expr.Like ρ) := by
  intro ts us hpair
  rw [climb, climb]
  simp only [peekOperator, bind_assoc]
  refine .peek_bind ?_
  cases hpair with
  | nil =>
      cases tail with
      | nil => exact .pure .nil hleft
      | cons first tail =>
          obtain ⟨token, pos⟩ := first
          obtain rfl : token = .punctuation .semicolon := htail _ rfl
          exact .pure .nil hleft
  | @cons t u ts us hlike hrest =>
      obtain ⟨token, p⟩ := t
      obtain ⟨token, q⟩ := u
      obtain ⟨rfl, hpos⟩ := hlike
      have hboth : List.Forall₂ (PlacedToken.Like ρ) (⟨token, p⟩ :: ts) (⟨token, q⟩ :: us) := .cons ⟨rfl, hpos⟩ hrest
      cases token with
      | operator op =>
          simp only [List.head?_cons, List.cons_append, pure_bind]
          by_cases hstronger : precedence < op.precedence
          · simp only [hstronger, if_true]
            refine .next_bind ((keepStep_operand htail hexpr hrest).bind fun first first' ts us hfirst _ hpair => ?_)
            refine (hclimb first first' op.precedence hfirst hpair).bind fun right right' ts us hright _ hpair => ?_
            exact hclimb _ _ precedence (like_combine op hpos hleft hright) hpair
          · simp only [hstronger, if_false]
            exact .pure hboth hleft
      | _ => exact .pure hboth hleft

theorem keepStep_expression_and_climb (htail : IsBarred tail) (depth : Nat) :
    KeepStep ρ tail (expression depth) (expression depth) (Expr.Like ρ) ∧
    ∀ left left' precedence, left.Like ρ left' →
      KeepStep ρ tail (climb depth left precedence) (climb depth left' precedence) (Expr.Like ρ) := by
  induction depth with
  | zero =>
      refine ⟨fun ts us hpair => ?_, fun left left' precedence _ ts us hpair => ?_⟩
      · rw [expression]
        exact .throw .tooDeep
      · rw [climb, climb]
        exact .throw .tooDeep
  | succ depth ih =>
      obtain ⟨hexpr, hclimb⟩ := ih
      refine ⟨fun ts us hpair => ?_, fun left left' precedence hleft =>
        inStep_climb htail hexpr hclimb precedence hleft⟩
      rw [expression]
      refine (keepStep_operand htail hexpr hpair).bind fun left left' ts us hleft _ hpair => ?_
      refine (hclimb left left' 0 hleft hpair).bind fun tree tree' ts us htree _ hpair => ?_
      exact inStep_applied htail hexpr hpair htree

theorem keepStep_expression (htail : IsBarred tail) (depth : Nat) :
    KeepStep ρ tail (expression depth) (expression depth) (Expr.Like ρ) :=
  (keepStep_expression_and_climb htail depth).1

/-! ### Programs -/

theorem isBarred_nil : IsBarred [] := fun _ hmem => nomatch hmem

/-- Expressions that two readers have read behind those that were read already. -/
def ReadOn (ρ : Position → Position → Prop) (body body' all all' : List Expr) : Prop :=
  ∃ more more', all = body.reverse ++ more ∧ all' = body'.reverse ++ more' ∧ List.Forall₂ (Expr.Like ρ) more more'

theorem ReadOn.cons {body body' all all' : List Expr} {e e' : Expr} (h : ReadOn ρ (e :: body) (e' :: body') all all')
    (he : e.Like ρ e') : ReadOn ρ body body' all all' := by
  obtain ⟨more, more', rfl, rfl, hmore⟩ := h
  exact ⟨e :: more, e' :: more', by simp, by simp, .cons he hmore⟩

/-- The loop of a program keeps step with itself, whatever was read before it. -/
theorem inStep_programFrom {expr : Parser Expr} (hexpr : KeepStep ρ [] expr expr (Expr.Like ρ)) (rounds : List Char) :
    ∀ (body body' : List Expr) {rounds' : List Char} {ts us : List PlacedToken},
    List.Forall₂ (PlacedToken.Like ρ) ts us → ts.length < rounds.length → ts.length < rounds'.length →
    InStep ρ [] (programFrom expr rounds body) (programFrom expr rounds' body') ts us (ReadOn ρ body body') := by
  induction rounds with
  | nil => exact fun _ _ _ _ _ _ hfits => absurd hfits (Nat.not_lt_zero _)
  | cons round rounds ih =>
      intro body body' rounds' ts us hpair hfits hfits'
      obtain _ | ⟨round', rounds'⟩ := rounds'
      · exact absurd hfits' (Nat.not_lt_zero _)
      refine .peek_bind ?_
      cases hpair with
      | nil => exact .pure .nil ⟨[], [], by simp, by simp, .nil⟩
      | @cons t u ts us hlike hrest =>
          refine (hexpr (.cons hlike hrest)).bind fun e e' ts' us' he hsuffix hpair => ?_
          have hshorter := hsuffix.length_le
          simp only [List.length_cons] at hshorter hfits hfits'
          have hgo {vs ws : List PlacedToken} (hpair : List.Forall₂ (PlacedToken.Like ρ) vs ws)
              (hle : vs.length ≤ ts.length) :
              InStep ρ [] (programFrom expr rounds (e :: body)) (programFrom expr rounds' (e' :: body')) vs ws
                (ReadOn ρ body body') :=
            (ih (e :: body) (e' :: body') hpair (by omega) (by omega)).mono fun all all' hread => hread.cons he
          refine .peek_bind ?_
          cases hpair with
          | nil => exact hgo .nil (Nat.zero_le _)
          | @cons t' u' vs ws hlike' hpair =>
              refine .skip_bind (.cons hlike' hpair) ?_
              rintro _ _ _ _ hts hus - -
              cases hts
              cases hus
              exact hgo hpair (Nat.le_of_succ_le_succ hshorter)

theorem keepStep_program (hstart : ρ .start .start) (depth : Nat) :
    KeepStep ρ [] (program depth) (program depth) (Expr.Like ρ) := by
  intro ts us hpair
  refine .get_bind fun stream other hrounds hrounds' => ?_
  have hloop := inStep_programFrom (keepStep_expression isBarred_nil depth) stream.rounds [] [] hpair hrounds
    (hpair.length_eq ▸ hrounds')
  refine hloop.bind fun all all' ts us hread _ hpair => ?_
  obtain ⟨more, more', rfl, rfl, hmore⟩ := hread
  exact .pure hpair (.block hmore (.some hstart))

end Parser

/-- Tokens that are equal when places are left out are the same up to places. -/
theorem forall₂_like_of_tokens_eq : ∀ {ts us : List PlacedToken},
    ts.map PlacedToken.token = us.map PlacedToken.token → List.Forall₂ (PlacedToken.Like fun _ _ => True) ts us
  | [], [], _ => .nil
  | t :: ts, u :: us, h => by
      rw [List.map_cons, List.map_cons, List.cons.injEq] at h
      exact .cons ⟨h.1, trivial⟩ (forall₂_like_of_tokens_eq h.2)

/-- Whether two texts are read alike: as trees that differ in places alone, or not, for the same cause. -/
inductive ReadAlike (ρ : Position → Position → Prop) : Except Stop Expr → Except Stop Expr → Prop where
  | tree {e e' : Expr} (he : e.Like ρ e') : ReadAlike ρ (.ok e) (.ok e')
  | stop {stop stop' : Stop} (hstop : stop.Like (fun _ _ => True) stop') : ReadAlike ρ (.error stop) (.error stop')

/-- **Texts with the same tokens are read alike.** -/
theorem readAlike_parse {ρ : Position → Position → Prop} (hstart : ρ .start .start) {a b : String}
    {ts us : List PlacedToken} (ha : tokenize a = .ok ts) (hb : tokenize b = .ok us)
    (hpair : List.Forall₂ (PlacedToken.Like ρ) ts us) (depth : Nat) :
    ReadAlike ρ (parse depth a) (parse depth b) := by
  have hrun := Parser.keepStep_program hstart depth hpair (.ofText a) (.ofText b) (TokenStream.delivery_of_tokenize ha)
    (by rw [List.append_nil]; exact TokenStream.delivery_of_tokenize hb)
  unfold parse
  cases hp : Parser.program depth (.ofText a) with
  | ok e after =>
      cases hq : Parser.program depth (.ofText b) with
      | ok e' otherAfter =>
          rw [hp, hq] at hrun
          exact .tree hrun.1
      | error stop otherAfter =>
          rw [hp, hq] at hrun
          exact hrun.elim
  | error stop after =>
      cases hq : Parser.program depth (.ofText b) with
      | ok e' otherAfter =>
          rw [hp, hq] at hrun
          exact absurd rfl hrun
      | error stop' otherAfter =>
          rw [hp, hq] at hrun
          exact .stop (hrun rfl)

end LambdaScript
