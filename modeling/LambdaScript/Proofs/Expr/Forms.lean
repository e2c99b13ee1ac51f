import LambdaScript.Expr.Source
import LambdaScript.Proofs.Expr.Grammar
import LambdaScript.Proofs.Token.Pieces

/-!
The tokens of written forms. The written form of a node is put together from those of its parts, so its tokens are
theirs with the node's own keywords, operators and marks between them. What the tokens of the parts are like does not
matter for this.
-/

namespace LambdaScript

open Grammar

variable {P Q R : List PlacedToken → Prop}

/-! ### Lists and names -/

/-- Items with a mark and a blank between any two of them. -/
theorem readsAs_items {α : Type} (mark : Punctuation) {separator : String} (write : α → String)
    {Item : List PlacedToken → α → Prop} (hseparator : separator.toList = [mark.char, ' ']) :
    ∀ as : List α, (∀ a ∈ as, ReadsAs (write a).toList (Item · a)) →
      ReadsAs (separator.intercalate (as.map write)).toList (Separated mark Item · as)
  | [], _ => by
      refine ReadsAs.nil.mono ?_
      rintro _ rfl
      exact .nil
  | [a], h => (h a List.mem_cons_self).mono fun _ => .last
  | a :: b :: as, h => by
      have hrest := readsAs_items mark write hseparator (b :: as) fun c hc => h c (List.mem_cons_of_mem _ hc)
      have hsplit : (separator.intercalate ((a :: b :: as).map write)).toList =
          (write a).toList ++ mark.char :: ' ' :: (separator.intercalate ((b :: as).map write)).toList := by
        simp [hseparator]
      rw [hsplit]
      refine ((h a List.mem_cons_self).append_mark mark hrest.blank).mono ?_
      rintro _ ⟨ts, pos, us, hitem, hrest, rfl⟩
      exact .cons hitem hrest

theorem sources_eq_map (es : List Expr) : Expr.sources es = es.map Expr.source := by
  induction es with
  | nil => rw [Expr.sources, List.map_nil]
  | cons e es ih => rw [Expr.sources, List.map_cons, ih]

theorem bindingSources_eq_map (bs : List Binding) : Binding.sources bs = bs.map Binding.source := by
  induction bs with
  | nil => rw [Binding.sources, List.map_nil]
  | cons b bs ih => rw [Binding.sources, List.map_cons, ih]

theorem readsAs_name {name : String} (h : (Token.identifier name).Readable) : ReadsAs name.toList (Name · name) := by
  refine (ReadsAs.token h).mono ?_
  rintro _ ⟨pos, rfl⟩
  exact .identifier name pos

/-! ### Nodes -/

section Nodes

variable (p : Option Position)

/-- A function's head and body: the sign, an own name if there is one, the parameters, and the body. -/
theorem readsAs_lambda {name : Option String} {params : List String} {body : Expr}
    (hname : ∀ own ∈ name, (Token.identifier own).Readable)
    (hparams : ∀ param ∈ params, (Token.identifier param).Readable) (hbody : ReadsAs body.source.toList P) :
    ReadsAs (Expr.lambda name params body p).source.toList fun tokens => ∃ pos ns opens ts close us,
      OwnName ns name ∧ Separated .comma Name ts params ∧ P us ∧ tokens = ⟨.keyword .lambdaSign, pos⟩ ::
        (ns ++ ⟨.punctuation .openParen, opens⟩ :: (ts ++ ⟨.punctuation .closeParen, close⟩ :: us)) := by
  have hlist : ReadsAs (", ".intercalate (params.map id)).toList (Separated .comma Name · params) :=
    readsAs_items .comma id rfl params fun param hmem => readsAs_name (hparams param hmem)
  have hrest := ReadsAs.mark .openParen (hlist.append_mark .closeParen hbody.blank)
  rw [List.map_id] at hrest
  have hsign := ReadsAs.token (.keyword .lambdaSign)
  cases name with
  | none =>
      have hsource : (Expr.lambda none params body p).source.toList = (Token.keyword .lambdaSign).lexeme.toList ++
          '(' :: ((", ".intercalate params).toList ++ ')' :: ' ' :: body.source.toList) := by
        simp [Expr.source, lambdaHead, Token.lexeme, Keyword.text]
      rw [hsource]
      refine (hsign.append hrest fun _ _ => rfl).mono ?_
      rintro _ ⟨_, _, ⟨pos, rfl⟩, ⟨opens, _, ⟨ts, close, us, hts, hus, rfl⟩, rfl⟩, rfl⟩
      exact ⟨pos, [], opens, ts, close, us, .none, hts, hus, rfl⟩
  | some name =>
      have hsource : (Expr.lambda (some name) params body p).source.toList =
          (Token.keyword .lambdaSign).lexeme.toList ++ ' ' :: (name.toList ++
            '(' :: ((", ".intercalate params).toList ++ ')' :: ' ' :: body.source.toList)) := by
        simp [Expr.source, lambdaHead, Token.lexeme, Keyword.text]
      rw [hsource]
      refine (hsign.append ((readsAs_name (hname name rfl)).append hrest fun _ _ => rfl).blank fun _ _ => rfl).mono ?_
      rintro _ ⟨_, _, ⟨pos, rfl⟩, ⟨ns, _, hns, ⟨opens, _, ⟨ts, close, us, hts, hus, rfl⟩, rfl⟩, rfl⟩, rfl⟩
      exact ⟨pos, ns, opens, ts, close, us, .some hns, hts, hus, rfl⟩

theorem readsAs_call {callee : Expr} {args : List Expr} {Item : List PlacedToken → Expr → Prop}
    (hcallee : ReadsAs callee.source.toList P) (hargs : ∀ arg ∈ args, ReadsAs arg.source.toList (Item · arg)) :
    ReadsAs (Expr.call callee args p).source.toList fun tokens => ∃ ts opens us close, P ts ∧
      Separated .comma Item us args ∧
      tokens = ts ++ ⟨.punctuation .openParen, opens⟩ :: (us ++ [⟨.punctuation .closeParen, close⟩]) := by
  have hsource : (Expr.call callee args p).source.toList = callee.source.toList ++
      '(' :: ((", ".intercalate (args.map Expr.source)).toList ++ ')' :: []) := by
    simp [Expr.source, sources_eq_map]
  rw [hsource]
  have hlist : ReadsAs (", ".intercalate (args.map Expr.source)).toList (Separated .comma Item · args) :=
    readsAs_items .comma Expr.source rfl args hargs
  refine (hcallee.append_mark .openParen (hlist.append_mark .closeParen .nil)).mono ?_
  rintro _ ⟨ts, opens, _, hts, ⟨us, close, _, hus, rfl, rfl⟩, rfl⟩
  exact ⟨ts, opens, us, close, hts, hus, rfl⟩

theorem readsAs_ifThen {test consequent : Expr} (htest : ReadsAs test.source.toList P)
    (hconsequent : ReadsAs consequent.source.toList Q) :
    ReadsAs (Expr.ifThen test consequent p).source.toList fun tokens => ∃ pos ts thenPos us, P ts ∧ Q us ∧
      tokens = ⟨.keyword .ifWord, pos⟩ :: (ts ++ ⟨.keyword .thenWord, thenPos⟩ :: us) := by
  have hsource : (Expr.ifThen test consequent p).source.toList = (Token.keyword .ifWord).lexeme.toList ++
      ' ' :: (test.source.toList ++ ' ' :: ((Token.keyword .thenWord).lexeme.toList ++
        ' ' :: consequent.source.toList)) := by
    simp [Expr.source, Token.lexeme, Keyword.text]
  rw [hsource]
  refine (ReadsAs.word (.keyword .ifWord) (htest.append_word (.keyword .thenWord) hconsequent)).mono ?_
  rintro _ ⟨pos, _, ⟨ts, thenPos, us, hts, hus, rfl⟩, rfl⟩
  exact ⟨pos, ts, thenPos, us, hts, hus, rfl⟩

theorem readsAs_ifThenElse {test consequent alternative : Expr} (htest : ReadsAs test.source.toList P)
    (hconsequent : ReadsAs consequent.source.toList Q) (halternative : ReadsAs alternative.source.toList R) :
    ReadsAs (Expr.ifThenElse test consequent alternative p).source.toList fun tokens => ∃ pos ts thenPos us elsePos vs,
      P ts ∧ Q us ∧ R vs ∧ tokens = ⟨.keyword .ifWord, pos⟩ ::
        (ts ++ ⟨.keyword .thenWord, thenPos⟩ :: (us ++ ⟨.keyword .elseWord, elsePos⟩ :: vs)) := by
  have hsource : (Expr.ifThenElse test consequent alternative p).source.toList =
      (Token.keyword .ifWord).lexeme.toList ++ ' ' :: (test.source.toList ++
        ' ' :: ((Token.keyword .thenWord).lexeme.toList ++ ' ' :: (consequent.source.toList ++
          ' ' :: ((Token.keyword .elseWord).lexeme.toList ++ ' ' :: alternative.source.toList)))) := by
    simp [Expr.source, Token.lexeme, Keyword.text]
  rw [hsource]
  refine (ReadsAs.word (.keyword .ifWord) (htest.append_word (.keyword .thenWord)
    (hconsequent.append_word (.keyword .elseWord) halternative))).mono ?_
  rintro _ ⟨pos, _, ⟨ts, thenPos, _, hts, ⟨us, elsePos, vs, hus, hvs, rfl⟩, rfl⟩, rfl⟩
  exact ⟨pos, ts, thenPos, us, elsePos, vs, hts, hus, hvs, rfl⟩

theorem readsAs_assign {target value : Expr} (htarget : ReadsAs target.source.toList P)
    (hvalue : ReadsAs value.source.toList Q) :
    ReadsAs (Expr.assign target value p).source.toList fun tokens => ∃ ts pos us, P ts ∧ Q us ∧
      tokens = ts ++ ⟨.operator .assign, pos⟩ :: us := by
  have hsource : (Expr.assign target value p).source.toList =
      target.source.toList ++ ' ' :: ((Token.operator .assign).lexeme.toList ++ ' ' :: value.source.toList) := by
    simp [Expr.source, Token.lexeme, Operator.text]
  rw [hsource]
  exact htarget.append_word (.operator (by decide)) hvalue

/-- Operator nodes stand in parentheses. -/
theorem readsAs_binary {op : Operator} {left right : Expr} (hop : op ∈ Operator.known)
    (hleft : ReadsAs left.source.toList P) (hright : ReadsAs right.source.toList Q) :
    ReadsAs (Expr.binary op left right p).source.toList fun tokens => ∃ opens ts pos us close, P ts ∧ Q us ∧
      tokens = ⟨.punctuation .openParen, opens⟩ ::
        ((ts ++ ⟨.operator op, pos⟩ :: us) ++ [⟨.punctuation .closeParen, close⟩]) := by
  have hsource : (Expr.binary op left right p).source.toList = '(' :: ((left.source.toList ++
      ' ' :: ((Token.operator op).lexeme.toList ++ ' ' :: right.source.toList)) ++ ')' :: []) := by
    simp [Expr.source, Token.lexeme]
  rw [hsource]
  refine (ReadsAs.mark .openParen ((hleft.append_word (.operator hop) hright).append_mark .closeParen .nil)).mono ?_
  rintro _ ⟨opens, _, ⟨_, close, _, ⟨ts, pos, us, hts, hus, rfl⟩, rfl, rfl⟩, rfl⟩
  exact ⟨opens, ts, pos, us, close, hts, hus, rfl⟩

theorem readsAs_bound {name : String} {init : Expr} (hname : (Token.identifier name).Readable)
    (hinit : ReadsAs init.source.toList P) :
    ReadsAs (Binding.bound name init).source.toList fun tokens => ∃ pos equals ts, P ts ∧
      tokens = ⟨.identifier name, pos⟩ :: ⟨.operator .assign, equals⟩ :: ts := by
  have hsource : (Binding.bound name init).source.toList =
      name.toList ++ ' ' :: ((Token.operator .assign).lexeme.toList ++ ' ' :: init.source.toList) := by
    simp [Binding.source, Token.lexeme, Operator.text]
  rw [hsource]
  refine ((readsAs_name hname).append_word (.operator (by decide)) hinit).mono ?_
  rintro _ ⟨_, equals, ts, ⟨_, pos⟩, hts, rfl⟩
  exact ⟨pos, equals, ts, hts, rfl⟩

theorem readsAs_letIn {bindings : List Binding} {body : Expr} {Item : List PlacedToken → Binding → Prop}
    (hbindings : ∀ b ∈ bindings, ReadsAs b.source.toList (Item · b)) (hbody : ReadsAs body.source.toList P) :
    ReadsAs (Expr.letIn bindings body p).source.toList fun tokens => ∃ pos opens ts close us,
      Separated .comma Item ts bindings ∧ P us ∧ tokens = ⟨.keyword .letWord, pos⟩ ::
        ⟨.punctuation .openParen, opens⟩ :: (ts ++ ⟨.punctuation .closeParen, close⟩ :: us) := by
  have hsource : (Expr.letIn bindings body p).source.toList = (Token.keyword .letWord).lexeme.toList ++
      ' ' :: '(' :: ((", ".intercalate (bindings.map Binding.source)).toList ++ ')' :: ' ' :: body.source.toList) := by
    simp [Expr.source, bindingSources_eq_map, Token.lexeme, Keyword.text]
  rw [hsource]
  have hlist : ReadsAs (", ".intercalate (bindings.map Binding.source)).toList (Separated .comma Item · bindings) :=
    readsAs_items .comma Binding.source rfl bindings hbindings
  refine (ReadsAs.word (.keyword .letWord) (.mark .openParen (hlist.append_mark .closeParen hbody.blank))).mono ?_
  rintro _ ⟨pos, _, ⟨opens, _, ⟨ts, close, us, hts, hus, rfl⟩, rfl⟩, rfl⟩
  exact ⟨pos, opens, ts, close, us, hts, hus, rfl⟩

theorem readsAs_block {body : List Expr} {Item : List PlacedToken → Expr → Prop}
    (hbody : ∀ e ∈ body, ReadsAs e.source.toList (Item · e)) :
    ReadsAs (Expr.block body p).source.toList fun tokens => ∃ opens ts close, Separated .semicolon Item ts body ∧
      tokens = ⟨.punctuation .openBrace, opens⟩ :: (ts ++ [⟨.punctuation .closeBrace, close⟩]) := by
  have hsource : (Expr.block body p).source.toList =
      '\x7b' :: ' ' :: (("; ".intercalate (body.map Expr.source)).toList ++ ' ' :: '\x7d' :: []) := by
    simp [Expr.source, sources_eq_map]
  rw [hsource]
  have hlist : ReadsAs ("; ".intercalate (body.map Expr.source)).toList (Separated .semicolon Item · body) :=
    readsAs_items .semicolon Expr.source rfl body hbody
  refine (ReadsAs.mark .openBrace
    (hlist.append (ReadsAs.mark .closeBrace .nil).blank fun _ _ => rfl).blank).mono ?_
  rintro _ ⟨opens, _, ⟨ts, _, hts, ⟨close, _, rfl, rfl⟩, rfl⟩, rfl⟩
  exact ⟨opens, ts, close, hts, rfl⟩

end Nodes

end LambdaScript
