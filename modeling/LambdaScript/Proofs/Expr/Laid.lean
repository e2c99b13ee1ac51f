import LambdaScript.Proofs.Expr.Parse

/-!
Trees over the tokens they are read from. Reading makes every node from one token, which stands where the parts of the
node leave room for it: an operator between its operands, a parenthesis behind the callee and before the arguments, a
keyword or a brace before all parts. The node has the place of that token. Only the truth value for a missing initial
value of a named let is made from no token.
-/

namespace LambdaScript

open Grammar

/-- The keyword behind the test of a conditional, which may be left out. -/
inductive ThenWord : List PlacedToken → Prop where
  | none : ThenWord []
  | word (pos : Position) : ThenWord [⟨.keyword .thenWord, pos⟩]

mutual

/-- A tree that takes up a row of tokens, its parts one behind the other and each node at a token of its own. -/
inductive Expr.Laid : List PlacedToken → Expr → Prop where
  | number {m : Magnitude} (hfinite : m.isFinite = true) (pos : Position) :
      Expr.Laid [⟨.number (.signed false m), pos⟩] (.number (.signed false m) (some pos))
  | string (value : String) (pos : Position) : Expr.Laid [⟨.string value, pos⟩] (.string value (some pos))
  | boolean (value : Bool) (pos : Position) : Expr.Laid [⟨.boolean value, pos⟩] (.boolean value (some pos))
  | variable (name : String) (pos : Position) : Expr.Laid [⟨.identifier name, pos⟩] (.variable name (some pos))
  | lambda {word : Keyword} {ns ts us : List PlacedToken} {name : Option String} {params : List String} {body : Expr}
      {pos opens close : Position} (hword : word = .lambdaWord ∨ word = .lambdaSign) (hname : OwnName ns name)
      (hparams : Separated .comma Name ts params) (hbody : Expr.Laid us body) :
      Expr.Laid (⟨.keyword word, pos⟩ :: (ns ++ ⟨.punctuation .openParen, opens⟩ ::
        (ts ++ ⟨.punctuation .closeParen, close⟩ :: us))) (.lambda name params body (some pos))
  /-- A call, at the parenthesis that opens its arguments. -/
  | call {ts us : List PlacedToken} {callee : Expr} {args : List Expr} {pos close : Position}
      (hcallee : Expr.Laid ts callee) (hargs : Separated .comma Expr.Laid us args) :
      Expr.Laid (ts ++ ⟨.punctuation .openParen, pos⟩ :: (us ++ [⟨.punctuation .closeParen, close⟩]))
        (.call callee args (some pos))
  | ifThen {ts thens us : List PlacedToken} {test consequent : Expr} {pos : Position} (htest : Expr.Laid ts test)
      (hthens : ThenWord thens) (hconsequent : Expr.Laid us consequent) :
      Expr.Laid (⟨.keyword .ifWord, pos⟩ :: (ts ++ (thens ++ us))) (.ifThen test consequent (some pos))
  | ifThenElse {ts thens us vs : List PlacedToken} {test consequent alternative : Expr} {pos elsePos : Position}
      (htest : Expr.Laid ts test) (hthens : ThenWord thens) (hconsequent : Expr.Laid us consequent)
      (halternative : Expr.Laid vs alternative) :
      Expr.Laid (⟨.keyword .ifWord, pos⟩ :: (ts ++ (thens ++ (us ++ ⟨.keyword .elseWord, elsePos⟩ :: vs))))
        (.ifThenElse test consequent alternative (some pos))
  /-- An assignment, at its equals sign. -/
  | assign {ts us : List PlacedToken} {target value : Expr} {pos : Position} (htarget : Expr.Laid ts target)
      (hvalue : Expr.Laid us value) :
      Expr.Laid (ts ++ ⟨.operator .assign, pos⟩ :: us) (.assign target value (some pos))
  /-- Two operands, at the operator between them. -/
  | binary {op : Operator} {ts us : List PlacedToken} {left right : Expr} {pos : Position}
      (hop : op ∈ Operator.known) (hassign : op ≠ .assign) (hleft : Expr.Laid ts left) (hright : Expr.Laid us right) :
      Expr.Laid (ts ++ ⟨.operator op, pos⟩ :: us) (.binary op left right (some pos))
  | letIn {ts us : List PlacedToken} {bindings : List Binding} {body : Expr} {pos opens close : Position}
      (hbindings : Separated .comma Binding.Laid ts bindings) (hbody : Expr.Laid us body) :
      Expr.Laid (⟨.keyword .letWord, pos⟩ :: ⟨.punctuation .openParen, opens⟩ ::
        (ts ++ ⟨.punctuation .closeParen, close⟩ :: us)) (.letIn bindings body (some pos))
  /-- A let with a name of its own; the call and the function that is called are both at its keyword. -/
  | namedLet {ns ts us : List PlacedToken} {name : String} {bindings : List Binding} {inits : List Expr} {body : Expr}
      {pos opens close : Position} (hname : Name ns name) (hbindings : Separated .comma Binding.Laid ts bindings)
      (hinits : List.Forall₂ InitTree bindings inits) (hbody : Expr.Laid us body) :
      Expr.Laid (⟨.keyword .letWord, pos⟩ :: (ns ++ ⟨.punctuation .openParen, opens⟩ ::
        (ts ++ ⟨.punctuation .closeParen, close⟩ :: us)))
        (.call (.lambda (some name) (bindings.map Binding.name) body (some pos)) inits (some pos))
  /-- Two expressions or more between braces. -/
  | block {ts : List PlacedToken} {body : List Expr} {pos close : Position}
      (hbody : Separated .semicolon Expr.Laid ts body) (htwo : 2 ≤ body.length) :
      Expr.Laid (⟨.punctuation .openBrace, pos⟩ :: (ts ++ [⟨.punctuation .closeBrace, close⟩]))
        (.block body (some pos))
  /-- Braces with nothing between them, which are false. -/
  | emptyBlock (pos close : Position) :
      Expr.Laid [⟨.punctuation .openBrace, pos⟩, ⟨.punctuation .closeBrace, close⟩] (.boolean false (some pos))
  /-- Braces around one expression, which are not a node. -/
  | braces {ts : List PlacedToken} {e : Expr} {pos close : Position} (hbody : Separated .semicolon Expr.Laid ts [e]) :
      Expr.Laid (⟨.punctuation .openBrace, pos⟩ :: (ts ++ [⟨.punctuation .closeBrace, close⟩])) e
  /-- Parentheses around an expression, which are not a node. -/
  | parens {ts : List PlacedToken} {e : Expr} {pos close : Position} (hexpr : Expr.Laid ts e) :
      Expr.Laid (⟨.punctuation .openParen, pos⟩ :: (ts ++ [⟨.punctuation .closeParen, close⟩])) e

/-- A binding that takes up a row of tokens. -/
inductive Binding.Laid : List PlacedToken → Binding → Prop where
  | bare (name : String) (pos : Position) : Binding.Laid [⟨.identifier name, pos⟩] (.bare name)
  | bound {name : String} {ts : List PlacedToken} {init : Expr} {pos equals : Position} (hinit : Expr.Laid ts init) :
      Binding.Laid (⟨.identifier name, pos⟩ :: ⟨.operator .assign, equals⟩ :: ts) (.bound name init)

end

/-- A chain of operators whose operands take up the rows of tokens between them. -/
inductive LinksLaid : List PlacedToken → List Link → Prop where
  | nil : LinksLaid [] []
  | cons {op : Operator} {pos : Position} {ts us : List PlacedToken} {e : Expr} {links : List Link}
      (hop : op ∈ Operator.known) (hoperand : e.Laid ts) (hrest : LinksLaid us links) :
      LinksLaid (⟨.operator op, pos⟩ :: (ts ++ us)) (⟨op, pos, e⟩ :: links)

theorem OperatorTree.laid {op : Operator} {pos : Position} {ts us : List PlacedToken} {left right e : Expr}
    (h : OperatorTree pos left right op e) (hop : op ∈ Operator.known) (hleft : left.Laid ts) (hright : right.Laid us) :
    e.Laid (ts ++ ⟨.operator op, pos⟩ :: us) := by
  cases h with
  | assign => exact .assign hleft hright
  | binary hassign => exact .binary hop hassign hleft hright

theorem BlockTree.laid {ts : List PlacedToken} {body : List Expr} {e : Expr} {pos close : Position}
    (h : BlockTree pos body e) (hbody : Separated .semicolon Expr.Laid ts body) :
    e.Laid (⟨.punctuation .openBrace, pos⟩ :: (ts ++ [⟨.punctuation .closeBrace, close⟩])) := by
  cases h with
  | empty =>
      cases hbody
      exact .emptyBlock pos close
  | single e => exact .braces hbody
  | several first second rest => exact .block hbody (Nat.le_add_left 2 rest.length)

theorem LetTree.laid {ns ts us : List PlacedToken} {name : Option String} {bindings : List Binding} {body e : Expr}
    {pos opens close : Position} (h : LetTree pos bindings body name e) (hname : OwnName ns name)
    (hbindings : Separated .comma Binding.Laid ts bindings) (hbody : body.Laid us) :
    e.Laid (⟨.keyword .letWord, pos⟩ :: (ns ++ ⟨.punctuation .openParen, opens⟩ ::
      (ts ++ ⟨.punctuation .closeParen, close⟩ :: us))) := by
  cases h with
  | plain =>
      cases hname
      exact .letIn hbindings hbody
  | named name hinits =>
      cases hname with
      | some hname => exact .namedLet hname hbindings hinits hbody

namespace Grammar

/-- The operators and operands of a chain take up what is before a link, the link, and what is behind it. -/
theorem laid_link {ts : List PlacedToken} {before after : List Link} {link : Link}
    (h : LinksLaid ts (before ++ link :: after)) :
    ∃ us vs ws, ts = us ++ ⟨.operator link.op, link.pos⟩ :: (vs ++ ws) ∧ LinksLaid us before ∧
      link.op ∈ Operator.known ∧ link.operand.Laid vs ∧ LinksLaid ws after := by
  induction before generalizing ts with
  | nil =>
      cases h with
      | @cons _ _ vs ws _ _ hop hoperand hrest => exact ⟨[], vs, ws, rfl, .nil, hop, hoperand, hrest⟩
  | cons other before ih =>
      cases h with
      | @cons op pos rs _ e _ hop hoperand hrest =>
          obtain ⟨us, vs, ws, rfl, hbefore, hlink⟩ := ih hrest
          refine ⟨⟨.operator op, pos⟩ :: (rs ++ us), vs, ws, ?_, .cons hop hoperand hbefore, hlink⟩
          rw [List.cons_append, List.append_assoc]

/-- **However a chain is grouped, its tree takes up the tokens of the chain**: an operator stands behind all that is
grouped to its left and before all that is grouped to its right. -/
theorem laid_of_grouped {first e : Expr} {links : List Link} (h : Grouped first links e) :
    ∀ {ts us : List PlacedToken}, first.Laid ts → LinksLaid us links → e.Laid (ts ++ us) := by
  induction h with
  | operand =>
      intro ts us hfirst hlinks
      cases hlinks
      rwa [List.append_nil]
  | @node first left right e before after link _ _ _ _ htree ihleft ihright =>
      intro ts us hfirst hlinks
      -- the left part ends where the operator stands, and the right part starts behind it
      obtain ⟨us, vs, ws, rfl, hbefore, hop, hoperand, hafter⟩ := laid_link hlinks
      rw [← List.append_assoc]
      exact htree.laid hop (ihleft hfirst hbefore) (ihright hoperand hafter)

mutual

/-- **The trees of the grammar take up their tokens**, if these are tokens that can be read. -/
theorem Expression.laid : ∀ {ts : List PlacedToken} {e : Expr}, Expression ts e →
    (∀ token ∈ ts, token.token.Readable) → e.Laid ts
  | _, _, .chain hfirst hlinks htree, hts => by
      rw [List.forall_mem_append] at hts
      exact laid_of_grouped htree (hfirst.laid hts.1) (hlinks.laid hts.2)

theorem Links.laid : ∀ {ts : List PlacedToken} {links : List Link}, Links ts links →
    (∀ token ∈ ts, token.token.Readable) → LinksLaid ts links
  | _, _, .nil, _ => .nil
  | _, _, .cons hop hoperand hrest, hts => by
      rw [List.forall_mem_cons, List.forall_mem_append] at hts
      exact .cons hop (hoperand.laid hts.2.1) (hrest.laid hts.2.2)

theorem Operand.laid : ∀ {ts : List PlacedToken} {e : Expr}, Operand ts e →
    (∀ token ∈ ts, token.token.Readable) → e.Laid ts
  | _, _, .atom hatom, hts => hatom.laid hts
  | _, _, .call hcallee hargs, hts => by
      simp only [List.forall_mem_append, List.forall_mem_cons] at hts
      exact .call (hcallee.laid hts.1) (laid_arguments hargs hts.2.2.1)

theorem Atom.laid : ∀ {ts : List PlacedToken} {e : Expr}, Atom ts e →
    (∀ token ∈ ts, token.token.Readable) → e.Laid ts
  | _, _, .group hexpr, hts => by
      simp only [List.forall_mem_append, List.forall_mem_cons] at hts
      exact .parens (hexpr.laid hts.2.1)
  | _, _, .block hbody htree, hts => by
      simp only [List.forall_mem_append, List.forall_mem_cons] at hts
      exact htree.laid (laid_body hbody hts.2.1)
  | _, _, .letIn hname hbindings hbody htree, hts => by
      simp only [List.forall_mem_append, List.forall_mem_cons] at hts
      obtain ⟨-, -, -, hts, -, hus⟩ := hts
      exact htree.laid hname (laid_bindings hbindings hts) (hbody.laid hus)
  | _, _, .lambda hword hname hparams hbody, hts => by
      simp only [List.forall_mem_append, List.forall_mem_cons] at hts
      obtain ⟨-, -, -, -, -, hus⟩ := hts
      exact .lambda hword hname hparams (hbody.laid hus)
  | _, _, .ifThen htest hconsequent, hts => by
      simp only [List.forall_mem_append, List.forall_mem_cons] at hts
      obtain ⟨thens, us, rfl, hthens, hlaid⟩ := hconsequent.laid hts.2.2
      exact .ifThen (htest.laid hts.2.1) hthens hlaid
  | _, _, .ifThenElse htest hconsequent halternative, hts => by
      simp only [List.forall_mem_append, List.forall_mem_cons] at hts
      obtain ⟨-, hts, hus, -, hvs⟩ := hts
      obtain ⟨thens, us, rfl, hthens, hlaid⟩ := hconsequent.laid hus
      rw [List.append_assoc]
      exact .ifThenElse (htest.laid hts) hthens hlaid (halternative.laid hvs)
  | _, _, .boolean value pos, _ => .boolean value pos
  | _, _, .variable name pos, _ => .variable name pos
  | _, _, .number value pos, hts => by
      have hreadable : (Token.number value).Readable := hts ⟨.number value, pos⟩ (List.mem_singleton_self _)
      cases hreadable with
      | number hm => exact .number hm pos
  | _, _, .string value pos, _ => .string value pos

theorem Consequent.laid : ∀ {ts : List PlacedToken} {e : Expr}, Consequent ts e →
    (∀ token ∈ ts, token.token.Readable) → ∃ thens us, ts = thens ++ us ∧ ThenWord thens ∧ e.Laid us
  | _, _, .word hexpr, hts => ⟨[_], _, rfl, .word _, hexpr.laid (List.forall_mem_cons.mp hts).2⟩
  | _, _, .brace hexpr, hts => ⟨_, _, rfl, .none, hexpr.laid hts⟩

theorem Binds.laid : ∀ {ts : List PlacedToken} {b : Binding}, Binds ts b →
    (∀ token ∈ ts, token.token.Readable) → b.Laid ts
  | _, _, .bare name pos, _ => .bare name pos
  | _, _, .bound hinit, hts => by
      simp only [List.forall_mem_cons] at hts
      exact .bound (hinit.laid hts.2.2)

theorem laid_arguments : ∀ {ts : List PlacedToken} {args : List Expr}, Separated .comma Expression ts args →
    (∀ token ∈ ts, token.token.Readable) → Separated .comma Expr.Laid ts args
  | _, _, .nil, _ => .nil
  | _, _, .last hexpr, hts => .last (hexpr.laid hts)
  | _, _, .cons hexpr hrest, hts => by
      simp only [List.forall_mem_append, List.forall_mem_cons] at hts
      exact .cons (hexpr.laid hts.1) (laid_arguments hrest hts.2.2)

theorem laid_body : ∀ {ts : List PlacedToken} {body : List Expr}, Separated .semicolon Expression ts body →
    (∀ token ∈ ts, token.token.Readable) → Separated .semicolon Expr.Laid ts body
  | _, _, .nil, _ => .nil
  | _, _, .last hexpr, hts => .last (hexpr.laid hts)
  | _, _, .cons hexpr hrest, hts => by
      simp only [List.forall_mem_append, List.forall_mem_cons] at hts
      exact .cons (hexpr.laid hts.1) (laid_body hrest hts.2.2)

theorem laid_bindings : ∀ {ts : List PlacedToken} {bindings : List Binding}, Separated .comma Binds ts bindings →
    (∀ token ∈ ts, token.token.Readable) → Separated .comma Binding.Laid ts bindings
  | _, _, .nil, _ => .nil
  | _, _, .last hbinding, hts => .last (hbinding.laid hts)
  | _, _, .cons hbinding hrest, hts => by
      simp only [List.forall_mem_append, List.forall_mem_cons] at hts
      exact .cons (hbinding.laid hts.1) (laid_bindings hrest hts.2.2)

end

end Grammar

/-- **The trees that are read take up the tokens of their texts**, and each node has the place of its own token. -/
theorem parse_laid {depth : Nat} {text : String} {program : Expr} (h : parse depth text = .ok program) :
    ∃ tokens body, tokenize text = .ok tokens ∧ program = .block body (some ⟨1, 0⟩) ∧
      Separated .semicolon Expr.Laid tokens body := by
  have hsound := parse_sound depth text
  rw [h] at hsound
  obtain ⟨tokens, htokens, hprogram⟩ := hsound
  have hreadable : ∀ token ∈ tokens, token.token.Readable := fun token hmem =>
    (isIn_of_mem_tokenize htokens token hmem).1
  cases hprogram with
  | block hbody => exact ⟨tokens, _, htokens, rfl, laid_body hbody hreadable⟩

/-- A named let without an initial value, in the argument of a call, before an operator. -/
theorem parse_laid_named_let :
    ∃ program, parse 20 "f(let g (x) \x7b\x7d) == y" = .ok program ∧
      ∃ tokens body, tokenize "f(let g (x) \x7b\x7d) == y" = .ok tokens ∧ program = .block body (some ⟨1, 0⟩) ∧
        Separated .semicolon Expr.Laid tokens body := by
  have hread : (parse 20 "f(let g (x) \x7b\x7d) == y").toOption.isSome = true := by decide +kernel
  cases hparse : parse 20 "f(let g (x) \x7b\x7d) == y" with
  | error stop =>
      rw [hparse] at hread
      cases hread
  | ok program => exact ⟨program, rfl, parse_laid hparse⟩

end LambdaScript
