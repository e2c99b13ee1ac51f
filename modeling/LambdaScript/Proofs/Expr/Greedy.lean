import LambdaScript.Proofs.Expr.Grammar

/-!
The grammar without its ambiguity. The phrases of the grammar may be cut up in several ways; a greedy cut lets
an open phrase (a function, a conditional or a let) take in all that follows it, and gives an `else` to the
nearest conditional that has none. So an open phrase stands only at the end of a chain, and what stands before
an `else` has no conditional at its right edge that could take the `else` in. Every phrase of the grammar has
a greedy cut: what follows a phrase can be moved into the open phrase at its right edge.
-/

namespace LambdaScript

namespace Grammar

/-- The items of a list. -/
inductive Item where
  | expression
  | binding

/-- What an item is read as. -/
abbrev Item.Result : Item → Type
  | expression => Expr
  | binding => Binding

/-- The kinds of greedy phrases. The flag of an expression or an open phrase says whether an `else` behind it
would become a part of it. -/
inductive Form where
  | expression (takesElse : Bool)
  | closed
  | opened (takesElse : Bool)
  | branch (takesElse : Bool)
  | item (kind : Item)
  | list (mark : Punctuation) (kind : Item)

/-- Tokens that are operands by themselves. -/
inductive IsLeaf : Token → Prop where
  | boolean (value : Bool) : IsLeaf (.boolean value)
  | identifier (name : String) : IsLeaf (.identifier name)
  | number (value : Binary64) : IsLeaf (.number value)
  | string (value : String) : IsLeaf (.string value)

/-- The greedy cuts of a phrase. -/
inductive Greedy : Form → List PlacedToken → Prop where
  | leaf {token : Token} {pos : Position} (hleaf : IsLeaf token) : Greedy .closed [⟨token, pos⟩]
  | group {b : Bool} {ts : List PlacedToken} {pos close : Position} (hexpr : Greedy (.expression b) ts) :
      Greedy .closed (⟨.punctuation .openParen, pos⟩ :: (ts ++ [⟨.punctuation .closeParen, close⟩]))
  | block {ts : List PlacedToken} {pos close : Position} (hbody : Greedy (.list .semicolon .expression) ts) :
      Greedy .closed (⟨.punctuation .openBrace, pos⟩ :: (ts ++ [⟨.punctuation .closeBrace, close⟩]))
  | call {ts us : List PlacedToken} {pos close : Position} (hcallee : Greedy .closed ts)
      (hargs : Greedy (.list .comma .expression) us) :
      Greedy .closed (ts ++ ⟨.punctuation .openParen, pos⟩ :: (us ++ [⟨.punctuation .closeParen, close⟩]))
  | lambda {b : Bool} {word : Keyword} {ns ts us : List PlacedToken} {name : Option String} {params : List String}
      {pos opens close : Position} (hword : word = .lambdaWord ∨ word = .lambdaSign) (hname : OwnName ns name)
      (hparams : Separated .comma Name ts params) (hbody : Greedy (.expression b) us) :
      Greedy (.opened b) (⟨.keyword word, pos⟩ :: (ns ++ ⟨.punctuation .openParen, opens⟩ ::
        (ts ++ ⟨.punctuation .closeParen, close⟩ :: us)))
  | letIn {b : Bool} {ns ts us : List PlacedToken} {name : Option String} {pos opens close : Position}
      (hname : OwnName ns name) (hbindings : Greedy (.list .comma .binding) ts)
      (hbody : Greedy (.expression b) us) :
      Greedy (.opened b) (⟨.keyword .letWord, pos⟩ :: (ns ++ ⟨.punctuation .openParen, opens⟩ ::
        (ts ++ ⟨.punctuation .closeParen, close⟩ :: us)))
  | ifThen {a b : Bool} {ts us : List PlacedToken} {pos : Position} (htest : Greedy (.expression a) ts)
      (hbranch : Greedy (.branch b) us) : Greedy (.opened true) (⟨.keyword .ifWord, pos⟩ :: (ts ++ us))
  | ifThenElse {a b : Bool} {ts us vs : List PlacedToken} {pos elsePos : Position}
      (htest : Greedy (.expression a) ts) (hbranch : Greedy (.branch false) us)
      (halternative : Greedy (.expression b) vs) :
      Greedy (.opened b) (⟨.keyword .ifWord, pos⟩ :: (ts ++ (us ++ ⟨.keyword .elseWord, elsePos⟩ :: vs)))
  | word {b : Bool} {ts : List PlacedToken} {pos : Position} (hexpr : Greedy (.expression b) ts) :
      Greedy (.branch b) (⟨.keyword .thenWord, pos⟩ :: ts)
  | brace {b : Bool} {ts : List PlacedToken} {pos : Position}
      (hexpr : Greedy (.expression b) (⟨.punctuation .openBrace, pos⟩ :: ts)) :
      Greedy (.branch b) (⟨.punctuation .openBrace, pos⟩ :: ts)
  | closed {ts : List PlacedToken} (hclosed : Greedy .closed ts) : Greedy (.expression false) ts
  | opened {b : Bool} {ts : List PlacedToken} (hopened : Greedy (.opened b) ts) : Greedy (.expression b) ts
  | chain {b : Bool} {ts us : List PlacedToken} {op : Operator} {pos : Position} (hclosed : Greedy .closed ts)
      (hop : op ∈ Operator.known) (hrest : Greedy (.expression b) us) :
      Greedy (.expression b) (ts ++ ⟨.operator op, pos⟩ :: us)
  | expression {b : Bool} {ts : List PlacedToken} (hexpr : Greedy (.expression b) ts) :
      Greedy (.item .expression) ts
  | bare (name : String) (pos : Position) : Greedy (.item .binding) [⟨.identifier name, pos⟩]
  | bound {b : Bool} {name : String} {ts : List PlacedToken} {pos equals : Position}
      (hinit : Greedy (.expression b) ts) :
      Greedy (.item .binding) (⟨.identifier name, pos⟩ :: ⟨.operator .assign, equals⟩ :: ts)
  | nil {mark : Punctuation} {kind : Item} : Greedy (.list mark kind) []
  | last {mark : Punctuation} {kind : Item} {ts : List PlacedToken} (hitem : Greedy (.item kind) ts) :
      Greedy (.list mark kind) ts
  | cons {mark : Punctuation} {kind : Item} {ts us : List PlacedToken} {pos : Position}
      (hitem : Greedy (.item kind) ts) (hrest : Greedy (.list mark kind) us) :
      Greedy (.list mark kind) (ts ++ ⟨.punctuation mark, pos⟩ :: us)

/-- Tokens that do not start with a mark that closes or separates. -/
def Starts (ts : List PlacedToken) : Prop :=
  ∃ token us, ts = token :: us ∧ ∀ mark, token.token = .punctuation mark → mark = .openParen ∨ mark = .openBrace

theorem Starts.append {ts : List PlacedToken} (h : Starts ts) (us : List PlacedToken) :
    Starts (ts ++ us) := by
  obtain ⟨token, vs, rfl, hmark⟩ := h
  exact ⟨token, vs ++ us, rfl, hmark⟩

namespace Greedy

/-- What `fits` behind a phrase can be moved into it. At the end of a chain it goes behind the last operand;
in an open phrase it goes to the right edge, but where it does not fit there it has to make another phrase of
a conditional. -/
theorem extend {cs : List PlacedToken} (fits : Bool → Prop)
    (hoperand : fits false → ∀ {ts}, Greedy .closed ts → ∃ b, Greedy (.expression b) (ts ++ cs))
    (hconditional : ∀ {a b ts us pos}, ¬fits b → Greedy (.expression a) ts → Greedy (.branch b) us →
      ∃ c, Greedy (.opened c) (⟨.keyword .ifWord, pos⟩ :: (ts ++ (us ++ cs))))
    {form : Form} {ts : List PlacedToken} (h : Greedy form ts) :
    match form with
    | .expression b => fits b → ∃ c, Greedy (.expression c) (ts ++ cs)
    | .opened b => fits b → ∃ c, Greedy (.opened c) (ts ++ cs)
    | .branch b => fits b → ∃ c, Greedy (.branch c) (ts ++ cs)
    | _ => True := by
  induction h with
  | closed hts _ => exact fun hfits => hoperand hfits hts
  | opened _ ih =>
      intro hfits
      obtain ⟨c, hopened⟩ := ih hfits
      exact ⟨c, .opened hopened⟩
  | chain hts hop _ _ ih =>
      intro hfits
      obtain ⟨c, hrest⟩ := ih hfits
      rw [List.append_assoc, List.cons_append]
      exact ⟨c, .chain hts hop hrest⟩
  | lambda hword hname hparams _ ih =>
      intro hfits
      obtain ⟨c, hbody⟩ := ih hfits
      simp only [List.cons_append, List.append_assoc]
      exact ⟨c, .lambda hword hname hparams hbody⟩
  | letIn hname hbindings _ _ ih =>
      intro hfits
      obtain ⟨c, hbody⟩ := ih hfits
      simp only [List.cons_append, List.append_assoc]
      exact ⟨c, .letIn hname hbindings hbody⟩
  | @ifThen a b ts us pos htest hbranch _ ih =>
      intro _
      simp only [List.cons_append, List.append_assoc]
      by_cases hfits : fits b
      · obtain ⟨c, hextended⟩ := ih hfits
        exact ⟨true, .ifThen htest hextended⟩
      · exact hconditional hfits htest hbranch
  | ifThenElse htest hbranch _ _ _ ih =>
      intro hfits
      obtain ⟨c, halternative⟩ := ih hfits
      simp only [List.cons_append, List.append_assoc]
      exact ⟨c, .ifThenElse htest hbranch halternative⟩
  | word _ ih =>
      intro hfits
      obtain ⟨c, hexpr⟩ := ih hfits
      exact ⟨c, .word hexpr⟩
  | brace _ ih =>
      intro hfits
      obtain ⟨c, hexpr⟩ := ih hfits
      exact ⟨c, .brace hexpr⟩
  | leaf | group | block | call | expression | bare | bound | nil | last | cons => trivial

/-- Every phrase starts with a token, and that token closes or separates nothing. -/
theorem starts {form : Form} {ts : List PlacedToken} (h : Greedy form ts) :
    match form with
    | .list _ _ => True
    | _ => Starts ts := by
  induction h with
  | leaf hleaf => exact ⟨_, [], rfl, fun mark hmark => by cases hleaf <;> cases hmark⟩
  | group => exact ⟨_, _, rfl, fun mark hmark => .inl (Token.punctuation.inj hmark).symm⟩
  | block => exact ⟨_, _, rfl, fun mark hmark => .inr (Token.punctuation.inj hmark).symm⟩
  | call _ _ ih => exact ih.append _
  | lambda | letIn | ifThen | ifThenElse | word => exact ⟨_, _, rfl, fun mark hmark => nomatch hmark⟩
  | brace _ ih => exact ih
  | closed _ ih => exact ih
  | opened _ ih => exact ih
  | chain _ _ _ ih => exact ih.append _
  | expression _ ih => exact ih
  | bare | bound => exact ⟨_, _, rfl, fun mark hmark => nomatch hmark⟩
  | nil | last | cons => trivial

variable {b c : Bool} {ts us : List PlacedToken}

/-- An argument list behind an expression belongs to its last operand. -/
theorem call_expression {pos close : Position} (h : Greedy (.expression b) ts)
    (hargs : Greedy (.list .comma .expression) us) :
    ∃ c, Greedy (.expression c) (ts ++ ⟨.punctuation .openParen, pos⟩ :: (us ++ [⟨.punctuation .closeParen, close⟩])) :=
  h.extend (fun _ => True) (fun _ _ hclosed => ⟨false, .closed (.call hclosed hargs)⟩)
    (fun hfits => absurd trivial hfits) trivial

/-- An operator behind an expression goes on with its last operand. -/
theorem chain_expression {op : Operator} {pos : Position} (hop : op ∈ Operator.known)
    (h : Greedy (.expression b) ts)
    (hrest : Greedy (.expression c) us) : ∃ c, Greedy (.expression c) (ts ++ ⟨.operator op, pos⟩ :: us) :=
  h.extend (fun _ => True) (fun _ _ hclosed => ⟨c, .chain hclosed hop hrest⟩) (fun hfits => absurd trivial hfits) trivial

/-- An `else` behind a branch that could take it in belongs to the nearest conditional without one. -/
theorem else_branch {pos : Position} (h : Greedy (.branch true) ts)
    (halternative : Greedy (.expression b) us) :
    ∃ c, Greedy (.branch c) (ts ++ ⟨.keyword .elseWord, pos⟩ :: us) := by
  refine h.extend (fun takesElse => takesElse = true) (fun hfits => nomatch hfits) ?_ rfl
  intro a b' ts us pos hfits htest hbranch
  obtain rfl : b' = false := Bool.eq_false_iff.mpr hfits
  exact ⟨b, .ifThenElse htest hbranch halternative⟩

theorem item_expression (h : ∃ b, Greedy (.expression b) ts) : Greedy (.item .expression) ts := by
  obtain ⟨b, hexpr⟩ := h
  exact .expression hexpr

end Greedy

mutual

/-- **Every phrase has a greedy cut.** -/
theorem Expression.greedy :
    ∀ {ts : List PlacedToken} {e : Expr}, Expression ts e → ∃ b, Greedy (.expression b) ts
  | _, _, .chain hfirst hlinks _ => hlinks.greedy hfirst.greedy

theorem Links.greedy : ∀ {us : List PlacedToken} {links : List Link}, Links us links →
    ∀ {ts}, (∃ b, Greedy (.expression b) ts) → ∃ b, Greedy (.expression b) (ts ++ us)
  | _, _, .nil, _, hts => by
      rw [List.append_nil]
      exact hts
  | _, _, .cons hop hoperand hrest, _, hts => by
      obtain ⟨b, hts⟩ := hts
      obtain ⟨c, hvs⟩ := hoperand.greedy
      rw [← List.cons_append, ← List.append_assoc]
      exact hrest.greedy (hts.chain_expression hop hvs)

theorem Operand.greedy : ∀ {ts : List PlacedToken} {e : Expr}, Operand ts e → ∃ b, Greedy (.expression b) ts
  | _, _, .atom hatom => hatom.greedy
  | _, _, .call hcallee hargs => by
      obtain ⟨b, hts⟩ := hcallee.greedy
      exact hts.call_expression (greedy_arguments hargs)

theorem Atom.greedy : ∀ {ts : List PlacedToken} {e : Expr}, Atom ts e → ∃ b, Greedy (.expression b) ts
  | _, _, .group hexpr => by
      obtain ⟨b, hts⟩ := hexpr.greedy
      exact ⟨false, .closed (.group hts)⟩
  | _, _, .block hbody _ => ⟨false, .closed (.block (greedy_body hbody))⟩
  | _, _, .letIn hname hbindings hbody _ => by
      obtain ⟨b, hus⟩ := hbody.greedy
      exact ⟨b, .opened (.letIn hname (greedy_bindings hbindings) hus)⟩
  | _, _, .lambda hword hname hparams hbody => by
      obtain ⟨b, hus⟩ := hbody.greedy
      exact ⟨b, .opened (.lambda hword hname hparams hus)⟩
  | _, _, .ifThen htest hconsequent => by
      obtain ⟨a, hts⟩ := htest.greedy
      obtain ⟨b, hus⟩ := hconsequent.greedy
      exact ⟨true, .opened (.ifThen hts hus)⟩
  | _, _, .ifThenElse htest hconsequent halternative => by
      obtain ⟨a, hts⟩ := htest.greedy
      obtain ⟨b, hus⟩ := hconsequent.greedy
      obtain ⟨c, hvs⟩ := halternative.greedy
      cases b with
      | false => exact ⟨c, .opened (.ifThenElse hts hus hvs)⟩
      | true =>
          obtain ⟨d, hbranch⟩ := hus.else_branch hvs
          exact ⟨true, .opened (.ifThen hts hbranch)⟩
  | _, _, .boolean value _ => ⟨false, .closed (.leaf (.boolean value))⟩
  | _, _, .variable name _ => ⟨false, .closed (.leaf (.identifier name))⟩
  | _, _, .number value _ => ⟨false, .closed (.leaf (.number value))⟩
  | _, _, .string value _ => ⟨false, .closed (.leaf (.string value))⟩

theorem Consequent.greedy : ∀ {ts : List PlacedToken} {e : Expr}, Consequent ts e → ∃ b, Greedy (.branch b) ts
  | _, _, .word hexpr => by
      obtain ⟨b, hts⟩ := hexpr.greedy
      exact ⟨b, .word hts⟩
  | _, _, .brace hexpr => by
      obtain ⟨b, hts⟩ := hexpr.greedy
      exact ⟨b, .brace hts⟩

theorem Binds.greedy :
    ∀ {ts : List PlacedToken} {binding : Binding}, Binds ts binding → Greedy (.item .binding) ts
  | _, _, .bare name pos => .bare name pos
  | _, _, .bound hinit => by
      obtain ⟨b, hts⟩ := hinit.greedy
      exact .bound hts

theorem greedy_arguments : ∀ {ts : List PlacedToken} {args : List Expr}, Separated .comma Expression ts args →
    Greedy (.list .comma .expression) ts
  | _, _, .nil => .nil
  | _, _, .last hexpr => .last (.item_expression hexpr.greedy)
  | _, _, .cons hexpr hrest => .cons (.item_expression hexpr.greedy) (greedy_arguments hrest)

theorem greedy_body : ∀ {ts : List PlacedToken} {body : List Expr}, Separated .semicolon Expression ts body →
    Greedy (.list .semicolon .expression) ts
  | _, _, .nil => .nil
  | _, _, .last hexpr => .last (.item_expression hexpr.greedy)
  | _, _, .cons hexpr hrest => .cons (.item_expression hexpr.greedy) (greedy_body hrest)

theorem greedy_bindings : ∀ {ts : List PlacedToken} {bindings : List Binding},
    Separated .comma Binds ts bindings → Greedy (.list .comma .binding) ts
  | _, _, .nil => .nil
  | _, _, .last hbinding => .last hbinding.greedy
  | _, _, .cons hbinding hrest => .cons hbinding.greedy (greedy_bindings hrest)

end

end Grammar

end LambdaScript
