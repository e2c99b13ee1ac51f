import LambdaScript.Proofs.Expr.Completeness
import LambdaScript.Proofs.Expr.Soundness

/-!
Precedence climbing. An expression is read as far as operators and operands follow each other. Of all ways to group them
reading takes the one that is in order, however long the chain is and whatever its operators are; how an operand is read
has no part in it, and neither has what comes behind the chain.
-/

namespace LambdaScript

namespace Grammar

/-- The tokens of an operand that ends with a mark of its own: a token that is an operand by itself, a group or a block,
and any number of argument lists behind it. -/
inductive ClosedOperand : List PlacedToken → Prop where
  | leaf {token : Token} {pos : Position} (hleaf : IsLeaf token) : ClosedOperand [⟨token, pos⟩]
  | group {ts : List PlacedToken} {e : Expr} {pos close : Position} (hexpr : Expression ts e) :
      ClosedOperand (⟨.punctuation .openParen, pos⟩ :: (ts ++ [⟨.punctuation .closeParen, close⟩]))
  | block {ts : List PlacedToken} {body : List Expr} {pos close : Position}
      (hbody : Separated .semicolon Expression ts body) :
      ClosedOperand (⟨.punctuation .openBrace, pos⟩ :: (ts ++ [⟨.punctuation .closeBrace, close⟩]))
  | call {ts us : List PlacedToken} {args : List Expr} {pos close : Position} (hcallee : ClosedOperand ts)
      (hargs : Separated .comma Expression us args) :
      ClosedOperand (ts ++ ⟨.punctuation .openParen, pos⟩ :: (us ++ [⟨.punctuation .closeParen, close⟩]))

theorem ClosedOperand.greedy {ts : List PlacedToken} (h : ClosedOperand ts) : Greedy .closed ts := by
  induction h with
  | leaf hleaf => exact .leaf hleaf
  | group hexpr =>
      obtain ⟨b, hts⟩ := hexpr.greedy
      exact .group hts
  | block hbody => exact .block (greedy_body hbody)
  | call _ hargs ih => exact .call ih (greedy_arguments hargs)

/-- An operator of a chain, and the tokens of the operand behind it. -/
structure Step where
  op : Operator
  pos : Position
  tokens : List PlacedToken

/-- The tokens of a chain. -/
def chainTokens (first : List PlacedToken) (steps : List Step) : List PlacedToken :=
  first ++ steps.flatMap fun step => ⟨.operator step.op, step.pos⟩ :: step.tokens

theorem chainTokens_cons (first : List PlacedToken) (step : Step) (steps : List Step) :
    chainTokens first (step :: steps) = first ++ ⟨.operator step.op, step.pos⟩ :: chainTokens step.tokens steps := rfl

end Grammar

namespace Parser

open Grammar

/-- A reader takes away just some tokens and makes one tree of them, in any text and whatever else is there, unless that
is a token that goes on with them. That there are too few levels is all that can go wrong, and with more levels than
tokens it cannot. -/
def ReadsAs (reader : Nat → Parser Expr) (goesOn : Token → Prop) (ts : List PlacedToken) (e : Expr) : Prop :=
  ∀ (text : String) (stream : TokenStream) (rest : Delivery) (depth : Nat), stream.Within text →
    stream.delivery = rest.behind ts → (rest.tokens = [] → rest.fault = none) →
    (∀ token ∈ rest.tokens.head?, ¬goesOn token.token) →
    (∃ after, reader depth stream = .ok e after ∧ after.delivery = rest) ∨
      depth ≤ stream.delivery.tokens.length ∧ ∃ after, reader depth stream = .error .tooDeep after

/-- The tokens that go on with an operand. -/
def CallsOn (token : Token) : Prop := token = .punctuation .openParen

/-- The tokens that go on with an expression. -/
def GoesOn (token : Token) : Prop := token = .punctuation .openParen ∨ ∃ op, token = .operator op

/-- How an operand of an expression is read. -/
def ReadsOperand : List PlacedToken → Expr → Prop := ReadsAs (fun depth => operand (expression depth)) CallsOn

theorem not_startsWith_of_head? {rest : Delivery} {token : Token} {goesOn : Token → Prop}
    (h : ∀ first ∈ rest.tokens.head?, ¬goesOn first.token) (htoken : goesOn token) : ¬rest.StartsWith token := by
  rintro ⟨pos, tokens, hstarts⟩
  rw [hstarts] at h
  exact h ⟨token, pos⟩ rfl htoken

/-- What is read, and read soundly, is read with more levels than tokens. -/
theorem ReadsAs.of_takes {reader : Nat → Parser Expr} {goesOn : Token → Prop} {ts : List PlacedToken} {e : Expr}
    {Item : List PlacedToken → Expr → Delivery → Prop}
    (hsound : ∀ text depth d, Reads text depth (reader depth) d Item)
    (htakes : ∀ text (rest : Delivery), IsClear rest.fault rest.tokens →
      (∀ token ∈ rest.tokens.head?, ¬goesOn token.token) →
      ∀ depth, Takes text rest.fault (reader depth) ts rest.tokens (e = ·)) :
    ReadsAs reader goesOn ts e := by
  intro text stream rest depth hwithin hdelivery hclear hstops
  have htaken := htakes text rest hclear hstops depth stream hwithin hdelivery
  have hread := hsound text depth stream.delivery stream hwithin rfl
  cases hrun : reader depth stream with
  | ok tree after =>
      rw [hrun] at htaken
      obtain ⟨-, rfl, hafter⟩ := htaken
      exact .inl ⟨after, rfl, hafter⟩
  | error stop after =>
      rw [hrun] at htaken hread
      obtain rfl : stop = .tooDeep := htaken
      exact .inr ⟨hread, after, rfl⟩

theorem readsOperand_of_isOperandOf {ts : List PlacedToken} {e : Expr}
    (h : ∀ text depth, IsOperandOf text (expression depth) ts (e = ·)) : ReadsOperand ts e := by
  refine .of_takes (fun text depth d => (reads_operand (sound_expression depth)).of_le (Nat.le_succ depth)) ?_
  intro text rest hclear hstops depth
  exact (h text depth).takes hclear (not_startsWith_of_head? hstops rfl)

/-- Closed operands with operators between them are a chain as reading comes upon it. -/
theorem exists_isChain {first : List PlacedToken} {steps : List Step} (hfirst : ClosedOperand first)
    (hsteps : ∀ step ∈ steps, step.op ∈ Operator.known ∧ ClosedOperand step.tokens) :
    ∃ e links, ReadsOperand first e ∧
      List.Forall₂ (fun (step : Step) (link : Link) => link.op = step.op ∧ link.pos = step.pos ∧
        ReadsOperand step.tokens link.operand) steps links ∧
      IsChain false (chainTokens first steps) e links := by
  induction steps generalizing first with
  | nil =>
      obtain ⟨e, hoperand⟩ := isAccepted_of_greedy hfirst.greedy
      refine ⟨e, [], readsOperand_of_isOperandOf hoperand, .nil, ?_⟩
      rw [chainTokens, List.flatMap_nil, List.append_nil]
      exact .last fun text depth _ rest hends => (hoperand text depth).takes hends.clear hends.no_call
  | cons step steps ih =>
      obtain ⟨⟨hop, hstep⟩, hsteps⟩ := List.forall_mem_cons.mp hsteps
      obtain ⟨e, hoperand⟩ := isAccepted_of_greedy hfirst.greedy
      obtain ⟨second, links, hsecond, hlinks, hchain⟩ := ih hstep hsteps
      refine ⟨e, ⟨step.op, step.pos, second⟩ :: links, readsOperand_of_isOperandOf hoperand,
        .cons ⟨rfl, rfl, hsecond⟩ hlinks, ?_⟩
      rw [chainTokens_cons]
      exact .link hop hoperand hchain

/-- **Precedence climbing builds the tree that is in order.** Closed operands with known operators between them are read
as an expression up to where the chain ends. The tree that is read is that of the one grouping of the chain that is in
order, with the operands as they are read by themselves. -/
theorem expression_chain {first : List PlacedToken} {steps : List Step} (hfirst : ClosedOperand first)
    (hsteps : ∀ step ∈ steps, step.op ∈ Operator.known ∧ ClosedOperand step.tokens) :
    ∃ e links, ReadsOperand first e ∧
      List.Forall₂ (fun (step : Step) (link : Link) => link.op = step.op ∧ link.pos = step.pos ∧
        ReadsOperand step.tokens link.operand) steps links ∧
      ∃ tree : Grouping, (tree.first = e ∧ tree.links = links ∧ tree.IsOrdered) ∧
        (∀ other : Grouping, other.first = e → other.links = links → other.IsOrdered → other = tree) ∧
        ReadsAs expression GoesOn (chainTokens first steps) tree.toExpr := by
  obtain ⟨e, links, hoperand, hlinks, hchain⟩ := exists_isChain hfirst hsteps
  obtain ⟨htreeFirst, htreeLinks, hordered⟩ := Grouping.ofChain_spec e links
  refine ⟨e, links, hoperand, hlinks, .ofChain e links, ⟨htreeFirst, htreeLinks, hordered⟩, ?_, ?_⟩
  · intro other hfirst hlinks hother
    exact hother.unique hordered (hfirst.trans htreeFirst.symm) (hlinks.trans htreeLinks.symm)
  · refine .of_takes (fun text depth d => sound_expression depth d) ?_
    intro text rest hclear hstops depth
    have hends : Ends rest.fault false rest.tokens :=
      ⟨hclear, not_startsWith_of_head? hstops (.inl rfl), fun op => not_startsWith_of_head? hstops (.inr ⟨op, rfl⟩),
        nofun⟩
    exact hchain.isTakenBy text depth rest.tokens hends

/-- An assignment of a difference of products, one operand of which is a call. -/
theorem expression_chain_mixed :
    let first : List PlacedToken := [⟨.identifier "x", ⟨1, 0⟩⟩]
    let steps : List Step := [⟨.assign, ⟨1, 2⟩, [⟨.identifier "a", ⟨1, 4⟩⟩]⟩,
      ⟨.subtract, ⟨1, 6⟩, [⟨.identifier "f", ⟨1, 8⟩⟩, ⟨.punctuation .openParen, ⟨1, 9⟩⟩, ⟨.identifier "b", ⟨1, 10⟩⟩,
        ⟨.punctuation .closeParen, ⟨1, 11⟩⟩]⟩,
      ⟨.multiply, ⟨1, 13⟩, [⟨.identifier "c", ⟨1, 15⟩⟩]⟩, ⟨.subtract, ⟨1, 17⟩, [⟨.identifier "d", ⟨1, 19⟩⟩]⟩]
    ClosedOperand first ∧ (∀ step ∈ steps, step.op ∈ Operator.known ∧ ClosedOperand step.tokens) ∧
      ∃ e links, ReadsOperand first e ∧
        List.Forall₂ (fun (step : Step) (link : Link) => link.op = step.op ∧ link.pos = step.pos ∧
          ReadsOperand step.tokens link.operand) steps links ∧
        ∃ tree : Grouping, (tree.first = e ∧ tree.links = links ∧ tree.IsOrdered) ∧
          (∀ other : Grouping, other.first = e → other.links = links → other.IsOrdered → other = tree) ∧
          ReadsAs expression GoesOn (chainTokens first steps) tree.toExpr := by
  intro first steps
  have hname (name : String) (pos : Position) : ClosedOperand [⟨.identifier name, pos⟩] := .leaf (.identifier name)
  have hargument : Expression [⟨.identifier "b", ⟨1, 10⟩⟩] (.variable "b" (some ⟨1, 10⟩)) :=
    .chain (.atom (.variable "b" ⟨1, 10⟩)) .nil (.operand _)
  have hsteps : ∀ step ∈ steps, step.op ∈ Operator.known ∧ ClosedOperand step.tokens := by
    refine List.forall_mem_cons.mpr ⟨⟨by decide, hname "a" _⟩, ?_⟩
    refine List.forall_mem_cons.mpr ⟨⟨by decide, .call (hname "f" _) (.last hargument)⟩, ?_⟩
    refine List.forall_mem_cons.mpr ⟨⟨by decide, hname "c" _⟩, ?_⟩
    exact List.forall_mem_cons.mpr ⟨⟨by decide, hname "d" _⟩, List.forall_mem_nil _⟩
  exact ⟨hname "x" _, hsteps, expression_chain (hname "x" _) hsteps⟩

end Parser

end LambdaScript
