import LambdaScript.Proofs.Expr.Grammar

/-!
Trees that are written without ambiguity. The written form of a tree has parentheses around operators alone, so some
trees are written as another tree is: that of a function which is called as it stands, or of a conditional without
`else` that stands before an `else`. A faithful tree has no such place in it. `Written` says which tokens the written
form of a faithful tree consists of.
-/

namespace LambdaScript

/-- Whether a name that stands alone is read as the identifier it is. -/
def isName (name : String) : Bool :=
  match tokenize name with
  | .ok [token] => token.token == .identifier name
  | _ => false

namespace Expr

/-- Whether an expression is open: no mark ends it, so what follows may become a part of it. -/
def isOpen : Expr → Bool
  | .lambda .. | .ifThen .. | .ifThenElse .. | .letIn .. | .assign .. => true
  | _ => false

def isAssign : Expr → Bool
  | .assign .. => true
  | _ => false

/-- Whether the right edge of an expression reaches a conditional without `else`, which would take in one that
follows. -/
def takesElse : Expr → Bool
  | .lambda _ _ body _ => body.takesElse
  | .letIn _ body _ => body.takesElse
  | .assign _ value _ => value.takesElse
  | .ifThen .. => true
  | .ifThenElse _ _ alternative _ => alternative.takesElse
  | _ => false

end Expr

mutual

/-- Whether a tree is written as no other one: only closed expressions are called, stand left of an operator or are
assigned to, no assignment stands right of an operator or of another one, no conditional without `else` comes to stand
before the `else` of another one, and blocks hold two expressions or more. -/
def Expr.isFaithful : Expr → Bool
  | .number value _ =>
    match value with
    | .signed false m => m.isFinite
    | _ => false
  | .string .. | .boolean .. => true
  | .variable name _ => isName name
  | .lambda name params body _ => name.all isName && params.all isName && body.isFaithful
  | .call callee args _ => !callee.isOpen && callee.isFaithful && Expr.allFaithful args
  | .ifThen test consequent _ => test.isFaithful && consequent.isFaithful
  | .ifThenElse test consequent alternative _ =>
    !consequent.takesElse && test.isFaithful && consequent.isFaithful && alternative.isFaithful
  | .assign target value _ => !target.isOpen && !value.isAssign && target.isFaithful && value.isFaithful
  | .binary op left right _ =>
    decide (op ∈ Operator.known ∧ op ≠ .assign) && !left.isOpen && !right.isAssign && left.isFaithful &&
      right.isFaithful
  | .letIn bindings body _ => Binding.allFaithful bindings && body.isFaithful
  | .block body _ => decide (2 ≤ body.length) && Expr.allFaithful body

def Expr.allFaithful : List Expr → Bool
  | [] => true
  | e :: es => e.isFaithful && Expr.allFaithful es

def Binding.isFaithful : Binding → Bool
  | .bare name => isName name
  | .bound name init => isName name && init.isFaithful

def Binding.allFaithful : List Binding → Bool
  | [] => true
  | b :: bs => b.isFaithful && Binding.allFaithful bs

end

namespace Grammar

mutual

/-- The tokens of the written form of a faithful tree. -/
inductive Written : List PlacedToken → Expr → Prop where
  | number (value : Binary64) (pos : Position) (p : Option Position) : Written [⟨.number value, pos⟩] (.number value p)
  | string (value : String) (pos : Position) (p : Option Position) : Written [⟨.string value, pos⟩] (.string value p)
  | boolean (value : Bool) (pos : Position) (p : Option Position) : Written [⟨.boolean value, pos⟩] (.boolean value p)
  | variable (name : String) (pos : Position) (p : Option Position) :
      Written [⟨.identifier name, pos⟩] (.variable name p)
  | lambda {ns ts us : List PlacedToken} {name : Option String} {params : List String} {body : Expr}
      {pos opens close : Position} (p : Option Position) (hname : OwnName ns name)
      (hparams : Separated .comma Name ts params) (hbody : Written us body) :
      Written (⟨.keyword .lambdaSign, pos⟩ :: (ns ++ ⟨.punctuation .openParen, opens⟩ ::
        (ts ++ ⟨.punctuation .closeParen, close⟩ :: us))) (.lambda name params body p)
  | call {ts us : List PlacedToken} {callee : Expr} {args : List Expr} {opens close : Position} (p : Option Position)
      (hclosed : callee.isOpen = false) (hcallee : Written ts callee) (hargs : Separated .comma Written us args) :
      Written (ts ++ ⟨.punctuation .openParen, opens⟩ :: (us ++ [⟨.punctuation .closeParen, close⟩]))
        (.call callee args p)
  | ifThen {ts us : List PlacedToken} {test consequent : Expr} {pos thenPos : Position} (p : Option Position)
      (htest : Written ts test) (hconsequent : Written us consequent) :
      Written (⟨.keyword .ifWord, pos⟩ :: (ts ++ ⟨.keyword .thenWord, thenPos⟩ :: us)) (.ifThen test consequent p)
  | ifThenElse {ts us vs : List PlacedToken} {test consequent alternative : Expr} {pos thenPos elsePos : Position}
      (p : Option Position) (hedge : consequent.takesElse = false) (htest : Written ts test)
      (hconsequent : Written us consequent) (halternative : Written vs alternative) :
      Written (⟨.keyword .ifWord, pos⟩ :: (ts ++ (⟨.keyword .thenWord, thenPos⟩ :: us ++
        ⟨.keyword .elseWord, elsePos⟩ :: vs))) (.ifThenElse test consequent alternative p)
  | assign {ts us : List PlacedToken} {target value : Expr} {pos : Position} (p : Option Position)
      (hclosed : target.isOpen = false) (hassign : value.isAssign = false) (htarget : Written ts target)
      (hvalue : Written us value) : Written (ts ++ ⟨.operator .assign, pos⟩ :: us) (.assign target value p)
  | binary {op : Operator} {ts us : List PlacedToken} {left right : Expr} {pos opens close : Position}
      (p : Option Position) (hop : op ∈ Operator.known) (hne : op ≠ .assign) (hclosed : left.isOpen = false)
      (hassign : right.isAssign = false) (hleft : Written ts left) (hright : Written us right) :
      Written (⟨.punctuation .openParen, opens⟩ :: (ts ++ ⟨.operator op, pos⟩ :: us ++
        [⟨.punctuation .closeParen, close⟩])) (.binary op left right p)
  | letIn {ts us : List PlacedToken} {bindings : List Binding} {body : Expr} {pos opens close : Position}
      (p : Option Position) (hbindings : Separated .comma WrittenBinding ts bindings) (hbody : Written us body) :
      Written (⟨.keyword .letWord, pos⟩ :: ⟨.punctuation .openParen, opens⟩ ::
        (ts ++ ⟨.punctuation .closeParen, close⟩ :: us)) (.letIn bindings body p)
  | block {ts : List PlacedToken} {body : List Expr} {opens close : Position} (p : Option Position)
      (htwo : 2 ≤ body.length) (hbody : Separated .semicolon Written ts body) :
      Written (⟨.punctuation .openBrace, opens⟩ :: (ts ++ [⟨.punctuation .closeBrace, close⟩])) (.block body p)

inductive WrittenBinding : List PlacedToken → Binding → Prop where
  | bare (name : String) (pos : Position) : WrittenBinding [⟨.identifier name, pos⟩] (.bare name)
  | bound {ts : List PlacedToken} {name : String} {init : Expr} {pos equals : Position} (hinit : Written ts init) :
      WrittenBinding (⟨.identifier name, pos⟩ :: ⟨.operator .assign, equals⟩ :: ts) (.bound name init)

end

end Grammar

end LambdaScript
