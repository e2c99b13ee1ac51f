import LambdaScript.Proofs.Expr.Grammar
import Mathlib.Algebra.Ring.Int.Defs

/-!
Brackets balance. Every phrase of the grammar closes the parentheses and braces that it opens, so over the tokens of
a program the opening and the closing ones come to the same number.
-/

namespace LambdaScript

/-- One for a parenthesis or a brace that opens and minus one for one that closes. -/
def Punctuation.weight : Punctuation → Int
  | openParen | openBrace => 1
  | closeParen | closeBrace => -1
  | _ => 0

def Token.weight : Token → Int
  | punctuation mark => mark.weight
  | _ => 0

/-- How many more parentheses and braces are opened than closed. -/
def bracketDepth (ts : List PlacedToken) : Int := (ts.map fun placed => placed.token.weight).sum

@[simp] theorem bracketDepth_nil : bracketDepth [] = 0 := rfl

@[simp] theorem bracketDepth_cons (placed : PlacedToken) (ts : List PlacedToken) :
    bracketDepth (placed :: ts) = placed.token.weight + bracketDepth ts := by
  simp [bracketDepth]

@[simp] theorem bracketDepth_append (ts us : List PlacedToken) :
    bracketDepth (ts ++ us) = bracketDepth ts + bracketDepth us := by
  simp [bracketDepth]

/-- Whether a token is a parenthesis or a brace that opens. -/
def Token.opens : Token → Bool
  | punctuation .openParen | punctuation .openBrace => true
  | _ => false

/-- Whether a token is a parenthesis or a brace that closes. -/
def Token.closes : Token → Bool
  | punctuation .closeParen | punctuation .closeBrace => true
  | _ => false

theorem Token.weight_eq (token : Token) : token.weight = token.opens.toInt - token.closes.toInt := by
  cases token with
  | punctuation mark => cases mark <;> rfl
  | _ => rfl

/-- What is opened counts for the depth, and what is closed against it. -/
theorem bracketDepth_eq_sub (ts : List PlacedToken) :
    bracketDepth ts = (ts.countP (·.token.opens) : Int) - ts.countP (·.token.closes) := by
  induction ts with
  | nil => rfl
  | cons placed ts ih =>
      rw [bracketDepth_cons, placed.token.weight_eq, ih, List.countP_cons, List.countP_cons]
      cases placed.token.opens <;> cases placed.token.closes <;> simp <;> omega

namespace Grammar

theorem Name.bracketDepth_eq_zero {ts : List PlacedToken} {name : String} (h : Name ts name) :
    bracketDepth ts = 0 := by
  cases h with
  | identifier => rfl

theorem OwnName.bracketDepth_eq_zero {ts : List PlacedToken} {name : Option String} (h : OwnName ts name) :
    bracketDepth ts = 0 := by
  cases h with
  | none => rfl
  | some hname => exact hname.bracketDepth_eq_zero

theorem bracketDepth_params {ts : List PlacedToken} {params : List String} (h : Separated .comma Name ts params) :
    bracketDepth ts = 0 := by
  induction h with
  | nil => rfl
  | last hname => exact hname.bracketDepth_eq_zero
  | cons hname _ ih =>
      rw [bracketDepth_append, bracketDepth_cons, hname.bracketDepth_eq_zero, ih]
      rfl

mutual

/-- **Expressions close what they open.** -/
theorem Expression.bracketDepth_eq_zero : ∀ {ts : List PlacedToken} {e : Expr}, Expression ts e →
    bracketDepth ts = 0
  | _, _, .chain hfirst hlinks _ => by
      rw [bracketDepth_append, hfirst.bracketDepth_eq_zero, hlinks.bracketDepth_eq_zero, Int.add_zero]

theorem Links.bracketDepth_eq_zero : ∀ {ts : List PlacedToken} {links : List Link}, Links ts links →
    bracketDepth ts = 0
  | _, _, .nil => rfl
  | _, _, .cons _ hoperand hrest => by
      simp [Token.weight, hoperand.bracketDepth_eq_zero, hrest.bracketDepth_eq_zero]

theorem Operand.bracketDepth_eq_zero : ∀ {ts : List PlacedToken} {e : Expr}, Operand ts e → bracketDepth ts = 0
  | _, _, .atom hatom => hatom.bracketDepth_eq_zero
  | _, _, .call hcallee hargs => by
      simp [Token.weight, Punctuation.weight, hcallee.bracketDepth_eq_zero, bracketDepth_arguments hargs]

theorem Atom.bracketDepth_eq_zero : ∀ {ts : List PlacedToken} {e : Expr}, Atom ts e → bracketDepth ts = 0
  | _, _, .group hexpr => by simp [Token.weight, Punctuation.weight, hexpr.bracketDepth_eq_zero]
  | _, _, .block hbody _ => by simp [Token.weight, Punctuation.weight, bracketDepth_body hbody]
  | _, _, .letIn hname hbindings hbody _ => by
      simp [Token.weight, Punctuation.weight, hname.bracketDepth_eq_zero, bracketDepth_bindings hbindings,
        hbody.bracketDepth_eq_zero]
  | _, _, .lambda _ hname hparams hbody => by
      simp [Token.weight, Punctuation.weight, hname.bracketDepth_eq_zero, bracketDepth_params hparams,
        hbody.bracketDepth_eq_zero]
  | _, _, .ifThen htest hconsequent => by
      simp [Token.weight, htest.bracketDepth_eq_zero, hconsequent.bracketDepth_eq_zero]
  | _, _, .ifThenElse htest hconsequent halternative => by
      simp [Token.weight, htest.bracketDepth_eq_zero, hconsequent.bracketDepth_eq_zero,
        halternative.bracketDepth_eq_zero]
  | _, _, .boolean _ _ => rfl
  | _, _, .variable _ _ => rfl
  | _, _, .number _ _ => rfl
  | _, _, .string _ _ => rfl

theorem Consequent.bracketDepth_eq_zero : ∀ {ts : List PlacedToken} {e : Expr}, Consequent ts e →
    bracketDepth ts = 0
  | _, _, .word hexpr => by simp [Token.weight, hexpr.bracketDepth_eq_zero]
  | _, _, .brace hexpr => hexpr.bracketDepth_eq_zero

theorem Binds.bracketDepth_eq_zero : ∀ {ts : List PlacedToken} {binding : Binding}, Binds ts binding →
    bracketDepth ts = 0
  | _, _, .bare _ _ => rfl
  | _, _, .bound hinit => by simp [Token.weight, hinit.bracketDepth_eq_zero]

theorem bracketDepth_arguments : ∀ {ts : List PlacedToken} {args : List Expr},
    Separated .comma Expression ts args → bracketDepth ts = 0
  | _, _, .nil => rfl
  | _, _, .last hexpr => hexpr.bracketDepth_eq_zero
  | _, _, .cons hexpr hrest => by
      simp [Token.weight, Punctuation.weight, hexpr.bracketDepth_eq_zero, bracketDepth_arguments hrest]

theorem bracketDepth_body : ∀ {ts : List PlacedToken} {body : List Expr},
    Separated .semicolon Expression ts body → bracketDepth ts = 0
  | _, _, .nil => rfl
  | _, _, .last hexpr => hexpr.bracketDepth_eq_zero
  | _, _, .cons hexpr hrest => by
      simp [Token.weight, Punctuation.weight, hexpr.bracketDepth_eq_zero, bracketDepth_body hrest]

theorem bracketDepth_bindings : ∀ {ts : List PlacedToken} {bindings : List Binding},
    Separated .comma Binds ts bindings → bracketDepth ts = 0
  | _, _, .nil => rfl
  | _, _, .last hbinding => hbinding.bracketDepth_eq_zero
  | _, _, .cons hbinding hrest => by
      simp [Token.weight, Punctuation.weight, hbinding.bracketDepth_eq_zero, bracketDepth_bindings hrest]

end

theorem Program.bracketDepth_eq_zero {ts : List PlacedToken} {e : Expr} (h : Program ts e) : bracketDepth ts = 0 := by
  cases h with
  | block hbody => exact bracketDepth_body hbody

end Grammar

end LambdaScript
