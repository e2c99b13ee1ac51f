import LambdaScript.Proofs.Expr.Completeness
import LambdaScript.Proofs.Expr.Soundness

/-!
Reading programs is the grammar. The two directions come together here: what is read is derivable, and what is
derivable is read. The bound on nesting is no obstacle to any text that is shorter than the bound.
-/

namespace LambdaScript

open Grammar

/-- A text is derivable as a tree: its tokens are those of a program that may stand for the tree. -/
def IsDerivation (text : String) (tree : Expr) : Prop :=
  ∃ tokens, tokenize text = .ok tokens ∧ Program tokens tree

theorem count_ofText_le (text : String) : (TokenStream.ofText text).delivery.tokens.length ≤ text.length := by
  rw [TokenStream.delivery_ofText, ← String.length_toList]
  exact (Cursor.ofText text).length_delivery_le

/-- What is read is a derivation, and reading stops early only for a fault of the text, or for want of
levels. -/
theorem parse_sound (depth : Nat) (text : String) :
    match parse depth text with
    | .ok tree => IsDerivation text tree
    | .error (.fault fault) => fault.IsParsingIn text
    | .error .tooDeep => depth ≤ text.length := by
  have hrun := Parser.reads_program depth (TokenStream.ofText text) (TokenStream.within_ofText text) rfl
  unfold parse
  cases hprogram : Parser.program depth (TokenStream.ofText text) with
  | ok tree after =>
      rw [hprogram] at hrun
      obtain ⟨-, tokens, hsplit, hend, hderived⟩ := hrun
      refine ⟨tokens, ?_, hderived⟩
      rw [tokenize_eq_ok, ← TokenStream.delivery_ofText, hsplit, hend, Delivery.behind, List.append_nil]
  | error stop after =>
      rw [hprogram] at hrun
      cases stop with
      | fault fault => exact hrun
      | tooDeep => exact Nat.le_trans hrun (count_ofText_le text)

/-- **No reader looks for a token that is not there**: in no text does the host fail at one. -/
theorem parse_ne_hostFailure (depth : Nat) (text kind message : String) (pos : Option Position) :
    parse depth text ≠ .error (.at (.hostFailure kind message) pos) := by
  intro hfails
  have hsound := parse_sound depth text
  rw [hfails] at hsound
  have hfamily : Family.general = Family.parsing := hsound.1
  cases hfamily

/-- What the reader of programs takes is read, unless levels give out. -/
theorem parse_of_takes {text : String} {tokens : List PlacedToken} {depth : Nat} {V : Expr → Prop}
    (htokens : tokenize text = .ok tokens) (h : Parser.Takes text none (Parser.program depth) tokens [] V) :
    (∃ tree, parse depth text = .ok tree ∧ V tree) ∨ parse depth text = .error .tooDeep := by
  have hdelivery : (TokenStream.ofText text).delivery = ⟨tokens ++ [], none⟩ := by
    rw [List.append_nil]
    exact TokenStream.delivery_of_tokenize htokens
  have hrun := h (TokenStream.ofText text) (TokenStream.within_ofText text) hdelivery
  unfold parse
  cases hprogram : Parser.program depth (TokenStream.ofText text) with
  | ok tree after =>
      rw [hprogram] at hrun
      exact .inl ⟨tree, rfl, hrun.2.1⟩
  | error stop after =>
      rw [hprogram] at hrun
      subst hrun
      exact .inr rfl

/-- What is derivable is read, unless levels give out. -/
theorem parse_complete {text : String} {tree : Expr} (h : IsDerivation text tree) (depth : Nat) :
    (∃ tree, parse depth text = .ok tree) ∨ parse depth text = .error .tooDeep := by
  obtain ⟨tokens, htokens, hderived⟩ := h
  rcases parse_of_takes htokens (Parser.takes_program hderived depth) with ⟨tree, hparse, -⟩ | hdeep
  · exact .inl ⟨tree, hparse⟩
  · exact .inr hdeep

/-- **Reading accepts exactly the grammar.** With more levels than characters a text is read if and only if it
is derivable. With any number of levels, the tree that is read is that of a derivation, a fault is one of
reading and tells that there is no derivation, and the levels give out only where there are no more of them
than characters. -/
theorem parse_iff_derivation (text : String) :
    (∀ extra, (∃ tree, parse (text.length + 1 + extra) text = .ok tree) ↔ ∃ tree, IsDerivation text tree) ∧
    ∀ depth, match parse depth text with
      | .ok tree => IsDerivation text tree
      | .error (.fault fault) => fault.cause.family = .parsing ∧ ¬∃ tree, IsDerivation text tree
      | .error .tooDeep => depth ≤ text.length := by
  constructor
  · intro extra
    have hsound := parse_sound (text.length + 1 + extra) text
    constructor
    · intro hresult
      obtain ⟨tree, hparse⟩ := hresult
      rw [hparse] at hsound
      exact ⟨tree, hsound⟩
    · intro hresult
      obtain ⟨tree, hderived⟩ := hresult
      rcases parse_complete hderived (text.length + 1 + extra) with hparse | hdeep
      · exact hparse
      · rw [hdeep] at hsound
        have hlevels : text.length + 1 + extra ≤ text.length := hsound
        omega
  · intro depth
    have hsound := parse_sound depth text
    cases hparse : parse depth text with
    | ok tree =>
        rw [hparse] at hsound
        exact hsound
    | error stop =>
        rw [hparse] at hsound
        cases stop with
        | tooDeep => exact hsound
        | fault fault =>
            refine ⟨hsound.1, ?_⟩
            intro hresult
            obtain ⟨tree, hderived⟩ := hresult
            rcases parse_complete hderived depth with ⟨other, hok⟩ | hdeep
            · rw [hparse] at hok
              cases hok
            · rw [hparse] at hdeep
              cases hdeep

end LambdaScript
