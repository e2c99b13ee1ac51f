import LambdaScript.Proofs.Expr.Precedence
import LambdaScript.Proofs.Expr.Progress

/-!
Readers take in as much as there is. An operand ends where no argument list follows, and an expression where neither an
argument list nor an operator does, whatever kind of atom it ends with: going on from an operand stops at an operator
only inside of a chain, and hands it on to the chain around it. So the last step of reading an expression, which would
apply the whole of it to argument lists, never finds any, and a reader without that step is the same reader.
-/

namespace LambdaScript

namespace Cursor

theorem rest_of_readToken_end {cursor after : Cursor} (h : cursor.readToken = (.ok none, after)) : after.rest = [] := by
  simp only [readToken] at h
  split at h
  · next hskip =>
    cases h
    exact hskip
  · split at h <;> cases h

theorem skipGap_of_rest_nil {cursor : Cursor} (h : cursor.rest = []) : cursor.skipGap = cursor := by
  rw [skipGap, h]
  rfl

end Cursor

namespace TokenStream

variable {stream after : TokenStream} {token? : Option PlacedToken} {P Q : Token → Prop}

/-- A second look at the next token shows what the first one did, and changes nothing any more. -/
theorem peek_peek (h : stream.peek = (.ok token?, after)) : after.peek = (.ok token?, after) := by
  obtain ⟨cursor, ahead⟩ := stream
  cases ahead with
  | some token =>
      cases h
      rfl
  | none =>
      simp only [peek] at h
      split at h
      · next token? cursor' hread =>
        cases h
        cases token? with
        | some token => rfl
        | none =>
            have hagain := Cursor.readToken_of_end hread
            rw [Cursor.skipGap_of_rest_nil (Cursor.rest_of_readToken_end hread)] at hagain
            simp only [peek, hagain]
      · cases h

/-- The next token has been looked at, and satisfies `P` if there is one. -/
def Shows (stream : TokenStream) (P : Token → Prop) : Prop :=
  ∃ token?, stream.peek = (.ok token?, stream) ∧ ∀ token ∈ token?, P token.token

theorem Shows.mono (h : stream.Shows P) (himp : ∀ token, P token → Q token) : stream.Shows Q := by
  obtain ⟨token?, hpeek, htoken⟩ := h
  exact ⟨token?, hpeek, fun token hmem => himp _ (htoken token hmem)⟩

/-- What was shown before another look is shown behind it. -/
theorem Shows.peek (h : stream.Shows P) (hpeek : stream.peek = (.ok token?, after)) :
    ∀ token ∈ token?, P token.token := by
  obtain ⟨shown?, hshown, htoken⟩ := h
  rw [hshown] at hpeek
  cases hpeek
  exact htoken

end TokenStream

namespace Parser

open Grammar

variable {expr : Parser Expr} {stream after : TokenStream} {e callee : Expr} {depth precedence : Nat}

/-! ### Ends of operands -/

theorem isPunctuation_iff_callsOn {token : Token} : token.isPunctuation "(" = true ↔ CallsOn token :=
  Token.isPunctuation_iff (show "(" = Punctuation.openParen.text from rfl)

theorem sees_eq_ok {test : Token → Bool} {seen : Bool} (h : sees test stream = .ok seen after) :
    ∃ token?, stream.peek = (.ok token?, after) ∧ seen = token?.any fun token => test token.token := by
  obtain ⟨found?, behind, hfound, hseen⟩ := ok_of_bind h
  obtain ⟨token?, looked, hlooked, hfound⟩ := ok_of_bind hfound
  have hpeek := peek_eq_ok hlooked
  cases token? with
  | none =>
      cases hfound
      cases hseen
      exact ⟨none, hpeek, rfl⟩
  | some token =>
      cases hfound
      cases hseen
      refine ⟨some token, hpeek, ?_⟩
      rw [Option.any_some]
      cases test token.token <;> rfl

theorem shows_of_sees_call (h : sees (Token.isPunctuation "(") stream = .ok false after) :
    after.Shows fun token => ¬CallsOn token := by
  obtain ⟨token?, hpeek, hunseen⟩ := sees_eq_ok h
  refine ⟨token?, TokenStream.peek_peek hpeek, ?_⟩
  rintro token rfl hcall
  rw [Option.any_some, isPunctuation_iff_callsOn.mpr hcall] at hunseen
  cases hunseen

/-- Behind as many argument lists as there are is no other one. -/
theorem shows_of_applications (hexpr : ∀ stream, Spends 0 expr stream) (rounds : List Char) :
    ∀ (callee : Expr) (stream : TokenStream), stream.count < rounds.length →
      applications expr rounds callee stream = .ok e after → after.Shows fun token => ¬CallsOn token := by
  induction rounds with
  | nil => exact fun callee stream hrounds _ => absurd hrounds (Nat.not_lt_zero _)
  | cons round rounds ih =>
      intro callee stream hrounds hrun
      rw [applications] at hrun
      obtain ⟨seen, looked, hlooked, hrun⟩ := ok_of_bind hrun
      cases seen with
      | false =>
          cases hrun
          exact shows_of_sees_call hlooked
      | true =>
          obtain ⟨call, left, hread, hrun⟩ := ok_of_bind hrun
          have hkept := spends_sees _ _ _ hlooked
          have hspent := spends_application hexpr callee call left hread
          rw [List.length_cons] at hrounds
          exact ih call left (by omega) hrun

theorem shows_of_operand (hexpr : ∀ stream, Spends 0 expr stream) (hrun : operand expr stream = .ok e after) :
    after.Shows fun token => ¬CallsOn token := by
  obtain ⟨callee, behind, -, happlied⟩ := ok_of_bind hrun
  exact shows_of_applications hexpr behind.rounds callee behind behind.count_lt_rounds happlied

/-- Where no argument list follows, there is nothing to apply an expression to. -/
theorem applied_of_shows (h : stream.Shows fun token => ¬CallsOn token) :
    applied expr callee stream = .ok callee stream := by
  obtain ⟨token?, hpeek, htoken⟩ := h
  have hlook : peek stream = .ok token? stream := by rw [peek, hpeek]
  have hunseen : sees (Token.isPunctuation "(") stream = .ok false stream := by
    unfold sees peekIf
    rw [bind_assoc, bind_of_ok hlook]
    cases token? with
    | none => rfl
    | some token =>
        have hno : token.token.isPunctuation "(" = false := by
          rw [Bool.eq_false_iff]
          exact fun hcall => htoken token rfl (isPunctuation_iff_callsOn.mp hcall)
        simp only [hno]
        rfl
  show applications expr stream.rounds callee stream = _
  rw [TokenStream.rounds, applications, bind_of_ok hunseen]
  rfl

/-! ### Ends of expressions -/

/-- A token that goes on neither with an operand nor with a chain whose operators bind more strongly than a bound. -/
def EndsChain (precedence : Nat) (token : Token) : Prop :=
  ¬CallsOn token ∧ ∀ op, token = .operator op → op.precedence ≤ precedence

theorem peekOperator_eq_ok {found : Option (Operator × Position)} (h : peekOperator stream = .ok found after) :
    ∃ token?, stream.peek = (.ok token?, after) ∧
      match found with
      | some (op, pos) => token? = some ⟨.operator op, pos⟩
      | none => ∀ token ∈ token?, ∀ op, token.token ≠ .operator op := by
  obtain ⟨token?, looked, hlooked, hfound⟩ := ok_of_bind h
  have hpeek := peek_eq_ok hlooked
  obtain _ | ⟨token, pos⟩ := token?
  · cases hfound
    exact ⟨none, hpeek, nofun⟩
  · cases token with
    | operator op =>
        cases hfound
        exact ⟨_, hpeek, rfl⟩
    | _ =>
        cases hfound
        refine ⟨_, hpeek, ?_⟩
        rintro token ⟨⟩ op
        exact nofun

/-- Going on from an expression behind which is no argument list ends at a token that does not go on with the chain. -/
theorem shows_of_climb (depth : Nat) : ∀ (left : Expr) (precedence : Nat) {stream after : TokenStream} {e : Expr},
    (stream.Shows fun token => ¬CallsOn token) → climb depth left precedence stream = .ok e after →
      after.Shows (EndsChain precedence) := by
  induction depth with
  | zero =>
      intro left precedence stream after e _ hrun
      rw [climb] at hrun
      cases hrun
  | succ depth ih =>
      intro left precedence stream after e hno hrun
      rw [climb] at hrun
      obtain ⟨found, looked, hlooked, hrun⟩ := ok_of_bind hrun
      obtain ⟨token?, hpeek, hfound⟩ := peekOperator_eq_ok hlooked
      have hnext := hno.peek hpeek
      cases found with
      | none =>
          cases hrun
          exact ⟨token?, TokenStream.peek_peek hpeek, fun token hmem =>
            ⟨hnext token hmem, fun op hop => absurd hop (hfound token hmem op)⟩⟩
      | some found =>
          obtain ⟨op, pos⟩ := found
          dsimp only at hfound hrun
          subst hfound
          split at hrun
          · obtain ⟨_, behind, -, hrun⟩ := ok_of_bind hrun
            obtain ⟨first, operandEnd, hoperand, hrun⟩ := ok_of_bind hrun
            obtain ⟨right, rightEnd, hright, hrun⟩ := ok_of_bind hrun
            have hkept (stream : TokenStream) := (spends_expression depth stream).kept
            -- neither behind the operand nor behind what binds more strongly is an argument list
            have hbehind := shows_of_operand hkept hoperand
            have hinner := (ih first op.precedence hbehind hright).mono fun token hends => hends.1
            exact ih (combine op pos left right) precedence hinner hrun
          · next hweaker =>
            cases hrun
            refine ⟨_, TokenStream.peek_peek hpeek, ?_⟩
            rintro token ⟨⟩
            refine ⟨hnext _ rfl, ?_⟩
            rintro other ⟨⟩
            exact Nat.le_of_not_lt hweaker

/-! ### The reader without the last step -/

mutual

/-- Reads an expression, with argument lists only behind its operands. -/
def plainExpression : (depth : Nat) → Parser Expr
  | 0 => throw .tooDeep
  | depth + 1 => do
    let left ← operand (plainExpression depth)
    plainClimb depth left 0

/-- Goes on from an expression as `climb` does. -/
def plainClimb : (depth : Nat) → (left : Expr) → (precedence : Nat) → Parser Expr
  | 0, _, _ => throw .tooDeep
  | depth + 1, left, precedence => do
    match ← peekOperator with
    | none => pure left
    | some (op, pos) =>
      if precedence < op.precedence then do
        let _ ← next
        let first ← operand (plainExpression depth)
        let right ← plainClimb depth first op.precedence
        plainClimb depth (combine op pos left right) precedence
      else
        pure left

end

/-- Reads a whole program of such expressions. -/
def plainProgram (depth : Nat) : Parser Expr := do
  let stream ← get
  let body ← programFrom (plainExpression depth) stream.rounds []
  return .block body (some .start)

/-- The last step of an expression applies nothing. -/
theorem expression_succ (depth : Nat) : expression (depth + 1) = (do
    let left ← operand (expression depth)
    climb depth left 0) := by
  funext stream
  rw [expression]
  refine bind_congr_of_ok fun left behind hoperand => ?_
  have hkept (stream : TokenStream) := (spends_expression depth stream).kept
  have hno := shows_of_operand hkept hoperand
  have hlast : (climb depth left 0 >>= fun tree => applied (expression depth) tree) behind =
      (climb depth left 0 >>= pure) behind := by
    refine bind_congr_of_ok fun tree last hclimb => ?_
    have hends := shows_of_climb depth left 0 hno hclimb
    exact applied_of_shows (hends.mono fun token hend => hend.1)
  rw [bind_pure] at hlast
  exact hlast

theorem expression_eq_plain (depth : Nat) :
    expression depth = plainExpression depth ∧ climb depth = plainClimb depth := by
  induction depth with
  | zero => exact ⟨rfl, rfl⟩
  | succ depth ih =>
      obtain ⟨hexpr, hclimb⟩ := ih
      constructor
      · rw [expression_succ, hexpr, hclimb]
        rfl
      · funext left precedence
        rw [climb, hexpr, hclimb]
        rfl

/-- In a text, whatever ends a chain of all strengths is no operator. -/
theorem Shows.not_goesOn {text : String} (hwithin : after.Within text) (h : after.Shows (EndsChain 0)) :
    after.Shows fun token => ¬GoesOn token := by
  obtain ⟨token?, hpeek, hends⟩ := h
  refine ⟨token?, hpeek, fun token hmem => ?_⟩
  obtain ⟨hcall, hweak⟩ := hends token hmem
  rintro (hopen | ⟨op, hop⟩)
  · exact hcall hopen
  · have hreadable := ((hwithin.peek_ok hpeek).2 token hmem).1
    rw [hop] at hreadable
    cases hreadable with
    | operator hknown => exact absurd (hweak op hop) (Nat.not_le_of_lt (precedence_pos hknown))

/-- **Expressions are taken in as far as they go.** Wherever in a text an operand is read, no argument list follows it;
wherever an expression is read, neither an argument list nor an operator follows, and what was read is a chain of
operands, each an atom with all of its argument lists. Reading expressions without trying to apply the whole of them is
therefore the same: the same trees, the same tokens taken away and the same faults on every input. -/
theorem expression_maximal {text : String} {stream : TokenStream} (hwithin : stream.Within text) (depth : Nat) :
    (∀ e after, operand (expression depth) stream = .ok e after → after.Shows fun token => ¬CallsOn token) ∧
    (∀ e after, expression depth stream = .ok e after → (after.Shows fun token => ¬GoesOn token) ∧
      ∃ ts, stream.delivery = after.delivery.behind ts ∧ Expression ts e) ∧
    expression depth = plainExpression depth ∧ program depth = plainProgram depth := by
  have hkept (depth : Nat) (stream : TokenStream) := (spends_expression depth stream).kept
  refine ⟨fun e after hrun => shows_of_operand (hkept depth) hrun, fun e after hrun => ?_,
    (expression_eq_plain depth).1, ?_⟩
  · have hsound := sound_expression depth stream.delivery stream hwithin rfl
    rw [hrun] at hsound
    obtain ⟨hleft, htaken⟩ := hsound
    refine ⟨?_, htaken⟩
    cases depth with
    | zero => cases hrun
    | succ depth =>
        rw [expression_succ] at hrun
        obtain ⟨left, behind, hoperand, hclimb⟩ := ok_of_bind hrun
        have hends := shows_of_climb depth left 0 (shows_of_operand (hkept depth) hoperand) hclimb
        exact Shows.not_goesOn hleft hends
  · rw [program, plainProgram, (expression_eq_plain depth).1]

/-- A run that ended with a result, whatever it is. -/
theorem exists_of_isRead (result : EStateM.Result Stop TokenStream Expr)
    (h : (match result with
      | .ok _ _ => true
      | .error _ _ => false) = true) : ∃ e after, result = .ok e after := by
  split at h
  · next e after => exact ⟨e, after, rfl⟩
  · cases h

/-- A function whose body is a sum of calls, with a semicolon behind it, is read up to the semicolon; as an operand by
itself it takes in all of the sum as well. -/
theorem expression_maximal_function :
    let text := "λ(x) f(x)(y) + g(2) ; (z)"
    let stream := TokenStream.ofText text
    stream.Within text ∧
    (∃ e after, operand (expression 6) stream = .ok e after ∧ after.Shows fun token => ¬CallsOn token) ∧
    (∃ e after, expression 6 stream = .ok e after ∧ (after.Shows fun token => ¬GoesOn token) ∧
      ∃ ts, stream.delivery = after.delivery.behind ts ∧ Expression ts e) ∧
    expression 6 = plainExpression 6 ∧ program 6 = plainProgram 6 := by
  intro text stream
  have hwithin : stream.Within text := TokenStream.within_ofText text
  obtain ⟨hoperand, hexpression, hplain⟩ := expression_maximal hwithin 6
  obtain ⟨e, after, hrun⟩ := exists_of_isRead (operand (expression 6) stream) (by decide +kernel)
  obtain ⟨tree, last, hread⟩ := exists_of_isRead (expression 6 stream) (by decide +kernel)
  exact ⟨hwithin, ⟨e, after, hrun, hoperand e after hrun⟩, ⟨tree, last, hread, hexpression tree last hread⟩, hplain⟩

end Parser

end LambdaScript
