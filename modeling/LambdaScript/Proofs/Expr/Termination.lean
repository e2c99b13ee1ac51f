import LambdaScript.Proofs.Expr.Levels
import LambdaScript.Proofs.Expr.Parse
import LambdaScript.Proofs.Expr.Progress
import LambdaScript.Proofs.Token.Seam

/-!
Reading comes to an end. Whatever a text holds, each reader of phrases that is called on the way ends with a result or
stops for a fault of the text. What bounds it is the number of tokens that are left. Only the readers of expressions and
of chains lead back to themselves, and each such call takes a level; all others call each other to a fixed depth in
between. A nested call is made behind a token of its surroundings, so one level more than there are tokens is always
enough. A round of a loop uses up a token, and a token uses up characters.
-/

namespace LambdaScript

namespace Cursor

theorem index_advance {n : Nat} {cursor : Cursor} (h : n ≤ cursor.rest.length) :
    (advance n cursor).index = cursor.index + n := by
  induction n generalizing cursor with
  | zero => rfl
  | succ n ih =>
      obtain ⟨rest, index, pos⟩ := cursor
      cases rest with
      | nil => exact absurd h (Nat.not_succ_le_zero n)
      | cons c cs =>
          have hmoved := @ih ⟨cs, index + 1, pos.after c⟩ (Nat.le_of_succ_le_succ h)
          rw [Nat.add_right_comm, Nat.add_assoc] at hmoved
          exact hmoved

/-- A token that is read moves the cursor on, and not past the end. -/
theorem advance_of_readToken {cursor after : Cursor} {token : PlacedToken}
    (h : cursor.readToken = (.ok (some token), after)) :
    ∃ n, 0 < n ∧ n ≤ cursor.rest.length ∧ after = advance n cursor := by
  obtain ⟨c, cs, scanned, n, hskip, hscan, -, hafter⟩ := scanToken_of_readToken h
  have hgap := gapLength_le_length cursor.rest
  have hpos := scanToken_pos hscan
  have hlength := length_le_of_scanToken hscan
  rw [← hskip, skipGap, rest_advance, List.length_drop] at hlength
  refine ⟨gapLength cursor.rest + n, by omega, by omega, ?_⟩
  rw [hafter, skipGap, advance_add]

end Cursor

namespace Parser

open Grammar

variable {α : Type} {text : String} {stream : TokenStream} {depth n : Nat} {d : Delivery}

/-- A reader on a stream of a text ends with a result, or stops for a fault of the text; it leaves no more tokens than
there were. -/
def Settles (text : String) (p : Parser α) (stream : TokenStream) : Prop :=
  match p stream with
  | .ok _ after => after.Within text ∧ after.count ≤ stream.count
  | .error (.fault fault) _ => fault.IsParsingIn text
  | .error .tooDeep _ => False

/-- The readers that are called when a text is read, with the levels they have left, and what they are called on. -/
inductive IsCalled : {α : Type} → (Delivery → Prop) → (Nat → Parser α) → Prop where
  | program : IsCalled (fun _ => True) program
  | expression : IsCalled (fun _ => True) expression
  | climb (left : Expr) (precedence : Nat) : IsCalled (fun _ => True) fun depth => climb depth left precedence
  | operand : IsCalled (fun _ => True) fun depth => operand (expression depth)
  | atom : IsCalled (fun _ => True) fun depth => atom (expression depth)
  | applied (callee : Expr) : IsCalled (fun _ => True) fun depth => applied (expression depth) callee
  | application (callee : Expr) :
      IsCalled (·.StartsWith (.punctuation .openParen)) fun depth => application (expression depth) callee
  | lambda {word : Keyword} (hword : word = .lambdaWord ∨ word = .lambdaSign) :
      IsCalled (·.StartsWith (.keyword word)) fun depth => lambda (expression depth)
  | letExpr : IsCalled (·.StartsWith (.keyword .letWord)) fun depth => letExpr (expression depth)
  | conditional : IsCalled (·.StartsWith (.keyword .ifWord)) fun depth => conditional (expression depth)
  | block : IsCalled (·.StartsWith (.punctuation .openBrace)) fun depth => block (expression depth)
  | truthValue (value : Bool) : IsCalled (·.StartsWith (.boolean value)) fun _ => truthValue value
  | body : IsCalled (fun _ => True) fun depth => delimited "\x7b" "\x7d" ";" (expression depth)
  | arguments : IsCalled (fun _ => True) fun depth => delimited "(" ")" "," (expression depth)
  | bindings : IsCalled (fun _ => True) fun depth => delimited "(" ")" "," (binding (expression depth))
  | parameters : IsCalled (fun _ => True) fun _ => delimited "(" ")" "," variableName
  | binding : IsCalled (fun _ => True) fun depth => binding (expression depth)
  | variableName : IsCalled (fun _ => True) fun _ => variableName
  | ownName : IsCalled (fun _ => True) fun _ => ownName?
  | skipPunctuation (mark : Punctuation) : IsCalled (fun _ => True) fun _ => skipPunctuation mark.text
  | skipKeyword (word : Keyword) : IsCalled (fun _ => True) fun _ => skipKeyword word.text
  | unexpected : IsCalled (fun _ => True) fun _ => (unexpected : Parser Expr)
  | peekIf (test : Token → Bool) : IsCalled (fun _ => True) fun _ => peekIf test
  | next : IsCalled (fun _ => True) fun _ => next

theorem Reads.settles {p : Parser α} {R : List PlacedToken → α → Delivery → Prop}
    (h : Reads text n p stream.delivery R) (hwithin : stream.Within text) (hlt : stream.count < n) :
    Settles text p stream := by
  have hrun := h stream hwithin rfl
  unfold Settles
  cases hp : p stream with
  | ok a after =>
      rw [hp] at hrun
      obtain ⟨hleft, ts, hsplit, -⟩ := hrun
      refine ⟨hleft, ?_⟩
      rw [TokenStream.count, TokenStream.count, hsplit, Delivery.tokens_behind, List.length_append]
      exact Nat.le_add_left _ _
  | error stop after =>
      rw [hp] at hrun
      cases stop with
      | fault fault => exact hrun
      | tooDeep => exact absurd hrun (Nat.not_le_of_lt hlt)

/-- What each reader takes away is accounted for, with one level for each token. -/
theorem IsCalled.exists_reads {situation : Delivery → Prop} {reader : Nat → Parser α} (h : IsCalled situation reader)
    (text : String) (depth : Nat) (hsituation : situation d) : ∃ R, Reads text depth (reader depth) d R := by
  have hexpr : Sound text depth (Parser.expression depth) Expression := sound_expression depth
  have hle := Nat.le_succ depth
  have hlist {β : Type} (opening closing mark : Punctuation) {item : Parser β} {Item : List PlacedToken → β → Prop}
      (hitem : Sound text depth item Item) :
      ∃ R, Reads text depth (delimited opening.text closing.text mark.text item) d R :=
    ⟨_, (sound_delimited opening closing mark rfl rfl rfl hitem d).of_le hle⟩
  have hstart {token : Token} {phrase : Parser Expr} {R : List PlacedToken → Expr → Delivery → Prop}
      (hstarts : d.StartsWith token)
      (hphrase : ∀ pos rest fault, Reads text (depth + 1) phrase ⟨⟨token, pos⟩ :: rest, fault⟩ R) :
      ∃ R, Reads text depth phrase d R := by
    obtain ⟨tokens, fault⟩ := d
    obtain ⟨pos, rest, rfl⟩ := hstarts
    exact ⟨R, (hphrase pos rest fault).of_le hle⟩
  cases h with
  | program => exact ⟨_, reads_program depth⟩
  | expression => exact ⟨_, hexpr d⟩
  | climb left precedence => exact ⟨_, (sound_expression_and_climb depth).2 d left precedence⟩
  | operand => exact ⟨_, (reads_operand hexpr).of_le hle⟩
  | atom => exact ⟨_, (sound_atom hexpr d).of_le hle⟩
  | applied callee => exact ⟨_, (reads_applied hexpr callee).of_le hle⟩
  | application callee => exact ⟨_, (reads_application hexpr hsituation).of_le hle⟩
  | lambda hword => exact hstart hsituation fun _ _ _ => reads_lambda hexpr hword
  | letExpr => exact hstart hsituation fun _ _ _ => reads_letExpr hexpr
  | conditional => exact hstart hsituation fun _ _ _ => reads_conditional hexpr
  | block => exact hstart hsituation fun _ _ _ => reads_block hexpr
  | truthValue value => exact hstart hsituation fun _ _ _ => reads_truthValue
  | body => exact hlist .openBrace .closeBrace .semicolon hexpr
  | arguments => exact hlist .openParen .closeParen .comma hexpr
  | bindings => exact hlist .openParen .closeParen .comma (sound_binding hexpr)
  | parameters => exact hlist .openParen .closeParen .comma sound_variableName
  | binding => exact ⟨_, sound_binding hexpr d⟩
  | variableName => exact ⟨_, sound_variableName d⟩
  | ownName => exact ⟨_, sound_ownName d⟩
  | skipPunctuation mark => exact ⟨_, .skipPunctuation mark rfl⟩
  | skipKeyword word => exact ⟨_, .skipKeyword word rfl⟩
  | unexpected => exact ⟨fun _ _ _ => True, reads_unexpected⟩
  | peekIf test =>
      refine ⟨fun _ _ _ => True, .bind .peek fun _ token? _ _ => ?_⟩
      cases token? with
      | none => exact .pure trivial
      | some token => exact .pure trivial
  | next => exact ⟨_, .next⟩

/-- Every reader settles what it is called on, with more levels than there are tokens. -/
theorem IsCalled.settles {situation : Delivery → Prop} {reader : Nat → Parser α} (h : IsCalled situation reader)
    (hwithin : stream.Within text) (hsituation : situation stream.delivery) (hlt : stream.count < depth) :
    Settles text (reader depth) stream := by
  obtain ⟨R, hreads⟩ := h.exists_reads text depth hsituation
  exact hreads.settles hwithin hlt

/-- A loop runs at most once for each token that is left, and once more to find that it has come to its end: it makes no
use of any further rounds. -/
def RunsByTokens (loop : List Char → Parser α) : Prop :=
  ∀ (stream : TokenStream) (rounds : List Char), stream.count < rounds.length →
    loop rounds stream = loop (rounds.take (stream.count + 1)) stream

/-- A loop that ends in the same way with any rounds that outnumber the tokens. -/
theorem RunsByTokens.of_rounds {loop : List Char → Parser α}
    (h : ∀ (rounds others : List Char) (stream : TokenStream), stream.count < rounds.length →
      stream.count < others.length → loop rounds stream = loop others stream) : RunsByTokens loop := by
  intro stream rounds hrounds
  refine h rounds (rounds.take (stream.count + 1)) stream hrounds ?_
  rw [List.length_take]
  omega

end Parser

/-- With more levels than tokens the number of levels makes no difference. -/
theorem parse_eq_of_count_lt {text : String} {depth : Nat} (h : (TokenStream.ofText text).count < depth) :
    parse depth text = parse ((TokenStream.ofText text).count + 1) text := by
  obtain ⟨extra, rfl⟩ := Nat.exists_eq_add_of_le h
  refine (parse_of_more_levels ((TokenStream.ofText text).count + 1) extra text).resolve_left fun hdeep => ?_
  have hsettled := Parser.IsCalled.program.settles (TokenStream.within_ofText text) trivial (Nat.lt_succ_self _)
  unfold parse at hdeep
  unfold Parser.Settles at hsettled
  split at hdeep
  · cases hdeep
  · next stop after hrun =>
    cases hdeep
    rw [hrun] at hsettled
    exact hsettled

open LambdaScript.Parser in
/-- **Reading makes progress and ends.** With one level more than there are tokens every text is read or refused for a
fault of its own, and any further levels make no difference; so do all readers that are called on the way, with one
level more than there are tokens left. A token that is read uses up characters, and none beyond the end. An operand, an
expression and every kind of item of a list use up a token, and the loops over a program, over argument lists and over
the items of a list have rounds enough and run no more than once for each token. -/
theorem parse_terminates (text : String) :
    (∀ depth, (TokenStream.ofText text).count < depth →
      parse depth text = parse ((TokenStream.ofText text).count + 1) text ∧
      match parse depth text with
      | .ok _ => True
      | .error (.fault fault) => fault.IsParsingIn text
      | .error .tooDeep => False) ∧
    (∀ {α : Type} {situation : Delivery → Prop} {reader : Nat → Parser α}, IsCalled situation reader →
      ∀ (stream : TokenStream) (depth : Nat), stream.Within text → situation stream.delivery → stream.count < depth →
        Settles text (reader depth) stream) ∧
    (∀ (cursor after : Cursor) (token : PlacedToken), cursor.readToken = (.ok (some token), after) →
      ∃ n, 0 < n ∧ n ≤ cursor.rest.length ∧ after = cursor.advance n ∧ after.index = cursor.index + n) ∧
    (∀ (depth : Nat) (stream : TokenStream), Spends 1 (operand (expression depth)) stream ∧
      Spends 1 (expression depth) stream ∧ Spends 1 (binding (expression depth)) stream ∧
      Spends 1 variableName stream) ∧
    (∀ stream : TokenStream, stream.count < stream.rounds.length) ∧
    (∀ (depth : Nat) (body : List Expr), RunsByTokens fun rounds => programFrom (expression depth) rounds body) ∧
    (∀ (depth : Nat) (callee : Expr), RunsByTokens fun rounds => applications (expression depth) rounds callee) ∧
    ∀ {α : Type} {item : Parser α}, (∀ stream, Spends 1 item stream) →
      ∀ (stop separator : String) (first : Bool) (items : List α),
        RunsByTokens fun rounds => itemsUntil stop separator item rounds first items := by
  have hkept (depth : Nat) (stream : TokenStream) : Spends 0 (expression depth) stream :=
    (spends_expression depth stream).kept
  refine ⟨fun depth hlt => ⟨parse_eq_of_count_lt hlt, ?_⟩, fun hcalled stream depth hwithin hsituation hlt =>
    hcalled.settles hwithin hsituation hlt, fun cursor after token hread => ?_, fun depth stream => ?_,
    TokenStream.count_lt_rounds, fun depth body => ?_, fun depth callee => ?_,
    fun hitem stop separator first items => ?_⟩
  · have hsettled := IsCalled.program.settles (TokenStream.within_ofText text) trivial hlt
    unfold Settles at hsettled
    unfold parse
    cases hrun : program depth (.ofText text) with
    | ok tree after => trivial
    | error stop after =>
        rw [hrun] at hsettled
        cases stop with
        | fault fault => exact hsettled
        | tooDeep => exact hsettled
  · obtain ⟨n, hpos, hle, rfl⟩ := Cursor.advance_of_readToken hread
    exact ⟨n, hpos, hle, rfl, Cursor.index_advance hle⟩
  · exact ⟨spends_operand (hkept depth), spends_expression depth stream, spends_binding (hkept depth),
      spends_variableName⟩
  · exact .of_rounds fun rounds others stream => programFrom_rounds (spends_expression depth) rounds others body stream
  · exact .of_rounds fun rounds others stream => applications_rounds (hkept depth) rounds others callee stream
  · exact .of_rounds fun rounds others stream => itemsUntil_rounds hitem stop separator rounds others first items stream

open LambdaScript.Parser in
/-- A text with a block that is not closed, and a fault of the lexer behind it. -/
theorem parse_terminates_unclosed :
    let text := "f(a, (b)) + let (x = 2) \x7b x; ~"
    let stream := TokenStream.ofText text
    stream.count < 40 ∧ parse 40 text = parse (stream.count + 1) text ∧
    (∃ fault, parse 40 text = .error (.fault fault) ∧ fault.IsParsingIn text) ∧
    stream.Within text ∧ Settles text (climb 40 (.variable "f" none) 0) stream ∧
    (∃ after, (Cursor.ofText text).readToken = (.ok (some ⟨.identifier "f", ⟨1, 0⟩⟩), after) ∧
      ∃ n, 0 < n ∧ n ≤ (Cursor.ofText text).rest.length ∧ after = (Cursor.ofText text).advance n ∧ after.index = n) ∧
    Spends 1 (operand (expression 40)) stream ∧
    itemsUntil ")" "," variableName stream.rounds true [] stream =
      itemsUntil ")" "," variableName (stream.rounds.take (stream.count + 1)) true [] stream := by
  intro text stream
  obtain ⟨hends, hcalls, hread, hspends, hrounds, -, -, hitems⟩ := parse_terminates text
  have hlt : stream.count < 40 := Nat.lt_of_le_of_lt (count_ofText_le text) (by decide +kernel)
  have hwithin : stream.Within text := TokenStream.within_ofText text
  obtain ⟨heq, hfault⟩ := hends 40 hlt
  have hfails : (parse 40 text).toOption.isNone = true := by decide +kernel
  have hfirst : (Cursor.ofText text).readToken.1 = .ok (some ⟨.identifier "f", ⟨1, 0⟩⟩) := by decide +kernel
  obtain ⟨n, hpos, hle, hafter, hindex⟩ := hread (Cursor.ofText text) _ _ (Prod.ext hfirst rfl)
  refine ⟨hlt, heq, ?_, hwithin, hcalls (.climb _ 0) stream 40 hwithin trivial hlt,
    ⟨_, Prod.ext hfirst rfl, n, hpos, hle, hafter, hindex.trans (Nat.zero_add n)⟩, (hspends 40 stream).1,
    hitems (fun _ => spends_variableName) ")" "," true [] stream stream.rounds (hrounds stream)⟩
  cases hparse : parse 40 text with
  | ok tree =>
      rw [hparse] at hfails
      cases hfails
  | error stop =>
      rw [hparse] at hfault
      cases stop with
      | fault fault => exact ⟨fault, rfl, hfault⟩
      | tooDeep => exact hfault.elim

end LambdaScript
