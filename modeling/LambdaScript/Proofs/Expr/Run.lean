import LambdaScript.Proofs.Token.Place

/-!
Runs of readers. `Runs text E p d Q` says of a reader that, wherever in the text it starts and whatever has
been read ahead there, if the stream delivers `d` then the reader ends with a result and a further delivery
that satisfy `Q`, or stops for a cause that satisfies `E`. A run is followed step by step, and each step has
one rule.
-/

namespace LambdaScript

/-- The first token that a stream delivers is one of the text. -/
theorem TokenStream.Within.forall_mem_head {text : String} {stream : TokenStream} (h : stream.Within text) :
    ∀ token ∈ stream.delivery.tokens.head?, token.IsIn text := by
  intro token hhead
  cases hpeek : stream.peek with
  | mk outcome after =>
      cases outcome with
      | ok token? =>
          obtain ⟨-, hsame, -⟩ := TokenStream.peek_ok hpeek
          rw [hsame] at hhead
          exact (h.peek_ok hpeek).2 token hhead
      | error fault =>
          rw [TokenStream.peek_error hpeek] at hhead
          cases hhead

/-! ### Tests on tokens -/

namespace Punctuation

theorem char_injective {m n : Punctuation} (h : m.char = n.char) : m = n := by
  have := ofChar?_char m
  rw [h, ofChar?_char] at this
  exact (Option.some.inj this).symm

theorem text_injective {m n : Punctuation} (h : m.text = n.text) : m = n := by
  apply char_injective
  have hchars := congrArg String.toList h
  simpa [text] using hchars

end Punctuation

theorem Keyword.text_injective {v w : Keyword} (h : v.text = w.text) : v = w := by
  have := ofText?_text v
  rw [h, ofText?_text] at this
  exact (Option.some.inj this).symm

namespace Token

/-- A test that singles one token out of those that a text may hold. -/
def Recognised (token : Token) (test : Token → Bool) : Prop :=
  ∀ other : Token, other.Readable → (test other = true ↔ other = token)

theorem isPunctuation_iff {text : String} {mark : Punctuation} (htext : text = mark.text) {token : Token} :
    token.isPunctuation text = true ↔ token = .punctuation mark := by
  subst htext
  cases token with
  | punctuation other =>
      simp only [isPunctuation, Option.all_some, beq_iff_eq, punctuation.injEq]
      exact ⟨fun h => (Punctuation.text_injective h).symm, fun h => by rw [h]⟩
  | _ => simp [isPunctuation]

theorem recognised_isPunctuation {text : String} (mark : Punctuation) (htext : text = mark.text) :
    (punctuation mark).Recognised (isPunctuation text) := fun _ _ => isPunctuation_iff htext

theorem recognised_isKeyword {text : String} (word : Keyword) (htext : text = word.text) :
    (keyword word).Recognised (isKeyword text) := by
  intro other _
  subst htext
  cases other with
  | keyword other =>
      simp only [isKeyword, Option.all_some, beq_iff_eq, keyword.injEq]
      exact ⟨fun h => (Keyword.text_injective h).symm, fun h => by rw [h]⟩
  | _ => simp [isKeyword]

theorem recognised_isOperator {text : String} (op : Operator) (hop : op ∈ Operator.known)
    (htext : text = op.text) :
    (operator op).Recognised (isOperator text) := by
  intro other hreadable
  subst htext
  cases hreadable with
  | @operator other hother =>
      simp only [isOperator, Option.all_some, beq_iff_eq, operator.injEq]
      refine ⟨fun h => ?_, fun h => by rw [h]⟩
      have hfound := Operator.ofText?_text_of_mem hop
      rw [h, Operator.ofText?_text_of_mem hother] at hfound
      exact Option.some.inj hfound
  | _ => simp [isOperator]

end Token

/-! ### Steps of readers -/

namespace Parser

variable {α β : Type} {text : String} {E : Stop → Prop} {d : Delivery}

/-- A reader on a stream of a text that delivers `d` ends with a result and a delivery that satisfy `Q`, or
stops for a cause that satisfies `E`. -/
def Runs (text : String) (E : Stop → Prop) (p : Parser α) (d : Delivery) (Q : α → Delivery → Prop) : Prop :=
  ∀ stream : TokenStream, stream.Within text → stream.delivery = d →
    match p stream with
    | .ok a after => after.Within text ∧ Q a after.delivery
    | .error stop _ => E stop

theorem Runs.pure {Q : α → Delivery → Prop} {a : α} (h : Q a d) :
    Runs text E (Pure.pure a : Parser α) d Q := by
  intro stream hwithin hdelivery
  exact ⟨hwithin, hdelivery ▸ h⟩

theorem Runs.bind {p : Parser α} {f : α → Parser β} {Q : β → Delivery → Prop}
    (h : Runs text E p d fun a rest => Runs text E (f a) rest Q) : Runs text E (p >>= f) d Q := by
  intro stream hwithin hdelivery
  have hrun := h stream hwithin hdelivery
  simp only [Bind.bind, EStateM.bind]
  cases hp : p stream with
  | ok a after =>
      rw [hp] at hrun
      exact hrun.2 after hrun.1 rfl
  | error stop after =>
      rw [hp] at hrun
      exact hrun

/-- A run that is known to end in one way ends in every way that this implies. -/
theorem Runs.mono {E' : Stop → Prop} {p : Parser α} {Q Q' : α → Delivery → Prop} (h : Runs text E p d Q)
    (hstop : ∀ stop, E stop → E' stop) (hresult : ∀ a rest, Q a rest → Q' a rest) : Runs text E' p d Q' := by
  intro stream hwithin hdelivery
  have hrun := h stream hwithin hdelivery
  cases hp : p stream with
  | ok a after =>
      rw [hp] at hrun
      exact ⟨hrun.1, hresult a after.delivery hrun.2⟩
  | error stop after =>
      rw [hp] at hrun
      exact hstop stop hrun

theorem Runs.throw {Q : α → Delivery → Prop} {stop : Stop} (h : E stop) :
    Runs text E (MonadExcept.throw stop : Parser α) d Q := fun _ _ _ => h

theorem Runs.complain {Q : α → Delivery → Prop} {cause : Cause} {pos : Option Position}
    (h : ∀ here, IsPlaceIn text here → E (.at cause (some (pos.getD here)))) :
    Runs text E (complain cause pos : Parser α) d Q :=
  fun _ hwithin _ => h _ hwithin.1.isPlaceIn

/-- The rounds that a loop takes from the stream outnumber the tokens. -/
theorem Runs.get {Q : TokenStream → Delivery → Prop}
    (h : ∀ stream : TokenStream, d.tokens.length < stream.rounds.length → Q stream d) :
    Runs text E (MonadState.get : Parser TokenStream) d Q := by
  intro stream hwithin hdelivery
  subst hdelivery
  exact ⟨hwithin, h stream stream.count_lt_rounds⟩

/-- Looking ahead shows the first token and leaves it where it is. -/
theorem Runs.peek {Q : Option PlacedToken → Delivery → Prop}
    (hfault : ∀ fault, d = ⟨[], some fault⟩ → fault.IsParsingIn text → E (.fault fault))
    (h : (∀ token ∈ d.tokens.head?, token.IsIn text) → (d.tokens = [] → d.fault = none) → Q d.tokens.head? d) :
    Runs text E peek d Q := by
  intro stream hwithin hdelivery
  simp only [Parser.peek]
  cases hpeek : stream.peek with
  | mk outcome after =>
      cases outcome with
      | ok token? =>
          obtain ⟨hsame, hhead, hnone⟩ := TokenStream.peek_ok hpeek
          refine ⟨(hwithin.peek_ok hpeek).1, ?_⟩
          have hend : stream.delivery.tokens = [] → stream.delivery.fault = none := by
            intro hempty
            rw [hempty] at hhead
            exact hnone hhead.symm
          subst hdelivery
          rw [hsame, ← hhead]
          exact h hwithin.forall_mem_head hend
      | error fault => exact hfault fault (hdelivery ▸ TokenStream.peek_error hpeek) (hwithin.peek_error hpeek)

/-- Reading takes the first token away. -/
theorem Runs.next {Q : Option PlacedToken → Delivery → Prop}
    (hfault : ∀ fault, d = ⟨[], some fault⟩ → fault.IsParsingIn text → E (.fault fault))
    (h : (∀ token ∈ d.tokens.head?, token.IsIn text) → Q d.tokens.head? ⟨d.tokens.tail, d.fault⟩) :
    Runs text E next d Q := by
  intro stream hwithin hdelivery
  simp only [Parser.next]
  cases hnext : stream.next with
  | mk outcome after =>
      cases outcome with
      | ok token? =>
          obtain ⟨hsplit, hnone⟩ := TokenStream.next_ok hnext
          refine ⟨(hwithin.next_ok hnext).1, ?_⟩
          have hhead := hwithin.forall_mem_head
          subst hdelivery
          have hrun := h hhead
          rw [hsplit] at hrun
          cases token? with
          | some token => exact hrun
          | none =>
              have hend : after.delivery = ⟨[], none⟩ := by
                rw [← hnone rfl, hsplit]
                rfl
              rw [hend] at hrun ⊢
              exact hrun
      | error fault => exact hfault fault (hdelivery ▸ TokenStream.next_error hnext) (hwithin.next_error hnext)

/-- Testing for a token leaves the token where it is. -/
theorem Runs.sees {test : Token → Bool} {token : Token} {Q : Bool → Delivery → Prop}
    (htest : token.Recognised test)
    (hfault : ∀ fault, d = ⟨[], some fault⟩ → fault.IsParsingIn text → E (.fault fault))
    (hseen : d.StartsWith token → Q true d) (hunseen : ¬d.StartsWith token → Q false d) :
    Runs text E (Parser.sees test) d Q := by
  refine .bind (.bind (.peek hfault fun hhead _ => ?_))
  cases htokens : d.tokens with
  | nil =>
      refine .pure (.pure (hunseen ?_))
      intro hresult
      obtain ⟨pos, tokens, hstarts⟩ := hresult
      rw [htokens] at hstarts
      cases hstarts
  | cons first tokens =>
      have hreadable := (hhead first (by rw [htokens]; rfl)).1
      refine .pure (.pure ?_)
      by_cases hsame : first.token = token
      · rw [if_pos ((htest _ hreadable).mpr hsame)]
        exact hseen ⟨first.pos, tokens, by rw [htokens, ← hsame]⟩
      · rw [if_neg fun h => hsame ((htest _ hreadable).mp h)]
        refine hunseen ?_
        intro hresult
        obtain ⟨pos, tokens', hstarts⟩ := hresult
        rw [htokens] at hstarts
        cases hstarts
        exact hsame rfl

/-- Reading a token that has to come next takes it away. -/
theorem Runs.skip {test : Token → Bool} {token : Token} {cause : Cause} {Q : Unit → Delivery → Prop}
    (htest : token.Recognised test)
    (hfault : ∀ fault, d = ⟨[], some fault⟩ → fault.IsParsingIn text → E (.fault fault))
    (hmissing : ¬d.StartsWith token → ∀ here, IsPlaceIn text here → E (.at cause (some here)))
    (h : ∀ pos tokens, d.tokens = ⟨token, pos⟩ :: tokens → Q () ⟨tokens, d.fault⟩) :
    Runs text E (do if ← Parser.sees test then let _ ← Parser.next else Parser.complain cause none) d Q := by
  refine .bind (.sees htest hfault (fun ⟨pos, tokens, hstarts⟩ => ?_) fun hunseen => .complain (hmissing hunseen))
  refine .bind (.next hfault fun _ => .pure ?_)
  have hrun := h pos tokens hstarts
  rw [hstarts]
  exact hrun

end Parser

end LambdaScript
