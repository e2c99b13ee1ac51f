import LambdaScript.Proofs.Token.Delivery

/-!
Lookahead does not show. A stream can be asked for the next token, for a look at it and for whether there is one, in any
order and any number of times, and may have read a token ahead that is not delivered yet. What it answers is what plain
reading finds, token after token from the start, at the place that the tokens taken so far lead to.
-/

namespace LambdaScript

/-! ### Plain reading -/

namespace Cursor

/-- What reading finds when it has been done a number of times before. Behind a fault nothing is read any more. -/
def reading : Nat → Cursor → Except Fault (Option PlacedToken)
  | 0, cursor => cursor.readToken.1
  | n + 1, cursor =>
    match cursor.readToken with
    | (.ok _, after) => reading n after
    | (.error fault, _) => .error fault

end Cursor

/-- What stands at a place in a delivery: a token, or else the fault that ended it, or nothing. -/
def Delivery.find (delivery : Delivery) (n : Nat) : Except Fault (Option PlacedToken) :=
  match delivery.tokens[n]?, delivery.fault with
  | some token, _ => .ok (some token)
  | none, some fault => .error fault
  | none, none => .ok none

namespace Delivery

@[simp] theorem find_ended (n : Nat) : find ⟨[], none⟩ n = .ok none := rfl

@[simp] theorem find_failed (fault : Fault) (n : Nat) : find ⟨[], some fault⟩ n = .error fault := rfl

theorem find_zero_behind (delivery : Delivery) (token : PlacedToken) :
    (delivery.behind [token]).find 0 = .ok (some token) := rfl

theorem find_succ_behind (delivery : Delivery) (token : PlacedToken) (n : Nat) :
    (delivery.behind [token]).find (n + 1) = delivery.find n := rfl

end Delivery

/-- Plain reading finds the tokens that are delivered, and then what ended the delivery. -/
theorem Cursor.reading_eq (n : Nat) (cursor : Cursor) : cursor.reading n = cursor.delivery.find n := by
  induction n generalizing cursor with
  | zero =>
      rcases hread : cursor.readToken with ⟨_ | (_ | token), after⟩
      · rw [delivery_of_fault hread, reading, hread, Delivery.find_failed]
      · rw [delivery_of_end hread, reading, hread, Delivery.find_ended]
      · rw [delivery_of_token hread, reading, hread, Delivery.find_zero_behind]
  | succ n ih =>
      rcases hread : cursor.readToken with ⟨_ | (_ | token), after⟩
      · rw [delivery_of_fault hread, reading, hread, Delivery.find_failed]
      · have hagain := delivery_of_end (readToken_of_end hread)
        rw [delivery_of_end hread, reading, hread, Delivery.find_ended]
        exact (ih after).trans (congrArg (Delivery.find · n) hagain)
      · rw [delivery_of_token hread, reading, hread, Delivery.find_succ_behind]
        exact ih after

/-! ### Requests -/

namespace TokenStream

/-- What a stream can be asked. -/
inductive Request where
  | peek
  | next
  | atEnd
deriving DecidableEq, Repr

/-- What a stream answers. -/
inductive Answer where
  | token (token? : Option PlacedToken)
  | ended (value : Bool)
deriving DecidableEq, Repr

/-- The answer of one that has the next token before it, or knows that there is none. -/
def Request.answer : Request → Option PlacedToken → Answer
  | peek, token? | next, token? => .token token?
  | atEnd, token? => .ended token?.isNone

/-- The number of tokens that a request takes away. -/
def Request.taken : Request → Nat
  | next => 1
  | peek | atEnd => 0

def ask (stream : TokenStream) : Request → Except Fault Answer × TokenStream
  | .peek => (stream.peek.1.map .token, stream.peek.2)
  | .next => (stream.next.1.map .token, stream.next.2)
  | .atEnd => (stream.atEnd.1.map .ended, stream.atEnd.2)

/-- The answers to requests that are made one after the other, up to the first that ends in a fault. -/
def answers : List Request → TokenStream → List (Except Fault Answer)
  | [], _ => []
  | request :: requests, stream =>
    match stream.ask request with
    | (.ok answer, after) => .ok answer :: answers requests after
    | (.error fault, _) => [.error fault]

variable {stream after : TokenStream}

theorem peek_eq_find (stream : TokenStream) : stream.peek.1 = stream.delivery.find 0 := by
  rcases hpeek : stream.peek with ⟨fault | token?, after⟩
  · rw [peek_error hpeek, Delivery.find_failed]
  · obtain ⟨-, hhead, hnone⟩ := peek_ok hpeek
    rw [Delivery.find, ← List.head?_eq_getElem?, hhead]
    cases token? with
    | some token => rfl
    | none => rw [hnone rfl]

theorem next_eq_find (stream : TokenStream) : stream.next.1 = stream.delivery.find 0 := by
  rcases hnext : stream.next with ⟨fault | token?, after⟩
  · rw [next_error hnext, Delivery.find_failed]
  · obtain ⟨hsplit, hnone⟩ := next_ok hnext
    cases token? with
    | some token => rw [hsplit, Option.toList_some, Delivery.find_zero_behind]
    | none => rw [hnone rfl, Delivery.find_ended]

/-- **One request.** It is answered by what stands at the head of the delivery. -/
theorem ask_eq_find (stream : TokenStream) (request : Request) :
    (stream.ask request).1 = (stream.delivery.find 0).map request.answer := by
  cases request with
  | peek =>
      rw [ask, stream.peek_eq_find]
      rfl
  | next =>
      rw [ask, stream.next_eq_find]
      rfl
  | atEnd =>
      have hpeek := stream.peek_eq_find
      rw [← hpeek, ask, atEnd]
      rcases stream.peek with ⟨fault | token?, after⟩ <;> rfl

/-- A request that is answered takes its tokens away from the delivery, and no more. -/
theorem find_of_ask {request : Request} {answer : Answer} (h : stream.ask request = (.ok answer, after)) (n : Nat) :
    after.delivery.find n = stream.delivery.find (n + request.taken) := by
  have hpeek {token? : Option PlacedToken} (hlook : stream.peek.1 = .ok token?) :
      stream.peek.2.delivery = stream.delivery := (peek_ok (Prod.ext hlook rfl)).1
  cases request with
  | peek =>
      rcases hlook : stream.peek.1 with fault | token?
      · rw [ask, hlook] at h
        cases h
      · obtain rfl : stream.peek.2 = after := congrArg Prod.snd h
        rw [hpeek hlook]
        rfl
  | next =>
      rcases hread : stream.next.1 with fault | token?
      · rw [ask, hread] at h
        cases h
      · obtain rfl : stream.next.2 = after := congrArg Prod.snd h
        have hnext : stream.next = (.ok token?, stream.next.2) := Prod.ext hread rfl
        obtain ⟨hsplit, hnone⟩ := next_ok hnext
        cases token? with
        | some token =>
            rw [hsplit, Option.toList_some]
            exact (Delivery.find_succ_behind _ _ n).symm
        | none =>
            have hleft : stream.next.2.delivery = stream.delivery := by
              rw [hsplit, Option.toList_none, Delivery.behind_nil]
            rw [hleft, hnone rfl]
            rfl
  | atEnd =>
      rcases hlook : stream.peek with ⟨fault | token?, looked⟩
      · rw [ask, atEnd, hlook] at h
        cases h
      · rw [ask, atEnd, hlook] at h
        cases h
        rw [(peek_ok hlook).1]
        rfl

end TokenStream

/-- The answers that plain reading gives to requests when some tokens have been taken before, up to the first that needs
a token which is not there to be read. -/
def Cursor.plainAnswers (cursor : Cursor) :
    (taken : Nat) → List TokenStream.Request → List (Except Fault TokenStream.Answer)
  | _, [] => []
  | taken, request :: requests =>
    match cursor.reading taken with
    | .ok token? => .ok (request.answer token?) :: cursor.plainAnswers (taken + request.taken) requests
    | .error fault => [.error fault]

/-- **A run of requests.** A stream whose delivery is what plain reading still has to find answers as plain reading
does. -/
theorem TokenStream.answers_eq {cursor : Cursor} (requests : List Request) : ∀ (stream : TokenStream) (taken : Nat),
    (∀ n, stream.delivery.find n = cursor.reading (n + taken)) →
    stream.answers requests = cursor.plainAnswers taken requests := by
  induction requests with
  | nil => exact fun _ _ _ => rfl
  | cons request requests ih =>
      intro stream taken hsame
      have hfirst := stream.ask_eq_find request
      rw [hsame 0, Nat.zero_add] at hfirst
      rw [answers, Cursor.plainAnswers]
      rcases hask : stream.ask request with ⟨fault | answer, after⟩
      · rw [hask] at hfirst
        rcases hread : cursor.reading taken with fault' | token?
        · rw [hread] at hfirst
          cases hfirst
          rfl
        · rw [hread] at hfirst
          cases hfirst
      · rw [hask] at hfirst
        rcases hread : cursor.reading taken with fault' | token?
        · rw [hread] at hfirst
          cases hfirst
        · rw [hread] at hfirst
          cases hfirst
          refine congrArg _ (ih after (taken + request.taken) fun n => ?_)
          rw [find_of_ask hask, hsame, Nat.add_assoc, Nat.add_comm request.taken]

/-- **Lookahead is transparent.** Whatever a fresh stream is asked, in whatever order, it answers as plain reading would:
a look shows what the next reading would deliver, the end is reported where nothing would be delivered, and a fault comes
with the first request that needs the token which can not be read. Plain reading finds the tokens of the text one after
the other, and then nothing for ever; or it finds those before a fault, and then the fault. -/
theorem lookahead_transparent (text : String) (requests : List TokenStream.Request) :
    (TokenStream.ofText text).answers requests = (Cursor.ofText text).plainAnswers 0 requests ∧
      match tokenize text with
      | .ok tokens => ∀ n, (Cursor.ofText text).reading n = .ok tokens[n]?
      | .error fault => ∃ tokens : List PlacedToken, ∀ n, (Cursor.ofText text).reading n =
          match tokens[n]? with
          | some token => .ok (some token)
          | none => .error fault := by
  constructor
  · apply TokenStream.answers_eq
    intro n
    rw [Nat.add_zero, Cursor.reading_eq, TokenStream.delivery_ofText]
  · rw [tokenize_eq]
    rcases hdelivery : (Cursor.ofText text).delivery with ⟨tokens, _ | fault⟩
    · intro n
      rw [Cursor.reading_eq, hdelivery, Delivery.find]
      cases tokens[n]? <;> rfl
    · refine ⟨tokens, fun n => ?_⟩
      rw [Cursor.reading_eq, hdelivery, Delivery.find]
      cases tokens[n]? <;> rfl

/-- Looks at both ends of the text, and a fault that is seen only when its token is asked for. -/
example : (TokenStream.ofText "a ~").answers [.peek, .atEnd, .next, .next, .peek] =
    [.ok (.token (some ⟨.identifier "a", ⟨1, 0⟩⟩)), .ok (.ended false),
      .ok (.token (some ⟨.identifier "a", ⟨1, 0⟩⟩)), .error ⟨.strayCharacter '~', some ⟨1, 2⟩⟩] := by
  decide +kernel

end LambdaScript
