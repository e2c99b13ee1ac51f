import LambdaScript.Expr.Parser

/-!
What reading delivers. Reading token after token from a cursor ends at the end of the text or with a fault;
the tokens before that, and the fault, are all that a reader of tokens can learn of the text. Lookahead does
not show: a stream delivers what its cursor delivers, behind the token that was read ahead.
-/

namespace LambdaScript

/-- Results are equal if both are values or both are faults, and those are equal. -/
instance decidableEqExcept {ε α : Type} [DecidableEq ε] [DecidableEq α] : DecidableEq (Except ε α)
  | .ok a, .ok b => decidable_of_iff (a = b) (Except.ok.injEq a b ▸ Iff.rfl)
  | .error a, .error b => decidable_of_iff (a = b) (Except.error.injEq a b ▸ Iff.rfl)
  | .ok _, .error _ => isFalse fun h => nomatch h
  | .error _, .ok _ => isFalse fun h => nomatch h

/-- Tokens that are the same up to places, which are related. -/
structure PlacedToken.Like (ρ : Position → Position → Prop) (token other : PlacedToken) : Prop where
  token_eq : token.token = other.token
  pos : ρ token.pos other.pos

/-- The tokens that reading delivers, and the fault that it ends with, if it does. -/
structure Delivery where
  tokens : List PlacedToken
  fault : Option Fault

namespace Delivery

/-- A delivery behind some more tokens. -/
def behind (delivery : Delivery) (tokens : List PlacedToken) : Delivery :=
  ⟨tokens ++ delivery.tokens, delivery.fault⟩

@[simp] theorem behind_nil (delivery : Delivery) : delivery.behind [] = delivery := rfl

@[simp] theorem tokens_behind (delivery : Delivery) (tokens : List PlacedToken) :
    (delivery.behind tokens).tokens = tokens ++ delivery.tokens := rfl

@[simp] theorem behind_behind (delivery : Delivery) (ts us : List PlacedToken) :
    (delivery.behind us).behind ts = delivery.behind (ts ++ us) := by
  simp [behind]

/-- Behind the first tokens of a delivery are the others, and it ends as they do. -/
theorem exists_rest_of_behind {delivery : Delivery} {ts tokens : List PlacedToken} {fault? : Option Fault}
    (h : delivery.behind ts = ⟨tokens, fault?⟩) : ∃ rest, delivery = ⟨rest, fault?⟩ ∧ tokens = ts ++ rest := by
  obtain ⟨rest, fault⟩ := delivery
  cases h
  exact ⟨rest, rfl, rfl⟩

/-- The next token is a given one, wherever it stands. -/
def StartsWith (delivery : Delivery) (token : Token) : Prop :=
  ∃ pos tokens, delivery.tokens = ⟨token, pos⟩ :: tokens

@[simp] theorem startsWith_cons {first : PlacedToken} {tokens : List PlacedToken} {fault : Option Fault}
    {token : Token} : StartsWith ⟨first :: tokens, fault⟩ token ↔ first.token = token := by
  constructor
  · intro h
    obtain ⟨pos, tokens, heq⟩ := h
    cases heq
    rfl
  · intro h
    exact ⟨first.pos, tokens, h ▸ rfl⟩

@[simp] theorem not_startsWith_nil {fault : Option Fault} {token : Token} : ¬StartsWith ⟨[], fault⟩ token := by
  intro h
  obtain ⟨pos, tokens, heq⟩ := h
  cases heq

/-- The whole token list, if no fault ended it. -/
def result (delivery : Delivery) : Except Fault (List PlacedToken) :=
  match delivery.fault with
  | none => .ok delivery.tokens
  | some fault => .error fault

theorem result_eq_ok {delivery : Delivery} {tokens : List PlacedToken} :
    delivery.result = .ok tokens ↔ delivery = ⟨tokens, none⟩ := by
  obtain ⟨delivered, fault⟩ := delivery
  cases fault <;> simp [result]

theorem result_eq_error {delivery : Delivery} {fault : Fault} :
    delivery.result = .error fault ↔ delivery = ⟨delivery.tokens, some fault⟩ := by
  obtain ⟨delivered, fault?⟩ := delivery
  cases fault? <;> simp [result]

end Delivery

namespace Cursor

/-- What reading from a cursor delivers. -/
def delivery (cursor : Cursor) : Delivery :=
  match h : cursor.readToken with
  | (.ok (some token), after) =>
    have := length_rest_readToken h
    after.delivery.behind [token]
  | (.ok none, _) => ⟨[], none⟩
  | (.error fault, _) => ⟨[], some fault⟩
termination_by cursor.rest.length

theorem delivery_of_token {cursor after : Cursor} {token : PlacedToken}
    (h : cursor.readToken = (.ok (some token), after)) : cursor.delivery = after.delivery.behind [token] := by
  rw [delivery]
  split
  · next htoken =>
    rw [h] at htoken
    cases htoken
    rfl
  · next hnone => simp [h] at hnone
  · next hfault => simp [h] at hfault

theorem delivery_of_end {cursor after : Cursor} (h : cursor.readToken = (.ok none, after)) :
    cursor.delivery = ⟨[], none⟩ := by
  rw [delivery]
  split
  · next htoken => simp [h] at htoken
  · rfl
  · next hfault => simp [h] at hfault

theorem delivery_of_fault {cursor after : Cursor} {fault : Fault}
    (h : cursor.readToken = (.error fault, after)) : cursor.delivery = ⟨[], some fault⟩ := by
  rw [delivery]
  split
  · next htoken => simp [h] at htoken
  · next hnone => simp [h] at hnone
  · next hfault =>
    rw [h] at hfault
    cases hfault
    rfl

theorem readToken_of_rest_nil {cursor : Cursor} (hrest : cursor.rest = []) :
    cursor.readToken = (.ok none, cursor.skipGap) := by
  have hskip : cursor.skipGap.rest = [] := by rw [skipGap, rest_advance, hrest, List.drop_nil]
  simp only [readToken, hskip]

/-- Where reading has come to the end, it stays there. -/
theorem readToken_of_end {cursor after : Cursor} (h : cursor.readToken = (.ok none, after)) :
    after.readToken = (.ok none, after.skipGap) := by
  apply readToken_of_rest_nil
  simp only [readToken] at h
  split at h
  · next hskip =>
    cases h
    exact hskip
  · split at h <;> cases h

/-- Reading all that is left puts the delivery behind what has been read already. -/
theorem readAllFrom_eq (read : List PlacedToken) (cursor : Cursor) :
    (readAllFrom read cursor).1 = (cursor.delivery.behind read.reverse).result := by
  fun_induction readAllFrom read cursor with
  | case1 read cursor token after h _ ih =>
      rw [ih, delivery_of_token h, Delivery.behind_behind, List.reverse_cons]
  | case2 read cursor after h => simp [delivery_of_end h, Delivery.behind, Delivery.result]
  | case3 read cursor fault after h => simp [delivery_of_fault h, Delivery.behind, Delivery.result]

end Cursor

/-- The tokens of a text are those that reading from its start delivers. -/
theorem tokenize_eq (text : String) : tokenize text = (Cursor.ofText text).delivery.result := by
  rw [tokenize, Cursor.readAllFrom_eq, List.reverse_nil, Delivery.behind_nil]

theorem tokenize_eq_ok {text : String} {tokens : List PlacedToken} :
    tokenize text = .ok tokens ↔ (Cursor.ofText text).delivery = ⟨tokens, none⟩ := by
  rw [tokenize_eq, Delivery.result_eq_ok]

/-- What holds of every token that can be read holds of every token that is delivered. -/
theorem Cursor.forall_mem_delivery {P : PlacedToken → Prop} {cursor : Cursor}
    (hread : ∀ {before after : Cursor} {token : PlacedToken},
      before.readToken = (.ok (some token), after) → P token) :
    ∀ token ∈ cursor.delivery.tokens, P token := by
  fun_induction Cursor.delivery cursor with
  | case1 cursor token after h _ ih =>
      intro other hmem
      rcases List.mem_cons.mp hmem with rfl | hrest
      · exact hread h
      · exact ih other hrest
  | case2 cursor after h => exact fun other hmem => absurd hmem List.not_mem_nil
  | case3 cursor fault after h => exact fun other hmem => absurd hmem List.not_mem_nil

/-- Every token that is delivered uses up a character. -/
theorem Cursor.length_delivery_le (cursor : Cursor) : cursor.delivery.tokens.length ≤ cursor.rest.length := by
  fun_induction Cursor.delivery cursor with
  | case1 cursor token after h hshorter ih =>
      rw [Delivery.tokens_behind, List.length_append, List.length_singleton]
      omega
  | case2 cursor after h => exact Nat.zero_le _
  | case3 cursor fault after h => exact Nat.zero_le _

/-! ### Streams -/

namespace TokenStream

/-- What a stream delivers: the token read ahead, if there is one, and what its cursor delivers. -/
def delivery (stream : TokenStream) : Delivery := stream.cursor.delivery.behind stream.ahead.toList

/-- The number of tokens that a stream delivers. -/
def count (stream : TokenStream) : Nat := stream.delivery.tokens.length

theorem delivery_ofText (text : String) : (ofText text).delivery = (Cursor.ofText text).delivery := rfl

theorem delivery_of_tokenize {text : String} {tokens : List PlacedToken} (h : tokenize text = .ok tokens) :
    (ofText text).delivery = ⟨tokens, none⟩ := tokenize_eq_ok.mp h

/-- The loops over a text that is left outlast its tokens. -/
theorem count_lt_rounds (stream : TokenStream) : stream.count < stream.rounds.length := by
  have hcursor := stream.cursor.length_delivery_le
  have hahead : stream.ahead.toList.length ≤ 1 := by cases stream.ahead <;> simp
  simp only [count, delivery, Delivery.tokens_behind, List.length_append, rounds, List.length_cons]
  omega

theorem length_lt_rounds {text : String} {tokens : List PlacedToken} (h : tokenize text = .ok tokens) :
    tokens.length < (ofText text).rounds.length := by
  have hcount := (ofText text).count_lt_rounds
  rwa [count, delivery_of_tokenize h] at hcount

/-- Looking ahead shows the first token that is delivered, or that there is none, and takes nothing away. -/
theorem peek_ok {stream after : TokenStream} {token? : Option PlacedToken}
    (h : stream.peek = (.ok token?, after)) :
    after.delivery = stream.delivery ∧ stream.delivery.tokens.head? = token? ∧
      (token? = none → stream.delivery.fault = none) := by
  obtain ⟨cursor, ahead⟩ := stream
  cases ahead with
  | some token =>
      cases h
      exact ⟨rfl, rfl, fun hnone => nomatch hnone⟩
  | none =>
      simp only [peek] at h
      split at h
      · next token? cursor' hread =>
        cases h
        cases token? with
        | none =>
            have hend := Cursor.delivery_of_end hread
            have hagain : cursor'.delivery = ⟨[], none⟩ := Cursor.delivery_of_end (Cursor.readToken_of_end hread)
            simp [delivery, hend, hagain]
        | some token => simp [delivery, Cursor.delivery_of_token hread]
      · cases h

theorem peek_error {stream after : TokenStream} {fault : Fault} (h : stream.peek = (.error fault, after)) :
    stream.delivery = ⟨[], some fault⟩ := by
  obtain ⟨cursor, ahead⟩ := stream
  cases ahead with
  | some token => cases h
  | none =>
      simp only [peek] at h
      split at h
      · cases h
      · next hread =>
        cases h
        simp [delivery, Cursor.delivery_of_fault hread]

/-- Reading delivers the first token, if there is one, and leaves the others. -/
theorem next_ok {stream after : TokenStream} {token? : Option PlacedToken}
    (h : stream.next = (.ok token?, after)) :
    stream.delivery = after.delivery.behind token?.toList ∧
      (token? = none → stream.delivery = ⟨[], none⟩) := by
  obtain ⟨cursor, ahead⟩ := stream
  cases ahead with
  | some token =>
      cases h
      exact ⟨by simp [delivery], fun hnone => nomatch hnone⟩
  | none =>
      simp only [next] at h
      split at h
      · next token? cursor' hread =>
        cases h
        cases token? with
        | none =>
            have hend := Cursor.delivery_of_end hread
            have hagain : cursor'.delivery = ⟨[], none⟩ := Cursor.delivery_of_end (Cursor.readToken_of_end hread)
            simp [delivery, hend, hagain]
        | some token => simp [delivery, Cursor.delivery_of_token hread]
      · cases h

theorem next_error {stream after : TokenStream} {fault : Fault} (h : stream.next = (.error fault, after)) :
    stream.delivery = ⟨[], some fault⟩ := by
  obtain ⟨cursor, ahead⟩ := stream
  cases ahead with
  | some token => cases h
  | none =>
      simp only [next] at h
      split at h
      · cases h
      · next hread =>
        cases h
        simp [delivery, Cursor.delivery_of_fault hread]

end TokenStream

end LambdaScript
