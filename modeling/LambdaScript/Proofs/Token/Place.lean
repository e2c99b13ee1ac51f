import LambdaScript.Proofs.Token.Delivery
import LambdaScript.Proofs.Token.Lexeme

/-!
Places in a text. A cursor that started at the head of a text has read a prefix of it and stands at the place
behind that prefix. Every token it reads starts at such a place, and every fault is noticed at one.
-/

namespace LambdaScript

/-- The place behind some prefix of a text. -/
def IsPlaceIn (text : String) (pos : Position) : Prop :=
  ∃ before after, text.toList = before ++ after ∧ pos = Position.start.afterAll before

/-- A token that a text may hold: readable, and at a place in the text. -/
def PlacedToken.IsIn (text : String) (token : PlacedToken) : Prop :=
  token.token.Readable ∧ IsPlaceIn text token.pos

namespace Cursor

/-- A cursor that has come to where it is through a text. -/
def Within (text : String) (cursor : Cursor) : Prop :=
  ∃ before, text.toList = before ++ cursor.rest ∧ cursor.pos = Position.start.afterAll before

theorem within_ofText (text : String) : (ofText text).Within text := ⟨[], rfl, rfl⟩

theorem Within.isPlaceIn {text : String} {cursor : Cursor} (h : cursor.Within text) :
    IsPlaceIn text cursor.pos := by
  obtain ⟨before, hsplit, hpos⟩ := h
  exact ⟨before, cursor.rest, hsplit, hpos⟩

theorem Within.advance {text : String} {cursor : Cursor} (h : cursor.Within text) (n : Nat) :
    (advance n cursor).Within text := by
  obtain ⟨before, hsplit, hpos⟩ := h
  refine ⟨before ++ cursor.rest.take n, ?_, ?_⟩
  · rw [hsplit, rest_advance, List.append_assoc, List.take_append_drop]
  · rw [pos_advance, hpos, Position.afterAll_append]

theorem Within.skipGap {text : String} {cursor : Cursor} (h : cursor.Within text) :
    cursor.skipGap.Within text :=
  h.advance _

theorem Within.readToken_ok {text : String} {cursor after : Cursor} {token? : Option PlacedToken}
    (h : cursor.Within text) (hread : cursor.readToken = (.ok token?, after)) :
    after.Within text ∧ ∀ token ∈ token?, token.IsIn text := by
  simp only [readToken] at hread
  split at hread
  · cases hread
    exact ⟨h.skipGap, fun token hnone => absurd hnone (Option.not_mem_none token)⟩
  · split at hread
    · next token n hscan =>
      cases hread
      refine ⟨h.skipGap.advance _, fun token htoken => ?_⟩
      cases htoken
      exact ⟨readable_of_scanToken hscan, h.skipGap.isPlaceIn⟩
    · cases hread

end Cursor

/-- A fault of the text: its wording is that of a reader, and it was noticed at a place in the text. -/
def Fault.IsParsingIn (text : String) (fault : Fault) : Prop :=
  fault.cause.family = .parsing ∧ fault.cause.isInternal = false ∧ fault.cause.isDiagnosed = true ∧
    ∃ pos, fault.pos = some pos ∧ IsPlaceIn text pos

theorem Cursor.Within.readToken_error {text : String} {cursor after : Cursor} {fault : Fault}
    (h : cursor.Within text) (hread : cursor.readToken = (.error fault, after)) : fault.IsParsingIn text := by
  simp only [readToken] at hread
  split at hread
  · cases hread
  · split at hread
    · cases hread
    · next lexical n hscan =>
      cases hread
      cases lexical with
      | unterminatedString => exact ⟨rfl, rfl, rfl, _, rfl, (h.skipGap.advance n).isPlaceIn⟩
      | numberOutOfRange => exact ⟨rfl, rfl, rfl, _, rfl, h.skipGap.isPlaceIn⟩
      | unknownOperator run => exact ⟨rfl, rfl, rfl, _, rfl, h.skipGap.isPlaceIn⟩
      | strayCharacter char => exact ⟨rfl, rfl, rfl, _, rfl, h.skipGap.isPlaceIn⟩

/-- Every token that is delivered is one of the text. -/
theorem Cursor.Within.forall_mem_delivery {text : String} {cursor : Cursor} (h : cursor.Within text) :
    ∀ token ∈ cursor.delivery.tokens, token.IsIn text := by
  fun_induction Cursor.delivery cursor with
  | case1 cursor token after hread _ ih =>
      obtain ⟨hafter, hplace⟩ := h.readToken_ok hread
      exact List.forall_mem_cons.mpr ⟨hplace token rfl, ih hafter⟩
  | case2 cursor after hread => exact fun token hmem => absurd hmem List.not_mem_nil
  | case3 cursor fault after hread => exact fun token hmem => absurd hmem List.not_mem_nil

theorem isIn_of_mem_tokenize {text : String} {tokens : List PlacedToken} (h : tokenize text = .ok tokens) :
    ∀ token ∈ tokens, token.IsIn text := by
  have hdelivered := (Cursor.within_ofText text).forall_mem_delivery
  rwa [tokenize_eq_ok.mp h] at hdelivered

namespace TokenStream

/-- A stream that has come to where it is through a text. -/
def Within (text : String) (stream : TokenStream) : Prop :=
  stream.cursor.Within text ∧ ∀ token ∈ stream.ahead, token.IsIn text

theorem within_ofText (text : String) : (ofText text).Within text :=
  ⟨Cursor.within_ofText text, fun token hnone => absurd hnone (Option.not_mem_none token)⟩

variable {text : String} {stream after : TokenStream}

theorem Within.peek_ok {token? : Option PlacedToken} (h : stream.Within text)
    (hpeek : stream.peek = (.ok token?, after)) :
    after.Within text ∧ ∀ token ∈ token?, token.IsIn text := by
  obtain ⟨cursor, ahead⟩ := stream
  cases ahead with
  | some token =>
      cases hpeek
      exact ⟨h, h.2⟩
  | none =>
      simp only [peek] at hpeek
      split at hpeek
      · next token? cursor' hread =>
        cases hpeek
        obtain ⟨hwithin, hplace⟩ := h.1.readToken_ok hread
        exact ⟨⟨hwithin, hplace⟩, hplace⟩
      · cases hpeek

theorem Within.next_ok {token? : Option PlacedToken} (h : stream.Within text)
    (hnext : stream.next = (.ok token?, after)) :
    after.Within text ∧ ∀ token ∈ token?, token.IsIn text := by
  obtain ⟨cursor, ahead⟩ := stream
  cases ahead with
  | some token =>
      cases hnext
      exact ⟨⟨h.1, fun token hnone => absurd hnone (Option.not_mem_none token)⟩, h.2⟩
  | none =>
      simp only [next] at hnext
      split at hnext
      · next token? cursor' hread =>
        cases hnext
        obtain ⟨hwithin, hplace⟩ := h.1.readToken_ok hread
        exact ⟨⟨hwithin, fun token hnone => absurd hnone (Option.not_mem_none token)⟩, hplace⟩
      · cases hnext

theorem Within.peek_error {fault : Fault} (h : stream.Within text)
    (hpeek : stream.peek = (.error fault, after)) :
    fault.IsParsingIn text := by
  obtain ⟨cursor, ahead⟩ := stream
  cases ahead with
  | some token => cases hpeek
  | none =>
      simp only [peek] at hpeek
      split at hpeek
      · cases hpeek
      · next hread =>
        cases hpeek
        exact h.1.readToken_error hread

theorem Within.next_error {fault : Fault} (h : stream.Within text)
    (hnext : stream.next = (.error fault, after)) :
    fault.IsParsingIn text := by
  obtain ⟨cursor, ahead⟩ := stream
  cases ahead with
  | some token => cases hnext
  | none =>
      simp only [next] at hnext
      split at hnext
      · cases hnext
      · next hread =>
        cases hnext
        exact h.1.readToken_error hread

end TokenStream

end LambdaScript
