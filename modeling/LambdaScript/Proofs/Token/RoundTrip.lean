import LambdaScript.Proofs.Token.Delivery
import LambdaScript.Proofs.Token.Lexeme

/-!
Token lists read back. The tokens of a text are readable, a readable token's written form is read as that
token up to a gap, and the blanks between the forms are gaps. So the written form of a text's token list reads
as the same list, wherever its tokens stand now.
-/

namespace LambdaScript

/-- Without a gap in front nothing is skipped. -/
theorem gapLength_cons_of_not_isGapStart {c : Char} (cs : List Char) (h : isGapStart c = false) :
    gapLength (c :: cs) = 0 := by
  simp only [isGapStart, Bool.or_eq_false_iff] at h
  simp [gapLength, gapLengthFrom, h.1, h.2]

/-- A single blank before a token is all that is skipped. -/
theorem gapLength_blank_cons {c : Char} (cs : List Char) (h : isGapStart c = false) :
    gapLength (' ' :: c :: cs) = 1 := by
  simp only [isGapStart, Bool.or_eq_false_iff] at h
  have hblank : isSpace ' ' = true := rfl
  simp [gapLength, gapLengthFrom, hblank, h.1, h.2]

namespace Cursor

/-- A token is read from behind the gap. -/
theorem readToken_of_scanToken {cursor : Cursor} {c : Char} {cs : List Char} {token : Token} {n : Nat}
    (hrest : cursor.skipGap.rest = c :: cs) (hscan : scanToken c cs = (.ok token, n)) :
    cursor.readToken = (.ok (some ⟨token, cursor.skipGap.pos⟩), advance n cursor.skipGap) := by
  simp only [readToken, hrest, hscan]

/-- A fault is noticed behind the gap as well. -/
theorem readToken_of_scanToken_error {cursor : Cursor} {c : Char} {cs : List Char} {lexical : LexicalFault} {n : Nat}
    (hrest : cursor.skipGap.rest = c :: cs) (hscan : scanToken c cs = (.error lexical, n)) :
    cursor.readToken = (.error (lexical.toFault cursor.skipGap.pos (advance n cursor.skipGap).pos),
      advance n cursor.skipGap) := by
  simp only [readToken, hrest, hscan]

theorem readToken_of_skipGap_nil {cursor : Cursor} (hrest : cursor.skipGap.rest = []) :
    cursor.readToken = (.ok none, cursor.skipGap) := by
  simp only [readToken, hrest]

/-- A token that is read stands behind the gap, and reading goes on behind it. -/
theorem scanToken_of_readToken {cursor after : Cursor} {placed : PlacedToken}
    (h : cursor.readToken = (.ok (some placed), after)) :
    ∃ c cs token n, cursor.skipGap.rest = c :: cs ∧ scanToken c cs = (.ok token, n) ∧
      placed = ⟨token, cursor.skipGap.pos⟩ ∧ after = advance n cursor.skipGap := by
  simp only [readToken] at h
  split at h
  · cases h
  · next c cs hstart =>
    split at h
    · next token n hscan =>
      cases h
      exact ⟨c, cs, token, n, hstart, hscan, rfl, rfl⟩
    · cases h

/-- A fault is one of the lexeme behind the gap. -/
theorem scanToken_of_readToken_error {cursor after : Cursor} {fault : Fault}
    (h : cursor.readToken = (.error fault, after)) :
    ∃ c cs lexical n, cursor.skipGap.rest = c :: cs ∧ scanToken c cs = (.error lexical, n) ∧
      fault = lexical.toFault cursor.skipGap.pos after.pos ∧ after = advance n cursor.skipGap := by
  simp only [readToken] at h
  split at h
  · cases h
  · next c cs hstart =>
    split at h
    · cases h
    · next lexical n hscan =>
      cases h
      exact ⟨c, cs, lexical, n, hstart, hscan, rfl, rfl⟩

/-- Where no token is read, nothing is left behind the gap. -/
theorem skipGap_of_readToken_end {cursor after : Cursor} (h : cursor.readToken = (.ok none, after)) :
    cursor.skipGap.rest = [] := by
  simp only [readToken] at h
  split at h
  · next hend => exact hend
  · split at h <;> cases h

/-- **Every delivered token is readable.** -/
theorem readable_of_mem_delivery {cursor : Cursor} {token : PlacedToken}
    (h : token ∈ cursor.delivery.tokens) : token.token.Readable := by
  refine forall_mem_delivery (P := fun token => token.token.Readable) (fun {before after read} hread => ?_) token h
  obtain ⟨c, cs, token, n, -, hscan, rfl, -⟩ := scanToken_of_readToken hread
  exact readable_of_scanToken hscan

end Cursor

/-- The written forms of tokens, each behind a blank. -/
def blankedForms (tokens : List Token) : List Char :=
  tokens.flatMap fun token => ' ' :: token.lexeme.toList

theorem blankedForms_cons (token : Token) (tokens : List Token) :
    blankedForms (token :: tokens) = ' ' :: (token.lexeme.toList ++ blankedForms tokens) := rfl

theorem atGap_blankedForms (tokens : List Token) : AtGap (blankedForms tokens) := by
  cases tokens with
  | nil => trivial
  | cons token tokens => rfl

theorem toList_unlex_cons (token : Token) (tokens : List Token) :
    (unlex (token :: tokens)).toList = token.lexeme.toList ++ blankedForms tokens := by
  induction tokens generalizing token with
  | nil => simp [unlex, blankedForms]
  | cons next tokens ih =>
      have hunlex : unlex (token :: next :: tokens) = token.lexeme ++ " " ++ unlex (next :: tokens) := by
        simp [unlex]
      rw [hunlex, String.toList_append, String.toList_append, ih, blankedForms_cons, List.append_assoc]
      rfl

namespace Cursor

/-- What is scanned behind a gap is delivered, and reading goes on behind what was scanned. -/
theorem delivery_of_scanToken {cursor : Cursor} {c : Char} {cs rest : List Char} {token : Token}
    (hcursor : cursor.skipGap.rest = c :: (cs ++ rest))
    (hscan : scanToken c (cs ++ rest) = (.ok token, cs.length + 1)) :
    ∃ after : Cursor, after.rest = rest ∧
      cursor.delivery = after.delivery.behind [⟨token, cursor.skipGap.pos⟩] := by
  refine ⟨advance (cs.length + 1) cursor.skipGap, ?_, delivery_of_token (readToken_of_scanToken hcursor hscan)⟩
  rw [rest_advance, hcursor, List.drop_succ_cons, List.drop_left]

/-- Reading a token's written form behind a gap delivers the token, and reading goes on behind the form. -/
theorem delivery_of_standsAlone {cursor : Cursor} {token : Token} {rest : List Char}
    (htoken : token.StandsAlone)
    (hcursor : cursor.skipGap.rest = token.lexeme.toList ++ rest) (hgap : AtGap rest) :
    ∃ after : Cursor, after.rest = rest ∧
      cursor.delivery = after.delivery.behind [⟨token, cursor.skipGap.pos⟩] := by
  obtain ⟨c, cs, hchars, -, hscan⟩ := htoken
  rw [hchars, List.cons_append] at hcursor
  exact delivery_of_scanToken hcursor (hscan rest hgap)

/-- Written forms behind blanks are delivered as their tokens. -/
theorem delivery_blankedForms {cursor : Cursor} {tokens : List Token}
    (htokens : ∀ token ∈ tokens, token.Readable) (hcursor : cursor.rest = blankedForms tokens) :
    cursor.delivery.tokens.map PlacedToken.token = tokens ∧ cursor.delivery.fault = none := by
  induction tokens generalizing cursor with
  | nil =>
      rw [delivery_of_end (readToken_of_rest_nil hcursor)]
      exact ⟨rfl, rfl⟩
  | cons token tokens ih =>
      have halone := (htokens token List.mem_cons_self).standsAlone
      have hskip : cursor.skipGap.rest = token.lexeme.toList ++ blankedForms tokens := by
        obtain ⟨c, cs, hchars, hstart, -⟩ := halone
        have hblank : cursor.rest = ' ' :: c :: (cs ++ blankedForms tokens) := by
          rw [hcursor, blankedForms_cons, hchars, List.cons_append]
        rw [skipGap, rest_advance, hblank, gapLength_blank_cons _ hstart, hchars]
        rfl
      obtain ⟨after, hafter, hdelivery⟩ := delivery_of_standsAlone halone hskip (atGap_blankedForms tokens)
      obtain ⟨hmap, hfault⟩ := ih (fun other hmem => htokens other (List.mem_cons_of_mem _ hmem)) hafter
      rw [hdelivery]
      exact ⟨by simp [hmap], hfault⟩

/-- The written form of a list of readable tokens is delivered as that list. -/
theorem delivery_unlex {tokens : List Token} (htokens : ∀ token ∈ tokens, token.Readable) :
    (ofText (unlex tokens)).delivery.tokens.map PlacedToken.token = tokens ∧
      (ofText (unlex tokens)).delivery.fault = none := by
  cases tokens with
  | nil =>
      rw [delivery_of_end (readToken_of_rest_nil (by simp [ofText, unlex]))]
      exact ⟨rfl, rfl⟩
  | cons token tokens =>
      have halone := (htokens token List.mem_cons_self).standsAlone
      have hrest : (ofText (unlex (token :: tokens))).rest = token.lexeme.toList ++ blankedForms tokens :=
        toList_unlex_cons token tokens
      have hskip : (ofText (unlex (token :: tokens))).skipGap.rest = token.lexeme.toList ++ blankedForms tokens := by
        obtain ⟨c, cs, hchars, hstart, -⟩ := halone
        rw [skipGap, rest_advance, hrest, hchars, List.cons_append, gapLength_cons_of_not_isGapStart _ hstart]
        rfl
      obtain ⟨after, hafter, hdelivery⟩ := delivery_of_standsAlone halone hskip (atGap_blankedForms tokens)
      obtain ⟨hmap, hfault⟩ :=
        delivery_blankedForms (fun other hmem => htokens other (List.mem_cons_of_mem _ hmem)) hafter
      rw [hdelivery]
      exact ⟨by simp [hmap], hfault⟩

end Cursor

/-- The written form of a token, alone, is read as that token. -/
theorem tokenize_lexeme {token : Token} (h : token.Readable) : tokenize token.lexeme = .ok [⟨token, .start⟩] := by
  have halone := h.standsAlone
  have hskip : (Cursor.ofText token.lexeme).skipGap = Cursor.ofText token.lexeme := by
    obtain ⟨c, cs, hchars, hstart, -⟩ := halone
    rw [Cursor.skipGap, Cursor.ofText, hchars, gapLength_cons_of_not_isGapStart cs hstart]
    rfl
  have hrest : (Cursor.ofText token.lexeme).skipGap.rest = token.lexeme.toList ++ [] := by
    rw [hskip, List.append_nil]
    rfl
  obtain ⟨after, hafter, hdelivery⟩ := Cursor.delivery_of_standsAlone halone hrest trivial
  rw [tokenize_eq_ok, hdelivery, Cursor.delivery_of_end (Cursor.readToken_of_rest_nil hafter), hskip]
  rfl

/-- **Token lists read back.** The tokens of a text, written out with single blanks between them, are read as
the same tokens, in kind, value and order. -/
theorem tokenize_unlex {text : String} {tokens : List PlacedToken} (h : tokenize text = .ok tokens) :
    ∃ again, tokenize (unlex (tokens.map PlacedToken.token)) = .ok again ∧
      again.map PlacedToken.token = tokens.map PlacedToken.token := by
  rw [tokenize_eq_ok] at h
  have hreadable : ∀ token ∈ tokens.map PlacedToken.token, token.Readable := by
    intro token hmem
    obtain ⟨placed, hplaced, rfl⟩ := List.mem_map.mp hmem
    exact Cursor.readable_of_mem_delivery (by rw [h]; exact hplaced)
  obtain ⟨hmap, hfault⟩ := Cursor.delivery_unlex hreadable
  refine ⟨_, tokenize_eq_ok.mpr ?_, hmap⟩
  rw [← hfault]

/-- A string with a quote, a hash sign and backslashes in it, a name with a joiner run, and an operator that
ends where no name starts. -/
theorem tokenize_unlex_mixed :
    tokenize "\"a\\\"#\\\\\" string->list?>= λ # end" =
        .ok [⟨.string "a\"#\\", ⟨1, 0⟩⟩, ⟨.identifier "string->list?", ⟨1, 9⟩⟩,
          ⟨.operator .greaterOrEqual, ⟨1, 22⟩⟩, ⟨.keyword .lambdaSign, ⟨1, 25⟩⟩] ∧
      ∃ again, tokenize (unlex [.string "a\"#\\", .identifier "string->list?", .operator .greaterOrEqual,
          .keyword .lambdaSign]) = .ok again ∧
        again.map PlacedToken.token = [.string "a\"#\\", .identifier "string->list?", .operator .greaterOrEqual,
          .keyword .lambdaSign] := by
  have hread : tokenize "\"a\\\"#\\\\\" string->list?>= λ # end" =
      .ok [⟨.string "a\"#\\", ⟨1, 0⟩⟩, ⟨.identifier "string->list?", ⟨1, 9⟩⟩,
        ⟨.operator .greaterOrEqual, ⟨1, 22⟩⟩, ⟨.keyword .lambdaSign, ⟨1, 25⟩⟩] := by decide +kernel
  exact ⟨hread, tokenize_unlex hread⟩

end LambdaScript
