import LambdaScript.Proofs.Token.Seam

/-!
Spacing. A token is read from its spelling whatever gap stands behind that, and a gap is skipped as a whole, so it does
not matter which blanks and comments keep the spellings apart: with other gaps in their place, empty ones at either
end of the text if need be, the spellings of a text's tokens are read as the same tokens.
-/

namespace LambdaScript

/-! ### Skipping a gap -/

theorem isSpace_of_mem_blanks {c : Char} (h : c ∈ [' ', '\t', '\r', '\n']) : isSpace c = true := by
  simpa [isSpace, or_assoc] using h

/-- The rest of a line in a comment is skipped. -/
theorem gapLengthFrom_line {line : List Char} (h : '\n' ∉ line) (n : Nat) (rest : List Char) :
    gapLengthFrom true n (line ++ rest) = gapLengthFrom true (n + line.length) rest := by
  induction line generalizing n with
  | nil => rfl
  | cons c line ih =>
      rw [List.mem_cons, not_or] at h
      have hgoes : (c != '\n') = true := bne_iff_ne.mpr (Ne.symm h.1)
      rw [List.cons_append, gapLengthFrom, if_pos rfl, hgoes, ih h.2, List.length_cons, Nat.add_right_comm,
        Nat.add_assoc]

/-- A gap is skipped as a whole; the last one of a text has nothing behind it. -/
theorem IsGap.gapLengthFrom_append {last : Bool} {gap : List Char} (h : IsGap last gap) (n : Nat) {rest : List Char}
    (hrest : last = true → rest = []) :
    gapLengthFrom false n (gap ++ rest) = gapLengthFrom false (n + gap.length) rest := by
  induction h generalizing n with
  | nil => rfl
  | @blank c gap hblank _ ih =>
      rw [List.cons_append, gapLengthFrom, if_neg Bool.false_ne_true, if_pos (isSpace_of_mem_blanks hblank), ih,
        List.length_cons, Nat.add_right_comm, Nat.add_assoc]
  | @comment line gap hline _ ih =>
      have hstart : gapLengthFrom false n ('#' :: (line ++ '\n' :: gap) ++ rest) =
          gapLengthFrom true (n + 1) (line ++ '\n' :: (gap ++ rest)) := by simp [gapLengthFrom, isSpace]
      have hend : gapLengthFrom true (n + 1 + line.length) ('\n' :: (gap ++ rest)) =
          gapLengthFrom false (n + 1 + line.length + 1) (gap ++ rest) := rfl
      rw [hstart, gapLengthFrom_line hline, hend, ih, List.length_cons, List.length_append, List.length_cons]
      congr 1
      omega
  | @lastComment line hlast hline =>
      have hstart : gapLengthFrom false n ('#' :: line ++ []) = gapLengthFrom true (n + 1) (line ++ []) := rfl
      rw [hrest hlast, hstart, gapLengthFrom_line hline, List.length_cons, Nat.add_right_comm, Nat.add_assoc]
      rfl

/-- A gap may be the last one. -/
theorem IsGap.last {gap : List Char} (h : IsGap false gap) : IsGap true gap := by
  induction h with
  | nil => exact .nil
  | blank hblank _ ih => exact .blank hblank ih
  | comment hline _ ih => exact .comment hline ih
  | lastComment hlast => cases hlast

/-- Where a gap that is not empty starts, and at the end of a text, a lexeme may end. -/
theorem IsGap.atGap {last : Bool} {gap : List Char} (h : IsGap last gap) {rest : List Char}
    (hrest : gap ≠ [] ∨ rest = []) : AtGap (gap ++ rest) := by
  cases h with
  | nil =>
      rw [hrest.resolve_left (· rfl)]
      trivial
  | blank hblank => rw [List.cons_append, AtGap, isGapStart, isSpace_of_mem_blanks hblank, Bool.true_or]
  | comment => rfl
  | lastComment => rfl

namespace Cursor

/-- A gap with a lexeme behind it is all that is skipped. -/
theorem skipGap_of_isGap {cursor : Cursor} {gap : List Char} {c : Char} {cs : List Char} (hgap : IsGap false gap)
    (hstart : isGapStart c = false) (hrest : cursor.rest = gap ++ c :: cs) :
    cursor.skipGap = advance gap.length cursor := by
  have hlength : gapLength cursor.rest = gap.length := by
    rw [hrest, gapLength, hgap.gapLengthFrom_append 0 (absurd · Bool.false_ne_true), gapLengthFrom_eq_add,
      ← gapLength, gapLength_cons_of_not_isGapStart cs hstart, Nat.zero_add, Nat.add_zero]
  rw [skipGap, hlength]

theorem rest_skipGap_of_isGap_last {cursor : Cursor} (h : IsGap true cursor.rest) : cursor.skipGap.rest = [] := by
  have hlength := h.gapLengthFrom_append 0 (fun _ => rfl)
  rw [List.append_nil, gapLengthFrom, Nat.zero_add, ← gapLength] at hlength
  rw [skipGap, rest_advance, hlength, List.drop_length]

/-- A tile with a place behind it where a lexeme may end is read as its token. -/
theorem delivery_of_tile {cursor : Cursor} {gap rest : List Char} (tile : Tile) (hgap : IsGap false gap)
    (hrest : AtGap rest) (hcursor : cursor.rest = gap ++ (tile.span ++ rest)) :
    ∃ after : Cursor, after.rest = rest ∧
      cursor.delivery = after.delivery.behind [⟨tile.token, cursor.skipGap.pos⟩] := by
  obtain ⟨c, cs, hspan, hstart, hscan⟩ := tile.spells.scanToken
  rw [hspan, List.cons_append] at hcursor
  have hskip : cursor.skipGap.rest = c :: (cs ++ rest) := by
    rw [skipGap_of_isGap hgap hstart hcursor, rest_advance, hcursor, List.drop_left]
  exact delivery_of_scanToken hskip (hscan rest hrest)

end Cursor

/-! ### Other gaps between the same spellings -/

/-- Spellings with a gap before each of them and a last gap behind them all. -/
def spaced (gaps spans : List (List Char)) (last : List Char) : List Char :=
  (List.zipWith (· ++ ·) gaps spans).flatten ++ last

theorem spaced_cons (gap span : List Char) (gaps spans : List (List Char)) (last : List Char) :
    spaced (gap :: gaps) (span :: spans) last = gap ++ (span ++ spaced gaps spans last) := by
  simp [spaced]

/-- Gaps that keep `n` spellings apart. Only the first one and the last one may be empty. -/
structure Separates (n : Nat) (gaps : List (List Char)) (last : List Char) : Prop where
  length_eq : gaps.length = n
  isGap : ∀ gap ∈ gaps, IsGap false gap
  inner : ∀ gap ∈ gaps.tail, gap ≠ []
  last : IsGap true last

namespace Separates

variable {n : Nat} {gap : List Char} {gaps : List (List Char)} {last : List Char}

theorem tail (h : Separates (n + 1) (gap :: gaps) last) : Separates n gaps last where
  length_eq := Nat.succ.inj h.length_eq
  isGap other hmem := h.isGap other (List.mem_cons_of_mem gap hmem)
  inner other hmem := h.inner other (List.mem_of_mem_tail hmem)
  last := h.last

/-- Behind each of the spellings a lexeme may end. -/
theorem atGap {spans : List (List Char)} (h : Separates (spans.length + 1) (gap :: gaps) last) :
    AtGap (spaced gaps spans last) := by
  cases spans with
  | nil =>
      obtain rfl : gaps = [] := List.length_eq_zero_iff.mp h.tail.length_eq
      have hend : AtGap (last ++ []) := h.last.atGap (Or.inr rfl)
      rwa [List.append_nil] at hend
  | cons span spans =>
      obtain ⟨next, gaps, rfl⟩ := List.exists_cons_of_length_eq_add_one h.tail.length_eq
      rw [spaced_cons]
      exact (h.tail.isGap next List.mem_cons_self).atGap (Or.inl (h.inner next List.mem_cons_self))

end Separates

/-- Spellings that are kept apart are delivered as their tokens. -/
theorem Cursor.delivery_spaced {cursor : Cursor} {tiles : List Tile} {gaps : List (List Char)} {last : List Char}
    (h : Separates tiles.length gaps last) (hcursor : cursor.rest = spaced gaps (tiles.map Tile.span) last) :
    cursor.delivery.tokens.map PlacedToken.token = tiles.map Tile.token ∧ cursor.delivery.fault = none := by
  induction tiles generalizing cursor gaps with
  | nil =>
      obtain rfl : gaps = [] := List.length_eq_zero_iff.mp h.length_eq
      have hlast : IsGap true cursor.rest := hcursor ▸ h.last
      rw [delivery_of_end (readToken_of_skipGap_nil (rest_skipGap_of_isGap_last hlast))]
      exact ⟨rfl, rfl⟩
  | cons tile tiles ih =>
      obtain ⟨gap, gaps, rfl⟩ := List.exists_cons_of_length_eq_add_one h.length_eq
      have hspans : Separates ((tiles.map Tile.span).length + 1) (gap :: gaps) last := by
        rw [List.length_map]
        exact h
      rw [List.map_cons, spaced_cons] at hcursor
      obtain ⟨after, hafter, hdelivery⟩ :=
        delivery_of_tile tile (h.isGap gap List.mem_cons_self) hspans.atGap hcursor
      obtain ⟨hmap, hfault⟩ := ih h.tail hafter
      rw [hdelivery]
      exact ⟨by simp [hmap], hfault⟩

/-- A row of tiles with a last gap behind it makes up a text, and the tokens of the text are those of the tiles, at the
places where their spans start. -/
structure IsTiling (text : List Char) (tokens : List PlacedToken) (tiles : List Tile) (last : List Char) : Prop where
  chars : text = tiles.flatMap Tile.chars ++ last
  last : IsGap true last
  tokens_eq : tokens = Tile.tokens [] tiles

theorem Tile.map_token_tokens (before : List Char) (tiles : List Tile) :
    (tokens before tiles).map PlacedToken.token = tiles.map Tile.token := by
  induction tiles generalizing before with
  | nil => rfl
  | cons tile tiles ih => rw [tokens, List.map_cons, List.map_cons, ih]

/-- **Gaps are interchangeable.** A text that is read to its end is a row of gaps and spellings of its tokens, and with
any other gaps that keep the spellings apart it is read as the same tokens, in kind, value and order. -/
theorem tokenize_respaced {text : String} {tokens : List PlacedToken} (h : tokenize text = .ok tokens) :
    (∃ tiles last, IsTiling text.toList tokens tiles last) ∧
      ∀ tiles last, IsTiling text.toList tokens tiles last →
        ∀ gaps last', Separates tiles.length gaps last' →
          ∃ again, tokenize (String.ofList (spaced gaps (tiles.map Tile.span) last')) = .ok again ∧
            again.map PlacedToken.token = tokens.map PlacedToken.token := by
  constructor
  · have hstart : (Cursor.ofText text).pos = placeBehind [] := rfl
    obtain ⟨tiles, last, hchars, hlast, htokens⟩ := Cursor.delivery_tiles (tokenize_eq_ok.mp h) hstart
    exact ⟨tiles, last, hchars, hlast, htokens⟩
  · intro tiles last htiling gaps last' hgaps
    have hcursor : (Cursor.ofText (String.ofList (spaced gaps (tiles.map Tile.span) last'))).rest =
        spaced gaps (tiles.map Tile.span) last' := String.toList_ofList
    obtain ⟨hmap, hfault⟩ := Cursor.delivery_spaced hgaps hcursor
    refine ⟨_, tokenize_eq_ok.mpr (by rw [← hfault]), ?_⟩
    rw [hmap, htiling.tokens_eq, Tile.map_token_tokens]

/-- A name that a joiner stands right behind, a joiner that a blank ends, and comments in the places of both. -/
theorem tokenize_respaced_joiner :
    ∃ again, tokenize "n\t-# a\n\n1 # b" = .ok again ∧
      again.map PlacedToken.token =
        [.identifier "n", .operator .subtract, .number (.ofDecimal false 1 0)] := by
  have hread : tokenize "n- 1" =
      .ok [⟨.identifier "n", ⟨1, 0⟩⟩, ⟨.operator .subtract, ⟨1, 1⟩⟩, ⟨.number (.ofDecimal false 1 0), ⟨1, 3⟩⟩] := by
    decide +kernel
  have hname : scanToken 'n' [] = (.ok (.identifier "n"), 1) := by decide +kernel
  have hjoiner : scanToken '-' [] = (.ok (.operator .subtract), 1) := by decide +kernel
  have hnumber : scanToken '1' [] = (.ok (.number (.ofDecimal false 1 0)), 1) := by decide +kernel
  have hblank {c : Char} {gap : List Char} (hgap : IsGap false gap) (hc : isSpace c = true) : IsGap false (c :: gap) :=
    .blank (mem_blanks_of_isSpace hc) hgap
  have htiling : IsTiling "n- 1".toList _
      [⟨[], ['n'], _, .nil, spells_of_scanToken hname⟩, ⟨[], ['-'], _, .nil, spells_of_scanToken hjoiner⟩,
        ⟨[' '], ['1'], _, hblank .nil rfl, spells_of_scanToken hnumber⟩] [] := ⟨rfl, .nil, rfl⟩
  have hline : '\n' ∉ [' ', 'a'] := by decide
  have hcomment : IsGap false "# a\n\n".toList := .comment hline (hblank .nil rfl)
  have hseparates : Separates 3 [[], ['\t'], "# a\n\n".toList] " # b".toList := {
    length_eq := rfl
    isGap := by simpa using ⟨IsGap.nil, hblank .nil rfl, hcomment⟩
    inner := by decide
    last := .blank (by decide) (.lastComment rfl (by decide)) }
  have htext : String.ofList (spaced [[], ['\t'], "# a\n\n".toList] [['n'], ['-'], ['1']] " # b".toList) =
      "n\t-# a\n\n1 # b" := by decide
  obtain ⟨again, hagain, hsame⟩ := (tokenize_respaced hread).2 _ [] htiling _ _ hseparates
  exact ⟨again, htext ▸ hagain, hsame⟩

end LambdaScript
