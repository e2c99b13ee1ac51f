import LambdaScript.Proofs.Token.Delivery
import LambdaScript.Proofs.Token.RoundTrip
import LambdaScript.Proofs.Token.Spelling

/-!
Tokens tile their text. A text that is read without a fault is a row of tiles, each a gap of blanks and comments
and then the spelling of one token, with a last gap behind them: nothing is dropped and nothing is read twice. A
token's place is found by counting the newlines before its spelling and the characters since the last of them.
-/

namespace LambdaScript

/-! ### Gaps -/

/-- A sequence of blanks and of comments, each of which runs through its newline. In the last gap of a text the
last comment may end with the text. -/
inductive IsGap (last : Bool) : List Char → Prop where
  | nil : IsGap last []
  | blank {c : Char} {cs : List Char} (hc : c ∈ [' ', '\t', '\r', '\n']) (hrest : IsGap last cs) : IsGap last (c :: cs)
  | comment {line cs : List Char} (hline : '\n' ∉ line) (hrest : IsGap last cs) :
      IsGap last ('#' :: (line ++ '\n' :: cs))
  | lastComment {line : List Char} (hlast : last = true) (hline : '\n' ∉ line) : IsGap last ('#' :: line)

/-- A character more in the first comment of a gap. -/
theorem IsGap.cons_comment {last : Bool} {c : Char} {cs : List Char} (h : IsGap last ('#' :: cs)) (hc : c ≠ '\n') :
    IsGap last ('#' :: c :: cs) := by
  generalize hhash : '#' :: cs = gap at h
  cases h with
  | nil => cases hhash
  | blank hblank =>
      obtain ⟨rfl, -⟩ := List.cons.inj hhash
      simp at hblank
  | comment hline hrest =>
      obtain ⟨-, rfl⟩ := List.cons.inj hhash
      rw [← List.cons_append]
      exact .comment (List.not_mem_cons_of_ne_of_not_mem hc.symm hline) hrest
  | lastComment hlast hline =>
      obtain ⟨-, rfl⟩ := List.cons.inj hhash
      exact .lastComment hlast (List.not_mem_cons_of_ne_of_not_mem hc.symm hline)

theorem mem_blanks_of_isSpace {c : Char} (h : isSpace c = true) : c ∈ [' ', '\t', '\r', '\n'] := by
  simpa [isSpace, or_assoc] using h

/-- What is skipped is a gap, the last one if nothing is left. Inside a comment it is the rest of one. -/
theorem exists_gap (inComment : Bool) (n : Nat) (cs : List Char) :
    ∃ gap rest, cs = gap ++ rest ∧ gapLengthFrom inComment n cs = n + gap.length ∧
      IsGap rest.isEmpty (if inComment then '#' :: gap else gap) := by
  induction cs generalizing inComment n with
  | nil =>
      refine ⟨[], [], rfl, rfl, ?_⟩
      cases inComment with
      | true => exact .lastComment rfl List.not_mem_nil
      | false => exact .nil
  | cons c cs ih =>
      cases inComment with
      | true =>
          obtain ⟨gap, rest, rfl, hlength, hgap⟩ := ih (c != '\n') (n + 1)
          refine ⟨c :: gap, rest, rfl, ?_, ?_⟩
          · rw [gapLengthFrom, if_pos rfl, hlength, List.length_cons]
            omega
          · by_cases hnewline : c = '\n'
            · subst hnewline
              exact .comment List.not_mem_nil hgap
            · rw [if_pos (by simpa using hnewline)] at hgap
              exact hgap.cons_comment hnewline
      | false =>
          by_cases hspace : isSpace c = true
          · obtain ⟨gap, rest, rfl, hlength, hgap⟩ := ih false (n + 1)
            refine ⟨c :: gap, rest, rfl, ?_, .blank (mem_blanks_of_isSpace hspace) hgap⟩
            rw [gapLengthFrom, if_neg Bool.false_ne_true, if_pos hspace, hlength, List.length_cons]
            omega
          · by_cases hhash : c = '#'
            · subst hhash
              obtain ⟨gap, rest, rfl, hlength, hgap⟩ := ih true (n + 1)
              refine ⟨'#' :: gap, rest, rfl, ?_, hgap⟩
              rw [gapLengthFrom, if_neg Bool.false_ne_true, if_neg hspace, if_pos (beq_self_eq_true '#'), hlength,
                List.length_cons]
              omega
            · refine ⟨[], c :: cs, rfl, ?_, .nil⟩
              rw [gapLengthFrom, if_neg Bool.false_ne_true, if_neg hspace, if_neg (by simpa using hhash)]
              rfl

/-! ### Places -/

/-- The place behind some characters from the start of a text: one line for every newline in them, and one column
for every character since the last newline. -/
def placeBehind (cs : List Char) : Position :=
  ⟨1 + cs.count '\n', (cs.reverse.takeWhile (· ≠ '\n')).length⟩

theorem placeBehind_append (before cs : List Char) : placeBehind (before ++ cs) = (placeBehind before).afterAll cs := by
  induction cs generalizing before with
  | nil => rw [List.append_nil, Position.afterAll_nil]
  | cons c cs ih =>
      have hstep : placeBehind (before ++ [c]) = (placeBehind before).after c := by
        by_cases hnewline : c = '\n'
        · simp [placeBehind, Position.after, hnewline, Nat.add_assoc]
        · simp [placeBehind, Position.after, hnewline]
      rw [List.append_cons, ih, hstep, Position.afterAll_cons]

/-! ### Tiles -/

/-- A gap and the spelling of a token behind it. -/
structure Tile where
  gap : List Char
  span : List Char
  token : Token
  isGap : IsGap false gap
  spells : Spells span token

namespace Tile

def chars (tile : Tile) : List Char := tile.gap ++ tile.span

/-- The tokens of some tiles that stand behind some characters, each at the place where its spelling starts. -/
def tokens (before : List Char) : List Tile → List PlacedToken
  | [] => []
  | tile :: tiles => ⟨tile.token, placeBehind (before ++ tile.gap)⟩ :: tokens (before ++ tile.chars) tiles

end Tile

namespace Cursor

theorem rest_skipGap_append (cursor : Cursor) :
    ∃ gap, cursor.rest = gap ++ cursor.skipGap.rest ∧ cursor.skipGap.pos = cursor.pos.afterAll gap ∧
      IsGap cursor.skipGap.rest.isEmpty gap := by
  obtain ⟨gap, rest, hsplit, hlength, hgap⟩ := exists_gap false 0 cursor.rest
  have hskip : gapLength cursor.rest = gap.length := by rw [gapLength, hlength, Nat.zero_add]
  have hrest : cursor.skipGap.rest = rest := by rw [skipGap, rest_advance, hskip, hsplit, List.drop_left]
  have hpos : cursor.skipGap.pos = cursor.pos.afterAll gap := by
    rw [skipGap, pos_advance, hskip, hsplit, List.take_left]
  exact ⟨gap, hrest ▸ hsplit, hpos, hrest ▸ hgap⟩

/-- Reading a token passes one tile. -/
theorem exists_tile {cursor after : Cursor} {placed : PlacedToken}
    (h : cursor.readToken = (.ok (some placed), after)) :
    ∃ tile : Tile, cursor.rest = tile.chars ++ after.rest ∧
      placed = ⟨tile.token, cursor.pos.afterAll tile.gap⟩ ∧ after.pos = cursor.pos.afterAll tile.chars := by
  obtain ⟨gap, hsplit, hpos, hgap⟩ := cursor.rest_skipGap_append
  obtain ⟨c, cs, token, n, hstart, hscan, rfl, rfl⟩ := scanToken_of_readToken h
  rw [hstart] at hgap
  refine ⟨⟨gap, (c :: cs).take n, token, hgap, spells_of_scanToken hscan⟩, ?_, ?_, ?_⟩
  · rw [rest_advance, hsplit, hstart, Tile.chars, List.append_assoc, List.take_append_drop]
  · rw [hpos]
  · rw [pos_advance, hpos, hstart, Tile.chars, Position.afterAll_append]

/-- Where reading finds no further token, all that is left is a gap. -/
theorem isGap_of_end {cursor after : Cursor} (h : cursor.readToken = (.ok none, after)) : IsGap true cursor.rest := by
  obtain ⟨gap, hsplit, -, hgap⟩ := cursor.rest_skipGap_append
  rw [skipGap_of_readToken_end h] at hgap hsplit
  rw [hsplit, List.append_nil]
  exact hgap

/-- What is delivered without a fault tiles what is left of the text. -/
theorem delivery_tiles {cursor : Cursor} {before : List Char} {tokens : List PlacedToken}
    (h : cursor.delivery = ⟨tokens, none⟩) (hpos : cursor.pos = placeBehind before) :
    ∃ (tiles : List Tile) (last : List Char), cursor.rest = tiles.flatMap Tile.chars ++ last ∧ IsGap true last ∧
      tokens = Tile.tokens before tiles := by
  fun_induction Cursor.delivery cursor generalizing before tokens with
  | case1 cursor token after hread _ ih =>
      obtain ⟨tile, hsplit, rfl, hafter⟩ := exists_tile hread
      obtain ⟨rest, hrest, rfl⟩ := Delivery.exists_rest_of_behind h
      have hplace : after.pos = placeBehind (before ++ tile.chars) := by
        rw [hafter, hpos, placeBehind_append]
      obtain ⟨tiles, last, hlast, hgap, htokens⟩ := ih hrest hplace
      refine ⟨tile :: tiles, last, ?_, hgap, ?_⟩
      · rw [hsplit, hlast, List.flatMap_cons, List.append_assoc]
      · rw [htokens, List.singleton_append, Tile.tokens, placeBehind_append, ← hpos]
  | case2 cursor after hread =>
      cases h
      exact ⟨[], cursor.rest, rfl, isGap_of_end hread, rfl⟩
  | case3 cursor fault after hread => cases h

/-- A spelling by itself is read as its token, at the start. -/
theorem delivery_of_spells {span : List Char} {token : Token} (h : Spells span token) :
    (ofText (String.ofList span)).delivery = ⟨[⟨token, .start⟩], none⟩ := by
  obtain ⟨c, cs, rfl, hstart, hscan⟩ := h.scanToken
  have hrest : (ofText (String.ofList (c :: cs))).rest = c :: cs := by simp [ofText]
  have hskip : (ofText (String.ofList (c :: cs))).skipGap = ofText (String.ofList (c :: cs)) := by
    rw [skipGap, hrest, gapLength_cons_of_not_isGapStart cs hstart]
    rfl
  have hread := hscan [] trivial
  rw [List.append_nil] at hread
  have hskipped : (ofText (String.ofList (c :: cs))).skipGap.rest = c :: cs := by rw [hskip, hrest]
  have htoken := readToken_of_scanToken hskipped hread
  have hend : (advance (cs.length + 1) (ofText (String.ofList (c :: cs))).skipGap).rest = [] := by
    rw [rest_advance, hskipped]
    simp
  rw [delivery_of_token htoken, delivery_of_end (readToken_of_rest_nil hend), hskip]
  rfl

end Cursor

/-- **Tokens tile the text, each at its exact place.** The text is a row of tiles with a last gap behind it; every
span is the spelling of its token, is not empty, and is read as that token when it stands alone; and the tokens
are those of the tiles, at the places where their spans start. -/
theorem tokenize_tiles {text : String} {tokens : List PlacedToken} (h : tokenize text = .ok tokens) :
    ∃ (tiles : List Tile) (last : List Char),
      text.toList = tiles.flatMap (fun tile => tile.gap ++ tile.span) ++ last ∧ IsGap true last ∧
      (∀ tile ∈ tiles, tile.span ≠ [] ∧ tokenize (String.ofList tile.span) = .ok [⟨tile.token, .start⟩]) ∧
      tokens = Tile.tokens [] tiles := by
  have hstart : (Cursor.ofText text).pos = placeBehind [] := rfl
  obtain ⟨tiles, last, hsplit, hlast, htokens⟩ := Cursor.delivery_tiles (tokenize_eq_ok.mp h) hstart
  refine ⟨tiles, last, hsplit, hlast, fun tile _ => ⟨tile.spells.ne_nil, ?_⟩, htokens⟩
  exact tokenize_eq_ok.mpr (Cursor.delivery_of_spells tile.spells)

/-- A comment before the first token, a string over two lines with an escaped quote, a number with leading zeros and
a bare point, and a comment that ends with the text. -/
theorem tokenize_tiles_lines :
    tokenize "# one\n\t\"a\n\\\"\" 007.\nx->y#" =
        .ok [⟨.string "a\n\"", ⟨2, 1⟩⟩, ⟨.number (.ofDecimal false 7 0), ⟨3, 4⟩⟩, ⟨.identifier "x->y", ⟨4, 0⟩⟩] ∧
      ∃ (tiles : List Tile) (last : List Char),
        "# one\n\t\"a\n\\\"\" 007.\nx->y#".toList = tiles.flatMap (fun tile => tile.gap ++ tile.span) ++ last ∧
        IsGap true last ∧
        (∀ tile ∈ tiles, tile.span ≠ [] ∧ tokenize (String.ofList tile.span) = .ok [⟨tile.token, .start⟩]) ∧
        [⟨.string "a\n\"", ⟨2, 1⟩⟩, ⟨.number (.ofDecimal false 7 0), ⟨3, 4⟩⟩, ⟨.identifier "x->y", ⟨4, 0⟩⟩] =
          Tile.tokens [] tiles := by
  have hread : tokenize "# one\n\t\"a\n\\\"\" 007.\nx->y#" =
      .ok [⟨.string "a\n\"", ⟨2, 1⟩⟩, ⟨.number (.ofDecimal false 7 0), ⟨3, 4⟩⟩, ⟨.identifier "x->y", ⟨4, 0⟩⟩] := by
    decide +kernel
  exact ⟨hread, tokenize_tiles hread⟩

end LambdaScript
