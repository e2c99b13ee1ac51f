import LambdaScript.Proofs.Token.RoundTrip
import LambdaScript.Proofs.Token.Spelling
import LambdaScript.Proofs.Token.Tiling
import Mathlib.Data.List.Forall2

/-!
Tokens over a seam. Where more text is put behind a text, the last token of the text stays what it is as long as the
first new character can belong to no token but a string: one that spaces out, the start of a comment, or a mark. With
a newline at the seam not even a comment runs on, so the tokens are those of the text, at their places, and then those
of what was put behind it.
-/

namespace LambdaScript

/-! ### What cuts a lexeme off -/

/-- A character that goes on no lexeme but a string. -/
def isCut (c : Char) : Bool := isGapStart c || (Punctuation.ofChar? c).isSome

/-- A text that is empty or starts with a character that goes on no lexeme. -/
def AtCut : List Char → Prop
  | [] => True
  | c :: _ => isCut c = true

theorem AtCut.isCut {rest : List Char} (h : AtCut rest) : ∀ c ∈ rest.head?, LambdaScript.isCut c = true := by
  intro c hc
  cases rest with
  | nil => cases hc
  | cons d rest =>
      cases hc
      exact h

theorem atCut_newline (cs : List Char) : AtCut ('\n' :: cs) := rfl

/-- A class of characters that end with a lexeme has none that cuts it off. -/
theorem not_of_isCut {p : Char → Bool} (hgap : ∀ {c}, isGapStart c = true → p c = false)
    (hmark : ∀ mark : Punctuation, p mark.char = false) {c : Char} (h : isCut c = true) : p c = false := by
  rw [isCut, Bool.or_eq_true] at h
  rcases h with hspace | hfound
  · exact hgap hspace
  · obtain ⟨mark, hofChar⟩ := Option.isSome_iff_exists.mp hfound
    rw [← Punctuation.char_of_ofChar? hofChar]
    exact hmark mark

theorem not_isDigit_of_isCut {c : Char} (h : isCut c = true) : c.isDigit = false :=
  not_of_isCut not_isDigit_of_isGapStart (by rintro (_ | _) <;> decide) h

theorem not_isNamePart_of_isCut {c : Char} (h : isCut c = true) : isNamePart c = false :=
  not_of_isCut not_isNamePart_of_isGapStart (by rintro (_ | _) <;> decide) h

theorem not_isJoiner_of_isCut {c : Char} (h : isCut c = true) : isJoiner c = false :=
  not_of_isCut not_isJoiner_of_isGapStart (by rintro (_ | _) <;> decide) h

theorem not_isOperatorChar_of_isCut {c : Char} (h : isCut c = true) : isOperatorChar c = false :=
  not_of_isCut not_isOperatorChar_of_isGapStart (by rintro (_ | _) <;> decide) h

theorem not_isPoint_of_isCut {c : Char} (h : isCut c = true) : (c == '.') = false := by
  refine not_of_isCut (p := (· == '.')) (fun {c} hgap => ?_) (by rintro (_ | _) <;> decide) h
  rcases isGapStart_cases hgap with rfl | rfl | rfl | rfl | rfl <;> decide

/-! ### Each class of lexemes -/

variable {cs rest : List Char}

/-- A run of characters of one class does not go on behind a cut. -/
theorem takeWhile_append_of_atCut {p : Char → Bool} (hp : ∀ {c}, isCut c = true → p c = false) (hrest : AtCut rest) :
    (cs ++ rest).takeWhile p = cs.takeWhile p := by
  induction cs with
  | nil =>
      cases rest with
      | nil => rfl
      | cons c rest => simp [hp hrest]
  | cons c cs ih =>
      by_cases hc : p c = true
      · simp [hc, ih]
      · simp [hc]

theorem stringBody_append {escaped : Bool} {done : List Char} {n : Nat} {found : List Char × Nat}
    (h : stringBody escaped done n cs = some found) (rest : List Char) :
    stringBody escaped done n (cs ++ rest) = some found := by
  induction cs generalizing escaped done n with
  | nil => cases h
  | cons c cs ih =>
      rw [stringBody] at h
      rw [List.cons_append, stringBody]
      split at h
      · next hescaped =>
        rw [if_pos hescaped]
        exact ih h
      · next hescaped =>
        rw [if_neg hescaped]
        split at h
        · next hslash =>
          rw [if_pos hslash]
          exact ih h
        · next hslash =>
          rw [if_neg hslash]
          split at h
          · next hquote => rw [if_pos hquote, h]
          · next hquote =>
            rw [if_neg hquote]
            exact ih h

theorem numberParts_append (hrest : AtCut rest) : numberParts (cs ++ rest) = numberParts cs := by
  rcases hparts : numberParts cs with ⟨whole, fraction?⟩
  obtain ⟨hwhole, hfraction, tail, rfl⟩ := numberParts_spec hparts
  rw [numberParts_literalChars_iff hwhole hfraction] at hparts
  rw [List.append_assoc, numberParts_literalChars_iff hwhole hfraction]
  intro c hc
  cases tail with
  | nil =>
      have hcut := hrest.isCut c hc
      exact ⟨not_isDigit_of_isCut hcut, fun _ => by simpa using not_isPoint_of_isCut hcut⟩
  | cons d tail => exact hparts c hc

theorem joinsOn_append (hrest : AtCut rest) : joinsOn (cs ++ rest) = joinsOn cs := by
  induction cs with
  | nil =>
      cases rest with
      | nil => rfl
      | cons c rest =>
          rw [List.nil_append, joinsOn_cons_of_not_isJoiner rest (not_isJoiner_of_isCut hrest)]
          cases hstart : isNameStart c with
          | false => rfl
          | true =>
              have hpart := isNamePart_of_isNameStart hstart
              rw [not_isNamePart_of_isCut hrest] at hpart
              cases hpart
  | cons c cs ih =>
      cases hjoiner : isJoiner c with
      | true => rw [List.cons_append, joinsOn_cons_of_isJoiner _ hjoiner, joinsOn_cons_of_isJoiner _ hjoiner, ih]
      | false =>
          rw [List.cons_append, joinsOn_cons_of_not_isJoiner _ hjoiner, joinsOn_cons_of_not_isJoiner _ hjoiner]

theorem nameLengthFrom_append (n : Nat) (hrest : AtCut rest) : nameLengthFrom n (cs ++ rest) = nameLengthFrom n cs := by
  induction cs generalizing n with
  | nil =>
      cases rest with
      | nil => rfl
      | cons c rest =>
          rw [List.nil_append, nameLengthFrom, nameLengthFrom, if_neg]
          simp [not_isNamePart_of_isCut hrest, not_isJoiner_of_isCut hrest]
  | cons c cs ih => rw [List.cons_append, nameLengthFrom, nameLengthFrom, joinsOn_append hrest, ih]

/-- **A token stays what it is** when a text is put behind its text at a cut. -/
theorem scanToken_append {c : Char} {token : Token} {n : Nat} (h : scanToken c cs = (.ok token, n))
    (hrest : AtCut rest) : scanToken c (cs ++ rest) = (.ok token, n) := by
  unfold scanToken at h ⊢
  split at h
  · next hquote =>
    rw [if_pos hquote]
    split at h
    · next value m hbody =>
      rw [stringBody_append hbody rest]
      exact h
    · cases h
  · next hquote =>
    rw [if_neg hquote]
    split at h
    · next hdigit =>
      rw [if_pos hdigit, ← List.cons_append, numberParts_append hrest]
      exact h
    · next hdigit =>
      rw [if_neg hdigit]
      split at h
      · next hstart =>
        have hle : nameLengthFrom 1 cs ≤ (c :: cs).length := by
          rw [nameLengthFrom_eq_add, List.length_cons]
          have := nameLengthFrom_le_length cs
          omega
        rw [if_pos hstart, nameLengthFrom_append 1 hrest, ← List.cons_append]
        dsimp only
        rw [List.take_append_of_le_length hle]
        exact h
      · next hstart =>
        rw [if_neg hstart]
        split at h
        · exact h
        · split at h
          · next hop =>
            rw [if_pos hop, ← List.cons_append, takeWhile_append_of_atCut not_isOperatorChar_of_isCut hrest]
            exact h
          · cases h

/-- What is read for a token is there. -/
theorem length_le_of_scanToken {c : Char} {token : Token} {n : Nat} (h : scanToken c cs = (.ok token, n)) :
    n ≤ (c :: cs).length := by
  rcases Nat.le_total n (c :: cs).length with hle | hge
  · exact hle
  · have hspells := spells_of_scanToken h
    rw [List.take_of_length_le hge] at hspells
    obtain ⟨_, _, hspan, -, hscan⟩ := hspells.scanToken
    cases hspan
    have hwhole := hscan [] trivial
    rw [List.append_nil, h] at hwhole
    exact Nat.le_of_eq (Prod.mk.inj hwhole).2

/-! ### Gaps -/

/-- A gap that ends before its text does is as long with more text behind that. -/
theorem gapLengthFrom_append (inComment : Bool) (n : Nat) (ds : List Char)
    (h : gapLengthFrom inComment n cs < n + cs.length) :
    gapLengthFrom inComment n (cs ++ ds) = gapLengthFrom inComment n cs := by
  induction cs generalizing inComment n with
  | nil => exact absurd h (Nat.lt_irrefl n)
  | cons c cs ih =>
      rw [gapLengthFrom] at h ⊢
      rw [List.length_cons, ← Nat.add_assoc, Nat.add_right_comm] at h
      rw [List.cons_append, gapLengthFrom]
      split at h
      · next hcomment =>
        rw [if_pos hcomment, if_pos hcomment]
        exact ih _ _ h
      · next hcomment =>
        rw [if_neg hcomment, if_neg hcomment]
        split at h
        · next hspace =>
          rw [if_pos hspace, if_pos hspace]
          exact ih _ _ h
        · next hspace =>
          rw [if_neg hspace, if_neg hspace]
          split at h
          · next hhash =>
            rw [if_pos hhash, if_pos hhash]
            exact ih _ _ h
          · next hhash => rw [if_neg hhash, if_neg hhash]

/-- A gap that takes in its whole text goes on behind a newline, even if it ends with a comment. -/
theorem gapLengthFrom_append_newline (inComment : Bool) (n : Nat) (ds : List Char)
    (h : gapLengthFrom inComment n cs = n + cs.length) :
    gapLengthFrom inComment n (cs ++ '\n' :: ds) = gapLengthFrom false (n + cs.length + 1) ds := by
  induction cs generalizing inComment n with
  | nil => cases inComment <;> rfl
  | cons c cs ih =>
      rw [List.length_cons, show n + (cs.length + 1) = n + 1 + cs.length by omega] at h ⊢
      rw [gapLengthFrom] at h
      rw [List.cons_append, gapLengthFrom]
      split at h
      · next hcomment =>
        rw [if_pos hcomment]
        exact ih _ _ h
      · next hcomment =>
        rw [if_neg hcomment]
        split at h
        · next hspace =>
          rw [if_pos hspace]
          exact ih _ _ h
        · next hspace =>
          rw [if_neg hspace]
          split at h
          · next hhash =>
            rw [if_pos hhash]
            exact ih _ _ h
          · omega

/-- A gap counted on from a later start is longer by the difference. -/
theorem gapLengthFrom_eq_add (inComment : Bool) (n : Nat) (cs : List Char) :
    gapLengthFrom inComment n cs = n + gapLengthFrom inComment 0 cs := by
  induction cs generalizing inComment n with
  | nil => rfl
  | cons c cs ih =>
      rw [gapLengthFrom, gapLengthFrom, ih (c != '\n') (n + 1), ih false (n + 1), ih true (n + 1),
        ih (c != '\n') (0 + 1), ih false (0 + 1), ih true (0 + 1)]
      split
      · omega
      · split
        · omega
        · split
          · omega
          · rfl

theorem gapLength_le_length (cs : List Char) : gapLength cs ≤ cs.length := by
  have hle (inComment : Bool) : gapLengthFrom inComment 0 cs ≤ cs.length := by
    induction cs generalizing inComment with
    | nil => exact Nat.le_refl 0
    | cons c cs ih =>
        rw [gapLengthFrom, gapLengthFrom_eq_add (c != '\n'), gapLengthFrom_eq_add false, gapLengthFrom_eq_add true,
          List.length_cons]
        have hcomment := ih (c != '\n')
        have hspace := ih false
        have hhash := ih true
        split
        · omega
        · split
          · omega
          · split <;> omega
  exact hle false

/-! ### Cursors -/

namespace Cursor

theorem advance_add (m n : Nat) (cursor : Cursor) : advance (m + n) cursor = advance n (advance m cursor) := by
  induction m generalizing cursor with
  | zero => rw [Nat.zero_add]; rfl
  | succ m ih => rw [Nat.add_right_comm, advance, advance, ih]

/-- A cursor that moves on comes to the end of its text at the same place. -/
theorem end_advance (n : Nat) (cursor : Cursor) :
    (advance n cursor).pos.afterAll (advance n cursor).rest = cursor.pos.afterAll cursor.rest := by
  rw [pos_advance, rest_advance, ← Position.afterAll_append, List.take_append_drop]

/-- What is delivered depends on the next token and what is read behind it. -/
theorem delivery_congr {cursor other : Cursor} (h : cursor.readToken = other.readToken) :
    cursor.delivery = other.delivery := by
  cases hread : cursor.readToken with
  | mk outcome after =>
      have hother := h ▸ hread
      cases outcome with
      | ok token? =>
          cases token? with
          | some token => rw [delivery_of_token hread, delivery_of_token hother]
          | none => rw [delivery_of_end hread, delivery_of_end hother]
      | error fault => rw [delivery_of_fault hread, delivery_of_fault hother]

/-- Behind a newline reading starts anew, if all that was left before it was a gap. -/
theorem delivery_behind_gap {cursor other : Cursor} {ds : List Char} (hend : cursor.skipGap.rest = [])
    (hrest : other.rest = cursor.rest ++ '\n' :: ds) :
    ∃ after : Cursor, after.rest = ds ∧ after.pos = other.pos.afterAll (cursor.rest ++ ['\n']) ∧
      other.delivery = after.delivery := by
  have hgap : gapLength cursor.rest = cursor.rest.length := by
    rw [skipGap, rest_advance, List.drop_eq_nil_iff] at hend
    exact Nat.le_antisymm (gapLength_le_length _) hend
  have hafter : (advance (cursor.rest.length + 1) other).rest = ds := by
    rw [rest_advance, hrest, ← List.drop_drop, List.drop_left]
    rfl
  have hpos : (advance (cursor.rest.length + 1) other).pos = other.pos.afterAll (cursor.rest ++ ['\n']) := by
    rw [pos_advance, hrest, List.take_length_add_append]
    rfl
  refine ⟨advance (cursor.rest.length + 1) other, hafter, hpos, delivery_congr ?_⟩
  have hskip : other.skipGap = (advance (cursor.rest.length + 1) other).skipGap := by
    have hlength : gapLength other.rest = cursor.rest.length + 1 + gapLength ds := by
      rw [hrest, gapLength, gapLengthFrom_append_newline false 0 ds (by rw [Nat.zero_add]; exact hgap),
        gapLengthFrom_eq_add, Nat.zero_add, gapLength]
    rw [skipGap, skipGap, hlength, advance_add, hafter]
  simp only [readToken, hskip]

/-- **Tokens over a seam.** What a text delivers without a fault it delivers at the same places with a newline and
more text behind it, and then what that text delivers. -/
theorem delivery_append {cursor other : Cursor} {ds : List Char} {tokens : List PlacedToken}
    (h : cursor.delivery = ⟨tokens, none⟩) (hrest : other.rest = cursor.rest ++ '\n' :: ds)
    (hpos : other.pos = cursor.pos) :
    ∃ after : Cursor, after.rest = ds ∧ after.pos = cursor.pos.afterAll (cursor.rest ++ ['\n']) ∧
      other.delivery = after.delivery.behind tokens := by
  fun_induction Cursor.delivery cursor generalizing other tokens with
  | case1 cursor placed next hread _ ih =>
      obtain ⟨c, cs, token, n, hstart, hscan, rfl, rfl⟩ := scanToken_of_readToken hread
      have hbehind : cursor.rest.drop (gapLength cursor.rest) = c :: cs := by rw [← hstart, skipGap, rest_advance]
      have hshorter : gapLength cursor.rest < cursor.rest.length := by
        have hlength := congrArg List.length hbehind
        rw [List.length_drop, List.length_cons] at hlength
        omega
      -- the gap ends before its text does, so it is the same with more text behind that
      have hgap : gapLength other.rest = gapLength cursor.rest := by
        rw [hrest]
        exact gapLengthFrom_append false 0 _ (by rw [Nat.zero_add]; exact hshorter)
      have hskip : other.skipGap.rest = c :: cs ++ '\n' :: ds := by
        rw [skipGap, rest_advance, hgap, hrest, List.drop_append_of_le_length (Nat.le_of_lt hshorter), hbehind]
      have hplace : other.skipGap.pos = cursor.skipGap.pos := by
        rw [skipGap, skipGap, pos_advance, pos_advance, hgap, hrest, hpos,
          List.take_append_of_le_length (Nat.le_of_lt hshorter)]
      have hle := length_le_of_scanToken hscan
      obtain ⟨rest, hafter, rfl⟩ := Delivery.exists_rest_of_behind h
      have hbeyond : (advance n other.skipGap).rest = (advance n cursor.skipGap).rest ++ '\n' :: ds := by
        rw [rest_advance, rest_advance, hskip, hstart, List.drop_append_of_le_length hle]
      have hbeyondPos : (advance n other.skipGap).pos = (advance n cursor.skipGap).pos := by
        rw [pos_advance, pos_advance, hplace, hskip, hstart, List.take_append_of_le_length hle]
      obtain ⟨after, hds, hseam, hdelivery⟩ := ih hafter hbeyond hbeyondPos
      refine ⟨after, hds, ?_, ?_⟩
      · rw [hseam, Position.afterAll_append, end_advance, skipGap, end_advance, Position.afterAll_append]
      · have htoken := readToken_of_scanToken hskip (scanToken_append hscan (atCut_newline ds))
        rw [delivery_of_token htoken, hdelivery, Delivery.behind_behind, hplace]
  | case2 cursor next hread =>
      cases h
      exact hpos ▸ delivery_behind_gap (skipGap_of_readToken_end hread) hrest
  | case3 cursor fault next hread => cases h

/-- **The same text at two places.** If the places are related in a way that every character keeps, the tokens are the
same at related places, and both texts are read to the end or neither is. -/
theorem delivery_like {ρ : Position → Position → Prop}
    (hafter : ∀ {p q : Position} (c : Char), ρ p q → ρ (p.after c) (q.after c)) {cursor other : Cursor}
    (hrest : other.rest = cursor.rest) (hpos : ρ cursor.pos other.pos) :
    List.Forall₂ (PlacedToken.Like ρ) cursor.delivery.tokens other.delivery.tokens ∧
      (cursor.delivery.fault = none ↔ other.delivery.fault = none) := by
  have hafterAll {cs : List Char} : ∀ {p q : Position}, ρ p q → ρ (p.afterAll cs) (q.afterAll cs) := by
    induction cs with
    | nil => exact id
    | cons c cs ih => exact fun hpq => ih (hafter c hpq)
  have hskipGap {cursor other : Cursor} (hrest : other.rest = cursor.rest) (hpos : ρ cursor.pos other.pos) :
      other.skipGap.rest = cursor.skipGap.rest ∧ ρ cursor.skipGap.pos other.skipGap.pos := by
    rw [skipGap, skipGap, rest_advance, rest_advance, pos_advance, pos_advance, hrest]
    exact ⟨rfl, hafterAll hpos⟩
  fun_induction Cursor.delivery cursor generalizing other with
  | case1 cursor placed next hread _ ih =>
      obtain ⟨c, cs, token, n, hstart, hscan, rfl, rfl⟩ := scanToken_of_readToken hread
      obtain ⟨hskip, hplace⟩ := hskipGap hrest hpos
      have hbeyond : (advance n other.skipGap).rest = (advance n cursor.skipGap).rest := by
        rw [rest_advance, rest_advance, hskip]
      have hbeyondPos : ρ (advance n cursor.skipGap).pos (advance n other.skipGap).pos := by
        rw [pos_advance, pos_advance, hskip]
        exact hafterAll hplace
      obtain ⟨htokens, hfault⟩ := ih hbeyond hbeyondPos
      rw [delivery_of_token (readToken_of_scanToken (hskip.trans hstart) hscan)]
      exact ⟨.cons ⟨rfl, hplace⟩ htokens, hfault⟩
  | case2 cursor next hread =>
      have hend : other.skipGap.rest = [] := (hskipGap hrest hpos).1.trans (skipGap_of_readToken_end hread)
      rw [delivery_of_end (readToken_of_skipGap_nil hend)]
      exact ⟨.nil, Iff.rfl⟩
  | case3 cursor fault next hread =>
      obtain ⟨c, cs, lexical, n, hstart, hscan, -, -⟩ := scanToken_of_readToken_error hread
      have hother := readToken_of_scanToken_error ((hskipGap hrest hpos).1.trans hstart) hscan
      rw [delivery_of_fault hother]
      exact ⟨.nil, iff_of_false (Option.some_ne_none _) (Option.some_ne_none _)⟩

/-- The tokens of what is left do not depend on where it stands. -/
theorem delivery_of_rest_eq {cursor other : Cursor} {tokens : List PlacedToken} (h : cursor.delivery = ⟨tokens, none⟩)
    (hrest : other.rest = cursor.rest) :
    ∃ displaced, other.delivery = ⟨displaced, none⟩ ∧
      displaced.map PlacedToken.token = tokens.map PlacedToken.token := by
  obtain ⟨hlike, hfault⟩ := delivery_like (ρ := fun _ _ => True) (fun _ _ => trivial) hrest trivial
  rw [h] at hlike hfault
  refine ⟨other.delivery.tokens, ?_, ?_⟩
  · rw [← hfault.mp rfl]
  · rw [← List.forall₂_eq_eq_eq, List.forall₂_map_left_iff, List.forall₂_map_right_iff]
    exact hlike.flip.imp fun _ _ htoken => htoken.token_eq.symm

end Cursor

/-- **A semicolon on a line of its own** between two texts is one more token: before it are the tokens of the first
text, at their places, and behind it those of the second. -/
theorem tokenize_semicolon_between {a b : String} {ts us : List PlacedToken} (ha : tokenize a = .ok ts)
    (hb : tokenize b = .ok us) :
    ∃ pos displaced, tokenize (a ++ "\n;\n" ++ b) = .ok (ts ++ ⟨.punctuation .semicolon, pos⟩ :: displaced) ∧
      displaced.map PlacedToken.token = us.map PlacedToken.token := by
  rw [tokenize_eq_ok] at ha hb
  have hrest : (Cursor.ofText (a ++ "\n;\n" ++ b)).rest = (Cursor.ofText a).rest ++ '\n' :: ';' :: '\n' :: b.toList := by
    simp [Cursor.ofText]
  obtain ⟨mark, hmark, -, hseam⟩ := Cursor.delivery_append ha hrest rfl
  have hskip : mark.skipGap.rest = ';' :: '\n' :: b.toList := by
    rw [Cursor.skipGap, hmark, Cursor.rest_advance, hmark, gapLength_cons_of_not_isGapStart _ rfl, List.drop_zero]
  have hsemicolon := Cursor.readToken_of_scanToken hskip (scanToken_mark .semicolon _)
  -- behind the mark there is nothing before the newline, and then the second text
  have hnewline : (Cursor.advance 1 mark.skipGap).rest = ([] : List Char) ++ '\n' :: b.toList := by
    rw [Cursor.rest_advance, hskip]
    rfl
  have hempty : (⟨[], 0, .start⟩ : Cursor).skipGap.rest = [] := rfl
  obtain ⟨after, hafter, -, hbehind⟩ := Cursor.delivery_behind_gap hempty hnewline
  obtain ⟨displaced, hdelivery, hsame⟩ := Cursor.delivery_of_rest_eq hb hafter
  refine ⟨mark.skipGap.pos, displaced, tokenize_eq_ok.mpr ?_, hsame⟩
  rw [hseam, Cursor.delivery_of_token hsemicolon, hbehind, hdelivery]
  rfl

/-! ### Texts joined by a newline -/

/-- The place in the same column some lines further down. -/
def Position.below (lines : Nat) (p : Position) : Position := ⟨p.line + lines, p.column⟩

/-- The same token some lines further down. -/
def PlacedToken.below (lines : Nat) (placed : PlacedToken) : PlacedToken := ⟨placed.token, placed.pos.below lines⟩

theorem Position.after_below (lines : Nat) (p : Position) (c : Char) :
    (p.below lines).after c = (p.after c).below lines := by
  rw [after, after, below, below]
  split
  · rw [Nat.add_right_comm]
  · rfl

theorem PlacedToken.tokens_below {lines : Nat} {ts us : List PlacedToken}
    (h : List.Forall₂ (PlacedToken.Like fun p q => q = p.below lines) ts us) : us = ts.map (below lines) := by
  rw [← List.forall₂_eq_eq_eq, List.forall₂_map_right_iff]
  refine h.flip.imp fun moved placed hlike => ?_
  rw [below, hlike.token_eq, ← hlike.pos]

theorem exists_tokenize_iff {text : String} :
    (∃ tokens, tokenize text = .ok tokens) ↔ (Cursor.ofText text).delivery.fault = none := by
  simp only [tokenize_eq_ok]
  constructor
  · rintro ⟨tokens, h⟩
    rw [h]
  · intro h
    exact ⟨(Cursor.ofText text).delivery.tokens, by rw [← h]⟩

/-- **Reading distributes over lines.** Behind a text that is read to its end and a newline, a text is read as it is by
itself: to its end or not, and with the same tokens in the same columns, as many lines further down as there are
before it. -/
theorem tokenize_append_newline {a : String} {ts : List PlacedToken} (ha : tokenize a = .ok ts) (b : String) :
    ((∃ tokens, tokenize (a ++ "\n" ++ b) = .ok tokens) ↔ ∃ us, tokenize b = .ok us) ∧
      ∀ us, tokenize b = .ok us →
        tokenize (a ++ "\n" ++ b) = .ok (ts ++ us.map (PlacedToken.below (1 + a.toList.count '\n'))) := by
  rw [tokenize_eq_ok] at ha
  have hrest : (Cursor.ofText (a ++ "\n" ++ b)).rest = (Cursor.ofText a).rest ++ '\n' :: b.toList := by
    simp [Cursor.ofText]
  obtain ⟨after, hafter, hpos, hseam⟩ := Cursor.delivery_append ha hrest rfl
  have hbelow : after.pos = (Cursor.ofText b).pos.below (1 + a.toList.count '\n') :=
    calc after.pos = (placeBehind []).afterAll (a.toList ++ ['\n']) := hpos
      _ = placeBehind (a.toList ++ ['\n']) := (placeBehind_append [] _).symm
      _ = Position.start.below (1 + a.toList.count '\n') := by
        simp [placeBehind, Position.below, Position.start]
        omega
  obtain ⟨hlike, hfault⟩ := Cursor.delivery_like (ρ := fun p q => q = p.below (1 + a.toList.count '\n'))
    (fun c hpq => by rw [hpq, Position.after_below]) hafter hbelow
  constructor
  · rw [exists_tokenize_iff, exists_tokenize_iff, hseam, hfault]
    rfl
  · intro us hb
    rw [tokenize_eq_ok] at hb ⊢
    rw [hb] at hlike hfault
    rw [hseam, Delivery.behind, PlacedToken.tokens_below hlike, ← hfault.mp rfl]

/-- A joiner at the end of the first text, with letters on the lines behind it. -/
theorem tokenize_append_newline_joiner :
    tokenize "# x\nx-" = .ok [⟨.identifier "x", ⟨2, 0⟩⟩, ⟨.operator .subtract, ⟨2, 1⟩⟩] ∧
      tokenize " y\nz" = .ok [⟨.identifier "y", ⟨1, 1⟩⟩, ⟨.identifier "z", ⟨2, 0⟩⟩] ∧
      tokenize "# x\nx-\n y\nz" = .ok [⟨.identifier "x", ⟨2, 0⟩⟩, ⟨.operator .subtract, ⟨2, 1⟩⟩,
        ⟨.identifier "y", ⟨3, 1⟩⟩, ⟨.identifier "z", ⟨4, 0⟩⟩] := by
  have ha : tokenize "# x\nx-" = .ok [⟨.identifier "x", ⟨2, 0⟩⟩, ⟨.operator .subtract, ⟨2, 1⟩⟩] := by decide +kernel
  have hb : tokenize " y\nz" = .ok [⟨.identifier "y", ⟨1, 1⟩⟩, ⟨.identifier "z", ⟨2, 0⟩⟩] := by decide +kernel
  refine ⟨ha, hb, ?_⟩
  have hjoined := (tokenize_append_newline ha " y\nz").2 _ hb
  have hcount : 1 + "# x\nx-".toList.count '\n' = 2 := by decide
  rw [hcount] at hjoined
  exact hjoined

end LambdaScript
