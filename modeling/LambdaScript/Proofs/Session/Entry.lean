import LambdaScript.Proofs.Expr.Balanced
import LambdaScript.Proofs.Expr.Parse
import LambdaScript.Proofs.Expr.Sequence
import LambdaScript.Proofs.Token.Tiling
import LambdaScript.Session.Shell

/-!
Complete programs are complete entries. What decides whether an entry needs more lines runs over its characters and
knows strings, comments and brackets only; reading splits the same characters into gaps and spellings of tokens. Over
a gap and over a spelling the first does what the second says: it ends outside of strings, and counts a spelling by
the bracket that its token is. Brackets balance in a program, so none is left open at its end.
-/

namespace LambdaScript

namespace EntryScan

/-- Some brackets are open, outside of strings and comments. -/
def between (depth : Int) : EntryScan := ⟨depth, false, false, false⟩

/-- A character that only counts as itself: it starts no string and no comment and is no bracket. -/
def isPlain (c : Char) : Bool := c ∉ ['#', '"', '(', ')', '\x7b', '\x7d']

variable {depth : Int}

theorem step_plain {c : Char} (h : isPlain c = true) : (between depth).step c = between depth := by
  simp only [isPlain, List.mem_cons, List.not_mem_nil, or_false, not_or, decide_eq_true_eq] at h
  obtain ⟨hhash, hquote, hopen, hclose, hbrace, hend⟩ := h
  simp [step, between, hhash, hquote, hopen, hclose, hbrace, hend]

theorem foldl_plain {cs : List Char} (h : ∀ c ∈ cs, isPlain c = true) :
    cs.foldl step (between depth) = between depth := by
  induction cs with
  | nil => rfl
  | cons c cs ih =>
      rw [List.foldl_cons, step_plain (h c List.mem_cons_self)]
      exact ih fun d hd => h d (List.mem_cons_of_mem c hd)

/-! ### Gaps -/

theorem foldl_comment {line : List Char} (h : '\n' ∉ line) :
    line.foldl step ⟨depth, false, false, true⟩ = ⟨depth, false, false, true⟩ := by
  induction line with
  | nil => rfl
  | cons c line ih =>
      rw [List.mem_cons, not_or] at h
      obtain ⟨hc, hline⟩ := h
      have hstep : step ⟨depth, false, false, true⟩ c = ⟨depth, false, false, true⟩ := by
        simp [step, Ne.symm hc]
      rw [List.foldl_cons, hstep, ih hline]

/-- A gap opens nothing and closes nothing. The last comment of a text may still go on. -/
theorem foldl_gap (depth : Int) {last : Bool} {gap : List Char} (h : IsGap last gap) :
    ∃ inComment, gap.foldl step (between depth) = ⟨depth, false, false, inComment⟩ ∧
      (last = false → inComment = false) := by
  induction h with
  | nil => exact ⟨false, rfl, fun _ => rfl⟩
  | @blank c cs hc _ ih =>
      have hplain : isPlain c = true := by
        simp only [List.mem_cons, List.not_mem_nil, or_false] at hc
        rcases hc with rfl | rfl | rfl | rfl <;> decide
      rw [List.foldl_cons, step_plain hplain]
      exact ih
  | @comment line cs hline _ ih =>
      have hstart : (between depth).step '#' = ⟨depth, false, false, true⟩ := rfl
      have hend : step ⟨depth, false, false, true⟩ '\n' = between depth := rfl
      rw [List.foldl_cons, hstart, List.foldl_append, foldl_comment hline, List.foldl_cons, hend]
      exact ih
  | @lastComment line hlast hline =>
      have hstart : (between depth).step '#' = ⟨depth, false, false, true⟩ := rfl
      refine ⟨true, ?_, fun hnot => ?_⟩
      · rw [List.foldl_cons, hstart, foldl_comment hline]
      · rw [hlast] at hnot
        cases hnot

/-! ### Spellings -/

theorem foldl_string {body value : List Char} (h : Unescapes body value) :
    body.foldl step ⟨depth, true, false, false⟩ = ⟨depth, true, false, false⟩ := by
  induction h with
  | nil => rfl
  | @plain c cs value hslash hquote _ ih =>
      have hstep : step ⟨depth, true, false, false⟩ c = ⟨depth, true, false, false⟩ := by
        simp [step, hslash, hquote]
      rw [List.foldl_cons, hstep, ih]
  | @escaped c cs value _ ih =>
      have hslash : step ⟨depth, true, false, false⟩ '\\' = ⟨depth, true, true, false⟩ := rfl
      have hstep : step ⟨depth, true, true, false⟩ c = ⟨depth, true, false, false⟩ := rfl
      rw [List.foldl_cons, hslash, List.foldl_cons, hstep, ih]

theorem isPlain_of_not {P : Char → Bool} (h : ['#', '"', '(', ')', '\x7b', '\x7d'].any P = false) {c : Char}
    (hc : P c = true) : isPlain c = true := by
  simp only [isPlain, decide_eq_true_eq]
  intro hmem
  exact List.any_eq_false.mp h c hmem hc

theorem isPlain_of_isDigit {c : Char} (h : c.isDigit = true) : isPlain c = true := isPlain_of_not (by decide) h

theorem isPlain_of_isNamePart {c : Char} (h : isNamePart c = true) : isPlain c = true := isPlain_of_not (by decide) h

theorem isPlain_of_isJoiner {c : Char} (h : isJoiner c = true) : isPlain c = true := isPlain_of_not (by decide) h

/-- A name is made of the characters of names and of joiners. -/
theorem isPlain_of_nameLengthFrom {n : Nat} {cs : List Char} (h : nameLengthFrom n cs = n + cs.length) :
    ∀ c ∈ cs, isPlain c = true := by
  induction cs generalizing n with
  | nil => exact List.forall_mem_nil _
  | cons c cs ih =>
      rw [nameLengthFrom, List.length_cons] at h
      split at h
      · next hpart =>
        have hplain : isPlain c = true := by
          rcases Bool.or_eq_true_iff.mp hpart with hname | hjoins
          · exact isPlain_of_isNamePart hname
          · exact isPlain_of_isJoiner (Bool.and_eq_true_iff.mp hjoins).1
        exact List.forall_mem_cons.mpr ⟨hplain, ih (n := n + 1) (by omega)⟩
      · omega

theorem isPlain_of_isWord {c : Char} {cs : List Char} (h : IsWord c cs) : ∀ d ∈ c :: cs, isPlain d = true := by
  obtain ⟨hstart, hlength⟩ := h
  refine List.forall_mem_cons.mpr ⟨isPlain_of_isNamePart (isNamePart_of_isNameStart hstart), ?_⟩
  exact isPlain_of_nameLengthFrom (n := 0) (by rw [hlength, Nat.zero_add])

theorem isPlain_of_literalChars {whole : List Char} {fraction? : Option (List Char)}
    (hwhole : ∀ c ∈ whole, c.isDigit = true) (hfraction : ∀ c ∈ fraction?.getD [], c.isDigit = true) :
    ∀ c ∈ literalChars whole fraction?, isPlain c = true := by
  have hdigits : ∀ c ∈ whole, isPlain c = true := fun c hc => isPlain_of_isDigit (hwhole c hc)
  cases fraction? with
  | none => simpa [literalChars] using hdigits
  | some fraction =>
      have hplaces : ∀ c ∈ fraction, isPlain c = true := fun c hc => isPlain_of_isDigit (hfraction c hc)
      have hpoint : isPlain '.' = true := by decide
      unfold literalChars
      exact List.forall_mem_append.mpr ⟨hdigits, List.forall_mem_cons.mpr ⟨hpoint, hplaces⟩⟩

/-- **A spelling counts as the bracket that its token is**, and as nothing if it is none. -/
theorem foldl_spelling {span : List Char} {token : Token} (h : Spells span token) :
    span.foldl step (between depth) = between (depth + token.weight) := by
  have hplain (hnone : token.weight = 0) (hspan : ∀ c ∈ span, isPlain c = true) :
      span.foldl step (between depth) = between (depth + token.weight) := by
    rw [hnone, Int.add_zero, foldl_plain hspan]
  cases h with
  | number _ hwhole hfraction => exact hplain rfl (isPlain_of_literalChars hwhole hfraction)
  | @string body value hbody =>
      have hstart : (between depth).step '"' = ⟨depth, true, false, false⟩ := rfl
      have hend : step ⟨depth, true, false, false⟩ '"' = between depth := rfl
      rw [List.foldl_cons, hstart, List.foldl_append, foldl_string hbody]
      exact hend.trans (congrArg between (Int.add_zero depth).symm)
  | boolean value => exact hplain rfl (List.all_eq_true.mp (by cases value <;> decide))
  | keyword word => exact hplain rfl (List.all_eq_true.mp (by cases word <;> decide))
  | identifier hword => exact hplain rfl (isPlain_of_isWord hword)
  | punctuation mark =>
      cases mark with
      | comma | semicolon | openBracket | closeBracket => exact hplain rfl (List.all_eq_true.mp (by decide))
      | openParen | openBrace | closeParen | closeBrace => rfl
  | @operator op hop =>
      have hchars : ∀ op ∈ Operator.known, op.text.toList.all isPlain = true := by decide
      exact hplain rfl (List.all_eq_true.mp (hchars op hop))

/-- Over tiles the brackets of their tokens are counted. -/
theorem foldl_tiles (tiles : List Tile) (before : List Char) :
    (tiles.flatMap Tile.chars).foldl step (between depth) =
      between (depth + bracketDepth (Tile.tokens before tiles)) := by
  induction tiles generalizing before depth with
  | nil => exact congrArg between (Int.add_zero depth).symm
  | cons tile tiles ih =>
      obtain ⟨inComment, hgap, hnone⟩ := foldl_gap depth tile.isGap
      obtain rfl := hnone rfl
      rw [List.flatMap_cons, List.foldl_append, Tile.chars, List.foldl_append, hgap]
      calc
        _ = (tiles.flatMap Tile.chars).foldl step (between (depth + tile.token.weight)) :=
            congrArg (List.foldl step · _) (foldl_spelling tile.spells)
        _ = between (depth + tile.token.weight + bracketDepth (Tile.tokens (before ++ tile.chars) tiles)) := ih _
        _ = between (depth + bracketDepth (Tile.tokens before (tile :: tiles))) := by
            rw [Tile.tokens, bracketDepth_cons, Int.add_assoc]

/-! ### Open strings -/

/-- A string without an end is left open. -/
theorem inString_of_stringBody_eq_none {cs : List Char} {escaped : Bool} {value : List Char} {n : Nat}
    (h : stringBody escaped value n cs = none) : (cs.foldl step ⟨depth, true, escaped, false⟩).inString = true := by
  induction cs generalizing escaped value n with
  | nil => rfl
  | cons c cs ih =>
      rw [stringBody] at h
      rw [List.foldl_cons]
      cases escaped with
      | true =>
          have hstep : step ⟨depth, true, true, false⟩ c = ⟨depth, true, false, false⟩ := rfl
          rw [hstep]
          exact ih h
      | false =>
          by_cases hslash : c = '\\'
          · subst hslash
            exact ih h
          · by_cases hquote : c = '"'
            · subst hquote
              cases h
            · have hstep : step ⟨depth, true, false, false⟩ c = ⟨depth, true, false, false⟩ := by
                simp [step, hslash, hquote]
              have hrest : stringBody false (c :: value) (n + 1) cs = none := by simpa [hslash, hquote] using h
              rw [hstep]
              exact ih hrest

end EntryScan

/-- Only a quote starts a lexeme that is a string without an end. -/
theorem stringBody_of_scanToken {c : Char} {cs : List Char} {n : Nat}
    (h : scanToken c cs = (.error .unterminatedString, n)) : c = '"' ∧ stringBody false [] 1 cs = none := by
  unfold scanToken at h
  split at h
  · next hquote =>
    refine ⟨beq_iff_eq.mp hquote, ?_⟩
    cases hbody : stringBody false [] 1 cs with
    | none => rfl
    | some found =>
        rw [hbody] at h
        cases h
  · split at h
    · dsimp only at h
      split at h <;> cases h
    · split at h
      · cases h
      · split at h
        · cases h
        · split at h
          · dsimp only at h
            split at h <;> cases h
          · cases h

/-- Where reading ends with a string without an end, that string is open at the end of the text: the tokens before it are
passed one after the other, each with the scan between two tokens again. -/
theorem Cursor.inString_of_delivery {cursor : Cursor} {start : Position} {pos : Option Position}
    (h : cursor.delivery.fault = some ⟨.unterminatedString start, pos⟩) (depth : Int) :
    (cursor.rest.foldl EntryScan.step (.between depth)).inString = true := by
  fun_induction Cursor.delivery cursor generalizing depth with
  | case1 cursor token after hread _ ih =>
      obtain ⟨tile, hsplit, -, -⟩ := exists_tile hread
      have htile : ([tile].flatMap Tile.chars).foldl EntryScan.step (.between depth) = _ :=
        EntryScan.foldl_tiles [tile] []
      rw [List.flatMap_singleton] at htile
      rw [hsplit, List.foldl_append, htile]
      exact ih h _
  | case2 cursor after hread => cases h
  | case3 cursor fault after hread =>
      obtain ⟨c, cs, lexical, n, hstart, hscan, hfault, -⟩ := scanToken_of_readToken_error hread
      obtain ⟨gap, hsplit, -, hgap⟩ := cursor.rest_skipGap_append
      rw [hstart] at hsplit hgap
      obtain ⟨inComment, hskip, hnone⟩ := EntryScan.foldl_gap depth hgap
      obtain rfl := hnone rfl
      cases Option.some.inj h
      cases lexical with
      | unterminatedString =>
          obtain ⟨rfl, hbody⟩ := stringBody_of_scanToken hscan
          rw [hsplit, List.foldl_append, hskip, List.foldl_cons]
          exact EntryScan.inString_of_stringBody_eq_none hbody
      | _ => cases hfault

/-! ### Programs -/

/-- What is left open at the end of a text that can be read are the brackets that its tokens leave open. -/
theorem needsMore_of_tokenize {text : String} {tokens : List PlacedToken} (h : tokenize text = .ok tokens) :
    needsMore text = decide (0 < bracketDepth tokens) := by
  have hstart : (Cursor.ofText text).pos = placeBehind [] := rfl
  obtain ⟨tiles, last, hsplit, hlast, rfl⟩ := Cursor.delivery_tiles (tokenize_eq_ok.mp h) hstart
  obtain ⟨inComment, hgap, -⟩ := EntryScan.foldl_gap (0 + bracketDepth (Tile.tokens [] tiles)) hlast
  have hchars : text.toList = tiles.flatMap Tile.chars ++ last := hsplit
  have hinitial : EntryScan.initial = .between 0 := rfl
  rw [needsMore, hchars, List.foldl_append, hinitial, EntryScan.foldl_tiles tiles [], hgap, Int.zero_add]
  rfl

/-- **An entry needs more lines just where the tokens say so.** A text that can be read needs more if it opens more
parentheses and braces than it closes, and a text whose last string has no end needs more in any case. -/
theorem needsMore_agrees (text : String) :
    match tokenize text with
    | .ok tokens => needsMore (joinEntry "" text) = true ↔
        tokens.countP (·.token.closes) < tokens.countP (·.token.opens)
    | .error ⟨.unterminatedString _, _⟩ => needsMore (joinEntry "" text) = true
    | .error _ => True := by
  have hjoin : joinEntry "" text = text := rfl
  rw [hjoin]
  split
  · next tokens htokens =>
    rw [needsMore_of_tokenize htokens, decide_eq_true_iff, bracketDepth_eq_sub]
    omega
  · next start pos hfault =>
    have hdelivery : (Cursor.ofText text).delivery.fault = some ⟨.unterminatedString start, pos⟩ := by
      rw [tokenize_eq, Delivery.result] at hfault
      split at hfault
      · cases hfault
      · next fault heq =>
        cases hfault
        exact heq
    have hopen : ((Cursor.ofText text).rest.foldl EntryScan.step .initial).inString = true :=
      Cursor.inString_of_delivery hdelivery 0
    rw [needsMore, EntryScan.isOpen]
    exact Bool.or_eq_true_iff.mpr (.inl hopen)
  · trivial

/-- **A complete program is never held back.** A text that can be read as a program is a complete entry, in one line
or in lines before it and a last one, wherever it is split at a newline; so an entry that needs more lines is no
program. -/
theorem complete_of_parse {depth : Nat} {text : String} {program : Expr} (h : parse depth text = .ok program) :
    (joinEntry "" text = text ∧ needsMore (joinEntry "" text) = false) ∧
      (∀ pending line, pending ≠ "" → pending ++ "\n" ++ line = text →
        joinEntry pending line = text ∧ needsMore (joinEntry pending line) = false) ∧
      ∀ pending line, needsMore (joinEntry pending line) = true → joinEntry pending line ≠ text := by
  have hsound := parse_sound depth text
  rw [h] at hsound
  obtain ⟨tokens, htokens, hderived⟩ := hsound
  have hcomplete : needsMore text = false := by
    rw [needsMore_of_tokenize htokens, hderived.bracketDepth_eq_zero]
    rfl
  refine ⟨⟨rfl, hcomplete⟩, fun pending line hpending htext => ?_, fun pending line hmore htext => ?_⟩
  · have hjoin : joinEntry pending line = text := by
      rw [joinEntry, if_neg (by simpa using hpending), htext]
    exact ⟨hjoin, hjoin ▸ hcomplete⟩
  · rw [htext, hcomplete] at hmore
    cases hmore

/-- A string over two lines with brackets in it and an escaped quote, and a comment with an open one at the end. -/
theorem complete_of_parse_string :
    ∃ program, parse 20 "f(\"\\\"((\n\x7b\")#(" = .ok program ∧
      (joinEntry "" "f(\"\\\"((\n\x7b\")#(" = "f(\"\\\"((\n\x7b\")#(" ∧
        needsMore (joinEntry "" "f(\"\\\"((\n\x7b\")#(") = false) ∧
      (∀ pending line, pending ≠ "" → pending ++ "\n" ++ line = "f(\"\\\"((\n\x7b\")#(" →
        joinEntry pending line = "f(\"\\\"((\n\x7b\")#(" ∧ needsMore (joinEntry pending line) = false) ∧
      ∀ pending line, needsMore (joinEntry pending line) = true →
        joinEntry pending line ≠ "f(\"\\\"((\n\x7b\")#(" := by
  have hread : (parse 20 "f(\"\\\"((\n\x7b\")#(").toOption.any
      (Expr.hasBody fun body => !body.isEmpty) = true := by decide +kernel
  obtain ⟨body, hparse, -⟩ := exists_body hread
  exact ⟨_, hparse, complete_of_parse hparse⟩

end LambdaScript
