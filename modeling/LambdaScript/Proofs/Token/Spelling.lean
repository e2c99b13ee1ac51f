import LambdaScript.Proofs.Token.Lexeme

/-!
Spellings. A token may be written in several ways: a number with leading zeros or a bare point behind it, a
string with more backslashes than it needs. A spelling decodes to one token, by itself and without a look at
its surroundings, and what reading takes for a token is a spelling of it.
-/

namespace LambdaScript

/-- The characters between the quotes of a string literal, and those that they stand for. A backslash takes the
next character as it is. -/
inductive Unescapes : List Char → List Char → Prop where
  | nil : Unescapes [] []
  | plain {c : Char} {cs value : List Char} (hslash : c ≠ '\\') (hquote : c ≠ '"') (hrest : Unescapes cs value) :
      Unescapes (c :: cs) (c :: value)
  | escaped (c : Char) {cs value : List Char} (hrest : Unescapes cs value) :
      Unescapes ('\\' :: c :: cs) (c :: value)

/-- The characters that a token may be written with. -/
inductive Spells : List Char → Token → Prop where
  | number {whole : List Char} {fraction? : Option (List Char)} {m : Magnitude} (hne : whole ≠ [])
      (hwhole : ∀ c ∈ whole, c.isDigit = true) (hfraction : ∀ c ∈ fraction?.getD [], c.isDigit = true)
      (hvalue : Magnitude.ofDecimal (digitsValue (whole ++ fraction?.getD [])) (fraction?.getD []).length = m)
      (hfinite : m.isFinite = true) : Spells (literalChars whole fraction?) (.number (.signed false m))
  | string {body value : List Char} (hbody : Unescapes body value) :
      Spells ('"' :: (body ++ ['"'])) (.string (String.ofList value))
  | boolean (value : Bool) : Spells (booleanText value).toList (.boolean value)
  | keyword (word : Keyword) : Spells word.text.toList (.keyword word)
  | identifier {c : Char} {cs : List Char} (hword : IsWord c cs)
      (hname : wordToken (String.ofList (c :: cs)) = .identifier (String.ofList (c :: cs))) :
      Spells (c :: cs) (.identifier (String.ofList (c :: cs)))
  | punctuation (mark : Punctuation) : Spells [mark.char] (.punctuation mark)
  | operator {op : Operator} (hop : op ∈ Operator.known) : Spells op.text.toList (.operator op)

/-! ### What is read is a spelling -/

theorem Keyword.text_of_ofText? {text : String} {word : Keyword} (h : ofText? text = some word) :
    word.text = text := by
  rw [ofText?] at h
  simpa using List.find?_some h

theorem Punctuation.char_of_ofChar? {c : Char} {mark : Punctuation} (h : ofChar? c = some mark) :
    mark.char = c := by
  rw [ofChar?] at h
  simpa using List.find?_some h

theorem Operator.text_of_ofText? {text : String} {op : Operator} (h : ofText? text = some op) :
    op.text = text := by
  rw [ofText?] at h
  simpa using List.find?_some h

/-- A string ends with the first quote that is not escaped, and its value is what stands before that. -/
theorem unescapes_of_stringBody {escaped : Bool} {done cs value : List Char} {n m : Nat}
    (h : stringBody escaped done n cs = some (value, m)) :
    ∃ body rest more, cs = body ++ '"' :: rest ∧ m = n + (body.length + 1) ∧ value = done.reverse ++ more ∧
      Unescapes (if escaped then '\\' :: body else body) more := by
  induction cs generalizing escaped done n with
  | nil => cases h
  | cons c cs ih =>
      rw [stringBody] at h
      cases escaped with
      | true =>
          obtain ⟨body, rest, more, rfl, rfl, rfl, hbody⟩ := ih h
          exact ⟨c :: body, rest, c :: more, rfl, by simp only [List.length_cons]; omega, by simp, .escaped c hbody⟩
      | false =>
          simp only [Bool.false_eq_true, if_false, beq_iff_eq] at h
          by_cases hslash : c = '\\'
          · rw [if_pos hslash] at h
            obtain ⟨body, rest, more, rfl, rfl, rfl, hbody⟩ := ih h
            exact ⟨c :: body, rest, more, rfl, by simp only [List.length_cons]; omega, rfl, hslash ▸ hbody⟩
          · rw [if_neg hslash] at h
            by_cases hquote : c = '"'
            · rw [if_pos hquote] at h
              cases h
              exact ⟨[], cs, [], by rw [hquote]; rfl, rfl, by simp, .nil⟩
            · rw [if_neg hquote] at h
              obtain ⟨body, rest, more, rfl, rfl, rfl, hbody⟩ := ih h
              exact ⟨c :: body, rest, c :: more, rfl, by simp only [List.length_cons]; omega, by simp,
                .plain hslash hquote hbody⟩

/-- The parts of a number literal are what the text begins with. -/
theorem numberParts_spec {cs whole : List Char} {fraction? : Option (List Char)}
    (h : numberParts cs = (whole, fraction?)) :
    (∀ c ∈ whole, c.isDigit = true) ∧ (∀ c ∈ fraction?.getD [], c.isDigit = true) ∧
      ∃ rest, cs = literalChars whole fraction? ++ rest := by
  have hwhole : whole = cs.takeWhile Char.isDigit := by
    simp only [numberParts] at h
    split at h <;> cases h <;> rfl
  have hdigits : ∀ c ∈ whole, c.isDigit = true := by
    rw [hwhole, ← List.all_eq_true]
    exact List.all_takeWhile
  have hcut : cs = whole ++ cs.drop whole.length := by
    rw [hwhole]
    exact (List.prefix_iff_eq_append.mp (List.takeWhile_prefix _)).symm
  rw [numberParts, ← hwhole] at h
  split at h
  · next rest hpoint =>
    cases h
    refine ⟨hdigits, fun c hc => (List.all_eq_true.mp List.all_takeWhile) c hc, rest.dropWhile Char.isDigit, ?_⟩
    rw [literalChars, List.append_assoc, List.cons_append, List.takeWhile_append_dropWhile, ← hpoint]
    exact hcut
  · cases h
    refine ⟨hdigits, List.forall_mem_nil _, cs.drop whole.length, ?_⟩
    rw [literalChars, List.append_nil]
    exact hcut

theorem ne_nil_of_numberParts {c : Char} {cs whole : List Char} {fraction? : Option (List Char)}
    (h : numberParts (c :: cs) = (whole, fraction?)) (hdigit : c.isDigit = true) : whole ≠ [] := by
  rintro rfl
  simp [numberParts, hdigit] at h
  split at h <;> simp at h

/-- A word spells the truth value, the keyword or the name that it is. -/
theorem spells_of_isWord {c : Char} {cs : List Char} (hword : IsWord c cs) :
    Spells (c :: cs) (wordToken (String.ofList (c :: cs))) := by
  have hchars {text : String} (htext : text = String.ofList (c :: cs)) : c :: cs = text.toList := by
    rw [htext, String.toList_ofList]
  generalize htoken : wordToken (String.ofList (c :: cs)) = token
  have hname := htoken
  simp only [wordToken, beq_iff_eq] at htoken
  split at htoken
  · next htrue =>
    rw [← htoken, hchars htrue.symm]
    exact .boolean true
  · split at htoken
    · next hfalse =>
      rw [← htoken, hchars hfalse.symm]
      exact .boolean false
    · split at htoken
      · next word hfound =>
        have htext : word.text = String.ofList (c :: cs) := Keyword.text_of_ofText? hfound
        rw [← htoken, hchars htext]
        exact .keyword word
      · rw [← htoken] at hname ⊢
        exact .identifier hword hname

/-- **What is read as a token spells it.** -/
theorem spells_of_scanToken {c : Char} {cs : List Char} {token : Token} {n : Nat}
    (h : scanToken c cs = (.ok token, n)) : Spells ((c :: cs).take n) token := by
  simp only [scanToken] at h
  split at h
  · next hquote =>
    split at h
    · next value length hbody =>
      cases h
      obtain ⟨body, rest, more, rfl, rfl, rfl, hunescapes⟩ := unescapes_of_stringBody hbody
      have hspan : (c :: (body ++ '"' :: rest)).take (1 + (body.length + 1)) = '"' :: (body ++ ['"']) := by
        rw [beq_iff_eq.mp hquote, Nat.add_comm 1, List.take_succ_cons, List.take_length_add_append]
        rfl
      rw [hspan]
      exact .string hunescapes
    · cases h
  · split at h
    · next hdigit =>
      split at h
      · next hfinite =>
        cases hparts : numberParts (c :: cs) with
        | mk whole fraction? =>
            rw [hparts] at h hfinite
            cases h
            obtain ⟨hwhole, hfraction, rest, hsplit⟩ := numberParts_spec hparts
            have hne := ne_nil_of_numberParts hparts hdigit
            rw [hsplit, ← length_literalChars, List.take_left]
            exact .number hne hwhole hfraction rfl hfinite
      · cases h
    · split at h
      · next hstart =>
        cases h
        rw [nameLengthFrom_eq_add, Nat.add_comm, List.take_succ_cons]
        exact spells_of_isWord (isWord_take cs hstart)
      · split at h
        · next mark hmark =>
          cases h
          rw [← Punctuation.char_of_ofChar? hmark]
          exact .punctuation mark
        · split at h
          · split at h
            · next op hop =>
              cases h
              have htext : op.text = String.ofList ((c :: cs).takeWhile isOperatorChar) :=
                Operator.text_of_ofText? hop
              have hchars : (c :: cs).take ((c :: cs).takeWhile isOperatorChar).length = op.text.toList := by
                rw [← List.prefix_iff_eq_take.mp (List.takeWhile_prefix _), htext, String.toList_ofList]
              rw [hchars]
              exact .operator (List.mem_of_find?_eq_some hop)
            · cases h
          · cases h

/-! ### A spelling is read back -/

theorem stringBody_of_unescapes {body value : List Char} (h : Unescapes body value) (done rest : List Char)
    (n : Nat) : stringBody false done n (body ++ '"' :: rest) = some (done.reverse ++ value, n + (body.length + 1)) := by
  induction h generalizing done n with
  | nil => simp [stringBody]
  | plain hslash hquote _ ih =>
      simp [stringBody, hslash, hquote, ih]
      omega
  | escaped c _ ih =>
      simp [stringBody, ih]
      omega

/-- **A spelling with a gap behind it is read as its token**, and all of it is used up. -/
theorem Spells.scanToken {span : List Char} {token : Token} (h : Spells span token) :
    ∃ c cs, span = c :: cs ∧ isGapStart c = false ∧ ∀ rest, AtGap rest →
      LambdaScript.scanToken c (cs ++ rest) = (.ok token, cs.length + 1) := by
  cases h with
  | number hne hwhole hfraction hvalue hfinite =>
      obtain ⟨c, cs, hchars, hdigit, hscan⟩ := scanToken_digits hne hwhole hfraction hvalue hfinite
      exact ⟨c, cs, hchars, not_isGapStart_of_isDigit hdigit, hscan⟩
  | @string body value hbody =>
      refine ⟨'"', body ++ ['"'], rfl, rfl, fun rest _ => ?_⟩
      have hread := stringBody_of_unescapes hbody [] rest 1
      have happend : body ++ ['"'] ++ rest = body ++ '"' :: rest := by simp
      simp only [LambdaScript.scanToken, happend, hread]
      simp
      omega
  | boolean value => exact (Token.Readable.boolean value).standsAlone
  | keyword word => exact (Token.Readable.keyword word).standsAlone
  | identifier hword hname =>
      have halone := (Token.Readable.identifier hword hname).standsAlone
      simp only [Token.StandsAlone, Token.lexeme, String.toList_ofList] at halone
      exact halone
  | punctuation mark =>
      have halone := (Token.Readable.punctuation mark).standsAlone
      simp only [Token.StandsAlone, Token.lexeme, Punctuation.text, String.toList_singleton] at halone
      exact halone
  | operator hop => exact (Token.Readable.operator hop).standsAlone

theorem Spells.ne_nil {span : List Char} {token : Token} (h : Spells span token) : span ≠ [] := by
  obtain ⟨c, cs, rfl, -, -⟩ := h.scanToken
  exact List.cons_ne_nil c cs

end LambdaScript
