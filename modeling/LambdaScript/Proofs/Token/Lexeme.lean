import LambdaScript.Proofs.Number.ReadBack

/-!
Lexemes that stand alone. The written form of a token that can be read, with a gap or nothing behind it, is
read as that token, and all of the form is used up: a string ends with its closing quote, a number with its
last digit, a name where no name goes on, and an operator with its last character. Every token that is read at
all is one whose written form has this property, whatever spelling it was read from.
-/

namespace LambdaScript

/-! ### What ends a lexeme -/

/-- A character that ends every lexeme but a string: one that spaces out, or the start of a comment. -/
def isGapStart (c : Char) : Bool := isSpace c || c == '#'

/-- A text that is empty or starts with a gap. -/
def AtGap : List Char → Prop
  | [] => True
  | c :: _ => isGapStart c = true

theorem isGapStart_cases {c : Char} (h : isGapStart c = true) :
    c = ' ' ∨ c = '\t' ∨ c = '\r' ∨ c = '\n' ∨ c = '#' := by
  simp only [isGapStart, isSpace, Bool.or_eq_true, beq_iff_eq] at h
  rcases h with (((h | h) | h) | h) | h <;> simp [h]

theorem not_isNamePart_of_isGapStart {c : Char} (h : isGapStart c = true) : isNamePart c = false := by
  rcases isGapStart_cases h with rfl | rfl | rfl | rfl | rfl <;> decide

theorem not_isJoiner_of_isGapStart {c : Char} (h : isGapStart c = true) : isJoiner c = false := by
  rcases isGapStart_cases h with rfl | rfl | rfl | rfl | rfl <;> decide

theorem not_isOperatorChar_of_isGapStart {c : Char} (h : isGapStart c = true) : isOperatorChar c = false := by
  rcases isGapStart_cases h with rfl | rfl | rfl | rfl | rfl <;> decide

theorem not_isDigit_of_isGapStart {c : Char} (h : isGapStart c = true) : c.isDigit = false := by
  rcases isGapStart_cases h with rfl | rfl | rfl | rfl | rfl <;> decide

theorem AtGap.isGapStart {rest : List Char} (h : AtGap rest) : ∀ c ∈ rest.head?, LambdaScript.isGapStart c = true := by
  intro c hc
  cases rest with
  | nil => cases hc
  | cons d rest =>
      cases hc
      exact h

/-- A run of characters of one class is all of them that a text starts with if none is next. -/
theorem takeWhile_append_eq_iff {p : Char → Bool} {run rest : List Char} (hrun : ∀ c ∈ run, p c = true) :
    (run ++ rest).takeWhile p = run ↔ ∀ c ∈ rest.head?, p c = false := by
  rw [List.takeWhile_append_of_pos hrun, List.append_right_eq_self]
  cases rest with
  | nil => simp
  | cons c rest => cases hc : p c <;> simp [hc]

/-- A run of characters of one class that a text starts with ends at a gap outside the class. -/
theorem takeWhile_append_of_atGap {p : Char → Bool} (hp : ∀ {c}, isGapStart c = true → p c = false)
    {cs rest : List Char} (hcs : ∀ c ∈ cs, p c = true) (hrest : AtGap rest) :
    (cs ++ rest).takeWhile p = cs :=
  (takeWhile_append_eq_iff hcs).mpr fun c hc => hp (hrest.isGapStart c hc)

/-! ### Names -/

theorem isNamePart_of_isNameStart {c : Char} (h : isNameStart c = true) : isNamePart c = true := by
  simp only [isNameStart, Bool.or_eq_true] at h
  rcases h with hletter | hunderscore
  · simp [isNamePart, Text.isAlphanumeric_of_isLetter hletter]
  · simp [isNamePart, hunderscore]

/-- A name counted on from a later start is longer by the difference. -/
theorem nameLengthFrom_eq_add (n : Nat) (cs : List Char) : nameLengthFrom n cs = n + nameLengthFrom 0 cs := by
  induction cs generalizing n with
  | nil => rfl
  | cons c cs ih =>
      rw [nameLengthFrom, nameLengthFrom]
      split
      · rw [ih (n + 1), ih (0 + 1)]
        omega
      · rfl

theorem nameLengthFrom_cons_of_part {c : Char} {cs : List Char}
    (h : (isNamePart c || (isJoiner c && joinsOn cs)) = true) :
    nameLengthFrom 0 (c :: cs) = nameLengthFrom 0 cs + 1 := by
  rw [nameLengthFrom, if_pos h, nameLengthFrom_eq_add, Nat.add_comm]

theorem nameLengthFrom_cons_of_not_part {c : Char} {cs : List Char}
    (h : ¬ (isNamePart c || (isJoiner c && joinsOn cs)) = true) : nameLengthFrom 0 (c :: cs) = 0 := by
  rw [nameLengthFrom, if_neg h]

theorem nameLengthFrom_atGap {rest : List Char} (hrest : AtGap rest) : nameLengthFrom 0 rest = 0 := by
  cases rest with
  | nil => rfl
  | cons c rest =>
      apply nameLengthFrom_cons_of_not_part
      simp [not_isNamePart_of_isGapStart hrest, not_isJoiner_of_isGapStart hrest]

theorem joinsOn_cons_of_isJoiner {c : Char} (cs : List Char) (h : isJoiner c = true) :
    joinsOn (c :: cs) = joinsOn cs := by
  simp [joinsOn, h]

theorem joinsOn_cons_of_not_isJoiner {c : Char} (cs : List Char) (h : isJoiner c = false) :
    joinsOn (c :: cs) = isNameStart c := by
  simp [joinsOn, h]

theorem not_isNamePart_of_isJoiner {c : Char} (h : isJoiner c = true) : isNamePart c = false := by
  simp only [isJoiner, Bool.or_eq_true, beq_iff_eq] at h
  rcases h with ((rfl | rfl) | rfl) | rfl <;> decide

theorem not_isJoiner_of_isNameStart {c : Char} (h : isNameStart c = true) : isJoiner c = false := by
  cases hjoiner : isJoiner c with
  | false => rfl
  | true =>
      have hpart := isNamePart_of_isNameStart h
      rw [not_isNamePart_of_isJoiner hjoiner] at hpart
      cases hpart

/-- A text joins a name on if it is a run of joiners, perhaps an empty one, with a name start behind it. -/
theorem joinsOn_iff {cs : List Char} : joinsOn cs = true ↔
    ∃ run c rest, cs = run ++ c :: rest ∧ (∀ j ∈ run, isJoiner j = true) ∧ isNameStart c = true := by
  constructor
  · intro h
    rw [joinsOn] at h
    cases hbehind : cs.dropWhile isJoiner with
    | nil =>
        rw [hbehind] at h
        cases h
    | cons c rest =>
        rw [hbehind] at h
        refine ⟨cs.takeWhile isJoiner, c, rest, ?_, List.all_eq_true.mp List.all_takeWhile, h⟩
        rw [← hbehind, List.takeWhile_append_dropWhile]
  · rintro ⟨run, c, rest, rfl, hrun, hstart⟩
    have hstop : (run ++ c :: rest).dropWhile isJoiner = c :: rest := by
      rw [List.dropWhile_append_of_pos hrun, List.dropWhile_cons_of_neg]
      rw [not_isJoiner_of_isNameStart hstart]
      exact Bool.false_ne_true
    rw [joinsOn, hstop]
    exact hstart

/-- A run of joiners that leads on to a name start lies in the name up to there, so cutting the text behind
the name does not change where the run leads. -/
theorem joinsOn_take_append {cs : List Char} (rest : List Char) (h : joinsOn cs = true) :
    joinsOn (cs.take (nameLengthFrom 0 cs) ++ rest) = true := by
  induction cs with
  | nil => cases h
  | cons c cs ih =>
      cases hjoiner : isJoiner c with
      | true =>
          rw [joinsOn_cons_of_isJoiner cs hjoiner] at h
          have hpart : (isNamePart c || (isJoiner c && joinsOn cs)) = true := by simp [hjoiner, h]
          rw [nameLengthFrom_cons_of_part hpart, List.take_succ_cons, List.cons_append,
            joinsOn_cons_of_isJoiner _ hjoiner]
          exact ih h
      | false =>
          rw [joinsOn_cons_of_not_isJoiner cs hjoiner] at h
          have hpart : (isNamePart c || (isJoiner c && joinsOn cs)) = true := by
            simp [isNamePart_of_isNameStart h]
          rw [nameLengthFrom_cons_of_part hpart, List.take_succ_cons, List.cons_append,
            joinsOn_cons_of_not_isJoiner _ hjoiner]
          exact h

/-- **A name that is cut out of its text is as long as before**, whatever gap follows it now. -/
theorem nameLengthFrom_take_append (cs : List Char) {rest : List Char} (hrest : AtGap rest) :
    nameLengthFrom 0 (cs.take (nameLengthFrom 0 cs) ++ rest) = nameLengthFrom 0 cs := by
  induction cs with
  | nil => exact nameLengthFrom_atGap hrest
  | cons c cs ih =>
      by_cases hpart : (isNamePart c || (isJoiner c && joinsOn cs)) = true
      · rw [nameLengthFrom_cons_of_part hpart, List.take_succ_cons, List.cons_append,
          nameLengthFrom_cons_of_part, ih]
        simp only [Bool.or_eq_true, Bool.and_eq_true] at hpart ⊢
        rcases hpart with hname | ⟨hjoiner, hjoins⟩
        · exact Or.inl hname
        · exact Or.inr ⟨hjoiner, joinsOn_take_append rest hjoins⟩
      · rw [nameLengthFrom_cons_of_not_part hpart]
        exact nameLengthFrom_atGap hrest

theorem nameLengthFrom_le_length (cs : List Char) : nameLengthFrom 0 cs ≤ cs.length := by
  induction cs with
  | nil => exact Nat.le_refl 0
  | cons c cs ih =>
      by_cases hpart : (isNamePart c || (isJoiner c && joinsOn cs)) = true
      · rw [nameLengthFrom_cons_of_part hpart, List.length_cons]
        omega
      · rw [nameLengthFrom_cons_of_not_part hpart]
        omega

/-- A text that is a name or a word from its start to its end. -/
def IsWord (c : Char) (cs : List Char) : Prop :=
  isNameStart c = true ∧ nameLengthFrom 0 cs = cs.length

/-- What is read as a name is a name by itself. -/
theorem isWord_take {c : Char} (cs : List Char) (hc : isNameStart c = true) :
    IsWord c (cs.take (nameLengthFrom 0 cs)) := by
  refine ⟨hc, ?_⟩
  have hcut := nameLengthFrom_take_append cs (show AtGap [] from trivial)
  rw [List.append_nil] at hcut
  rw [hcut, List.length_take, Nat.min_eq_left (nameLengthFrom_le_length cs)]

theorem ne_quote_of_isNameStart {c : Char} (h : isNameStart c = true) : (c == '"') = false := by
  cases hquote : c == '"' with
  | false => rfl
  | true =>
      rw [beq_iff_eq.mp hquote] at h
      exact absurd h (by decide)

theorem lt_toNat_of_isAlpha {c : Char} (h : c.isAlpha = true) : 57 < c.toNat := by
  rcases (Bool.or_eq_true _ _).mp h with hupper | hlower
  · have hbounds : 'A'.val ≤ c.val ∧ c.val ≤ 'Z'.val := of_decide_eq_true hupper
    exact Nat.lt_of_lt_of_le (by decide) (UInt32.le_iff_toNat_le.mp hbounds.1)
  · have hbound : 'a'.val ≤ c.val := of_decide_eq_true ((Bool.and_eq_true _ _).mp hlower).1
    exact Nat.lt_of_lt_of_le (by decide) (UInt32.le_iff_toNat_le.mp hbound)

theorem toNat_le_of_isDigit {c : Char} (h : c.isDigit = true) : c.toNat ≤ 57 := by
  have hbound : c.val ≤ '9'.val := of_decide_eq_true ((Bool.and_eq_true _ _).mp h).2
  exact UInt32.le_iff_toNat_le.mp hbound

theorem not_isDigit_of_isNameStart {c : Char} (h : isNameStart c = true) : c.isDigit = false := by
  have hbound : 57 < c.toNat := by
    simp only [isNameStart, Text.isLetter, Bool.or_eq_true, Bool.and_eq_true, decide_eq_true_eq, beq_iff_eq] at h
    rcases h with (halpha | hother) | hunderscore
    · exact lt_toNat_of_isAlpha halpha
    · omega
    · rw [hunderscore]
      decide
  cases hdigit : c.isDigit with
  | false => rfl
  | true => exact absurd (toNat_le_of_isDigit hdigit) (Nat.not_le_of_lt hbound)

/-- Where a name starts, what is read is a word. -/
theorem scanToken_name {c : Char} (cs : List Char) (hstart : isNameStart c = true) :
    scanToken c cs =
      (.ok (wordToken (String.ofList (c :: cs.take (nameLengthFrom 0 cs)))), nameLengthFrom 0 cs + 1) := by
  have htotal : nameLengthFrom 1 cs = nameLengthFrom 0 cs + 1 := by rw [nameLengthFrom_eq_add, Nat.add_comm]
  simp only [scanToken, ne_quote_of_isNameStart hstart, not_isDigit_of_isNameStart hstart, hstart, htotal,
    List.take_succ_cons]
  rfl

/-- A word with a gap behind it is read as a whole. -/
theorem scanToken_word {c : Char} {cs rest : List Char} (hword : IsWord c cs) (hrest : AtGap rest) :
    scanToken c (cs ++ rest) = (.ok (wordToken (String.ofList (c :: cs))), cs.length + 1) := by
  obtain ⟨hstart, hlength⟩ := hword
  have hcut := nameLengthFrom_take_append cs hrest
  rw [hlength, List.take_length] at hcut
  rw [scanToken_name (cs ++ rest) hstart, hcut, List.take_left]

/-! ### Strings -/

/-- A string between its quotes, with every quote and backslash escaped, is read back. -/
theorem stringBody_escapeChars (value done rest : List Char) (n : Nat) :
    stringBody false done n (escapeChars value ++ '"' :: rest) =
      some (done.reverse ++ value, n + (escapeChars value).length + 1) := by
  induction value generalizing done n with
  | nil => simp [escapeChars, stringBody]
  | cons c value ih =>
      have hcons : escapeChars (c :: value) =
          (if c = '\\' ∨ c = '"' then ['\\', c] else [c]) ++ escapeChars value := rfl
      rw [hcons]
      by_cases hescaped : c = '\\' ∨ c = '"'
      · rw [if_pos hescaped]
        simp [stringBody, ih]
        omega
      · rw [if_neg hescaped]
        have hslash : (c == '\\') = false := by simpa using fun h => hescaped (Or.inl h)
        have hquote : (c == '"') = false := by simpa using fun h => hescaped (Or.inr h)
        simp [stringBody, ih, hslash, hquote]
        omega

/-! ### Numbers -/

/-- What a number literal ends before: no digit, and no point if it has none yet. -/
def NumberEnds (fraction? : Option (List Char)) (rest : List Char) : Prop :=
  ∀ c ∈ rest.head?, c.isDigit = false ∧ (fraction? = none → c ≠ '.')

/-- The parts of a number literal are its own exactly if it ends where they do. -/
theorem numberParts_literalChars_iff {whole rest : List Char} {fraction? : Option (List Char)}
    (hwhole : ∀ c ∈ whole, c.isDigit = true) (hfraction : ∀ c ∈ fraction?.getD [], c.isDigit = true) :
    numberParts (literalChars whole fraction? ++ rest) = (whole, fraction?) ↔ NumberEnds fraction? rest := by
  cases fraction? with
  | none =>
      rw [literalChars, List.append_nil]
      by_cases htake : (whole ++ rest).takeWhile Char.isDigit = whole
      · have hdigits := (takeWhile_append_eq_iff hwhole).mp htake
        rw [numberParts, htake, List.drop_left]
        cases rest with
        | nil => simp [NumberEnds]
        | cons c rest =>
            have hdigit := hdigits c rfl
            by_cases hpoint : c = '.'
            · simp [NumberEnds, hpoint]
            · simp [NumberEnds, hpoint, hdigit]
      · refine iff_of_false (fun hparts => htake ?_) fun hends =>
          htake ((takeWhile_append_eq_iff hwhole).mpr fun c hc => (hends c hc).1)
        rw [numberParts] at hparts
        split at hparts <;> exact (Prod.mk.inj hparts).1
  | some fraction =>
      rw [Option.getD_some] at hfraction
      have htake : (whole ++ '.' :: (fraction ++ rest)).takeWhile Char.isDigit = whole := by
        rw [takeWhile_append_eq_iff hwhole]
        simp
      have hends : NumberEnds (some fraction) rest ↔ ∀ c ∈ rest.head?, c.isDigit = false := by simp [NumberEnds]
      rw [hends, ← takeWhile_append_eq_iff hfraction, literalChars, List.append_assoc, List.cons_append, numberParts,
        htake, List.drop_left]
      simp

/-- The parts of a number literal with a gap behind it are its own. -/
theorem numberParts_literalChars {whole rest : List Char} {fraction? : Option (List Char)}
    (hwhole : ∀ c ∈ whole, c.isDigit = true) (hfraction : ∀ c ∈ fraction?.getD [], c.isDigit = true)
    (hrest : AtGap rest) : numberParts (literalChars whole fraction? ++ rest) = (whole, fraction?) := by
  refine (numberParts_literalChars_iff hwhole hfraction).mpr fun c hc => ?_
  have hgap := hrest.isGapStart c hc
  refine ⟨not_isDigit_of_isGapStart hgap, fun _ hpoint => ?_⟩
  rw [hpoint] at hgap
  cases hgap

theorem ne_quote_of_isDigit {c : Char} (h : c.isDigit = true) : (c == '"') = false := by
  cases hquote : c == '"' with
  | false => rfl
  | true =>
      rw [beq_iff_eq.mp hquote] at h
      exact absurd h (by decide)

/-- A number literal with a gap behind it is read as its value. -/
theorem scanToken_digits {whole : List Char} {fraction? : Option (List Char)} {m : Magnitude} (hne : whole ≠ [])
    (hwhole : ∀ c ∈ whole, c.isDigit = true) (hfraction : ∀ c ∈ fraction?.getD [], c.isDigit = true)
    (hvalue : Magnitude.ofDecimal (digitsValue (whole ++ fraction?.getD [])) (fraction?.getD []).length = m)
    (hm : m.isFinite = true) :
    ∃ c cs, literalChars whole fraction? = c :: cs ∧ c.isDigit = true ∧ ∀ rest, AtGap rest →
      scanToken c (cs ++ rest) = (.ok (.number (.signed false m)), cs.length + 1) := by
  obtain ⟨c, digits, rfl⟩ := List.exists_cons_of_ne_nil hne
  have hdigit : c.isDigit = true := hwhole c List.mem_cons_self
  refine ⟨c, (literalChars (c :: digits) fraction?).tail, rfl, hdigit, fun rest hrest => ?_⟩
  have hcons : c :: ((literalChars (c :: digits) fraction?).tail ++ rest) =
      literalChars (c :: digits) fraction? ++ rest := rfl
  have hnumber : Binary64.ofDecimal false (digitsValue (c :: digits ++ fraction?.getD []))
      (fraction?.getD []).length = .signed false m := by rw [Binary64.ofDecimal, hvalue]
  simp only [scanToken, ne_quote_of_isDigit hdigit, hdigit, hcons,
    numberParts_literalChars hwhole hfraction hrest, hnumber, Binary64.isFinite, hm]
  cases fraction? with
  | none => simp [literalChars]
  | some fraction =>
      simp [literalChars]
      omega

/-- The written form of a finite magnitude with a gap behind it is read as that number. -/
theorem scanToken_literal {m : Magnitude} (hm : m.isFinite = true) :
    ∃ c cs, m.literal.toList = c :: cs ∧ c.isDigit = true ∧ ∀ rest, AtGap rest →
      scanToken c (cs ++ rest) = (.ok (.number (.signed false m)), cs.length + 1) := by
  obtain ⟨whole, fraction?, hchars, hne, hwhole, hfraction, hback⟩ := Magnitude.literal_reads_back hm
  rw [hchars]
  exact scanToken_digits hne hwhole hfraction hback hm

/-! ### Marks and operators -/

theorem scanToken_mark (mark : Punctuation) (rest : List Char) :
    scanToken mark.char rest = (.ok (.punctuation mark), 1) := by
  cases mark <;> rfl

/-- An operator character is of no other class. -/
theorem classes_of_isOperatorChar {c : Char} (hc : isOperatorChar c = true) :
    (c == '"') = false ∧ c.isDigit = false ∧ isNameStart c = false ∧ Punctuation.ofChar? c = none ∧
      isGapStart c = false := by
  simp only [isOperatorChar, List.contains_eq_mem, decide_eq_true_eq] at hc
  simp at hc
  rcases hc with rfl | rfl | rfl | rfl | rfl | rfl | rfl | rfl | rfl | rfl | rfl <;> decide

/-- An operator with a gap behind it is read as a whole. -/
theorem scanToken_operator {op : Operator} (hop : op ∈ Operator.known) :
    ∃ c cs, op.text.toList = c :: cs ∧ isGapStart c = false ∧ ∀ rest, AtGap rest →
      scanToken c (cs ++ rest) = (.ok (.operator op), cs.length + 1) := by
  have hchars : ∀ c ∈ op.text.toList, isOperatorChar c = true := by
    rw [← List.all_eq_true]
    simp only [Operator.known, List.mem_cons, List.not_mem_nil, or_false] at hop
    rcases hop with rfl | rfl | rfl | rfl | rfl | rfl | rfl | rfl | rfl | rfl | rfl | rfl | rfl | rfl <;> decide
  have hne : op.text.toList ≠ [] := by
    simp only [Operator.known, List.mem_cons, List.not_mem_nil, or_false] at hop
    rcases hop with rfl | rfl | rfl | rfl | rfl | rfl | rfl | rfl | rfl | rfl | rfl | rfl | rfl | rfl <;> decide
  obtain ⟨c, cs, hcs⟩ := List.exists_cons_of_ne_nil hne
  have hc : isOperatorChar c = true := hchars c (by rw [hcs]; exact List.mem_cons_self)
  obtain ⟨hquote, hdigit, hstart, hmark, hgap⟩ := classes_of_isOperatorChar hc
  refine ⟨c, cs, hcs, hgap, fun rest hrest => ?_⟩
  have hrun : (c :: (cs ++ rest)).takeWhile isOperatorChar = op.text.toList := by
    rw [← List.cons_append, ← hcs]
    exact takeWhile_append_of_atGap not_isOperatorChar_of_isGapStart hchars hrest
  simp only [scanToken, hquote, hdigit, hstart, hmark, hc, hrun, String.ofList_toList,
    Operator.ofText?_text_of_mem hop]
  simp [hcs]

/-! ### Tokens -/

/-- The tokens that source text has: finite numbers without a sign, names that are words but neither truth
values nor keywords, the known operators, and every string, truth value, keyword and mark. -/
inductive Token.Readable : Token → Prop where
  | number {m : Magnitude} (hm : m.isFinite = true) : Readable (.number (.signed false m))
  | string (value : String) : Readable (.string value)
  | boolean (value : Bool) : Readable (.boolean value)
  | keyword (word : Keyword) : Readable (.keyword word)
  | identifier {c : Char} {cs : List Char} (hword : IsWord c cs)
      (hname : wordToken (String.ofList (c :: cs)) = .identifier (String.ofList (c :: cs))) :
      Readable (.identifier (String.ofList (c :: cs)))
  | punctuation (mark : Punctuation) : Readable (.punctuation mark)
  | operator {op : Operator} (hop : op ∈ Operator.known) : Readable (.operator op)

/-- The words that are no names, and what they are. -/
def reservedWords : List (String × Token) :=
  [("true", .boolean true), ("false", .boolean false), ("if", .keyword .ifWord), ("then", .keyword .thenWord),
    ("else", .keyword .elseWord), ("lambda", .keyword .lambdaWord), ("λ", .keyword .lambdaSign),
    ("let", .keyword .letWord)]

/-- Keywords and truth values are words that stand for themselves. -/
theorem reserved_isWord {text : String} {token : Token} (h : (text, token) ∈ reservedWords) :
    ∃ c cs, text.toList = c :: cs ∧ IsWord c cs ∧ wordToken (String.ofList (c :: cs)) = token := by
  simp only [reservedWords, List.mem_cons, List.not_mem_nil, or_false, Prod.mk.injEq] at h
  rcases h with ⟨rfl, rfl⟩ | ⟨rfl, rfl⟩ | ⟨rfl, rfl⟩ | ⟨rfl, rfl⟩ |
    ⟨rfl, rfl⟩ | ⟨rfl, rfl⟩ | ⟨rfl, rfl⟩ | ⟨rfl, rfl⟩
  all_goals exact ⟨_, _, rfl, ⟨by decide, by decide⟩, by decide⟩

/-- Every word that is not reserved is a name. -/
theorem wordToken_eq_lookup (text : String) : wordToken text = (reservedWords.lookup text).getD (.identifier text) := by
  by_cases hreserved : text ∈ reservedWords.map Prod.fst
  · simp only [reservedWords, List.map_cons, List.map_nil, List.mem_cons, List.not_mem_nil, or_false] at hreserved
    rcases hreserved with rfl | rfl | rfl | rfl | rfl | rfl | rfl | rfl <;> decide
  · simp only [reservedWords, List.map_cons, List.map_nil, List.mem_cons, List.not_mem_nil, or_false, not_or]
      at hreserved
    obtain ⟨htrue, hfalse, hif, hthen, helse, hlambda, hsign, hlet⟩ := hreserved
    have hkeyword : Keyword.ofText? text = none := by
      simp [Keyword.ofText?, Keyword.text, Ne.symm hif, Ne.symm hthen, Ne.symm helse, Ne.symm hlambda,
        Ne.symm hsign, Ne.symm hlet]
    simp [wordToken, hkeyword, reservedWords, List.lookup_cons, beq_eq_false_iff_ne.mpr, htrue, hfalse, hif, hthen,
      helse, hlambda, hsign, hlet]

theorem not_isGapStart_of_isNamePart {c : Char} (h : isNamePart c = true) : isGapStart c = false := by
  cases hgap : isGapStart c with
  | false => rfl
  | true => rw [not_isNamePart_of_isGapStart hgap] at h; cases h

theorem not_isGapStart_of_isDigit {c : Char} (h : c.isDigit = true) : isGapStart c = false := by
  cases hgap : isGapStart c with
  | false => rfl
  | true => rw [not_isDigit_of_isGapStart hgap] at h; cases h

/-- The written form of a token starts outside every gap and is read as the token, up to a gap behind it. -/
def Token.StandsAlone (token : Token) : Prop :=
  ∃ c cs, token.lexeme.toList = c :: cs ∧ isGapStart c = false ∧ ∀ rest, AtGap rest →
    scanToken c (cs ++ rest) = (.ok token, cs.length + 1)

theorem standsAlone_of_isWord {token : Token} {c : Char} {cs : List Char}
    (hchars : token.lexeme.toList = c :: cs)
    (hword : IsWord c cs) (htoken : wordToken (String.ofList (c :: cs)) = token) : token.StandsAlone := by
  refine ⟨c, cs, hchars, not_isGapStart_of_isNamePart (isNamePart_of_isNameStart hword.1), fun rest hrest => ?_⟩
  rw [scanToken_word hword hrest, htoken]

/-- **A readable token is read back** from its written form. -/
theorem Token.Readable.standsAlone {token : Token} (h : token.Readable) : token.StandsAlone := by
  cases h with
  | @number m hm =>
      obtain ⟨c, cs, hchars, hdigit, hscan⟩ := scanToken_literal hm
      refine ⟨c, cs, ?_, not_isGapStart_of_isDigit hdigit, hscan⟩
      simpa [Token.lexeme, Binary64.literal] using hchars
  | string value =>
      refine ⟨'"', escapeChars value.toList ++ ['"'], by simp [Token.lexeme, stringLiteral], rfl,
        fun rest hrest => ?_⟩
      have hbody := stringBody_escapeChars value.toList [] rest 1
      have happend : escapeChars value.toList ++ ['"'] ++ rest = escapeChars value.toList ++ '"' :: rest := by simp
      simp only [scanToken, happend, hbody]
      simp
      omega
  | boolean value =>
      obtain ⟨c, cs, hchars, hword, htoken⟩ :
          ∃ c cs, (booleanText value).toList = c :: cs ∧ IsWord c cs ∧
            wordToken (String.ofList (c :: cs)) = .boolean value := by
        cases value <;> exact reserved_isWord (by simp [booleanText, reservedWords])
      exact standsAlone_of_isWord hchars hword htoken
  | keyword word =>
      obtain ⟨c, cs, hchars, hword, htoken⟩ :
          ∃ c cs, word.text.toList = c :: cs ∧ IsWord c cs ∧
            wordToken (String.ofList (c :: cs)) = .keyword word := by
        cases word <;> exact reserved_isWord (by simp [Keyword.text, reservedWords])
      exact standsAlone_of_isWord hchars hword htoken
  | identifier hword hname => exact standsAlone_of_isWord (by simp [Token.lexeme]) hword hname
  | punctuation mark =>
      refine ⟨mark.char, [], by simp [Token.lexeme, Punctuation.text], ?_, fun rest _ => scanToken_mark mark rest⟩
      cases mark <;> rfl
  | operator hop => exact scanToken_operator hop

/-- A word is a truth value, a keyword, or else a name. -/
theorem wordToken_readable {c : Char} {cs : List Char} (hword : IsWord c cs) :
    (wordToken (String.ofList (c :: cs))).Readable := by
  generalize htoken : wordToken (String.ofList (c :: cs)) = token
  have hname := htoken
  simp only [wordToken] at htoken
  split at htoken
  · rw [← htoken]
    exact .boolean true
  · split at htoken
    · rw [← htoken]
      exact .boolean false
    · split at htoken
      · next word hword =>
        rw [← htoken]
        exact .keyword word
      · rw [← htoken] at hname ⊢
        exact .identifier hword hname

/-- **Every token that is read is readable.** -/
theorem readable_of_scanToken {c : Char} {cs : List Char} {token : Token} {n : Nat}
    (h : scanToken c cs = (.ok token, n)) : token.Readable := by
  simp only [scanToken] at h
  split at h
  · split at h
    · next value length hbody =>
      cases h
      exact .string _
    · cases h
  · split at h
    · split at h
      · next hfinite =>
        cases h
        exact .number hfinite
      · cases h
    · split at h
      · next hstart =>
        cases h
        rw [nameLengthFrom_eq_add, Nat.add_comm, List.take_succ_cons]
        exact wordToken_readable (isWord_take cs hstart)
      · split at h
        · next mark hmark =>
          cases h
          exact .punctuation mark
        · split at h
          · split at h
            · next op hop =>
              cases h
              exact .operator (List.mem_of_find?_eq_some hop)
            · cases h
          · cases h

end LambdaScript
