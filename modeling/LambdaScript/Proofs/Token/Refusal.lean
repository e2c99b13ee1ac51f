import LambdaScript.Proofs.Number.Overflow
import LambdaScript.Proofs.Token.Spacing

/-!
Where reading fails. What lies behind a token has no say in it but for a few characters, so a text that is cut off
before the first lexeme that is no token is read to its end, as the tokens that reading the whole text delivers. The
fault is reported at that lexeme; only a string without an end is reported where the text ends, and its message names
the place where the string starts.
-/

namespace LambdaScript

-- powers are the built-in ones, whatever other powers of naturals are in scope
attribute [local instance(high)] instPowNat

/-! ### What is no token -/

/-- What a text begins with if its first lexeme is no token, and what is wrong with that lexeme. -/
inductive Refused : List Char → LexicalFault → Prop where
  /-- A backslash takes every quote behind the opening one, so none ends the string. -/
  | unterminatedString {body : List Char}
      (hopen : ∀ inside rest value, body = inside ++ '"' :: rest → ¬Unescapes inside value) :
      Refused ('"' :: body) .unterminatedString
  /-- The value is half a step or more above the greatest number. -/
  | numberOutOfRange {whole rest : List Char} {fraction? : Option (List Char)} (hne : whole ≠ [])
      (hwhole : ∀ c ∈ whole, c.isDigit = true) (hfraction : ∀ c ∈ fraction?.getD [], c.isDigit = true)
      (hends : NumberEnds fraction? rest)
      (hlarge : Magnitude.overflow * 10 ^ (fraction?.getD []).length ≤ digitsValue (whole ++ fraction?.getD [])) :
      Refused (literalChars whole fraction? ++ rest) .numberOutOfRange
  | unknownOperator {run rest : List Char} (hne : run ≠ []) (hrun : ∀ c ∈ run, isOperatorChar c = true)
      (hends : ∀ c ∈ rest.head?, isOperatorChar c = false)
      (hunknown : ∀ op ∈ Operator.known, op.text ≠ String.ofList run) :
      Refused (run ++ rest) (.unknownOperator (String.ofList run))
  | strayCharacter {c : Char} {rest : List Char} (hgap : isGapStart c = false) (hquote : c ≠ '"')
      (hdigit : c.isDigit = false) (hname : isNameStart c = false) (hmark : ∀ mark : Punctuation, mark.char ≠ c)
      (hop : isOperatorChar c = false) : Refused (c :: rest) (.strayCharacter c)

theorem Refused.of_numberParts {c : Char} {cs whole : List Char} {fraction? : Option (List Char)}
    (hparts : numberParts (c :: cs) = (whole, fraction?)) (hdigit : c.isDigit = true)
    (hinfinite : ¬(Magnitude.ofDecimal (digitsValue (whole ++ fraction?.getD []))
      (fraction?.getD []).length).isFinite = true) : Refused (c :: cs) .numberOutOfRange := by
  obtain ⟨hwhole, hfraction, rest, hsplit⟩ := numberParts_spec hparts
  have hne := ne_nil_of_numberParts hparts hdigit
  rw [hsplit] at hparts ⊢
  refine .numberOutOfRange hne hwhole hfraction ((numberParts_literalChars_iff hwhole hfraction).mp hparts) ?_
  exact Nat.le_of_not_lt fun hbelow => hinfinite (Magnitude.ofDecimal_isFinite_iff.mpr hbelow)

/-- Behind the run of characters of one class that a text begins with there is none. -/
theorem ends_dropWhile (p : Char → Bool) (cs : List Char) : ∀ c ∈ (cs.dropWhile p).head?, p c = false := by
  intro c hc
  have hnot := List.head?_dropWhile_not p cs
  rwa [hc] at hnot

theorem Refused.of_operatorRun {c : Char} {cs : List Char} (hop : isOperatorChar c = true)
    (hunknown : Operator.ofText? (String.ofList ((c :: cs).takeWhile isOperatorChar)) = none) :
    Refused (c :: cs) (.unknownOperator (String.ofList ((c :: cs).takeWhile isOperatorChar))) := by
  have hends := ends_dropWhile isOperatorChar (c :: cs)
  have hne : (c :: cs).takeWhile isOperatorChar ≠ [] := by simp [hop]
  have hrun : ∀ d ∈ (c :: cs).takeWhile isOperatorChar, isOperatorChar d = true :=
    List.all_eq_true.mp List.all_takeWhile
  have hsplit : c :: cs = (c :: cs).takeWhile isOperatorChar ++ (c :: cs).dropWhile isOperatorChar :=
    List.takeWhile_append_dropWhile.symm
  rw [Operator.ofText?, List.find?_eq_none] at hunknown
  generalize (c :: cs).takeWhile isOperatorChar = run at *
  rw [hsplit]
  exact .unknownOperator hne hrun hends fun op hmem htext => hunknown op hmem (beq_iff_eq.mpr htext)

/-- A lexeme that is not read as a token is none, and for a string without an end the whole text is looked at. -/
theorem refused_of_scanToken {c : Char} {cs : List Char} {lexical : LexicalFault} {n : Nat}
    (h : scanToken c cs = (.error lexical, n)) (hgap : isGapStart c = false) :
    Refused (c :: cs) lexical ∧ (lexical = .unterminatedString → n = (c :: cs).length) := by
  simp only [scanToken] at h
  split at h
  · next hquote =>
    split at h
    · cases h
    · next hbody =>
      cases h
      rw [beq_iff_eq.mp hquote]
      refine ⟨.unterminatedString fun inside rest value hsplit hinside => ?_, fun _ => rfl⟩
      rw [hsplit, stringBody_of_unescapes hinside] at hbody
      cases hbody
  · next hquote =>
    split at h
    · next hdigit =>
      split at h
      · cases h
      · next hinfinite =>
        rw [Prod.mk.injEq, Except.error.injEq] at h
        obtain ⟨rfl, -⟩ := h
        exact ⟨.of_numberParts rfl hdigit hinfinite, LexicalFault.noConfusion⟩
    · next hdigit =>
      split at h
      · cases h
      · next hname =>
        split at h
        · cases h
        · next hmark =>
          split at h
          · next hop =>
            split at h
            · cases h
            · next hunknown =>
              cases h
              exact ⟨.of_operatorRun hop hunknown, LexicalFault.noConfusion⟩
          · next hop =>
            cases h
            refine ⟨.strayCharacter hgap ?_ ?_ ?_ ?_ ?_, LexicalFault.noConfusion⟩
            · simpa using hquote
            · simpa using hdigit
            · simpa using hname
            · rintro mark rfl
              rw [Punctuation.ofChar?_char] at hmark
              cases hmark
            · simpa using hop

/-! ### A text cut off behind a token -/

variable {cs ds : List Char}

/-- What a text begins with lies before a cut further on. -/
theorem exists_before_cut {span rest : List Char} (h : cs ++ ds = span ++ rest) (hn : span.length ≤ cs.length) :
    ∃ tail, cs = span ++ tail ∧ rest = tail ++ ds := by
  have hspan : span <+: cs ++ ds := h ▸ List.prefix_append span rest
  obtain ⟨tail, rfl⟩ := List.prefix_of_prefix_length_le hspan (List.prefix_append cs ds) hn
  rw [List.append_assoc] at h
  exact ⟨tail, rfl, (List.append_cancel_left h).symm⟩

/-- A string that ends before the cut is the same without what is behind it. -/
theorem stringBody_cut {value : List Char} {n : Nat} (h : stringBody false [] 1 (cs ++ ds) = some (value, n))
    (hn : n ≤ cs.length + 1) : stringBody false [] 1 cs = some (value, n) := by
  obtain ⟨body, rest, more, hsplit, rfl, rfl, hbody⟩ := unescapes_of_stringBody h
  rw [if_neg Bool.false_ne_true] at hbody
  rw [List.append_cons] at hsplit
  have hle : (body ++ ['"']).length ≤ cs.length := by
    rw [List.length_append, List.length_singleton]
    omega
  obtain ⟨tail, rfl, -⟩ := exists_before_cut hsplit hle
  rw [List.append_assoc]
  exact stringBody_of_unescapes hbody [] tail 1

/-- A number that ends before the cut is the same without what is behind it. -/
theorem numberParts_cut {whole : List Char} {fraction? : Option (List Char)}
    (h : numberParts (cs ++ ds) = (whole, fraction?)) (hn : (literalChars whole fraction?).length ≤ cs.length) :
    numberParts cs = (whole, fraction?) := by
  obtain ⟨hwhole, hfraction, rest, hsplit⟩ := numberParts_spec h
  obtain ⟨tail, rfl, rfl⟩ := exists_before_cut hsplit hn
  rw [List.append_assoc, numberParts_literalChars_iff hwhole hfraction] at h
  exact (numberParts_literalChars_iff hwhole hfraction).mpr fun c hc => h c (List.mem_head?_append_of_mem_head? hc)

theorem joinsOn_append_of_joinsOn (h : joinsOn cs = true) : joinsOn (cs ++ ds) = true := by
  obtain ⟨run, c, rest, rfl, hrun, hstart⟩ := joinsOn_iff.mp h
  exact joinsOn_iff.mpr ⟨run, c, rest ++ ds, List.append_assoc .., hrun, hstart⟩

/-- A name that ends before the cut is the same without what is behind it. -/
theorem nameLengthFrom_cut (h : nameLengthFrom 0 (cs ++ ds) ≤ cs.length) :
    nameLengthFrom 0 cs = nameLengthFrom 0 (cs ++ ds) := by
  induction cs with
  | nil => exact (Nat.le_zero.mp h).symm
  | cons c cs ih =>
      rw [List.cons_append] at h ⊢
      by_cases hpart : (isNamePart c || (isJoiner c && joinsOn (cs ++ ds))) = true
      · rw [nameLengthFrom_cons_of_part hpart] at h ⊢
        have hlength := Nat.le_of_succ_le_succ h
        -- the run of joiners leads on within the name, which lies before the cut
        have hjoins : joinsOn (cs ++ ds) = true → joinsOn cs = true := by
          intro hjoins
          have hcut := joinsOn_take_append (cs.drop (nameLengthFrom 0 (cs ++ ds))) hjoins
          rwa [List.take_append_of_le_length hlength, List.take_append_drop] at hcut
        rw [nameLengthFrom_cons_of_part, ih hlength]
        simp only [Bool.or_eq_true, Bool.and_eq_true] at hpart ⊢
        exact hpart.imp_right (And.imp_right hjoins)
      · rw [nameLengthFrom_cons_of_not_part hpart, nameLengthFrom_cons_of_not_part]
        intro hshort
        apply hpart
        simp only [Bool.or_eq_true, Bool.and_eq_true] at hshort ⊢
        exact hshort.imp_right (And.imp_right joinsOn_append_of_joinsOn)

/-- A run of characters of one class that ends before the cut is the same without what is behind it. -/
theorem takeWhile_cut {p : Char → Bool} (hn : ((cs ++ ds).takeWhile p).length ≤ cs.length) :
    cs.takeWhile p = (cs ++ ds).takeWhile p := by
  have hrun : ∀ c ∈ (cs ++ ds).takeWhile p, p c = true := List.all_eq_true.mp List.all_takeWhile
  have hsplit : cs ++ ds = (cs ++ ds).takeWhile p ++ (cs ++ ds).dropWhile p := List.takeWhile_append_dropWhile.symm
  obtain ⟨tail, hcs, hrest⟩ := exists_before_cut hsplit hn
  conv_lhs => rw [hcs]
  refine (takeWhile_append_eq_iff hrun).mpr fun c hc => ends_dropWhile p (cs ++ ds) c ?_
  rw [hrest]
  exact List.mem_head?_append_of_mem_head? hc

/-- **A token that ends before the cut** is read without what is behind it. -/
theorem scanToken_cut {c : Char} {token : Token} {n : Nat} (h : scanToken c (cs ++ ds) = (.ok token, n))
    (hn : n ≤ (c :: cs).length) : scanToken c cs = (.ok token, n) := by
  simp only [scanToken] at h ⊢
  rw [← List.cons_append] at h
  split at h
  · next hquote =>
    rw [if_pos hquote]
    split at h
    · next value m hbody =>
      obtain ⟨-, rfl⟩ := Prod.mk.inj h
      rw [stringBody_cut hbody hn]
      exact h
    · cases h
  · next hquote =>
    rw [if_neg hquote]
    split at h
    · next hdigit =>
      rw [if_pos hdigit]
      rcases hparts : numberParts (c :: cs ++ ds) with ⟨whole, fraction?⟩
      rw [hparts] at h
      rw [← (Prod.mk.inj h).2, ← length_literalChars] at hn
      rw [numberParts_cut hparts hn]
      exact h
    · next hdigit =>
      rw [if_neg hdigit]
      split at h
      · next hname =>
        rw [if_pos hname]
        rw [← (Prod.mk.inj h).2] at hn
        have hcut : nameLengthFrom 0 (cs ++ ds) ≤ cs.length := by
          rw [nameLengthFrom_eq_add, List.length_cons] at hn
          omega
        rw [nameLengthFrom_eq_add 1 cs, nameLengthFrom_cut hcut, ← nameLengthFrom_eq_add,
          ← List.take_append_of_le_length hn]
        exact h
      · next hname =>
        rw [if_neg hname]
        split at h
        · exact h
        · split at h
          · next hop =>
            rw [if_pos hop]
            have hrun : ((c :: cs ++ ds).takeWhile isOperatorChar).length ≤ (c :: cs).length := by
              split at h
              · exact (Prod.mk.inj h).2 ▸ hn
              · cases h
            rw [takeWhile_cut hrun]
            exact h
          · cases h

/-! ### Reading up to the fault -/

/-- What stands behind a gap does not go on with it. -/
theorem not_isGapStart_behind_gap {inComment : Bool} {c : Char}
    (h : cs.drop (gapLengthFrom inComment 0 cs) = c :: ds) : isGapStart c = false := by
  induction cs generalizing inComment with
  | nil => cases h
  | cons d cs ih =>
      rw [gapLengthFrom] at h
      split at h
      · rw [gapLengthFrom_eq_add, Nat.zero_add, Nat.add_comm, List.drop_succ_cons] at h
        exact ih h
      · split at h
        · rw [gapLengthFrom_eq_add, Nat.zero_add, Nat.add_comm, List.drop_succ_cons] at h
          exact ih h
        · next hspace =>
          split at h
          · rw [gapLengthFrom_eq_add, Nat.zero_add, Nat.add_comm, List.drop_succ_cons] at h
            exact ih h
          · next hhash =>
            obtain ⟨rfl, -⟩ := List.cons.inj h
            rw [isGapStart, Bool.or_eq_false_iff]
            exact ⟨eq_false_of_ne_true hspace, eq_false_of_ne_true hhash⟩

namespace Cursor

theorem not_isGapStart_of_skipGap {cursor : Cursor} {c : Char} (h : cursor.skipGap.rest = c :: cs) :
    isGapStart c = false := by
  rw [skipGap, rest_advance] at h
  exact not_isGapStart_behind_gap h

/-- Where reading faults, a lexeme that is no token stands behind a gap. -/
theorem exists_refused {cursor after : Cursor} {fault : Fault} (h : cursor.readToken = (.error fault, after)) :
    ∃ gap es lexical, cursor.rest = gap ++ es ∧ IsGap false gap ∧ Refused es lexical ∧
      fault = lexical.toFault (cursor.pos.afterAll gap) (cursor.pos.afterAll cursor.rest) := by
  obtain ⟨gap, hsplit, hpos, hgap⟩ := cursor.rest_skipGap_append
  obtain ⟨c, cs, lexical, n, hstart, hscan, rfl, rfl⟩ := scanToken_of_readToken_error h
  obtain ⟨hrefused, hwhole⟩ := refused_of_scanToken hscan (not_isGapStart_of_skipGap hstart)
  rw [hstart] at hgap hsplit
  refine ⟨gap, c :: cs, lexical, hsplit, hgap, hrefused, ?_⟩
  cases lexical with
  | unterminatedString =>
      rw [pos_advance, hstart, hwhole rfl, List.take_length, hpos, hsplit, Position.afterAll_append]
  | numberOutOfRange | unknownOperator | strayCharacter => rw [hpos]; rfl

/-- A token is read in the same way if the text is cut off somewhere behind it. -/
theorem readToken_cut {cursor after : Cursor} {placed : PlacedToken} {es : List Char}
    (h : cursor.readToken = (.ok (some placed), after)) (hafter : after.rest = ds ++ es) :
    ∃ chars, cursor.rest = chars ++ after.rest ∧ after.pos = cursor.pos.afterAll chars ∧
      ∀ other : Cursor, other.rest = chars ++ ds → other.pos = cursor.pos →
        ∃ next : Cursor, other.readToken = (.ok (some placed), next) ∧ next.rest = ds ∧ next.pos = after.pos := by
  obtain ⟨gap, hsplit, hpos, hgap⟩ := cursor.rest_skipGap_append
  obtain ⟨c, cs, token, n, hstart, hscan, rfl, rfl⟩ := scanToken_of_readToken h
  have hbehind := not_isGapStart_of_skipGap hstart
  rw [hstart] at hgap hsplit
  obtain ⟨m, rfl⟩ := Nat.exists_eq_add_of_le' (scanToken_pos hscan)
  have hlength : (cs.take m).length = m := by
    have hle := length_le_of_scanToken hscan
    rw [List.length_cons] at hle
    rw [List.length_take, Nat.min_eq_left (Nat.le_of_succ_le_succ hle)]
  have hcs : cs = cs.take m ++ (ds ++ es) := by
    rw [← hafter, rest_advance, hstart, List.drop_succ_cons, List.take_append_drop]
  have hpassed : (advance (m + 1) cursor.skipGap).pos = cursor.pos.afterAll (gap ++ c :: cs.take m) := by
    rw [pos_advance, hpos, hstart, List.take_succ_cons, Position.afterAll_append]
  refine ⟨gap ++ c :: cs.take m, ?_, hpassed, fun other hrest hplace => ?_⟩
  · rw [hafter, List.append_assoc, List.cons_append, ← hcs, hsplit]
  · rw [List.append_assoc, List.cons_append] at hrest
    have hskip := skipGap_of_isGap hgap hbehind hrest
    have hskipped : other.skipGap.rest = c :: (cs.take m ++ ds) := by
      rw [hskip, rest_advance, hrest, List.drop_left]
    have hsame : other.skipGap.pos = cursor.skipGap.pos := by
      rw [hskip, pos_advance, hrest, List.take_left, hplace, hpos]
    have hwhole : scanToken c (cs.take m ++ ds ++ es) = (.ok token, m + 1) := by
      rw [List.append_assoc, ← hcs, hscan]
    have hcut : m + 1 ≤ (c :: (cs.take m ++ ds)).length := by
      rw [List.length_cons, List.length_append, hlength]
      omega
    refine ⟨_, hsame ▸ readToken_of_scanToken hskipped (scanToken_cut hwhole hcut), ?_, ?_⟩
    · rw [rest_advance, hskipped, List.drop_succ_cons, List.drop_left' hlength]
    · rw [pos_advance, pos_advance, hskipped, hstart, List.take_succ_cons, List.take_succ_cons,
        List.take_left' hlength, hsame]

/-- **Reading up to the fault.** What is delivered before a fault is what is delivered without one if the text is cut
off at the lexeme that is no token. -/
theorem delivery_refused {cursor : Cursor} {tokens : List PlacedToken} {fault : Fault}
    (h : cursor.delivery = ⟨tokens, some fault⟩) :
    ∃ ds es lexical, cursor.rest = ds ++ es ∧ Refused es lexical ∧
      fault = lexical.toFault (cursor.pos.afterAll ds) (cursor.pos.afterAll cursor.rest) ∧
      ∀ other : Cursor, other.rest = ds → other.pos = cursor.pos → other.delivery = ⟨tokens, none⟩ := by
  fun_induction Cursor.delivery cursor generalizing tokens with
  | case1 cursor placed after hread _ ih =>
      obtain ⟨rest, hrest, rfl⟩ := Delivery.exists_rest_of_behind h
      obtain ⟨ds, es, lexical, hafter, hrefused, hfault, hother⟩ := ih hrest
      obtain ⟨chars, hsplit, hpos, hcut⟩ := readToken_cut hread hafter
      refine ⟨chars ++ ds, es, lexical, ?_, hrefused, ?_, fun other hds hplace => ?_⟩
      · rw [hsplit, hafter, List.append_assoc]
      · rw [hfault, hpos, hsplit, Position.afterAll_append, Position.afterAll_append]
      · obtain ⟨next, hnext, hnextRest, hnextPos⟩ := hcut other hds hplace
        rw [delivery_of_token hnext, hother next hnextRest hnextPos]
        rfl
  | case2 cursor after hread => cases h
  | case3 cursor fault after hread =>
      cases h
      obtain ⟨gap, es, lexical, hsplit, hgap, hrefused, hfault⟩ := exists_refused hread
      refine ⟨gap, es, lexical, hsplit, hrefused, hfault, fun other hrest _ => ?_⟩
      have hlast : IsGap true other.rest := hrest ▸ hgap.last
      exact delivery_of_end (readToken_of_skipGap_nil (rest_skipGap_of_isGap_last hlast))

end Cursor

namespace TokenStream

/-- A stream that is asked for token after token delivers some and then faults. -/
inductive FaultsBehind : TokenStream → List PlacedToken → Fault → Prop where
  | fault {stream after : TokenStream} {fault : Fault} (hnext : stream.next = (.error fault, after)) :
      FaultsBehind stream [] fault
  | token {stream after : TokenStream} {token : PlacedToken} {tokens : List PlacedToken} {fault : Fault}
      (hnext : stream.next = (.ok (some token), after)) (hrest : FaultsBehind after tokens fault) :
      FaultsBehind stream (token :: tokens) fault

theorem faultsBehind_of_delivery {cursor : Cursor} {tokens : List PlacedToken} {fault : Fault}
    (h : cursor.delivery = ⟨tokens, some fault⟩) : FaultsBehind ⟨cursor, none⟩ tokens fault := by
  fun_induction Cursor.delivery cursor generalizing tokens with
  | case1 cursor placed after hread _ ih =>
      obtain ⟨rest, hrest, rfl⟩ := Delivery.exists_rest_of_behind h
      have hnext : next ⟨cursor, none⟩ = (.ok (some placed), ⟨after, none⟩) := by simp only [next, hread]
      exact .token hnext (ih hrest)
  | case2 cursor after hread => cases h
  | case3 cursor fault after hread =>
      cases h
      have hnext : next ⟨cursor, none⟩ = (.error fault, ⟨after, none⟩) := by simp only [next, hread]
      exact .fault hnext

end TokenStream

theorem message_unterminatedString (start stopped : Position) :
    (⟨.unterminatedString start, some stopped⟩ : Fault).message =
      "Unterminated string literal starting at " ++ start.text ++ " (" ++ stopped.text ++ ")" := by
  simp [Fault.message, Fault.render, Cause.pieces, renderPieces, Piece.render, paint]

/-- What a fault says of the lexeme that starts behind `i` characters of a text. A string without an end is reported
where the text ends, every other lexeme that is no token where it starts. -/
structure LocatesFault (text : String) (fault : Fault) (i : Nat) (lexical : LexicalFault)
    (tokens : List PlacedToken) : Prop where
  refused : Refused (text.toList.drop i) lexical
  before : tokenize (String.ofList (text.toList.take i)) = .ok tokens
  delivered : (TokenStream.ofText text).FaultsBehind tokens fault
  family : fault.cause.family = .parsing
  pos : lexical ≠ .unterminatedString → fault.pos = some (placeBehind (text.toList.take i))
  posString : lexical = .unterminatedString → fault.pos = some (placeBehind text.toList) ∧
    fault.message = "Unterminated string literal starting at " ++ (placeBehind (text.toList.take i)).text ++
      " (" ++ (placeBehind text.toList).text ++ ")"

/-- **Faults are located exactly.** Where a text cannot be read to its end there is a first lexeme that is no token. Cut
off before it the text is read to its end, as the tokens that are delivered before the fault, and the fault tells where
that lexeme starts. -/
theorem tokenize_fault_located {text : String} {fault : Fault} (h : tokenize text = .error fault) :
    ∃ i lexical tokens, LocatesFault text fault i lexical tokens := by
  obtain ⟨tokens, hdelivery⟩ : ∃ tokens, (Cursor.ofText text).delivery = ⟨tokens, some fault⟩ :=
    ⟨_, Delivery.result_eq_error.mp ((tokenize_eq text).symm.trans h)⟩
  obtain ⟨ds, es, lexical, hsplit, hrefused, hfault, hcut⟩ := Cursor.delivery_refused hdelivery
  have htake : text.toList.take ds.length = ds := by rw [show text.toList = ds ++ es from hsplit, List.take_left]
  have hdrop : text.toList.drop ds.length = es := by rw [show text.toList = ds ++ es from hsplit, List.drop_left]
  have hplace (cs : List Char) : (Cursor.ofText text).pos.afterAll cs = placeBehind cs :=
    (placeBehind_append [] cs).symm
  rw [hplace, hplace] at hfault
  refine ⟨ds.length, lexical, tokens, ?_⟩
  have hbefore : tokenize (String.ofList (text.toList.take ds.length)) = .ok tokens := by
    rw [tokenize_eq_ok, htake]
    exact hcut _ String.toList_ofList rfl
  have hdelivered := TokenStream.faultsBehind_of_delivery hdelivery
  rw [← hdrop] at hrefused
  rw [← htake] at hfault
  cases lexical with
  | unterminatedString =>
      refine ⟨hrefused, hbefore, hdelivered, hfault ▸ rfl, fun hother => absurd rfl hother, fun _ => ?_⟩
      rw [hfault]
      exact ⟨rfl, message_unterminatedString _ _⟩
  | numberOutOfRange | unknownOperator | strayCharacter =>
      exact ⟨hrefused, hbefore, hdelivered, hfault ▸ rfl, fun _ => hfault ▸ rfl, LexicalFault.noConfusion⟩

/-- A name that joiners stand right behind, and a string whose only other quote is escaped. -/
theorem tokenize_fault_located_string :
    tokenize "n-\n \"a\\\"" = .error ⟨.unterminatedString ⟨2, 1⟩, some ⟨2, 5⟩⟩ ∧
      ∃ i lexical tokens,
        LocatesFault "n-\n \"a\\\"" ⟨.unterminatedString ⟨2, 1⟩, some ⟨2, 5⟩⟩ i lexical tokens := by
  have hread : tokenize "n-\n \"a\\\"" = .error ⟨.unterminatedString ⟨2, 1⟩, some ⟨2, 5⟩⟩ := by decide +kernel
  exact ⟨hread, tokenize_fault_located hread⟩

end LambdaScript
