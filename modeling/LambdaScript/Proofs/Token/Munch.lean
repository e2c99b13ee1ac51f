import LambdaScript.Proofs.Token.Place
import LambdaScript.Proofs.Token.RoundTrip
import Mathlib.Computability.Language

/-!
Names by maximal munch. The words that are written like names form a regular language: a letter or an underscore,
and then name characters and runs of joiners, each of which leads on to a letter or an underscore. Where such a word
starts, reading takes the longest prefix of what is left that is in the language. A run of joiners is taken in as a
whole or not at all, and no other choice would have led further.
-/

namespace LambdaScript

open scoped Computability

/-! ### The language of names -/

/-- The words of one character of a class. -/
def oneOf (p : Char → Bool) : Language Char := {word | ∃ c, p c = true ∧ word = [c]}

/-- What a name goes on with: a name character, or some joiners and the name start that they lead on to. -/
def namePieces : Language Char := oneOf isNamePart + oneOf isJoiner * (oneOf isJoiner)∗ * oneOf isNameStart

/-- Names, and the reserved words, which are written like names. -/
def nameWords : Language Char := oneOf isNameStart * namePieces∗

/-- A prefix of some characters that is in a language, and none in the language is longer. -/
def IsLongestPrefix (language : Language Char) (cs word : List Char) : Prop :=
  word <+: cs ∧ word ∈ language ∧ ∀ other, other <+: cs → other ∈ language → other.length ≤ word.length

theorem mem_run_iff {p : Char → Bool} {run : List Char} :
    run ∈ oneOf p * (oneOf p)∗ ↔ run ≠ [] ∧ ∀ c ∈ run, p c = true := by
  rw [Language.mem_mul]
  constructor
  · rintro ⟨_, ⟨c, hc, rfl⟩, _, hstar, rfl⟩
    obtain ⟨pieces, rfl, hpieces⟩ := Language.mem_kstar.mp hstar
    refine ⟨List.cons_ne_nil _ _, fun d hd => ?_⟩
    rcases List.mem_cons.mp hd with rfl | hmem
    · exact hc
    · obtain ⟨piece, hpiece, hin⟩ := List.mem_flatten.mp hmem
      obtain ⟨e, he, rfl⟩ := hpieces piece hpiece
      exact List.mem_singleton.mp hin ▸ he
  · rintro ⟨hne, hrun⟩
    obtain ⟨c, cs, rfl⟩ := List.exists_cons_of_ne_nil hne
    have hcs : cs ∈ (oneOf p)∗ := by
      refine Language.mem_kstar.mpr ⟨cs.map ([·]), by rw [← List.flatMap_def, List.flatMap_singleton'], ?_⟩
      intro piece hpiece
      obtain ⟨d, hd, rfl⟩ := List.mem_map.mp hpiece
      exact ⟨d, hrun d (List.mem_cons_of_mem c hd), rfl⟩
    exact ⟨[c], ⟨c, hrun c List.mem_cons_self, rfl⟩, cs, hcs, rfl⟩

theorem append_mem_kstar {language : Language Char} {piece cs : List Char} (hpiece : piece ∈ language)
    (hcs : cs ∈ language∗) : piece ++ cs ∈ language∗ := by
  obtain ⟨pieces, rfl, hpieces⟩ := Language.mem_kstar.mp hcs
  exact Language.mem_kstar.mpr ⟨piece :: pieces, rfl, List.forall_mem_cons.mpr ⟨hpiece, hpieces⟩⟩

/-! ### The length that is read is that of the longest word -/

theorem nameLengthFrom_run {run : List Char} {c : Char} (hrun : ∀ j ∈ run, isJoiner j = true)
    (hstart : isNameStart c = true) (rest : List Char) :
    nameLengthFrom 0 (run ++ c :: rest) = (run ++ [c]).length + nameLengthFrom 0 rest := by
  induction run with
  | nil =>
      rw [List.nil_append, List.nil_append, nameLengthFrom_cons_of_part, Nat.add_comm, List.length_singleton]
      rw [isNamePart_of_isNameStart hstart, Bool.true_or]
  | cons j run ih =>
      have hrest : ∀ i ∈ run, isJoiner i = true := fun i hi => hrun i (List.mem_cons_of_mem j hi)
      have hjoins : joinsOn (run ++ c :: rest) = true := joinsOn_iff.mpr ⟨run, c, rest, rfl, hrest, hstart⟩
      rw [List.cons_append, nameLengthFrom_cons_of_part, ih hrest, List.cons_append, List.length_cons]
      · omega
      · rw [hrun j List.mem_cons_self, hjoins, Bool.and_true, Bool.or_true]

/-- A piece is taken in as a whole, whatever follows it. -/
theorem nameLengthFrom_piece {piece : List Char} (h : piece ∈ namePieces) (rest : List Char) :
    nameLengthFrom 0 (piece ++ rest) = piece.length + nameLengthFrom 0 rest := by
  rcases h with ⟨c, hpart, rfl⟩ | hjoined
  · rw [List.singleton_append, nameLengthFrom_cons_of_part (by rw [hpart, Bool.true_or]), Nat.add_comm]
    rfl
  · obtain ⟨run, hrun, _, ⟨c, hstart, rfl⟩, rfl⟩ := Language.mem_mul.mp hjoined
    rw [List.append_assoc, List.singleton_append]
    exact nameLengthFrom_run (mem_run_iff.mp hrun).2 hstart rest

theorem nameLengthFrom_pieces {cs : List Char} (h : cs ∈ namePieces∗) (rest : List Char) :
    nameLengthFrom 0 (cs ++ rest) = cs.length + nameLengthFrom 0 rest := by
  obtain ⟨pieces, rfl, hpieces⟩ := Language.mem_kstar.mp h
  clear h
  induction pieces with
  | nil => exact (Nat.zero_add _).symm
  | cons piece pieces ih =>
      obtain ⟨hfirst, hothers⟩ := List.forall_mem_cons.mp hpieces
      rw [List.flatten_cons, List.append_assoc, nameLengthFrom_piece hfirst, ih hothers, List.length_append,
        Nat.add_assoc]

/-- Where a name goes on, it goes on with a piece. -/
theorem exists_piece {c : Char} {cs : List Char} (h : (isNamePart c || (isJoiner c && joinsOn cs)) = true) :
    ∃ piece rest, c :: cs = piece ++ rest ∧ piece ∈ namePieces ∧ rest.length ≤ cs.length := by
  rcases (Bool.or_eq_true _ _).mp h with hpart | hjoins
  · exact ⟨[c], cs, rfl, Or.inl ⟨c, hpart, rfl⟩, Nat.le_refl _⟩
  · obtain ⟨hjoiner, hjoined⟩ := (Bool.and_eq_true _ _).mp hjoins
    obtain ⟨run, d, rest, rfl, hrun, hstart⟩ := joinsOn_iff.mp hjoined
    have hall : c :: run ∈ oneOf isJoiner * (oneOf isJoiner)∗ :=
      mem_run_iff.mpr ⟨List.cons_ne_nil c run, List.forall_mem_cons.mpr ⟨hjoiner, hrun⟩⟩
    refine ⟨c :: run ++ [d], rest, by simp, Or.inr (Language.append_mem_mul hall ⟨d, hstart, rfl⟩), ?_⟩
    rw [List.length_append, List.length_cons]
    omega

/-- What is read to its end as the rest of a name is a row of pieces. -/
theorem mem_pieces_of_nameLengthFrom {cs : List Char} (h : nameLengthFrom 0 cs = cs.length) : cs ∈ namePieces∗ := by
  -- a piece may be a whole run of joiners, so the induction is on the length
  induction hlength : cs.length using Nat.strong_induction_on generalizing cs with
  | _ n ih =>
    cases cs with
    | nil => exact Language.nil_mem_kstar _
    | cons c cs =>
        have hgoes : (isNamePart c || (isJoiner c && joinsOn cs)) = true := by
          by_contra hstops
          rw [nameLengthFrom_cons_of_not_part hstops] at h
          cases h
        obtain ⟨piece, rest, hsplit, hpiece, hle⟩ := exists_piece hgoes
        rw [List.length_cons] at hlength
        rw [hsplit, nameLengthFrom_piece hpiece, List.length_append, Nat.add_left_cancel_iff] at h
        rw [hsplit]
        exact append_mem_kstar hpiece (ih rest.length (by omega) h rfl)

/-- **Names are a regular language**: what is read as one word from its start to its end is a word of it. -/
theorem isWord_iff {c : Char} {cs : List Char} : IsWord c cs ↔ c :: cs ∈ nameWords := by
  constructor
  · rintro ⟨hstart, hlength⟩
    have hfirst : [c] ∈ oneOf isNameStart := ⟨c, hstart, rfl⟩
    exact Language.append_mem_mul hfirst (mem_pieces_of_nameLengthFrom hlength)
  · intro h
    obtain ⟨_, ⟨d, hstart, rfl⟩, pieces, hpieces, hword⟩ := Language.mem_mul.mp h
    obtain ⟨rfl, rfl⟩ := List.cons.inj hword
    have hlength := nameLengthFrom_pieces hpieces []
    rw [List.append_nil] at hlength
    exact ⟨hstart, hlength⟩

/-- No prefix of a text that is a word of the language is longer than what is read. -/
theorem length_le_of_mem_nameWords {c : Char} {cs other : List Char} (hcut : other <+: c :: cs)
    (h : other ∈ nameWords) : other.length ≤ nameLengthFrom 0 cs + 1 := by
  obtain ⟨rest, hsplit⟩ := hcut
  obtain ⟨_, ⟨d, -, rfl⟩, pieces, hpieces, rfl⟩ := Language.mem_mul.mp h
  have hrest : cs = pieces ++ rest := (List.cons.inj hsplit).2.symm
  rw [hrest, nameLengthFrom_pieces hpieces, List.length_append, List.length_singleton]
  omega

theorem isLongestPrefix_take {c : Char} (cs : List Char) (hstart : isNameStart c = true) :
    IsLongestPrefix nameWords (c :: cs) (c :: cs.take (nameLengthFrom 0 cs)) := by
  refine ⟨?_, isWord_iff.mp (isWord_take cs hstart), fun other hcut hother => ?_⟩
  · exact List.cons_prefix_cons.mpr ⟨rfl, List.take_prefix _ _⟩
  · rw [List.length_cons, List.length_take, Nat.min_eq_left (nameLengthFrom_le_length cs)]
    exact length_le_of_mem_nameWords hcut hother

/-! ### Joiners in a name -/

/-- The joiners in some characters lead on: the characters do not end with a joiner, and a letter or an underscore
stands behind every run of joiners in them. -/
def JoinersLeadOn (cs : List Char) : Prop :=
  (∀ j ∈ cs.getLast?, isJoiner j = false) ∧
    ∀ before run after, cs = before ++ run ++ after → run ≠ [] → (∀ j ∈ run, isJoiner j = true) →
      (∀ c ∈ after.head?, isJoiner c = false) → ∃ c rest, after = c :: rest ∧ isNameStart c = true

/-- Behind a joiner of a name the text joins on. -/
theorem joinsOn_of_nameLengthFrom {before rest : List Char} {j : Char}
    (h : nameLengthFrom 0 (before ++ j :: rest) = (before ++ j :: rest).length) (hj : isJoiner j = true) :
    joinsOn rest = true := by
  induction before with
  | nil =>
      rw [List.nil_append] at h
      by_contra hstops
      rw [nameLengthFrom_cons_of_not_part] at h
      · cases h
      · rw [not_isNamePart_of_isJoiner hj, Bool.false_or, Bool.and_eq_true]
        exact fun hjoins => hstops hjoins.2
  | cons c before ih =>
      rw [List.cons_append] at h
      by_cases hgoes : (isNamePart c || (isJoiner c && joinsOn (before ++ j :: rest))) = true
      · rw [nameLengthFrom_cons_of_part hgoes, List.length_cons, Nat.add_right_cancel_iff] at h
        exact ih h
      · rw [nameLengthFrom_cons_of_not_part hgoes] at h
        cases h

theorem IsWord.joinsOn_behind {c j : Char} {cs before rest : List Char} (h : IsWord c cs)
    (hsplit : c :: cs = before ++ j :: rest)
    (hj : isJoiner j = true) : joinsOn rest = true := by
  cases before with
  | nil =>
      obtain ⟨rfl, -⟩ := List.cons.inj hsplit
      rw [not_isJoiner_of_isNameStart h.1] at hj
      cases hj
  | cons d before =>
      obtain ⟨-, rfl⟩ := List.cons.inj hsplit
      exact joinsOn_of_nameLengthFrom h.2 hj

theorem IsWord.joinersLeadOn {c : Char} {cs : List Char} (h : IsWord c cs) : JoinersLeadOn (c :: cs) := by
  constructor
  · intro j hlast
    obtain ⟨before, hsplit⟩ := List.getLast?_eq_some_iff.mp hlast
    cases hj : isJoiner j with
    | false => rfl
    | true => cases h.joinsOn_behind hsplit hj
  · intro before run after hsplit hne hrun hafter
    -- behind the last joiner of the run the text joins on, and not with a joiner
    obtain ⟨init, j, rfl⟩ := (List.eq_nil_or_concat' run).resolve_left hne
    have hsplitLast : c :: cs = (before ++ init) ++ j :: after := by
      rw [hsplit]
      simp
    have hjoins := h.joinsOn_behind hsplitLast (hrun j (List.mem_append_right init List.mem_cons_self))
    cases after with
    | nil => cases hjoins
    | cons d rest =>
        rw [joinsOn_cons_of_not_isJoiner rest (hafter d rfl)] at hjoins
        exact ⟨d, rest, rfl, hjoins⟩

/-! ### Reading -/

/-- **Names are read by maximal munch.** Where a letter, a lambda sign or an underscore is next, the longest prefix of
what is left that is written like a name is read, and no more: it is the truth value or the keyword that is reserved
for it, or else the name. So no name among the tokens of a text is a reserved word, and the joiners in it lead on. -/
theorem readToken_longest_name :
    (∀ (cursor : Cursor) (c : Char) (cs : List Char), cursor.rest = c :: cs →
      Text.isLetter c = true ∨ c = 'λ' ∨ c = '_' →
      ∃ word, IsLongestPrefix nameWords cursor.rest word ∧
        cursor.readToken =
          (.ok (some ⟨(reservedWords.lookup (String.ofList word)).getD (.identifier (String.ofList word)), cursor.pos⟩),
            Cursor.advance word.length cursor)) ∧
    ∀ (text : String) (tokens : List PlacedToken), tokenize text = .ok tokens →
      ∀ (name : String) (pos : Position), ⟨.identifier name, pos⟩ ∈ tokens →
        reservedWords.lookup name = none ∧ JoinersLeadOn name.toList := by
  constructor
  · intro cursor c cs hrest hletter
    have hstart : isNameStart c = true := by
      rcases hletter with hletter | rfl | rfl
      · rw [isNameStart, hletter, Bool.true_or]
      · decide
      · decide
    refine ⟨c :: cs.take (nameLengthFrom 0 cs), hrest ▸ isLongestPrefix_take cs hstart, ?_⟩
    have hskip : cursor.skipGap = cursor := by
      rw [Cursor.skipGap, hrest, gapLength_cons_of_not_isGapStart cs
        (not_isGapStart_of_isNamePart (isNamePart_of_isNameStart hstart))]
      rfl
    have hskipped : cursor.skipGap.rest = c :: cs := by rw [hskip, hrest]
    rw [Cursor.readToken_of_scanToken hskipped (scanToken_name cs hstart), hskip, wordToken_eq_lookup,
      List.length_cons, List.length_take, Nat.min_eq_left (nameLengthFrom_le_length cs)]
  · intro text tokens htokens name pos hmem
    have hreadable : (Token.identifier name).Readable := (isIn_of_mem_tokenize htokens _ hmem).1
    cases hreadable with
    | @identifier c cs hword hname =>
      rw [String.toList_ofList]
      refine ⟨?_, hword.joinersLeadOn⟩
      cases hlookup : reservedWords.lookup (String.ofList (c :: cs)) with
      | none => rfl
      | some token =>
          -- no reserved word stands for a name
          rw [wordToken_eq_lookup, hlookup, Option.getD_some] at hname
          obtain ⟨before, after, htable, -⟩ := List.lookup_eq_some_iff.mp hlookup
          have hentry : (String.ofList (c :: cs), token) ∈ reservedWords := by
            rw [htable]
            exact List.mem_append_right before List.mem_cons_self
          rw [hname] at hentry
          simp [reservedWords] at hentry

/-- A run of joiners before a letter is taken in and one before a digit is not. -/
theorem readToken_longest_name_joined :
    IsLongestPrefix nameWords "n->m-1".toList "n->m".toList ∧
      tokenize "n->m-1" = .ok [⟨.identifier "n->m", ⟨1, 0⟩⟩, ⟨.operator .subtract, ⟨1, 4⟩⟩,
        ⟨.number (.ofDecimal false 1 0), ⟨1, 5⟩⟩] ∧
      reservedWords.lookup "n->m" = none ∧ JoinersLeadOn "n->m".toList := by
  have htokens : tokenize "n->m-1" = .ok [⟨.identifier "n->m", ⟨1, 0⟩⟩, ⟨.operator .subtract, ⟨1, 4⟩⟩,
      ⟨.number (.ofDecimal false 1 0), ⟨1, 5⟩⟩] := by decide +kernel
  have hname := readToken_longest_name.2 "n->m-1" _ htokens "n->m" ⟨1, 0⟩ List.mem_cons_self
  obtain ⟨word, hlongest, hread⟩ :=
    readToken_longest_name.1 (.ofText "n->m-1") 'n' "->m-1".toList rfl (Or.inl (by decide))
  -- two characters are left behind the word
  have hlength : word.length = 4 := by
    have hleft : (Cursor.ofText "n->m-1").readToken.2.rest = "-1".toList := by decide +kernel
    rw [hread, Cursor.rest_advance] at hleft
    have hcount := congrArg List.length hleft
    rw [List.length_drop] at hcount
    have hsix : (Cursor.ofText "n->m-1").rest.length = 6 := rfl
    have htwo : "-1".toList.length = 2 := rfl
    have hle := hlongest.1.length_le
    omega
  have hword : word = "n->m".toList := by
    rw [List.prefix_iff_eq_take.mp hlongest.1, hlength]
    rfl
  exact ⟨hword ▸ hlongest, htokens, hname⟩

end LambdaScript
