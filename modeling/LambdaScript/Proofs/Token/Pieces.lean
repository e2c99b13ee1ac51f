import LambdaScript.Proofs.Token.Seam

/-!
Texts in pieces. A piece of a text gives its tokens wherever it stands, as long as a lexeme may end behind it. A
written form is put together from lexemes, marks and single blanks, and what it gives is put together in the same way.
-/

namespace LambdaScript

/-- Reading some characters, wherever they stand, gives tokens that satisfy `P`, if a lexeme may end behind them. -/
def ReadsAs (cs : List Char) (P : List PlacedToken → Prop) : Prop :=
  ∀ (cursor : Cursor) (rest : List Char), cursor.rest = cs ++ rest → AtCut rest →
    ∃ (tokens : List PlacedToken) (after : Cursor), P tokens ∧ after.rest = rest ∧
      cursor.delivery = after.delivery.behind tokens

namespace ReadsAs

variable {cs ds : List Char} {P Q : List PlacedToken → Prop}

theorem mono (h : ReadsAs cs P) (himp : ∀ tokens, P tokens → Q tokens) : ReadsAs cs Q := by
  intro cursor rest hrest hcut
  obtain ⟨tokens, after, htokens, hafter, hdelivery⟩ := h cursor rest hrest hcut
  exact ⟨tokens, after, himp tokens htokens, hafter, hdelivery⟩

theorem nil : ReadsAs [] (· = []) := fun cursor _ hrest _ => ⟨[], cursor, rfl, hrest, rfl⟩

/-- Two pieces behind each other, if a lexeme may end where the second one starts. -/
theorem append (hcs : ReadsAs cs P) (hds : ReadsAs ds Q) (hcut : ∀ rest, AtCut rest → AtCut (ds ++ rest)) :
    ReadsAs (cs ++ ds) fun tokens => ∃ ts us, P ts ∧ Q us ∧ tokens = ts ++ us := by
  intro cursor rest hrest hend
  rw [List.append_assoc] at hrest
  obtain ⟨ts, between, hts, hbetween, hfirst⟩ := hcs cursor (ds ++ rest) hrest (hcut rest hend)
  obtain ⟨us, after, hus, hafter, hsecond⟩ := hds between rest hbetween hend
  refine ⟨ts ++ us, after, ⟨ts, us, hts, hus, rfl⟩, hafter, ?_⟩
  rw [hfirst, hsecond, Delivery.behind_behind]

/-- A readable token's written form gives the token. -/
theorem token {token : Token} (h : token.Readable) :
    ReadsAs token.lexeme.toList fun tokens => ∃ pos, tokens = [⟨token, pos⟩] := by
  intro cursor rest hrest hcut
  obtain ⟨c, cs, hchars, hstart, hscan⟩ := h.standsAlone
  rw [hchars, List.cons_append] at hrest
  have halone := scanToken_append (hscan [] trivial) hcut
  rw [List.append_nil] at halone
  have hskip : cursor.skipGap.rest = c :: (cs ++ rest) := by
    rw [Cursor.skipGap, Cursor.rest_advance, hrest, gapLength_cons_of_not_isGapStart _ hstart, List.drop_zero]
  obtain ⟨after, hafter, hdelivery⟩ := Cursor.delivery_of_scanToken hskip halone
  exact ⟨_, after, ⟨_, rfl⟩, hafter, hdelivery⟩

/-- A mark goes before any piece. -/
theorem mark (mark : Punctuation) (h : ReadsAs cs P) :
    ReadsAs (mark.char :: cs) fun tokens => ∃ pos ts, P ts ∧ tokens = ⟨.punctuation mark, pos⟩ :: ts := by
  intro cursor rest hrest hcut
  have hstart : isGapStart mark.char = false := by cases mark <;> rfl
  have hskip : cursor.skipGap.rest = mark.char :: ([] ++ (cs ++ rest)) := by
    rw [Cursor.skipGap, Cursor.rest_advance, hrest, List.cons_append, gapLength_cons_of_not_isGapStart _ hstart]
    rfl
  obtain ⟨between, hbetween, hfirst⟩ := Cursor.delivery_of_scanToken hskip (scanToken_mark mark _)
  obtain ⟨ts, after, hts, hafter, hsecond⟩ := h between rest hbetween hcut
  refine ⟨⟨.punctuation mark, cursor.skipGap.pos⟩ :: ts, after, ⟨_, ts, hts, rfl⟩, hafter, ?_⟩
  rw [hfirst, hsecond, Delivery.behind_behind]
  rfl

/-- A blank before a piece is skipped. -/
theorem blank (h : ReadsAs cs P) : ReadsAs (' ' :: cs) P := by
  intro cursor rest hrest hcut
  have hbehind : (Cursor.advance 1 cursor).rest = cs ++ rest := by
    rw [Cursor.rest_advance, hrest]
    rfl
  obtain ⟨ts, after, hts, hafter, hdelivery⟩ := h (Cursor.advance 1 cursor) rest hbehind hcut
  refine ⟨ts, after, hts, hafter, ?_⟩
  rw [← hdelivery]
  refine Cursor.delivery_congr ?_
  have hgap : gapLength (' ' :: (cs ++ rest)) = 1 + gapLength (cs ++ rest) := gapLengthFrom_eq_add false 1 _
  have hskip : cursor.skipGap = (Cursor.advance 1 cursor).skipGap := by
    rw [Cursor.skipGap, Cursor.skipGap, hbehind, ← Cursor.advance_add, ← hgap, hrest, List.cons_append]
  simp only [Cursor.readToken, hskip]

/-- A keyword or an operator before a blank and a piece. -/
theorem word {token : Token} (htoken : token.Readable) (h : ReadsAs cs P) :
    ReadsAs (token.lexeme.toList ++ ' ' :: cs) fun tokens => ∃ pos ts, P ts ∧ tokens = ⟨token, pos⟩ :: ts := by
  refine ((ReadsAs.token htoken).append h.blank fun _ _ => rfl).mono ?_
  rintro _ ⟨_, ts, ⟨pos, rfl⟩, hts, rfl⟩
  exact ⟨pos, ts, hts, rfl⟩

/-- Two pieces with a keyword or an operator between them, and blanks around that. -/
theorem append_word {token : Token} (hcs : ReadsAs cs P) (htoken : token.Readable) (hds : ReadsAs ds Q) :
    ReadsAs (cs ++ ' ' :: (token.lexeme.toList ++ ' ' :: ds)) fun tokens =>
      ∃ ts pos us, P ts ∧ Q us ∧ tokens = ts ++ ⟨token, pos⟩ :: us := by
  refine (hcs.append (hds.word htoken).blank fun _ _ => rfl).mono ?_
  rintro _ ⟨ts, _, hts, ⟨pos, us, hus, rfl⟩, rfl⟩
  exact ⟨ts, pos, us, hts, hus, rfl⟩

/-- Two pieces with a mark between them. -/
theorem append_mark (hcs : ReadsAs cs P) (mark : Punctuation) (hds : ReadsAs ds Q) :
    ReadsAs (cs ++ mark.char :: ds) fun tokens =>
      ∃ ts pos us, P ts ∧ Q us ∧ tokens = ts ++ ⟨.punctuation mark, pos⟩ :: us := by
  refine (hcs.append (.mark mark hds) fun _ _ => ?_).mono ?_
  · cases mark <;> rfl
  · rintro _ ⟨ts, _, hts, ⟨pos, us, hus, rfl⟩, rfl⟩
    exact ⟨ts, pos, us, hts, hus, rfl⟩

/-- A text that is one piece is read as what that gives. -/
theorem tokenize {text : String} (h : ReadsAs text.toList P) : ∃ tokens, P tokens ∧
    LambdaScript.tokenize text = .ok tokens := by
  obtain ⟨tokens, after, htokens, hafter, hdelivery⟩ :=
    h (.ofText text) [] (List.append_nil _).symm trivial
  refine ⟨tokens, htokens, tokenize_eq_ok.mpr ?_⟩
  rw [hdelivery, Cursor.delivery_of_end (Cursor.readToken_of_rest_nil hafter), Delivery.behind, List.append_nil]

end ReadsAs

end LambdaScript
