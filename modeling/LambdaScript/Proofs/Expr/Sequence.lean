import LambdaScript.Proofs.Eval.Leads
import LambdaScript.Proofs.Expr.Displaced
import LambdaScript.Proofs.Expr.Parse
import LambdaScript.Proofs.Token.Seam

/-!
Programs one after the other. A semicolon between two texts ends whatever expression the first one ends with, so the
loop of a program that reads both comes to the semicolon with the expressions of the first text, and goes on from
there as it would at the start of the second.
-/

namespace LambdaScript

namespace Parser

variable {ρ : Position → Position → Prop}

/-- A mark that comes next is taken away. -/
theorem skipPunctuation_of_mark {stream : TokenStream} {mark : Punctuation} {token : PlacedToken}
    {tokens : List PlacedToken} (hmark : token.token = .punctuation mark)
    (h : stream.delivery = ⟨token :: tokens, none⟩) :
    ∃ after : TokenStream, skipPunctuation mark.text stream = .ok () after ∧ after.delivery = ⟨tokens, none⟩ := by
  obtain ⟨ahead, hpeek, hahead⟩ := peek_of_delivery h
  obtain ⟨after, hnext, hafter⟩ := next_of_delivery hahead
  have htest : token.token.isPunctuation mark.text = true := (Token.isPunctuation_iff rfl).mpr hmark
  refine ⟨after, ?_, hafter⟩
  simp only [skipPunctuation, sees, peekIf, bind_assoc, bind_of_ok hpeek, List.head?_cons, htest, if_true, pure_bind,
    Option.isSome_some]
  exact bind_of_ok hnext

/-- A mark that was taken away was the first token. -/
theorem mark_of_skipPunctuation {stream after : TokenStream} {mark : Punctuation} {token : PlacedToken}
    {tokens : List PlacedToken} (h : stream.delivery = ⟨token :: tokens, none⟩)
    (hskip : skipPunctuation mark.text stream = .ok () after) : token.token = .punctuation mark := by
  obtain ⟨ahead, hpeek, hahead⟩ := peek_of_delivery h
  cases htest : token.token.isPunctuation mark.text with
  | true => exact (Token.isPunctuation_iff rfl).mp htest
  | false =>
      simp only [skipPunctuation, sees, peekIf, bind_assoc, bind_of_ok hpeek, List.head?_cons, htest,
        Bool.false_eq_true, if_false, pure_bind, Option.isSome_none] at hskip
      cases hskip

section Rounds

variable {expr : Parser Expr} {round : Char} {rounds : List Char} {body all : List Expr} {stream last : TokenStream}
  {tokens : List PlacedToken}

/-- A round of the loop of a program that succeeds reads an expression. Behind that nothing is left, or a semicolon
and then the other rounds. -/
theorem round_of_programFrom (hs : stream.delivery = ⟨tokens, none⟩) (hne : tokens ≠ [])
    (hrun : programFrom expr (round :: rounds) body stream = .ok all last) :
    ∃ before e after, before.delivery = ⟨tokens, none⟩ ∧ expr before = .ok e after ∧
      ∀ rest, after.delivery = ⟨rest, none⟩ →
        (rest = [] ∧ all = (e :: body).reverse) ∨
        ∃ pos more behind, rest = ⟨.punctuation .semicolon, pos⟩ :: more ∧ behind.delivery = ⟨more, none⟩ ∧
          programFrom expr rounds (e :: body) behind = .ok all last := by
  obtain ⟨token, tokens, rfl⟩ := List.exists_cons_of_ne_nil hne
  obtain ⟨before, hpeek, hbefore⟩ := peek_of_delivery hs
  rw [programFrom, bind_of_ok hpeek] at hrun
  obtain ⟨e, after, he, hrun⟩ := ok_of_bind hrun
  refine ⟨before, e, after, hbefore, he, fun rest hrest => ?_⟩
  obtain ⟨ahead, hpeek, hahead⟩ := peek_of_delivery hrest
  rw [bind_of_ok hpeek] at hrun
  cases rest with
  | nil =>
      refine .inl ⟨rfl, ?_⟩
      have hend : programFrom expr rounds (e :: body) ahead = .ok all last := hrun
      obtain _ | ⟨round, rounds⟩ := rounds
      · cases hend
        rfl
      · obtain ⟨_, hpeek, -⟩ := peek_of_delivery hahead
        rw [programFrom, bind_of_ok hpeek] at hend
        cases hend
        rfl
  | cons first more =>
      obtain ⟨_, behind, hskip, hrun⟩ := ok_of_bind hrun
      obtain ⟨token, pos⟩ := first
      obtain rfl : token = .punctuation .semicolon := mark_of_skipPunctuation hahead hskip
      obtain ⟨behind', hskip', hbehind⟩ := skipPunctuation_of_mark rfl hahead
      cases hskip.symm.trans hskip'
      exact .inr ⟨pos, more, behind, rfl, hbehind, hrun⟩

/-- A round of the loop of a program that reads an expression before a semicolon goes on behind it. -/
theorem programFrom_round (expr : Parser Expr) (round : Char) (rounds : List Char) (body : List Expr)
    (hs : stream.delivery = ⟨tokens, none⟩) (hne : tokens ≠ []) :
    ∃ before, before.delivery = ⟨tokens, none⟩ ∧
      ∀ e after pos more, expr before = .ok e after →
        after.delivery = ⟨⟨.punctuation .semicolon, pos⟩ :: more, none⟩ →
        ∃ behind, behind.delivery = ⟨more, none⟩ ∧
          programFrom expr (round :: rounds) body stream = programFrom expr rounds (e :: body) behind := by
  obtain ⟨token, tokens, rfl⟩ := List.exists_cons_of_ne_nil hne
  obtain ⟨before, hpeek, hbefore⟩ := peek_of_delivery hs
  refine ⟨before, hbefore, fun e after pos more he hafter => ?_⟩
  obtain ⟨ahead, hpeek', hahead⟩ := peek_of_delivery hafter
  obtain ⟨behind, hskip, hbehind⟩ := skipPunctuation_of_mark rfl hahead
  refine ⟨behind, hbehind, ?_⟩
  have hgo : (skipPunctuation Punctuation.semicolon.text >>= fun _ => programFrom expr rounds (e :: body)) ahead =
      programFrom expr rounds (e :: body) behind := bind_of_ok hskip
  rw [programFrom, bind_of_ok hpeek]
  dsimp only [List.head?_cons]
  rw [bind_of_ok he, bind_of_ok hpeek', ← hgo]
  rfl

end Rounds

/-- **A program comes to the semicolon behind it.** If the loop reads a program from tokens of which the last one is no
semicolon, then with a semicolon and more tokens behind these the loop reads the same expressions and is left with the
further tokens. -/
theorem programFrom_sequence {expr : Parser Expr} {pos : Position} {rest : List PlacedToken}
    (hexpr : KeepStep ρ (⟨.punctuation .semicolon, pos⟩ :: rest) expr expr (Expr.Like ρ)) (rounds : List Char) :
    ∀ (rounds' : List Char) (body' : List Expr) {body all : List Expr} {ts us : List PlacedToken}
    {stream other last : TokenStream},
    List.Forall₂ (PlacedToken.Like ρ) ts us → ts ≠ [] →
    (∀ token ∈ ts.getLast?, token.token ≠ .punctuation .semicolon) →
    stream.delivery = ⟨ts, none⟩ → other.delivery = ⟨us ++ ⟨.punctuation .semicolon, pos⟩ :: rest, none⟩ →
    ts.length < rounds.length → ts.length + rest.length + 1 < rounds'.length →
    programFrom expr rounds body stream = .ok all last →
    ∃ more more' rounds'' after, all = body.reverse ++ more ∧ List.Forall₂ (Expr.Like ρ) more more' ∧
      after.delivery = ⟨rest, none⟩ ∧ rest.length < rounds''.length ∧
      programFrom expr rounds' body' other = programFrom expr rounds'' (more'.reverse ++ body') after := by
  induction rounds with
  | nil =>
      intro rounds' body' body all ts us stream other last _ _ _ _ _ hfits
      exact absurd hfits (Nat.not_lt_zero _)
  | cons round rounds ih =>
      intro rounds' body' body all ts us stream other last hpair hne hlast hs ht hfits hfits' hrun
      obtain _ | ⟨round', rounds'⟩ := rounds'
      · exact absurd hfits' (Nat.not_lt_zero _)
      obtain ⟨before, e, after, hbefore, he, hrun⟩ := round_of_programFrom hs hne hrun
      obtain ⟨before', hbefore', hround'⟩ :=
        programFrom_round expr round' rounds' body' ht (by simp)
      have hboth := hexpr hpair before before' hbefore hbefore'
      cases he' : expr before' with
      | error stop after' =>
          rw [he, he'] at hboth
          exact hboth.elim
      | ok e' after' =>
          rw [he, he'] at hboth
          obtain ⟨hee, ts', us', hafter, hafter', hsuffix, hpair⟩ := hboth
          have hshorter := hsuffix.length_le
          rw [List.length_cons] at hfits hfits'
          rcases hrun ts' hafter with ⟨rfl, rfl⟩ | ⟨mark, vs, behind, rfl, hbehind, hrun⟩
          · -- the program ends here, and the other one goes on with the semicolon
            cases hpair
            obtain ⟨behind', hbehind', hgo⟩ := hround' e' after' pos rest he' hafter'
            exact ⟨[e], [e'], rounds', behind', by simp, .cons hee .nil, hbehind', by omega, hgo⟩
          · cases hpair with
            | @cons _ u vs ws hlike hbeyond =>
                obtain ⟨token, mark'⟩ := u
                obtain rfl : token = .punctuation .semicolon := hlike.token_eq.symm
                obtain ⟨behind', hbehind', hgo⟩ := hround' e' after' mark' _ he' hafter'
                -- the last token is no semicolon, so it is still to come
                obtain ⟨first, rfl⟩ := hsuffix
                rw [List.getLast?_append_of_ne_nil _ (List.cons_ne_nil _ vs)] at hlast
                have hvs : vs ≠ [] := by
                  rintro rfl
                  exact hlast _ rfl rfl
                rw [List.getLast?_cons_of_ne_nil hvs] at hlast
                rw [List.length_cons] at hshorter
                obtain ⟨more, more', rounds'', last', rfl, hmore, hlast', hrounds, hrest⟩ :=
                  ih rounds' (e' :: body') hbeyond hvs hlast hbehind hbehind' (by omega) (by omega) hrun
                refine ⟨e :: more, e' :: more', rounds'', last', by simp, .cons hee hmore, hlast', hrounds, ?_⟩
                rw [hgo, hrest, List.reverse_cons, List.append_assoc]
                rfl

end Parser

/-- A text that is read holds what the loop of a program reads. -/
theorem parse_eq_ok {depth : Nat} {text : String} {tree : Expr} : parse depth text = .ok tree ↔
    ∃ body last, Parser.programFrom (Parser.expression depth) (TokenStream.ofText text).rounds [] (.ofText text) =
      .ok body last ∧ tree = .block body (some .start) := by
  have hprogram : Parser.program depth (.ofText text) =
      (Parser.programFrom (Parser.expression depth) (TokenStream.ofText text).rounds [] >>= fun body =>
        pure (.block body (some .start))) (.ofText text) := rfl
  rw [parse, hprogram]
  constructor
  · intro h
    split at h
    · next program after hrun =>
      obtain ⟨body, last, hbody, hend⟩ := ok_of_bind hrun
      cases h
      cases hend
      exact ⟨body, after, hbody, rfl⟩
    · cases h
  · rintro ⟨body, last, hbody, rfl⟩
    rw [bind_of_ok hbody]
    rfl

/-- A block whose expressions pass the test. -/
def Expr.hasBody (P : List Expr → Bool) : Expr → Bool
  | .block body _ => P body
  | _ => false

/-- Whether the expressions of a program are as wanted can be tested by reading it. -/
theorem exists_body {depth : Nat} {text : String} {P : List Expr → Bool}
    (h : (parse depth text).toOption.any (Expr.hasBody P) = true) :
    ∃ body, parse depth text = .ok (.block body (some .start)) ∧ P body = true := by
  cases hparse : parse depth text with
  | error stop =>
      rw [hparse] at h
      cases h
  | ok program =>
      rw [hparse] at h
      obtain ⟨body, -, -, rfl⟩ := parse_eq_ok.mp hparse
      exact ⟨body, rfl, h⟩

/-- **Two programs with a semicolon between them are one program**: what it holds is what the first one holds, with
the same places, and then what the second one holds. -/
theorem parse_sequence {depth : Nat} {a b : String} {as bs : List Expr} {p q : Option Position}
    (ha : parse depth a = .ok (.block as p)) (hb : parse depth b = .ok (.block bs q)) (hne : as ≠ [])
    (hlast : ∀ tokens, tokenize a = .ok tokens → ∀ token ∈ tokens.getLast?, token.token ≠ .punctuation .semicolon) :
    ∃ bs', parse depth (a ++ "\n;\n" ++ b) = .ok (.block (as ++ bs') (some .start)) ∧
      List.Forall₂ (Expr.Like fun _ _ => True) bs bs' := by
  have hsound := parse_sound depth a
  have hsound' := parse_sound depth b
  rw [ha] at hsound
  rw [hb] at hsound'
  obtain ⟨ts, hts, hprogram⟩ := hsound
  obtain ⟨us, hus, -⟩ := hsound'
  obtain ⟨_, last, hrun, hbody⟩ := parse_eq_ok.mp ha
  obtain ⟨_, last', hrun', hbody'⟩ := parse_eq_ok.mp hb
  cases hbody
  cases hbody'
  have hsome : ts ≠ [] := by
    rintro rfl
    cases hprogram with
    | block hseparated => exact hne hseparated.eq_nil
  obtain ⟨pos, displaced, htokens, hsame⟩ := tokenize_semicolon_between hts hus
  have hfits := TokenStream.length_lt_rounds htokens
  rw [List.length_append, List.length_cons] at hfits
  have hlength : displaced.length = us.length := by rw [← List.length_map PlacedToken.token, hsame, List.length_map]
  -- up to the semicolon, at the same places
  have hbarred : Parser.IsBarred (⟨.punctuation .semicolon, pos⟩ :: displaced) := by
    rintro token ⟨⟩
    rfl
  obtain ⟨more, more', rounds, after, rfl, hmore, hafter, hleft, hgo⟩ :=
    Parser.programFrom_sequence (Parser.keepStep_expression hbarred depth) _
      (TokenStream.ofText (a ++ "\n;\n" ++ b)).rounds [] (List.forall₂_same.mpr fun _ _ => ⟨rfl, rfl⟩) hsome
      (hlast ts hts) (TokenStream.delivery_of_tokenize hts) (TokenStream.delivery_of_tokenize htokens)
      (TokenStream.length_lt_rounds hts) (by omega) hrun
  obtain rfl := eq_of_like hmore
  -- and from there on as in the second text, wherever that stands
  have hboth := Parser.inStep_programFrom (Parser.keepStep_expression Parser.isBarred_nil depth) _ []
    (as.reverse ++ []) (forall₂_like_of_tokens_eq hsame.symm) (TokenStream.length_lt_rounds hus) (hlength ▸ hleft)
    (.ofText b) after
    (TokenStream.delivery_of_tokenize hus) (by rw [List.append_nil]; exact hafter)
  rw [hrun'] at hboth
  cases hrest : Parser.programFrom (Parser.expression depth) rounds (as.reverse ++ []) after with
  | error stop stopped =>
      rw [hrest] at hboth
      exact hboth.elim
  | ok all ended =>
      rw [hrest] at hboth
      obtain ⟨⟨bs, bs', rfl, rfl, hlike⟩, -⟩ := hboth
      exact ⟨bs', parse_eq_ok.mpr ⟨_, ended, hgo.trans hrest, by simp⟩, hlike⟩

end LambdaScript
