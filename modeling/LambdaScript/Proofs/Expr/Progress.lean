import LambdaScript.Proofs.Eval.Leads
import LambdaScript.Proofs.Token.Delivery

/-!
Progress of readers. Nothing that a reader does brings tokens back, and an operand, an expression and an item of a list
each take at least one away. So the loops end by themselves: one that is given more rounds than there are tokens runs
for one round a token at most, and finds in one more that it has come to its end.
-/

namespace LambdaScript

namespace TokenStream

variable {stream after : TokenStream} {token? : Option PlacedToken}

theorem count_of_peek (h : stream.peek = (.ok token?, after)) : after.count = stream.count := by
  rw [count, count, (peek_ok h).1]

theorem count_pos_of_peek {token : PlacedToken} (h : stream.peek = (.ok (some token), after)) : 0 < stream.count := by
  obtain ⟨tokens, htokens⟩ := List.head?_eq_some_iff.mp (peek_ok h).2.1
  rw [count, htokens]
  exact Nat.succ_pos _

theorem count_of_next (h : stream.next = (.ok token?, after)) :
    stream.count = after.count + token?.toList.length := by
  rw [count, count, (next_ok h).1, Delivery.tokens_behind, List.length_append, Nat.add_comm]

/-- Where there is a token, reading delivers one. -/
theorem isSome_of_next (h : stream.next = (.ok token?, after)) (hpos : 0 < stream.count) : token?.isSome := by
  cases token? with
  | some token => rfl
  | none =>
      rw [count, (next_ok h).2 rfl] at hpos
      cases hpos

end TokenStream

namespace Parser

variable {α β : Type} {m n : Nat} {stream : TokenStream}

/-- Where a reader ends with a result, it has taken at least `n` tokens away. -/
def Spends (n : Nat) (p : Parser α) (stream : TokenStream) : Prop :=
  ∀ a after, p stream = .ok a after → after.count + n ≤ stream.count

/-! ### Steps -/

theorem Spends.mono {p : Parser α} (h : Spends m p stream) (hle : n ≤ m) : Spends n p stream := by
  intro a after hrun
  have := h a after hrun
  omega

/-- A reader that takes tokens away brings none back. -/
theorem Spends.kept {p : Parser α} (h : Spends n p stream) : Spends 0 p stream := h.mono (Nat.zero_le n)

theorem Spends.pure (a : α) : Spends 0 (Pure.pure a) stream := by
  rintro _ _ ⟨⟩
  exact Nat.le_refl _

theorem Spends.bind {p : Parser α} {f : α → Parser β} (hp : Spends m p stream)
    (hf : ∀ a behind, p stream = .ok a behind → Spends n (f a) behind) : Spends (m + n) (p >>= f) stream := by
  intro b after hrun
  obtain ⟨a, behind, hfirst, hsecond⟩ := ok_of_bind hrun
  have hleft := hp a behind hfirst
  have hright := hf a behind hfirst b after hsecond
  omega

/-- A step that takes tokens away, and others that bring none back. -/
theorem Spends.first {p : Parser α} {f : α → Parser β} (hp : Spends n p stream)
    (hf : ∀ a behind, Spends 0 (f a) behind) : Spends n (p >>= f) stream :=
  hp.bind fun a behind _ => hf a behind

/-- A step that brings no tokens back, and others that take some away. -/
theorem Spends.after {p : Parser α} {f : α → Parser β} (hp : Spends 0 p stream)
    (hf : ∀ a behind, Spends n (f a) behind) : Spends n (p >>= f) stream := by
  have hboth := hp.bind fun a behind _ => hf a behind
  rwa [Nat.zero_add] at hboth

theorem spends_get : Spends 0 (get : Parser TokenStream) stream := by
  rintro _ _ ⟨⟩
  exact Nat.le_refl _

/-- One that never ends with a result. -/
theorem spends_complain (cause : Cause) (pos : Option Position) : Spends n (complain cause pos : Parser α) stream :=
  nofun

theorem peek_eq_ok {token? : Option PlacedToken} {after : TokenStream} (h : peek stream = .ok token? after) :
    stream.peek = (.ok token?, after) := by
  unfold peek at h
  split at h
  · next hpeek =>
    cases h
    exact hpeek
  · cases h

theorem next_eq_ok {token? : Option PlacedToken} {after : TokenStream} (h : next stream = .ok token? after) :
    stream.next = (.ok token?, after) := by
  unfold next at h
  split at h
  · next hnext =>
    cases h
    exact hnext
  · cases h

theorem spends_peek : Spends 0 peek stream := by
  intro token? after hrun
  exact Nat.le_of_eq (TokenStream.count_of_peek (peek_eq_ok hrun))

theorem spends_next : Spends 0 next stream := by
  intro token? after hrun
  rw [TokenStream.count_of_next (next_eq_ok hrun)]
  exact Nat.le_add_right _ _

theorem spends_next_of_pos (hpos : 0 < stream.count) : Spends 1 next stream := by
  intro token? after hrun
  have hnext := next_eq_ok hrun
  obtain ⟨token, rfl⟩ := Option.isSome_iff_exists.mp (TokenStream.isSome_of_next hnext hpos)
  exact Nat.le_of_eq (TokenStream.count_of_next hnext).symm

/-- What is done about a token that was seen may rely on it to be there. -/
theorem Spends.peek_bind {f : Option PlacedToken → Parser α} (hnone : ∀ behind, Spends n (f none) behind)
    (hsome : ∀ token behind, 0 < behind.count → Spends n (f (some token)) behind) : Spends n (peek >>= f) stream := by
  refine (Spends.bind spends_peek fun token? behind hrun => ?_).mono (Nat.le_of_eq (Nat.zero_add n).symm)
  have hpeek := peek_eq_ok hrun
  cases token? with
  | none => exact hnone behind
  | some token =>
      refine hsome token behind ?_
      rw [TokenStream.count_of_peek hpeek]
      exact TokenStream.count_pos_of_peek hpeek

/-- What is done behind a test may rely on the token to be there that was seen. -/
theorem Spends.sees_bind {test : Token → Bool} {f : Bool → Parser α} (hunseen : ∀ behind, Spends n (f false) behind)
    (hseen : ∀ behind, 0 < behind.count → Spends n (f true) behind) : Spends n (sees test >>= f) stream := by
  have hdecided : sees test >>= f = peek >>= fun token? => f (token?.any fun token => test token.token) := by
    unfold sees peekIf
    rw [bind_assoc, bind_assoc]
    refine congrArg _ (funext fun token? => ?_)
    cases token? with
    | none => rw [pure_bind, pure_bind]; rfl
    | some token =>
        rw [pure_bind, pure_bind, Option.any_some]
        cases test token.token <;> rfl
  rw [hdecided]
  refine .peek_bind hunseen fun token behind hpos => ?_
  rw [Option.any_some]
  cases test token.token with
  | false => exact hunseen behind
  | true => exact hseen behind hpos

theorem spends_sees (test : Token → Bool) : Spends 0 (sees test) stream := by
  rw [← bind_pure (sees test)]
  exact .sees_bind (fun _ => .pure _) fun _ _ => .pure _

theorem spends_skip (test : Token → Bool) (cause : Cause) :
    Spends 1 (do if ← sees test then let _ ← next else complain cause none) stream :=
  .sees_bind (fun _ => spends_complain _ _) fun _ hpos => (spends_next_of_pos hpos).first fun _ _ => .pure _

theorem spends_skipPunctuation (mark : String) : Spends 1 (skipPunctuation mark) stream := spends_skip _ _

theorem spends_skipKeyword (word : String) : Spends 1 (skipKeyword word) stream := spends_skip _ _

/-- Looking for a token that is missing never ends with a result. -/
theorem spends_expected_none (part : String) : Spends n (expected part none) stream := nofun

theorem spends_expected (part : String) (token? : Option PlacedToken) : Spends 0 (expected part token?) stream := by
  cases token? with
  | none => exact spends_expected_none part
  | some token => exact .pure token

theorem spends_herePos : Spends 0 herePos stream :=
  spends_peek.first fun token? _ => (spends_expected "pos" token?).first fun _ _ => .pure _

theorem spends_unexpected : Spends n (unexpected : Parser α) stream :=
  .peek_bind (fun _ => spends_complain _ _) fun _ _ _ => spends_complain _ _

/-- A token that is there is taken away, whatever is made of it. -/
theorem Spends.next_bind {f : Option PlacedToken → Parser α} (hnone : ∀ behind, Spends 1 (f none) behind)
    (hsome : ∀ token behind, Spends 0 (f (some token)) behind) : Spends 1 (next >>= f) stream := by
  intro a after hrun
  obtain ⟨token?, behind, hfirst, hsecond⟩ := ok_of_bind hrun
  have hcount := TokenStream.count_of_next (next_eq_ok hfirst)
  cases token? with
  | none =>
      have hrest := hnone behind a after hsecond
      rw [hcount]
      exact Nat.le_add_right_of_le hrest
  | some token =>
      have hrest := hsome token behind a after hsecond
      rw [Option.toList_some, List.length_singleton] at hcount
      omega

theorem spends_variableName : Spends 1 variableName stream := by
  refine .next_bind (fun _ => spends_complain _ _) fun token behind => ?_
  obtain ⟨token, pos⟩ := token
  cases token with
  | identifier name => exact .pure name
  | _ => exact spends_complain _ _

/-- A token that reading counts on is taken away, or there is no result. -/
theorem spends_expected_next {f : PlacedToken → Parser α} (part : String)
    (hf : ∀ token behind, Spends 0 (f token) behind) :
    Spends 1 (next >>= fun token? => expected part token? >>= f) stream :=
  .next_bind (fun _ => nofun) fun token behind => hf token behind

theorem spends_nextPos : Spends 1 nextPos stream := spends_expected_next "pos" fun _ _ => .pure _

theorem spends_truthValue (value : Bool) : Spends 1 (truthValue value) stream :=
  spends_expected_next "value" fun _ _ => .pure _

theorem spends_ownName : Spends 0 ownName? stream := by
  refine .peek_bind (fun _ => .pure none) fun token behind _ => ?_
  obtain ⟨token, pos⟩ := token
  cases token with
  | identifier name => exact spends_next.first fun _ _ => .pure _
  | _ => exact .pure none

/-! ### Lists -/

section Lists

variable {item : Parser α}

theorem spends_itemsUntil (hitem : ∀ stream, Spends 0 item stream) (stop separator : String) (rounds : List Char) :
    ∀ (first : Bool) (items : List α) (stream : TokenStream),
      Spends 0 (itemsUntil stop separator item rounds first items) stream := by
  induction rounds with
  | nil => exact fun first items stream => .pure items.reverse
  | cons round rounds ih =>
      intro first items stream
      have hrest (behind : TokenStream) : Spends 0 (do
          if ← sees (Token.isPunctuation stop) then Pure.pure items.reverse
          else do
            let a ← item
            itemsUntil stop separator item rounds false (a :: items)) behind := by
        refine (spends_sees _).first fun seen behind => ?_
        cases seen with
        | true => exact .pure items.reverse
        | false => exact (hitem behind).first fun a behind => ih false (a :: items) behind
      rw [itemsUntil]
      refine spends_peek.first fun token? behind => ?_
      cases token? with
      | none => exact .pure items.reverse
      | some token =>
          dsimp only
          split
          · exact .pure items.reverse
          · cases first with
            | true => exact hrest behind
            | false => exact (spends_skipPunctuation separator).kept.first fun _ => hrest

/-- A list takes its first mark away. -/
theorem spends_delimited (hitem : ∀ stream, Spends 0 item stream) (start stop separator : String) :
    Spends 1 (delimited start stop separator item) stream := by
  refine (spends_skipPunctuation start).first fun _ behind => spends_get.first fun stream behind => ?_
  refine (spends_itemsUntil hitem stop separator stream.rounds true [] behind).first fun items behind => ?_
  exact (spends_skipPunctuation stop).kept.first fun _ _ => .pure _

/-- **A loop over a list runs at most once for each token**: rounds beyond one more than the tokens are never used. -/
theorem itemsUntil_rounds (hitem : ∀ stream, Spends 1 item stream) (stop separator : String) (rounds : List Char) :
    ∀ (others : List Char) (first : Bool) (items : List α) (stream : TokenStream), stream.count < rounds.length →
      stream.count < others.length →
      itemsUntil stop separator item rounds first items stream =
        itemsUntil stop separator item others first items stream := by
  induction rounds with
  | nil => exact fun others first items stream hrounds _ => absurd hrounds (Nat.not_lt_zero _)
  | cons round rounds ih =>
      intro others first items stream hrounds hothers
      cases others with
      | nil => exact absurd hothers (Nat.not_lt_zero _)
      | cons other others =>
          -- where an item is read, it uses up a token and the rounds that are left outnumber the tokens again
          have hrest (behind : TokenStream) (hle : behind.count ≤ stream.count) :
              (do
                if ← sees (Token.isPunctuation stop) then Pure.pure items.reverse
                else do
                  let a ← item
                  itemsUntil stop separator item rounds false (a :: items)) behind =
              (do
                if ← sees (Token.isPunctuation stop) then Pure.pure items.reverse
                else do
                  let a ← item
                  itemsUntil stop separator item others false (a :: items)) behind := by
            refine bind_congr_of_ok fun seen looked hlooked => ?_
            cases seen with
            | true => rfl
            | false =>
                refine bind_congr_of_ok fun a left hread => ?_
                have hseen := spends_sees _ _ _ hlooked
                have hspent := hitem looked a left hread
                rw [List.length_cons] at hrounds hothers
                exact ih others false (a :: items) left (by omega) (by omega)
          rw [itemsUntil, itemsUntil]
          refine bind_congr_of_ok fun token? looked hlooked => ?_
          have hle := spends_peek _ _ hlooked
          cases token? with
          | none => rfl
          | some token =>
              dsimp only
              split
              · rfl
              · cases first with
                | true => exact hrest looked hle
                | false =>
                    refine bind_congr_of_ok fun _ left hskip => hrest left ?_
                    have hspent := spends_skipPunctuation separator _ _ hskip
                    omega

end Lists

/-! ### Phrases -/

section Phrases

variable {expr : Parser Expr}

theorem spends_binding (hexpr : ∀ stream, Spends 0 expr stream) : Spends 1 (binding expr) stream := by
  refine spends_variableName.first fun name behind => (spends_sees _).first fun seen behind => ?_
  cases seen with
  | false => exact .pure _
  | true => exact spends_next.first fun _ behind => (hexpr behind).first fun _ _ => .pure _

theorem spends_lambda (hexpr : ∀ stream, Spends 0 expr stream) : Spends 1 (lambda expr) stream := by
  refine spends_nextPos.first fun pos behind => spends_ownName.first fun name behind => ?_
  have hparams : Spends 1 (delimited "(" ")" "," variableName) behind :=
    spends_delimited (fun _ => spends_variableName.kept) _ _ _
  exact hparams.kept.first fun params behind => (hexpr behind).first fun _ _ => .pure _

theorem spends_letExpr (hexpr : ∀ stream, Spends 0 expr stream) : Spends 1 (letExpr expr) stream := by
  have hbindings (stream : TokenStream) : Spends 0 (delimited "(" ")" "," (binding expr)) stream :=
    (spends_delimited (fun _ => (spends_binding hexpr).kept) _ _ _).kept
  refine spends_nextPos.first fun pos behind => spends_ownName.first fun name behind => ?_
  cases name with
  | none => exact (hbindings behind).first fun _ behind => (hexpr behind).first fun _ _ => .pure _
  | some name => exact (hbindings behind).first fun _ behind => (hexpr behind).first fun _ _ => .pure _

theorem spends_conditional (hexpr : ∀ stream, Spends 0 expr stream) : Spends 1 (conditional expr) stream := by
  refine spends_nextPos.first fun pos behind => (hexpr behind).first fun test behind => ?_
  have hbranch (behind : TokenStream) : Spends 0 (do
      let consequent ← expr
      if ← sees (Token.isKeyword "else") then
        let _ ← next
        let alternative ← expr
        return Expr.ifThenElse test consequent alternative (some pos)
      else
        return Expr.ifThen test consequent (some pos)) behind := by
    refine (hexpr behind).first fun consequent behind => (spends_sees _).first fun seen behind => ?_
    cases seen with
    | false => exact .pure _
    | true => exact spends_next.first fun _ behind => (hexpr behind).first fun _ _ => .pure _
  refine (spends_sees _).first fun brace behind => ?_
  cases brace with
  | true => exact hbranch behind
  | false => exact (spends_skipKeyword "then").kept.first fun _ => hbranch

theorem spends_block (hexpr : ∀ stream, Spends 0 expr stream) : Spends 1 (block expr) stream :=
  spends_herePos.after fun _ _ => (spends_delimited hexpr _ _ _).first fun _ _ => .pure _

theorem spends_atom (hexpr : ∀ stream, Spends 0 expr stream) : Spends 1 (atom expr) stream := by
  refine .peek_bind (fun _ => spends_unexpected) fun token behind hpos => ?_
  obtain ⟨token, pos⟩ := token
  have hleaf (e : Expr) : Spends 1 (do
      let _ ← next
      return e) behind := (spends_next_of_pos hpos).first fun _ _ => .pure e
  cases token with
  | punctuation mark =>
      cases mark with
      | openParen =>
          refine (spends_next_of_pos hpos).first fun _ behind => (hexpr behind).first fun e behind => ?_
          exact (spends_skipPunctuation ")").kept.first fun _ _ => .pure e
      | openBrace => exact spends_block hexpr
      | _ => exact spends_unexpected
  | keyword word =>
      cases word with
      | letWord => exact spends_letExpr hexpr
      | ifWord => exact spends_conditional hexpr
      | lambdaWord => exact spends_lambda hexpr
      | lambdaSign => exact spends_lambda hexpr
      | _ => exact spends_unexpected
  | boolean value => exact spends_truthValue value
  | identifier name => exact hleaf _
  | number value => exact hleaf _
  | string value => exact hleaf _
  | operator op => exact spends_unexpected

theorem spends_application (hexpr : ∀ stream, Spends 0 expr stream) (callee : Expr) :
    Spends 1 (application expr callee) stream :=
  spends_herePos.after fun _ _ => (spends_delimited hexpr _ _ _).first fun _ _ => .pure _

theorem spends_applications (hexpr : ∀ stream, Spends 0 expr stream) (rounds : List Char) :
    ∀ (callee : Expr) (stream : TokenStream), Spends 0 (applications expr rounds callee) stream := by
  induction rounds with
  | nil => exact fun callee stream => .pure callee
  | cons round rounds ih =>
      intro callee stream
      refine (spends_sees _).first fun seen behind => ?_
      cases seen with
      | false => exact .pure callee
      | true => exact (spends_application hexpr callee).kept.first ih

theorem spends_applied (hexpr : ∀ stream, Spends 0 expr stream) (callee : Expr) :
    Spends 0 (applied expr callee) stream :=
  spends_get.first fun stream behind => spends_applications hexpr stream.rounds callee behind

theorem spends_operand (hexpr : ∀ stream, Spends 0 expr stream) : Spends 1 (operand expr) stream :=
  (spends_atom hexpr).first fun callee _ => spends_applied hexpr callee

/-- **The loop over argument lists runs at most once for each token.** -/
theorem applications_rounds (hexpr : ∀ stream, Spends 0 expr stream) (rounds : List Char) :
    ∀ (others : List Char) (callee : Expr) (stream : TokenStream),
      stream.count < rounds.length → stream.count < others.length →
      applications expr rounds callee stream = applications expr others callee stream := by
  induction rounds with
  | nil => exact fun others callee stream hrounds _ => absurd hrounds (Nat.not_lt_zero _)
  | cons round rounds ih =>
      intro others callee stream hrounds hothers
      cases others with
      | nil => exact absurd hothers (Nat.not_lt_zero _)
      | cons other others =>
          rw [applications, applications]
          refine bind_congr_of_ok fun seen looked hlooked => ?_
          cases seen with
          | false => rfl
          | true =>
              refine bind_congr_of_ok fun call left hread => ?_
              have hseen := spends_sees _ _ _ hlooked
              have hspent := spends_application hexpr callee call left hread
              rw [List.length_cons] at hrounds hothers
              exact ih others call left (by omega) (by omega)

/-- **The loop over a program runs at most once for each token.** -/
theorem programFrom_rounds (hexpr : ∀ stream, Spends 1 expr stream) (rounds : List Char) :
    ∀ (others : List Char) (body : List Expr) (stream : TokenStream), stream.count < rounds.length →
      stream.count < others.length → programFrom expr rounds body stream = programFrom expr others body stream := by
  induction rounds with
  | nil => exact fun others body stream hrounds _ => absurd hrounds (Nat.not_lt_zero _)
  | cons round rounds ih =>
      intro others body stream hrounds hothers
      cases others with
      | nil => exact absurd hothers (Nat.not_lt_zero _)
      | cons other others =>
          rw [programFrom, programFrom]
          refine bind_congr_of_ok fun token? looked hlooked => ?_
          cases token? with
          | none => rfl
          | some token =>
              refine bind_congr_of_ok fun e read hread => bind_congr_of_ok fun next? seen hseen => ?_
              have hle := spends_peek _ _ hlooked
              have hspent := hexpr looked e read hread
              have hkept := spends_peek _ _ hseen
              rw [List.length_cons] at hrounds hothers
              cases next? with
              | none => exact ih others (e :: body) seen (by omega) (by omega)
              | some token =>
                  refine bind_congr_of_ok fun _ left hskip => ?_
                  have hmark := spends_skipPunctuation ";" _ _ hskip
                  exact ih others (e :: body) left (by omega) (by omega)

end Phrases

/-- An expression takes at least one token away, and going on from one brings none back. -/
theorem spends_expression_and_climb (depth : Nat) :
    (∀ stream, Spends 1 (expression depth) stream) ∧
      ∀ left precedence stream, Spends 0 (climb depth left precedence) stream := by
  induction depth with
  | zero =>
      refine ⟨fun stream => ?_, fun left precedence stream => ?_⟩
      · rw [expression]
        exact nofun
      · rw [climb]
        exact nofun
  | succ depth ih =>
      obtain ⟨hexpr, hclimb⟩ := ih
      have hkept (stream : TokenStream) : Spends 0 (expression depth) stream := (hexpr stream).kept
      constructor
      · intro stream
        rw [expression]
        refine (spends_operand hkept).first fun left behind => (hclimb left 0 behind).first fun tree behind => ?_
        exact spends_applied hkept tree
      · intro left precedence stream
        rw [climb]
        refine (spends_peek.first fun token? behind => ?_).first fun found behind => ?_
        · split
          · exact .pure _
          · exact .pure _
        · cases found with
          | none => exact .pure left
          | some found =>
              dsimp only
              split
              · refine spends_next.first fun _ behind => ?_
                refine (spends_operand hkept).kept.first fun first behind => ?_
                exact (hclimb first _ behind).first fun right behind => hclimb _ _ behind
              · exact .pure left

theorem spends_expression (depth : Nat) (stream : TokenStream) : Spends 1 (expression depth) stream :=
  (spends_expression_and_climb depth).1 stream

end Parser

end LambdaScript
