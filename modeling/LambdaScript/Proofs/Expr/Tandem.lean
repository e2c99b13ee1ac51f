import LambdaScript.Proofs.Expr.Like
import LambdaScript.Proofs.Expr.Run

/-!
Two readers side by side. A reader sees the kinds of its tokens and never their places, so on two streams that
deliver the same tokens at different places it takes the same steps and builds trees that differ in places alone.
The second stream may hold a tail that starts with a semicolon behind its part: no reader of an expression goes
past that, so a reader that succeeds without the tail succeeds before it in the same way.
-/

namespace LambdaScript

/-- Stops for the same cause, at related places if they are at places. -/
inductive Stop.Like (ρ : Position → Position → Prop) : Stop → Stop → Prop where
  | fault (cause : Cause) {p q : Option Position} (hpos : Option.Rel ρ p q) : Stop.Like ρ (.at cause p) (.at cause q)
  | tooDeep : Stop.Like ρ .tooDeep .tooDeep

namespace Parser

/-! ### Steps on a stream without faults -/

variable {α β γ δ : Type}

theorem peek_of_delivery {stream : TokenStream} {tokens : List PlacedToken} (h : stream.delivery = ⟨tokens, none⟩) :
    ∃ after : TokenStream, peek stream = .ok tokens.head? after ∧ after.delivery = ⟨tokens, none⟩ := by
  cases hpeek : stream.peek with
  | mk outcome after =>
      cases outcome with
      | ok token? =>
          obtain ⟨hsame, hhead, -⟩ := TokenStream.peek_ok hpeek
          rw [h] at hsame hhead
          refine ⟨after, ?_, hsame⟩
          simp only [Parser.peek, hpeek, ← hhead]
      | error fault =>
          have hfault := TokenStream.peek_error hpeek
          rw [h] at hfault
          cases hfault

theorem next_of_delivery {stream : TokenStream} {tokens : List PlacedToken} (h : stream.delivery = ⟨tokens, none⟩) :
    ∃ after : TokenStream, next stream = .ok tokens.head? after ∧ after.delivery = ⟨tokens.tail, none⟩ := by
  cases hnext : stream.next with
  | mk outcome after =>
      cases outcome with
      | ok token? =>
          obtain ⟨hsplit, hnone⟩ := TokenStream.next_ok hnext
          rw [h] at hsplit hnone
          refine ⟨after, ?_, ?_⟩
          · cases token? with
            | none =>
                cases hnone rfl
                simp only [Parser.next, hnext, List.head?_nil]
            | some token =>
                have htokens : tokens = token :: after.delivery.tokens := congrArg Delivery.tokens hsplit
                simp only [Parser.next, hnext, htokens, List.head?_cons]
          · cases token? with
            | none =>
                cases hnone rfl
                exact hsplit.symm
            | some token =>
                have htokens : tokens = token :: after.delivery.tokens := congrArg Delivery.tokens hsplit
                have hfault : none = after.delivery.fault := congrArg Delivery.fault hsplit
                rw [htokens, List.tail_cons, hfault]
      | error fault =>
          have hfault := TokenStream.next_error hnext
          rw [h] at hfault
          cases hfault

/-! ### The judgement -/

/-- Where no token is left, a reader stops for a cause. -/
def FailsAtEnd (p : Parser α) (cause : Cause) : Prop :=
  ∀ stream : TokenStream, stream.delivery = ⟨[], none⟩ → ∃ pos after, p stream = .error (.at cause (some pos)) after

/-- Two runs of readers end in the same way, the first one on tokens `ts`, the second one with a tail behind its
tokens. Both succeed, with related results, and what they leave is the same up to places; or both stop, for the same
cause unless there is a tail; or the first one stops and the second one goes on with the tail. -/
def SameEnd (ρ : Position → Position → Prop) (tail ts : List PlacedToken) (R : α → β → Prop) :
    EStateM.Result Stop TokenStream α → EStateM.Result Stop TokenStream β → Prop
  | .ok a after, .ok b otherAfter =>
    R a b ∧ ∃ ts' us', after.delivery = ⟨ts', none⟩ ∧ otherAfter.delivery = ⟨us' ++ tail, none⟩ ∧ ts' <:+ ts ∧
      List.Forall₂ (PlacedToken.Like ρ) ts' us'
  | .error stop _, .error otherStop _ => tail = [] → stop.Like (fun _ _ => True) otherStop
  | .error _ _, .ok _ _ => tail ≠ []
  | .ok _ _, .error _ _ => False

/-- Two readers keep step: on tokens `ts`, and on tokens `us` with the tail behind them, they end in the same way. -/
def InStep (ρ : Position → Position → Prop) (tail : List PlacedToken) (p : Parser α) (q : Parser β)
    (ts us : List PlacedToken) (R : α → β → Prop) : Prop :=
  ∀ stream other : TokenStream, stream.delivery = ⟨ts, none⟩ → other.delivery = ⟨us ++ tail, none⟩ →
    SameEnd ρ tail ts R (p stream) (q other)

/-- Two readers keep step wherever they start. -/
def KeepStep (ρ : Position → Position → Prop) (tail : List PlacedToken) (p : Parser α) (q : Parser β)
    (R : α → β → Prop) : Prop :=
  ∀ ⦃ts us : List PlacedToken⦄, List.Forall₂ (PlacedToken.Like ρ) ts us → InStep ρ tail p q ts us R

variable {ρ : Position → Position → Prop} {tail ts us : List PlacedToken} {R : α → β → Prop} {S : γ → δ → Prop}
  {t u : PlacedToken}

/-- What was left of fewer tokens was left of more. -/
theorem SameEnd.of_suffix {ts' : List PlacedToken} {x : EStateM.Result Stop TokenStream α}
    {y : EStateM.Result Stop TokenStream β} (h : SameEnd ρ tail ts' R x y) (hsuffix : ts' <:+ ts) :
    SameEnd ρ tail ts R x y := by
  cases x with
  | ok a after =>
      cases y with
      | ok b otherAfter =>
          obtain ⟨hab, vs, ws, hafter, hotherAfter, hrest, hpair⟩ := h
          exact ⟨hab, vs, ws, hafter, hotherAfter, hrest.trans hsuffix, hpair⟩
      | error stop otherAfter => exact h
  | error stop after =>
      cases y with
      | ok b otherAfter => exact h
      | error otherStop otherAfter => exact h

theorem InStep.pure {a : α} {b : β} (hpair : List.Forall₂ (PlacedToken.Like ρ) ts us) (h : R a b) :
    InStep ρ tail (Pure.pure a : Parser α) (Pure.pure b : Parser β) ts us R :=
  fun _ _ hs ht => ⟨h, ts, us, hs, ht, List.suffix_refl ts, hpair⟩

theorem InStep.bind {p : Parser α} {q : Parser β} {f : α → Parser γ} {g : β → Parser δ}
    (hp : InStep ρ tail p q ts us R) (hf : ∀ a b ts' us', R a b → ts' <:+ ts →
      List.Forall₂ (PlacedToken.Like ρ) ts' us' → InStep ρ tail (f a) (g b) ts' us' S) :
    InStep ρ tail (p >>= f) (q >>= g) ts us S := by
  intro stream other hs ht
  have hfirst := hp stream other hs ht
  simp only [Bind.bind, EStateM.bind]
  cases hps : p stream with
  | ok a after =>
      cases hqt : q other with
      | ok b otherAfter =>
          rw [hps, hqt] at hfirst
          obtain ⟨hab, ts', us', hafter, hotherAfter, hsuffix, hpair⟩ := hfirst
          exact (hf a b ts' us' hab hsuffix hpair after otherAfter hafter hotherAfter).of_suffix hsuffix
      | error stop otherAfter =>
          rw [hps, hqt] at hfirst
          exact hfirst.elim
  | error stop after =>
      cases hqt : q other with
      | ok b otherAfter =>
          rw [hps, hqt] at hfirst
          dsimp only
          cases g b otherAfter with
          | ok d otherLast => exact hfirst
          | error otherStop otherLast => exact fun hnil => absurd hnil hfirst
      | error otherStop otherAfter =>
          rw [hps, hqt] at hfirst
          exact hfirst

theorem InStep.mono {p : Parser α} {q : Parser β} {R' : α → β → Prop} (h : InStep ρ tail p q ts us R)
    (hR : ∀ a b, R a b → R' a b) : InStep ρ tail p q ts us R' := by
  have hbind := InStep.bind (f := Pure.pure) (g := Pure.pure) h fun a b ts' us' hab _ hrest =>
    InStep.pure hrest (hR a b hab)
  simpa using hbind

/-! ### Steps that fail -/

theorem InStep.throw {stop : Stop} (h : stop.Like (fun _ _ => True) stop) :
    InStep ρ tail (MonadExcept.throw stop : Parser α) (MonadExcept.throw stop : Parser β) ts us R :=
  fun _ _ _ _ _ => h

theorem InStep.complain (cause : Cause) (p q : Option Position) :
    InStep ρ tail (complain cause p : Parser α) (Parser.complain cause q : Parser β) ts us R :=
  fun _ _ _ _ _ => .fault cause (.some trivial)

theorem FailsAtEnd.complain (cause : Cause) (pos : Option Position) :
    FailsAtEnd (complain cause pos : Parser α) cause := fun _ _ => ⟨_, _, rfl⟩

theorem FailsAtEnd.bind_left {p : Parser α} {cause : Cause} (h : FailsAtEnd p cause) (f : α → Parser γ) :
    FailsAtEnd (p >>= f) cause := by
  intro stream hend
  obtain ⟨pos, after, hp⟩ := h stream hend
  exact ⟨pos, after, by simp only [Bind.bind, EStateM.bind, hp]⟩

theorem FailsAtEnd.peek_bind {f : Option PlacedToken → Parser γ} {cause : Cause} (h : FailsAtEnd (f none) cause) :
    FailsAtEnd (peek >>= f) cause := by
  intro stream hend
  obtain ⟨after, hpeek, hafter⟩ := peek_of_delivery hend
  obtain ⟨pos, last, hf⟩ := h after hafter
  exact ⟨pos, last, by simpa only [Bind.bind, EStateM.bind, hpeek, List.head?_nil] using hf⟩

theorem FailsAtEnd.next_bind {f : Option PlacedToken → Parser γ} {cause : Cause} (h : FailsAtEnd (f none) cause) :
    FailsAtEnd (next >>= f) cause := by
  intro stream hend
  obtain ⟨after, hnext, hafter⟩ := next_of_delivery hend
  obtain ⟨pos, last, hf⟩ := h after hafter
  exact ⟨pos, last, by simpa only [Bind.bind, EStateM.bind, hnext, List.head?_nil] using hf⟩

theorem FailsAtEnd.skip (test : Token → Bool) (cause : Cause) :
    FailsAtEnd (do if ← sees test then let _ ← next else Parser.complain cause none) cause := by
  simp only [sees, peekIf, bind_assoc]
  exact .peek_bind (by simpa using .complain cause none)

/-- Readers that fail at the end for the same cause keep step there. If there is a tail, nothing is asked of the
second one. -/
theorem FailsAtEnd.inStep {p : Parser α} {q : Parser β} {cause : Cause} (hp : FailsAtEnd p cause)
    (hq : FailsAtEnd q cause) : InStep ρ tail p q [] [] R := by
  intro stream other hs ht
  obtain ⟨pos, after, hps⟩ := hp stream hs
  rw [hps]
  by_cases htail : tail = []
  · subst htail
    obtain ⟨otherPos, otherAfter, hqt⟩ := hq other ht
    rw [hqt]
    exact fun _ => .fault cause (.some trivial)
  · cases q other with
    | ok b otherAfter => exact htail
    | error stop otherAfter => exact fun hnil => absurd hnil htail

/-! ### Looking at tokens -/

section Steps

variable {f : Option PlacedToken → Parser γ} {g : Option PlacedToken → Parser δ}

theorem InStep.peek_bind (h : InStep ρ tail (f ts.head?) (g (us ++ tail).head?) ts us S) :
    InStep ρ tail (peek >>= f) (peek >>= g) ts us S := by
  intro stream other hs ht
  obtain ⟨after, hpeek, hafter⟩ := peek_of_delivery hs
  obtain ⟨otherAfter, hother, hotherAfter⟩ := peek_of_delivery ht
  have hrun := h after otherAfter hafter hotherAfter
  simpa only [Bind.bind, EStateM.bind, hpeek, hother] using hrun

theorem InStep.next_bind (h : InStep ρ tail (f (some t)) (g (some u)) ts us S) :
    InStep ρ tail (next >>= f) (next >>= g) (t :: ts) (u :: us) S := by
  intro stream other hs ht
  obtain ⟨after, hnext, hafter⟩ := next_of_delivery hs
  obtain ⟨otherAfter, hother, hotherAfter⟩ := next_of_delivery ht
  have hrun := h after otherAfter hafter hotherAfter
  simpa only [Bind.bind, EStateM.bind, hnext, hother, List.head?_cons, List.cons_append] using
    hrun.of_suffix (List.suffix_cons t ts)

end Steps

theorem InStep.get_bind {f : TokenStream → Parser γ} {g : TokenStream → Parser δ}
    (h : ∀ stream other : TokenStream, ts.length < stream.rounds.length → us.length < other.rounds.length →
      InStep ρ tail (f stream) (g other) ts us S) :
    InStep ρ tail (MonadState.get >>= f) (MonadState.get >>= g) ts us S := by
  intro stream other hs ht
  have hrounds := stream.count_lt_rounds
  have hotherRounds := other.count_lt_rounds
  rw [TokenStream.count, hs] at hrounds
  rw [TokenStream.count, ht, List.length_append] at hotherRounds
  exact h stream other hrounds (by omega) stream other hs ht

theorem InStep.nextPos_bind {f : Position → Parser γ} {g : Position → Parser δ}
    (h : InStep ρ tail (f t.pos) (g u.pos) ts us S) :
    InStep ρ tail (nextPos >>= f) (nextPos >>= g) (t :: ts) (u :: us) S := by
  simp only [nextPos, bind_assoc, pure_bind]
  exact .next_bind h

theorem InStep.herePos_bind {f : Position → Parser γ} {g : Position → Parser δ}
    (h : InStep ρ tail (f t.pos) (g u.pos) (t :: ts) (u :: us) S) :
    InStep ρ tail (herePos >>= f) (herePos >>= g) (t :: ts) (u :: us) S := by
  simp only [herePos, bind_assoc, pure_bind]
  exact .peek_bind h

/-! ### Tests -/

/-- A tail that readers of expressions stop before: none, or one that starts with a semicolon. -/
def IsBarred (tail : List PlacedToken) : Prop := ∀ token ∈ tail.head?, token.token = .punctuation .semicolon

theorem InStep.sees_bind {f : Bool → Parser γ} {g : Bool → Parser δ} {test : Token → Bool} (htail : IsBarred tail)
    (hsemicolon : test (.punctuation .semicolon) = false) (hpair : List.Forall₂ (PlacedToken.Like ρ) ts us)
    (hseen : ∀ t u ts' us', ts = t :: ts' → us = u :: us' → t.Like ρ u →
      List.Forall₂ (PlacedToken.Like ρ) ts' us' → InStep ρ tail (f true) (g true) ts us S)
    (hunseen : InStep ρ tail (f false) (g false) ts us S) :
    InStep ρ tail (sees test >>= f) (sees test >>= g) ts us S := by
  simp only [sees, peekIf, bind_assoc]
  refine .peek_bind ?_
  cases hpair with
  | nil =>
      cases tail with
      | nil => simpa using hunseen
      | cons first tail =>
          have hfirst : first.token = .punctuation .semicolon := htail first rfl
          simpa [hfirst, hsemicolon] using hunseen
  | @cons t u ts us hlike hrest =>
      have hrun := hseen t u ts us rfl rfl hlike hrest
      by_cases htest : test u.token = true
      · simpa [hlike.token_eq, htest] using hrun
      · simpa [hlike.token_eq, htest] using hunseen

/-- A token that has to come next is taken away from both streams. -/
theorem InStep.skip_bind {f : Unit → Parser γ} {g : Unit → Parser δ} {test : Token → Bool} {cause : Cause}
    (hpair : List.Forall₂ (PlacedToken.Like ρ) ts us)
    (h : ∀ t u ts' us', ts = t :: ts' → us = u :: us' → t.Like ρ u → List.Forall₂ (PlacedToken.Like ρ) ts' us' →
      InStep ρ tail (f ()) (g ()) ts' us' S) :
    InStep ρ tail ((do if ← sees test then let _ ← next else Parser.complain cause none) >>= f)
      ((do if ← sees test then let _ ← next else Parser.complain cause none) >>= g) ts us S := by
  cases hpair with
  | nil => exact ((FailsAtEnd.skip test cause).bind_left f).inStep ((FailsAtEnd.skip test cause).bind_left g)
  | @cons t u ts us hlike hrest =>
      have hrun := h t u ts us rfl rfl hlike hrest
      have hfail : InStep ρ tail (Parser.complain cause none >>= f) (Parser.complain cause none >>= g)
          (t :: ts) (u :: us) S :=
        .bind (R := fun _ _ => False) (.complain cause none none) fun _ _ _ _ hfalse => hfalse.elim
      simp only [sees, peekIf, bind_assoc]
      refine .peek_bind ?_
      by_cases htest : test u.token = true
      · simpa [hlike.token_eq, htest] using InStep.next_bind hrun
      · simpa [hlike.token_eq, htest] using hfail

end Parser

end LambdaScript
