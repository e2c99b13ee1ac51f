import LambdaScript.Proofs.Expr.Greedy
import LambdaScript.Proofs.Expr.Grouping
import LambdaScript.Proofs.Expr.Run
import Mathlib.Data.List.Forall2

/-!
What the grammar derives is read. A reader that comes upon a greedy phrase takes away just its tokens, whatever comes
behind it, as long as that does not go on with the phrase; a fault further on makes no difference. The induction is on the
greedy cut. Beside what a reader takes stands what it makes of it: a predicate on the result, put together from what holds
of the parts, and of a greedy phrase it makes one and the same tree in every text. A chain of operators is the one phrase
that is not read in the order of its parts: going on from an operand takes in the operators that bind strongly enough and
leaves a chain, which the surroundings go on with.
-/

namespace LambdaScript

namespace Parser

open Grammar

variable {α β : Type} {text : String} {fault : Option Fault} {tokens rest : List PlacedToken}

/-- A reader that comes upon tokens, perhaps with a fault somewhere behind them, ends as `Q` says unless levels give
out. -/
abbrev Accepts (text : String) (fault : Option Fault) (p : Parser α) (tokens : List PlacedToken)
    (Q : α → Delivery → Prop) : Prop :=
  Runs text (· = .tooDeep) p ⟨tokens, fault⟩ Q

/-- A reader takes away some tokens and no more, and makes of them what satisfies `V`. -/
abbrev Takes (text : String) (fault : Option Fault) (p : Parser α) (ts rest : List PlacedToken) (V : α → Prop) :
    Prop :=
  Accepts text fault p (ts ++ rest) fun a d => V a ∧ d = ⟨rest, fault⟩

/-- Looking ahead does not come upon a fault: there is a token, or the end of the text. -/
def IsClear (fault : Option Fault) (tokens : List PlacedToken) : Prop := tokens = [] → fault = none

theorem IsClear.cons {token : PlacedToken} : IsClear fault (token :: tokens) := nofun

theorem IsClear.append_left (h : IsClear fault rest) (ts : List PlacedToken) : IsClear fault (ts ++ rest) :=
  fun hempty => h (List.append_eq_nil_iff.mp hempty).2

theorem IsClear.ne_fault (h : IsClear fault tokens) {found : Fault} :
    (⟨tokens, fault⟩ : Delivery) ≠ ⟨[], some found⟩ := by
  rintro ⟨⟩
  cases h rfl

/-! ### Steps -/

theorem Accepts.bind {p : Parser α} {f : α → Parser β} {Q : α → Delivery → Prop} {R : β → Delivery → Prop}
    (hp : Accepts text fault p tokens Q) (hf : ∀ a d, Q a d → Runs text (· = .tooDeep) (f a) d R) :
    Accepts text fault (p >>= f) tokens R :=
  Runs.bind (Runs.mono hp (fun _ hstop => hstop) hf)

theorem Accepts.mono {p : Parser α} {Q R : α → Delivery → Prop} (hp : Accepts text fault p tokens Q)
    (h : ∀ a d, Q a d → R a d) : Accepts text fault p tokens R :=
  Runs.mono hp (fun _ hstop => hstop) h

theorem Takes.bind {p : Parser α} {f : α → Parser β} {ts : List PlacedToken} {V : α → Prop}
    {Q : β → Delivery → Prop} (hp : Takes text fault p ts rest V) (hf : ∀ a, V a → Accepts text fault (f a) rest Q) :
    Accepts text fault (p >>= f) (ts ++ rest) Q := by
  refine Accepts.bind hp ?_
  rintro a d ⟨ha, rfl⟩
  exact hf a ha

theorem Takes.mono {p : Parser α} {ts : List PlacedToken} {V W : α → Prop} (hp : Takes text fault p ts rest V)
    (h : ∀ a, V a → W a) : Takes text fault p ts rest W :=
  Accepts.mono hp fun a _ hd => ⟨h a hd.1, hd.2⟩

theorem Accepts.peek_bind {f : Option PlacedToken → Parser β} {Q : β → Delivery → Prop}
    (hclear : IsClear fault tokens) (hf : Accepts text fault (f tokens.head?) tokens Q) :
    Accepts text fault (peek >>= f) tokens Q :=
  Runs.bind (.peek (fun _ hfault => absurd hfault hclear.ne_fault) fun _ _ => hf)

theorem Accepts.next_bind {f : Option PlacedToken → Parser β} {Q : β → Delivery → Prop} {token : PlacedToken}
    (hf : Accepts text fault (f (some token)) tokens Q) : Accepts text fault (next >>= f) (token :: tokens) Q :=
  Runs.bind (.next (fun _ hfault => absurd hfault IsClear.cons.ne_fault) fun _ => hf)

theorem Accepts.nextPos_bind {f : Position → Parser β} {Q : β → Delivery → Prop} {token : PlacedToken}
    (hf : Accepts text fault (f token.pos) tokens Q) : Accepts text fault (nextPos >>= f) (token :: tokens) Q :=
  Runs.bind (Accepts.next_bind (Runs.pure hf))

theorem Accepts.herePos_bind {f : Position → Parser β} {Q : β → Delivery → Prop} {token : PlacedToken}
    (hf : Accepts text fault (f token.pos) (token :: tokens) Q) :
    Accepts text fault (herePos >>= f) (token :: tokens) Q :=
  Runs.bind (Accepts.peek_bind .cons (Runs.pure hf))

theorem Accepts.get_bind {f : TokenStream → Parser β} {Q : β → Delivery → Prop}
    (hf : ∀ stream : TokenStream, tokens.length < stream.rounds.length → Accepts text fault (f stream) tokens Q) :
    Accepts text fault (MonadState.get >>= f) tokens Q := Runs.bind (.get hf)

theorem Accepts.sees_bind {test : Token → Bool} {token : Token} (htest : token.Recognised test)
    {f : Bool → Parser β} {Q : β → Delivery → Prop} (hclear : IsClear fault tokens)
    (hseen : Delivery.StartsWith ⟨tokens, fault⟩ token → Accepts text fault (f true) tokens Q)
    (hunseen : ¬Delivery.StartsWith ⟨tokens, fault⟩ token → Accepts text fault (f false) tokens Q) :
    Accepts text fault (sees test >>= f) tokens Q :=
  Runs.bind (.sees htest (fun _ hfault => absurd hfault hclear.ne_fault) hseen hunseen)

theorem Accepts.skipPunctuation_bind {name : String} (mark : Punctuation) (hname : name = mark.text)
    {pos : Position} {f : Unit → Parser β} {Q : β → Delivery → Prop} (hf : Accepts text fault (f ()) tokens Q) :
    Accepts text fault (skipPunctuation name >>= f) (⟨.punctuation mark, pos⟩ :: tokens) Q := by
  refine Runs.bind (Runs.skip (Token.recognised_isPunctuation mark hname)
    (fun _ hfault => absurd hfault IsClear.cons.ne_fault) ?_ ?_)
  · exact fun hmissing => absurd (Delivery.startsWith_cons.mpr rfl) hmissing
  · intro pos tokens hstarts
    cases hstarts
    exact hf

theorem Accepts.skipKeyword_bind {name : String} (word : Keyword) (hname : name = word.text) {pos : Position}
    {f : Unit → Parser β} {Q : β → Delivery → Prop} (hf : Accepts text fault (f ()) tokens Q) :
    Accepts text fault (skipKeyword name >>= f) (⟨.keyword word, pos⟩ :: tokens) Q := by
  refine Runs.bind (Runs.skip (Token.recognised_isKeyword word hname)
    (fun _ hfault => absurd hfault IsClear.cons.ne_fault) ?_ ?_)
  · exact fun hmissing => absurd (Delivery.startsWith_cons.mpr rfl) hmissing
  · intro pos tokens hstarts
    cases hstarts
    exact hf

/-! ### Ends of phrases -/

/-- What may follow a phrase: the end of the text or a token that does not go on with its last operand, and is no `else`
that it would take in. -/
structure Ends (fault : Option Fault) (takesElse : Bool) (rest : List PlacedToken) : Prop where
  clear : IsClear fault rest
  no_call : ¬Delivery.StartsWith ⟨rest, fault⟩ (.punctuation .openParen)
  no_operator : ∀ op, ¬Delivery.StartsWith ⟨rest, fault⟩ (.operator op)
  no_else : takesElse = true → ¬Delivery.StartsWith ⟨rest, fault⟩ (.keyword .elseWord)

theorem Ends.punctuation {takesElse : Bool} {mark : Punctuation} {pos : Position}
    (hmark : mark ≠ .openParen) :
    Ends fault takesElse (⟨.punctuation mark, pos⟩ :: rest) :=
  ⟨.cons, by simpa using hmark, by simp, by simp⟩

theorem Ends.keyword {takesElse : Bool} {word : Keyword} {pos : Position}
    (hword : takesElse = true → word ≠ .elseWord) : Ends fault takesElse (⟨.keyword word, pos⟩ :: rest) :=
  ⟨.cons, by simp, by simp, fun htakes => by simpa using hword htakes⟩

theorem Ends.nil {takesElse : Bool} : Ends none takesElse [] :=
  ⟨fun _ => rfl, Delivery.not_startsWith_nil, fun _ => Delivery.not_startsWith_nil, fun _ => Delivery.not_startsWith_nil⟩

theorem Ends.of_le {a b : Bool} (h : Ends fault b rest) (hle : a = true → b = true) : Ends fault a rest :=
  ⟨h.clear, h.no_call, h.no_operator, fun ha => h.no_else (hle ha)⟩

/-- A reader takes a phrase away, whatever ends it. -/
def IsTakenBy (text : String) (p : Parser α) (takesElse : Bool) (ts : List PlacedToken) (V : α → Prop) : Prop :=
  ∀ ⦃fault : Option Fault⦄ (rest : List PlacedToken), Ends fault takesElse rest → Takes text fault p ts rest V

theorem IsTakenBy.mono {p : Parser α} {b : Bool} {ts : List PlacedToken} {V W : α → Prop}
    (h : IsTakenBy text p b ts V) (himp : ∀ a, V a → W a) : IsTakenBy text p b ts W :=
  fun _ rest hends => (h rest hends).mono himp

/-- A reader takes an item of a list away, which starts as no mark of a list does. -/
def IsItemOf (text : String) (item : Parser α) (ts : List PlacedToken) (V : α → Prop) : Prop :=
  Starts ts ∧ IsTakenBy text item true ts V

theorem IsItemOf.mono {item : Parser α} {ts : List PlacedToken} {V W : α → Prop} (h : IsItemOf text item ts V)
    (himp : ∀ a, V a → W a) : IsItemOf text item ts W := ⟨h.1, h.2.mono himp⟩

/-! ### Lists -/

theorem not_startsWith_of_starts {ts : List PlacedToken} {mark : Punctuation} (h : Starts ts)
    (hopen : mark ≠ .openParen) (hbrace : mark ≠ .openBrace) :
    ¬Delivery.StartsWith ⟨ts ++ rest, fault⟩ (.punctuation mark) := by
  obtain ⟨token, us, rfl, hstarts⟩ := h
  rw [List.cons_append, Delivery.startsWith_cons]
  intro hsame
  rcases hstarts mark hsame with rfl | rfl
  · exact hopen rfl
  · exact hbrace rfl

section Lists

variable {stop name : String} {closing mark : Punctuation} {item : Parser α} {V : β → α → Prop}
  (hstop : stop = closing.text)
  (hname : name = mark.text) (hclosing : closing ≠ .openParen ∧ closing ≠ .openBrace) (hmark : mark ≠ .openParen)
  (hdistinct : mark ≠ closing)

include hstop

/-- A loop over a list ends where the closing mark comes next. -/
theorem takes_itemsUntil_end (rounds : List Char) (first : Bool) (items : List α) {pos : Position} :
    Takes text fault (itemsUntil stop name item rounds first items) [] (⟨.punctuation closing, pos⟩ :: rest)
      (· = items.reverse) := by
  cases rounds with
  | nil => exact Runs.pure ⟨rfl, rfl⟩
  | cons round rounds =>
      refine Accepts.peek_bind .cons ?_
      have hseen : (Token.punctuation closing).isPunctuation stop = true := (Token.isPunctuation_iff hstop).mpr rfl
      simp only [List.nil_append, List.head?_cons, hseen, if_true]
      exact Runs.pure ⟨rfl, rfl⟩

include hname hclosing hmark hdistinct

/-- Items are taken away up to the closing mark, once the place of an item is reached. -/
theorem takes_items {ts : List PlacedToken} {as : List β}
    (h : Separated mark (fun us a => IsItemOf text item us (V a)) ts as) : ∀ (rounds : List Char) (items : List α)
    (pos : Position) (rest : List PlacedToken), ts.length ≤ rounds.length →
    Takes text fault (do
      if ← sees (Token.isPunctuation stop) then Pure.pure items.reverse
      else do
        let a ← item
        itemsUntil stop name item rounds false (a :: items)) ts (⟨.punctuation closing, pos⟩ :: rest)
      fun all => ∃ found, all = items.reverse ++ found ∧ List.Forall₂ V as found := by
  induction h with
  | nil =>
      intro rounds items pos rest _
      refine .sees_bind (Token.recognised_isPunctuation closing hstop) .cons (fun _ => Runs.pure ?_) ?_
      · exact ⟨⟨[], (List.append_nil _).symm, .nil⟩, rfl⟩
      · exact fun hunseen => absurd (Delivery.startsWith_cons.mpr rfl) hunseen
  | @last ts _ hitem =>
      intro rounds items pos rest _
      obtain ⟨hstarts, htakes⟩ := hitem
      refine .sees_bind (Token.recognised_isPunctuation closing hstop) (IsClear.cons.append_left _) (fun hseen => ?_)
        fun _ => ?_
      · exact absurd hseen (not_startsWith_of_starts hstarts hclosing.1 hclosing.2)
      · refine (htakes _ (.punctuation hclosing.1)).bind fun a ha => ?_
        refine (takes_itemsUntil_end hstop rounds false (a :: items)).mono ?_
        rintro _ rfl
        exact ⟨[a], List.reverse_cons, .cons ha .nil⟩
  | @cons ts us _ _ markPos hitem _ ih =>
      intro rounds items pos rest hrounds
      obtain ⟨hstarts, htakes⟩ := hitem
      rw [Takes, List.append_assoc, List.cons_append]
      refine .sees_bind (Token.recognised_isPunctuation closing hstop) (IsClear.cons.append_left _) (fun hseen => ?_)
        fun _ => ?_
      · exact absurd hseen (not_startsWith_of_starts hstarts hclosing.1 hclosing.2)
      · refine (htakes _ (.punctuation hmark)).bind fun a ha => ?_
        cases rounds with
        | nil => simp at hrounds
        | cons round rounds =>
            have hshorter : us.length ≤ rounds.length := by
              simp only [List.length_append, List.length_cons] at hrounds
              omega
            refine .peek_bind .cons ?_
            have hgoes : ¬(Token.punctuation mark).isPunctuation stop = true := by
              rw [Token.isPunctuation_iff hstop]
              exact fun hsame => hdistinct (Token.punctuation.inj hsame)
            simp only [List.head?_cons, hgoes]
            refine .skipPunctuation_bind mark hname ((ih rounds (a :: items) pos rest hshorter).mono ?_)
            rintro _ ⟨found, rfl, hfound⟩
            exact ⟨a :: found, by rw [List.reverse_cons, List.append_assoc]; rfl, .cons ha hfound⟩

/-- The loop over a list takes its items away. It looks for the closing mark once more before the first of them. -/
theorem takes_list {ts : List PlacedToken} {as : List β}
    (h : Separated mark (fun us a => IsItemOf text item us (V a)) ts as) {rounds : List Char}
    (hrounds : ts.length < rounds.length) (close : Position) (rest : List PlacedToken) :
    Takes text fault (itemsUntil stop name item rounds true []) ts (⟨.punctuation closing, close⟩ :: rest)
      (List.Forall₂ V as) := by
  have hfirst : ts = [] ∧ as = [] ∨ Starts ts := by
    cases h with
    | nil => exact .inl ⟨rfl, rfl⟩
    | last hitem => exact .inr hitem.1
    | cons hitem _ => exact .inr (hitem.1.append _)
  rcases hfirst with ⟨rfl, rfl⟩ | hstarts
  · refine (takes_itemsUntil_end hstop rounds true []).mono ?_
    rintro _ rfl
    exact .nil
  · have hclosed : ¬Delivery.StartsWith ⟨ts ++ rest, fault⟩ (.punctuation closing) :=
      not_startsWith_of_starts hstarts hclosing.1 hclosing.2
    obtain ⟨first, us, rfl, -⟩ := hstarts
    have hgoes : ¬first.token.isPunctuation stop = true := by
      rw [Token.isPunctuation_iff hstop]
      simpa using hclosed
    cases rounds with
    | nil => exact absurd hrounds (Nat.not_lt_zero _)
    | cons round rounds =>
        refine .peek_bind .cons ?_
        simp only [List.cons_append, List.head?_cons, hgoes]
        refine Takes.mono (takes_items hstop hname hclosing hmark hdistinct h rounds [] close rest
          (Nat.le_of_lt_succ hrounds)) ?_
        rintro _ ⟨found, rfl, hfound⟩
        exact hfound

end Lists

theorem accepts_delimited_bind {start stop name : String} (opening closing mark : Punctuation)
    {item : Parser α} (hstart : start = opening.text) (hstop : stop = closing.text) (hname : name = mark.text)
    (hclosing : closing ≠ .openParen ∧ closing ≠ .openBrace) (hmark : mark ≠ .openParen)
    (hdistinct : mark ≠ closing)
    {γ : Type} {V : γ → α → Prop} {ts : List PlacedToken} {as : List γ}
    (h : Separated mark (fun us a => IsItemOf text item us (V a)) ts as)
    {pos close : Position} {f : List α → Parser β} {Q : β → Delivery → Prop}
    (hf : ∀ all, List.Forall₂ V as all → Accepts text fault (f all) rest Q) :
    Accepts text fault (delimited start stop name item >>= f)
      (⟨.punctuation opening, pos⟩ :: (ts ++ ⟨.punctuation closing, close⟩ :: rest)) Q := by
  have hitems (all : List α) : Accepts text fault (do
      skipPunctuation stop
      return all) (⟨.punctuation closing, close⟩ :: rest) fun found d => found = all ∧ d = ⟨rest, fault⟩ :=
    .skipPunctuation_bind closing hstop (Runs.pure ⟨rfl, rfl⟩)
  have hsplit : ⟨.punctuation opening, pos⟩ :: (ts ++ ⟨.punctuation closing, close⟩ :: rest) =
      ⟨.punctuation opening, pos⟩ :: (ts ++ [⟨.punctuation closing, close⟩]) ++ rest := by simp
  rw [hsplit]
  refine Takes.bind ?_ hf
  rw [Takes, ← hsplit]
  refine .skipPunctuation_bind opening hstart (.get_bind fun stream hrounds => ?_)
  have hfits : ts.length < stream.rounds.length := by
    rw [List.length_append] at hrounds
    omega
  refine (takes_list hstop hname hclosing hmark hdistinct h hfits close rest).bind fun all hall => ?_
  exact (hitems all).mono fun _ _ hd => ⟨hd.1 ▸ hall, hd.2⟩

theorem takes_ownName {ns : List PlacedToken} {name : Option String} (h : OwnName ns name) {pos : Position} :
    Takes text fault ownName? ns (⟨.punctuation .openParen, pos⟩ :: rest) (· = name) := by
  cases h with
  | none => exact Accepts.peek_bind .cons (Runs.pure ⟨rfl, rfl⟩)
  | some hname =>
      cases hname
      exact Accepts.peek_bind .cons (Accepts.next_bind (Runs.pure ⟨rfl, rfl⟩))

theorem Accepts.variableName_bind {name : String} {pos : Position} {f : String → Parser β}
    {Q : β → Delivery → Prop} (hf : Accepts text fault (f name) tokens Q) :
    Accepts text fault (variableName >>= f) (⟨.identifier name, pos⟩ :: tokens) Q :=
  Runs.bind (Accepts.next_bind (Runs.pure hf))

theorem isItemOf_variableName {ts : List PlacedToken} {name : String} (h : Name ts name) :
    IsItemOf text variableName ts (name = ·) := by
  cases h
  refine ⟨⟨_, _, rfl, fun mark hmark => nomatch hmark⟩, fun _ rest _ => ?_⟩
  exact Accepts.next_bind (Runs.pure ⟨rfl, rfl⟩)

/-! ### Phrases -/

section Phrases

variable {expr : Parser Expr} {V W : Expr → Prop}

theorem isItemOf_binding_bare (name : String) (pos : Position) :
    IsItemOf text (binding expr) [⟨.identifier name, pos⟩] (· = .bare name) := by
  refine ⟨⟨_, _, rfl, fun mark hmark => nomatch hmark⟩, fun _ rest hends => ?_⟩
  refine Accepts.variableName_bind ?_
  refine Accepts.sees_bind (Token.recognised_isOperator .assign (by decide) rfl) hends.clear (fun hseen => ?_)
    fun _ => Runs.pure ⟨rfl, rfl⟩
  exact absurd hseen (hends.no_operator .assign)

theorem isItemOf_binding_bound {b : Bool} {name : String} {ts : List PlacedToken} {pos equals : Position}
    (hinit : IsTakenBy text expr b ts V) :
    IsItemOf text (binding expr) (⟨.identifier name, pos⟩ :: ⟨.operator .assign, equals⟩ :: ts) fun found =>
      ∃ init, V init ∧ found = .bound name init := by
  refine ⟨⟨_, _, rfl, fun mark hmark => nomatch hmark⟩, fun _ rest hends => ?_⟩
  refine Accepts.variableName_bind ?_
  refine Accepts.sees_bind (Token.recognised_isOperator .assign (by decide) rfl) .cons (fun _ => ?_) fun hunseen => ?_
  · refine .next_bind ((hinit rest (hends.of_le fun _ => rfl)).bind fun init hinit => Runs.pure ?_)
    exact ⟨⟨init, hinit, rfl⟩, rfl⟩
  · exact absurd (Delivery.startsWith_cons.mpr rfl) hunseen

/-- What a function and a let have in common: a list in parentheses, and a body. -/
theorem accepts_list_and_body {γ δ : Type} {item : Parser γ} {as : List δ} {U : δ → γ → Prop} {b : Bool}
    {ts us : List PlacedToken} {opens close : Position}
    (hitems : Separated .comma (fun vs a => IsItemOf text item vs (U a)) ts as)
    (hbody : IsTakenBy text expr b us V) (hends : Ends fault b rest) {f : List γ → Expr → Expr} :
    Accepts text fault (do
      let all ← delimited "(" ")" "," item
      let body ← expr
      return f all body) (⟨.punctuation .openParen, opens⟩ ::
        (ts ++ ⟨.punctuation .closeParen, close⟩ :: (us ++ rest))) fun tree d =>
          (∃ all body, List.Forall₂ U as all ∧ V body ∧ tree = f all body) ∧ d = ⟨rest, fault⟩ := by
  refine accepts_delimited_bind .openParen .closeParen .comma rfl rfl rfl (by decide) (by decide) (by decide) hitems
    fun all hall => ?_
  exact (hbody rest hends).bind fun body hbody => Runs.pure ⟨⟨all, body, hall, hbody, rfl⟩, rfl⟩

theorem isTakenBy_lambda {b : Bool} {word : Keyword} {ns ts us : List PlacedToken} {name : Option String}
    {params : List String} {pos opens close : Position} (hword : word = .lambdaWord ∨ word = .lambdaSign)
    (hname : OwnName ns name) (hparams : Separated .comma Name ts params) (hbody : IsTakenBy text expr b us V) :
    IsTakenBy text (atom expr) b (⟨.keyword word, pos⟩ :: (ns ++ ⟨.punctuation .openParen, opens⟩ ::
      (ts ++ ⟨.punctuation .closeParen, close⟩ :: us))) fun tree =>
        ∃ body, V body ∧ tree = .lambda name params body (some pos) := by
  intro fault rest hends
  simp only [Takes, List.cons_append, List.append_assoc]
  have hlambda : Accepts text fault (lambda expr) (⟨.keyword word, pos⟩ :: (ns ++ ⟨.punctuation .openParen, opens⟩ ::
      (ts ++ ⟨.punctuation .closeParen, close⟩ :: (us ++ rest)))) fun tree d =>
        (∃ body, V body ∧ tree = .lambda name params body (some pos)) ∧ d = ⟨rest, fault⟩ := by
    refine .nextPos_bind ((takes_ownName hname).bind ?_)
    rintro _ rfl
    refine (accepts_list_and_body (hparams.imp isItemOf_variableName) hbody hends).mono ?_
    rintro tree d ⟨⟨all, body, hall, hbody, rfl⟩, hd⟩
    obtain rfl : params = all := by rwa [List.forall₂_eq_eq_eq] at hall
    exact ⟨⟨body, hbody, rfl⟩, hd⟩
  rcases hword with rfl | rfl
  · exact .peek_bind .cons hlambda
  · exact .peek_bind .cons hlambda

theorem isTakenBy_letExpr {b : Bool} {ns ts us : List PlacedToken} {name : Option String} {α : Type}
    {as : List α} {U : α → Binding → Prop} {pos opens close : Position} (hname : OwnName ns name)
    (hbindings : Separated .comma (fun vs a => IsItemOf text (binding expr) vs (U a)) ts as)
    (hbody : IsTakenBy text expr b us V) :
    IsTakenBy text (atom expr) b (⟨.keyword .letWord, pos⟩ :: (ns ++ ⟨.punctuation .openParen, opens⟩ ::
      (ts ++ ⟨.punctuation .closeParen, close⟩ :: us))) fun tree =>
        ∃ bindings body, List.Forall₂ U as bindings ∧ V body ∧ LetTree pos bindings body name tree := by
  intro fault rest hends
  simp only [Takes, List.cons_append, List.append_assoc]
  refine .peek_bind .cons (.nextPos_bind ((takes_ownName hname).bind ?_))
  rintro own rfl
  cases own with
  | none =>
      refine (accepts_list_and_body hbindings hbody hends).mono ?_
      rintro _ d ⟨⟨all, body, hall, hbody, rfl⟩, hd⟩
      exact ⟨⟨all, body, hall, hbody, .plain⟩, hd⟩
  | some own =>
      refine (accepts_list_and_body hbindings hbody hends).mono ?_
      rintro _ d ⟨⟨all, body, hall, hbody, rfl⟩, hd⟩
      exact ⟨⟨all, body, hall, hbody, .named own (initTrees_iff.mpr rfl)⟩, hd⟩

/-- A branch behind `then`, or one that starts with a brace. -/
def IsBranchOf (text : String) (expr : Parser Expr) (takesElse : Bool) (ts : List PlacedToken)
    (V : Expr → Prop) : Prop :=
  (∃ pos us, ts = ⟨.keyword .thenWord, pos⟩ :: us ∧ IsTakenBy text expr takesElse us V) ∨
    (∃ pos us, ts = ⟨.punctuation .openBrace, pos⟩ :: us) ∧ IsTakenBy text expr takesElse ts V

/-- Test and branch of a conditional are taken away, and reading goes on with what may be an `else`. -/
theorem accepts_conditional {a b : Bool} {ts us after : List PlacedToken} {pos : Position}
    {Q : Expr → Delivery → Prop}
    (htest : IsTakenBy text expr a ts V) (hbranch : IsBranchOf text expr b us W) (hends : Ends fault b after)
    (hafter : ∀ test consequent, V test → W consequent → Accepts text fault (do
      if ← sees (Token.isKeyword "else") then
        let _ ← next
        let alternative ← expr
        return .ifThenElse test consequent alternative (some pos)
      else
        return .ifThen test consequent (some pos)) after Q) :
    Accepts text fault (conditional expr) (⟨.keyword .ifWord, pos⟩ :: (ts ++ (us ++ after))) Q := by
  refine .nextPos_bind ?_
  rcases hbranch with ⟨thenPos, us, rfl, htaken⟩ | ⟨⟨brace, vs, rfl⟩, htaken⟩
  · refine (htest _ (.keyword fun _ => by decide)).bind fun test htest => ?_
    refine .sees_bind (Token.recognised_isPunctuation .openBrace rfl) .cons (fun hseen => ?_) fun _ => ?_
    · simp at hseen
    · refine .skipKeyword_bind .thenWord rfl ((htaken after hends).bind fun consequent => ?_)
      exact hafter test consequent htest
  · refine (htest _ (.punctuation (by decide))).bind fun test htest => ?_
    refine .sees_bind (Token.recognised_isPunctuation .openBrace rfl) .cons (fun _ => ?_) fun hunseen => ?_
    · exact (htaken after hends).bind fun consequent => hafter test consequent htest
    · simp at hunseen

theorem isTakenBy_conditional {a b : Bool} {ts us : List PlacedToken} {pos : Position}
    (htest : IsTakenBy text expr a ts V) (hbranch : IsBranchOf text expr b us W) :
    IsTakenBy text (atom expr) true (⟨.keyword .ifWord, pos⟩ :: (ts ++ us)) fun tree =>
      ∃ test consequent, V test ∧ W consequent ∧ tree = .ifThen test consequent (some pos) := by
  intro fault rest hends
  rw [Takes, List.cons_append, List.append_assoc]
  refine .peek_bind .cons (accepts_conditional htest hbranch (hends.of_le fun _ => rfl)
    fun test consequent htest hconsequent => ?_)
  refine .sees_bind (Token.recognised_isKeyword .elseWord rfl) hends.clear (fun hseen => ?_) fun _ => Runs.pure ?_
  · exact absurd hseen (hends.no_else rfl)
  · exact ⟨⟨test, consequent, htest, hconsequent, rfl⟩, rfl⟩

theorem isTakenBy_conditional_else {a b : Bool} {ts us vs : List PlacedToken} {pos elsePos : Position}
    {U : Expr → Prop} (htest : IsTakenBy text expr a ts V) (hbranch : IsBranchOf text expr false us W)
    (halternative : IsTakenBy text expr b vs U) :
    IsTakenBy text (atom expr) b
      (⟨.keyword .ifWord, pos⟩ :: (ts ++ (us ++ ⟨.keyword .elseWord, elsePos⟩ :: vs))) fun tree =>
        ∃ test consequent alternative, V test ∧ W consequent ∧ U alternative ∧
          tree = .ifThenElse test consequent alternative (some pos) := by
  intro fault rest hends
  simp only [Takes, List.cons_append, List.append_assoc]
  refine .peek_bind .cons (accepts_conditional htest hbranch (.keyword fun hfalse => nomatch hfalse)
    fun test consequent htest hconsequent => ?_)
  refine .sees_bind (Token.recognised_isKeyword .elseWord rfl) .cons (fun _ => ?_) fun hunseen => ?_
  · refine .next_bind ((halternative rest hends).bind fun alternative halternative => Runs.pure ?_)
    exact ⟨⟨test, consequent, alternative, htest, hconsequent, halternative, rfl⟩, rfl⟩
  · simp at hunseen

/-- A closed operand is read whatever comes behind it: reading goes on with the argument lists there. -/
def IsOperandOf (text : String) (expr : Parser Expr) (ts : List PlacedToken) (V : Expr → Prop) : Prop :=
  ∀ ⦃fault : Option Fault⦄ (rest : List PlacedToken) (Q : Expr → Delivery → Prop),
    (∀ rounds callee, V callee → rest.length < rounds.length →
      Accepts text fault (applications expr rounds callee) rest Q) → Accepts text fault (operand expr) (ts ++ rest) Q

theorem IsOperandOf.mono {ts : List PlacedToken} (h : IsOperandOf text expr ts V) (himp : ∀ e, V e → W e) :
    IsOperandOf text expr ts W :=
  fun _ rest Q hcalls => h rest Q fun rounds callee hcallee => hcalls rounds callee (himp callee hcallee)

/-- An atom that is taken away whatever comes behind it is a closed operand. -/
theorem isOperandOf_atom {ts : List PlacedToken} (hatom : ∀ fault rest, Takes text fault (atom expr) ts rest V) :
    IsOperandOf text expr ts V := by
  intro fault rest Q hcalls
  refine (hatom fault rest).bind fun callee hcallee => ?_
  exact .get_bind fun stream hrounds => hcalls stream.rounds callee hcallee hrounds

/-- The trees of tokens that are operands by themselves. -/
inductive IsLeafTree : PlacedToken → Expr → Prop where
  | boolean (value : Bool) (pos : Position) : IsLeafTree ⟨.boolean value, pos⟩ (.boolean value (some pos))
  | identifier (name : String) (pos : Position) : IsLeafTree ⟨.identifier name, pos⟩ (.variable name (some pos))
  | number (value : Binary64) (pos : Position) : IsLeafTree ⟨.number value, pos⟩ (.number value (some pos))
  | string (value : String) (pos : Position) : IsLeafTree ⟨.string value, pos⟩ (.string value (some pos))

theorem isOperandOf_leaf {token : Token} {pos : Position} (hleaf : IsLeaf token) :
    IsOperandOf text expr [⟨token, pos⟩] (IsLeafTree ⟨token, pos⟩) := by
  refine isOperandOf_atom fun _ rest => ?_
  cases hleaf with
  | boolean value => exact Accepts.peek_bind .cons (.next_bind (Runs.pure ⟨.boolean value pos, rfl⟩))
  | identifier name => exact Accepts.peek_bind .cons (.next_bind (Runs.pure ⟨.identifier name pos, rfl⟩))
  | number value => exact Accepts.peek_bind .cons (.next_bind (Runs.pure ⟨.number value pos, rfl⟩))
  | string value => exact Accepts.peek_bind .cons (.next_bind (Runs.pure ⟨.string value pos, rfl⟩))

theorem isOperandOf_group {b : Bool} {ts : List PlacedToken} {pos close : Position}
    (hexpr : IsTakenBy text expr b ts V) :
    IsOperandOf text expr (⟨.punctuation .openParen, pos⟩ :: (ts ++ [⟨.punctuation .closeParen, close⟩])) V := by
  refine isOperandOf_atom fun _ rest => ?_
  simp only [Takes, List.cons_append, List.append_assoc, List.nil_append]
  refine .peek_bind .cons (.next_bind ?_)
  refine (hexpr _ (.punctuation (by decide))).bind fun e he => ?_
  exact .skipPunctuation_bind .closeParen rfl (Runs.pure ⟨he, rfl⟩)

theorem isOperandOf_block {α : Type} {ts : List PlacedToken} {as : List α} {U : α → Expr → Prop} {pos close : Position}
    (hbody : Separated .semicolon (fun us a => IsItemOf text expr us (U a)) ts as) :
    IsOperandOf text expr (⟨.punctuation .openBrace, pos⟩ :: (ts ++ [⟨.punctuation .closeBrace, close⟩])) fun tree =>
      ∃ body, List.Forall₂ U as body ∧ tree = blockOf pos body := by
  refine isOperandOf_atom fun _ rest => ?_
  simp only [Takes, List.cons_append, List.append_assoc, List.nil_append]
  refine .peek_bind .cons (.herePos_bind ?_)
  exact accepts_delimited_bind .openBrace .closeBrace .semicolon rfl rfl rfl (by decide) (by decide) (by decide) hbody
    fun all hall => Runs.pure ⟨⟨all, hall, rfl⟩, rfl⟩

theorem isOperandOf_call {α : Type} {ts us : List PlacedToken} {as : List α} {U : α → Expr → Prop}
    {pos close : Position} (hcallee : IsOperandOf text expr ts V)
    (hargs : Separated .comma (fun us a => IsItemOf text expr us (U a)) us as) :
    IsOperandOf text expr
      (ts ++ ⟨.punctuation .openParen, pos⟩ :: (us ++ [⟨.punctuation .closeParen, close⟩])) fun tree =>
        ∃ callee args, V callee ∧ List.Forall₂ U as args ∧ tree = .call callee args (some pos) := by
  intro fault rest Q hcalls
  simp only [List.cons_append, List.append_assoc, List.nil_append]
  refine hcallee _ Q fun rounds callee hcallee hrounds => ?_
  cases rounds with
  | nil => simp at hrounds
  | cons round rounds =>
      have hfits : rest.length < rounds.length := by
        simp only [List.length_append, List.length_cons] at hrounds
        omega
      refine .sees_bind (Token.recognised_isPunctuation .openParen rfl) .cons (fun _ => ?_) fun hunseen => ?_
      · refine Runs.bind (Accepts.herePos_bind ?_)
        refine accepts_delimited_bind .openParen .closeParen .comma rfl rfl rfl (by decide) (by decide) (by decide)
          hargs fun all hall => Runs.pure ?_
        exact hcalls rounds _ ⟨callee, all, hcallee, hall, rfl⟩ hfits
      · simp at hunseen

/-- Where no argument list follows, a closed operand is taken away. -/
theorem IsOperandOf.takes {ts : List PlacedToken} (h : IsOperandOf text expr ts V) (hclear : IsClear fault rest)
    (hcall : ¬Delivery.StartsWith ⟨rest, fault⟩ (.punctuation .openParen)) :
    Takes text fault (operand expr) ts rest V := by
  refine h rest _ fun rounds callee hcallee hrounds => ?_
  cases rounds with
  | nil => simp at hrounds
  | cons round rounds =>
      refine .sees_bind (Token.recognised_isPunctuation .openParen rfl) hclear (fun hseen => ?_)
        fun _ => Runs.pure ⟨hcallee, rfl⟩
      exact absurd hseen hcall

theorem takes_applied_end {callee : Expr} (hclear : IsClear fault rest)
    (hcall : ¬Delivery.StartsWith ⟨rest, fault⟩ (.punctuation .openParen)) :
    Takes text fault (applied expr callee) [] rest (· = callee) := by
  refine .get_bind fun stream hrounds => ?_
  cases hloop : stream.rounds with
  | nil => simp [hloop] at hrounds
  | cons round rounds =>
      refine .sees_bind (Token.recognised_isPunctuation .openParen rfl) hclear (fun hseen => ?_)
        fun _ => Runs.pure ⟨rfl, rfl⟩
      exact absurd hseen hcall

end Phrases

/-! ### Chains of operators -/

/-- A chain as reading comes upon it: closed operands with operators between them, and at the end an operand that may be
an open phrase. Beside the tokens stand the trees of the operands, which depend neither on the text nor on the levels. -/
inductive IsChain (takesElse : Bool) : List PlacedToken → Expr → List Link → Prop where
  | last {ts : List PlacedToken} {e : Expr}
      (htaken : ∀ text depth, IsTakenBy text (operand (expression depth)) takesElse ts (e = ·)) :
      IsChain takesElse ts e []
  | link {ts us : List PlacedToken} {op : Operator} {pos : Position} {e first : Expr} {links : List Link}
      (hop : op ∈ Operator.known) (hoperand : ∀ text depth, IsOperandOf text (expression depth) ts (e = ·))
      (hrest : IsChain takesElse us first links) :
      IsChain takesElse (ts ++ ⟨.operator op, pos⟩ :: us) e (⟨op, pos, first⟩ :: links)

/-- What may be left of a chain behind an operand: nothing, or an operator and a chain. -/
inductive IsTail (takesElse : Bool) : List PlacedToken → List Link → Prop where
  | nil : IsTail takesElse [] []
  | cons {us : List PlacedToken} {op : Operator} {pos : Position} {first : Expr} {links : List Link}
      (hop : op ∈ Operator.known) (hchain : IsChain takesElse us first links) :
      IsTail takesElse (⟨.operator op, pos⟩ :: us) (⟨op, pos, first⟩ :: links)

/-- Reading one operand of a chain leaves a tail. -/
theorem IsChain.accepts_operand {b : Bool} {ts : List PlacedToken} {e : Expr} {links : List Link}
    (h : IsChain b ts e links) (hends : Ends fault b rest) (depth : Nat) :
    Accepts text fault (Parser.operand (expression depth)) (ts ++ rest) fun tree d =>
      e = tree ∧ ∃ us, IsTail b us links ∧ d = ⟨us ++ rest, fault⟩ := by
  cases h with
  | last htaken =>
      refine Accepts.mono (htaken text depth rest hends) ?_
      intro _ d hrest
      exact ⟨hrest.1, [], .nil, hrest.2⟩
  | @link ts us op pos e first links hop hoperand hrest =>
      rw [List.append_assoc]
      refine Accepts.mono ((hoperand text depth).takes .cons (by simp)) ?_
      intro _ d hoperand
      exact ⟨hoperand.1, _, .cons hop hrest, hoperand.2⟩

theorem Accepts.peekOperator_bind {f : Option (Operator × Position) → Parser β} {Q : β → Delivery → Prop}
    {op : Operator} {pos : Position} (hf : Accepts text fault (f (some (op, pos))) (⟨.operator op, pos⟩ :: tokens) Q) :
    Accepts text fault (peekOperator >>= f) (⟨.operator op, pos⟩ :: tokens) Q :=
  Runs.bind (Accepts.peek_bind .cons (Runs.pure hf))

theorem Accepts.peekOperator_bind_none {f : Option (Operator × Position) → Parser β} {Q : β → Delivery → Prop}
    (hclear : IsClear fault tokens) (hnone : ∀ op, ¬Delivery.StartsWith ⟨tokens, fault⟩ (.operator op))
    (hf : Accepts text fault (f none) tokens Q) : Accepts text fault (peekOperator >>= f) tokens Q := by
  refine Runs.bind (Accepts.peek_bind hclear ?_)
  rcases tokens with _ | ⟨⟨token, pos⟩, tokens⟩
  · exact Runs.pure hf
  · cases token with
    | operator op => exact absurd (Delivery.startsWith_cons.mpr rfl) (hnone op)
    | _ => exact Runs.pure hf

/-- Going on from an operand takes operators in as long as they bind more strongly than the bound, makes a tree of them,
and leaves a tail that starts with one that does not. -/
theorem accepts_climb {b : Bool} (hends : Ends fault b rest) (depth : Nat) :
    ∀ (us : List PlacedToken) (links : List Link) (left : Expr) (precedence : Nat), IsTail b us links →
    Accepts text fault (climb depth left precedence) (us ++ rest) fun e d =>
      ∃ taken behind vs, links = taken ++ behind ∧ Grouped left taken e ∧
        (∀ link ∈ taken, precedence < link.op.precedence) ∧
        (∀ link ∈ behind.head?, link.op.precedence ≤ precedence) ∧ IsTail b vs behind ∧ d = ⟨vs ++ rest, fault⟩ := by
  induction depth with
  | zero =>
      intro us links left precedence _
      rw [climb]
      exact Runs.throw rfl
  | succ depth ih =>
      intro us links left precedence htail
      rw [climb]
      cases htail with
      | nil =>
          refine Accepts.peekOperator_bind_none hends.clear hends.no_operator (Runs.pure ?_)
          exact ⟨[], [], [], rfl, .operand left, List.forall_mem_nil _, nofun, .nil, rfl⟩
      | @cons vs op pos first links hop hchain =>
          refine Accepts.peekOperator_bind ?_
          by_cases hstronger : precedence < op.precedence
          · simp only [hstronger, if_true]
            refine .next_bind ((hchain.accepts_operand hends depth).bind ?_)
            rintro _ d ⟨rfl, us, htail, rfl⟩
            refine (ih us links first op.precedence htail).bind ?_
            rintro right d ⟨inner, behind, ws, rfl, hright, hinner, hbehind, htail, rfl⟩
            refine (ih ws behind (combine op pos left right) precedence htail).mono ?_
            rintro e d ⟨outer, behind, us, rfl, htree, houter, hweaker, htail, rfl⟩
            refine ⟨⟨op, pos, first⟩ :: (inner ++ outer), behind, us, ?_, ?_, ?_, hweaker, htail, rfl⟩
            · simp
            · refine hright.link hinner (operatorTree_combine op pos left right) htree fun link hhead => hbehind link ?_
              rw [List.head?_append, hhead]
              rfl
            · refine List.forall_mem_cons.mpr ⟨hstronger, fun link hmem => ?_⟩
              rcases List.mem_append.mp hmem with hlink | hlink
              · exact Nat.lt_trans hstronger (hinner link hlink)
              · exact houter link hlink
          · simp only [hstronger, if_false]
            refine Runs.pure ⟨[], _, _, rfl, .operand left, List.forall_mem_nil _, ?_, .cons hop hchain, rfl⟩
            rintro link ⟨⟩
            exact Nat.le_of_not_lt hstronger

/-- Every known operator binds more strongly than nothing, so the outermost chain is taken in whole. -/
theorem precedence_pos {op : Operator} (hop : op ∈ Operator.known) : 0 < op.precedence := by
  revert op
  decide

/-- A chain is read as the one tree that it has. -/
theorem IsChain.isTakenBy {b : Bool} {ts : List PlacedToken} {first : Expr} {links : List Link}
    (h : IsChain b ts first links) (text : String) (depth : Nat) :
    IsTakenBy text (expression depth) b ts ((Grouping.ofChain first links).toExpr = ·) := by
  intro fault rest hends
  cases depth with
  | zero =>
      rw [Takes, expression]
      exact Runs.throw rfl
  | succ depth =>
      rw [Takes, expression]
      refine (h.accepts_operand hends depth).bind ?_
      rintro _ d ⟨rfl, us, htail, rfl⟩
      refine (accepts_climb hends depth us links first 0 htail).bind ?_
      rintro tree d ⟨taken, behind, vs, rfl, htree, -, hweaker, htail, rfl⟩
      cases htail with
      | nil =>
          refine (takes_applied_end hends.clear hends.no_call).mono ?_
          rintro _ rfl
          rw [List.append_nil]
          exact htree.eq_ofChain.symm
      | cons hop => exact absurd (hweaker _ rfl) (Nat.not_le_of_lt (precedence_pos hop))

/-! ### All phrases -/

/-- An open phrase takes in all that could be an argument list behind it. -/
theorem isTakenBy_operand {expr : Parser Expr} {b : Bool} {ts : List PlacedToken} {V : Expr → Prop}
    (h : IsTakenBy text (atom expr) b ts V) : IsTakenBy text (operand expr) b ts V := by
  intro fault rest hends
  refine (h rest hends).bind fun callee hcallee => (takes_applied_end hends.clear hends.no_call).mono ?_
  rintro _ rfl
  exact hcallee

/-- The reader of the items of a list. -/
def itemReader : (kind : Item) → Nat → Parser kind.Result
  | .expression, depth => expression depth
  | .binding, depth => binding (expression depth)

/-- The reader of a list item takes it away, in any text and with any number of levels as the same thing. -/
def IsItem (kind : Item) (ts : List PlacedToken) (a : kind.Result) : Prop :=
  ∀ text depth, IsItemOf text (itemReader kind depth) ts (a = ·)

/-- What reading does with a greedy phrase. What it makes of the phrase depends neither on the text nor on the levels. -/
def IsAccepted (ts : List PlacedToken) : Form → Prop
  | .expression b => ∃ first links, IsChain b ts first links
  | .closed => ∃ e, ∀ text depth, IsOperandOf text (expression depth) ts (e = ·)
  | .opened b => ∃ e, ∀ text depth, IsTakenBy text (atom (expression depth)) b ts (e = ·)
  | .branch b => ∃ e, ∀ text depth, IsBranchOf text (expression depth) b ts (e = ·)
  | .item kind => ∃ a, IsItem kind ts a
  | .list mark kind => ∃ as, Separated mark (IsItem kind) ts as

/-- A token that is an operand by itself has one tree. -/
theorem exists_leafTree {token : Token} (h : IsLeaf token) (pos : Position) :
    ∃ e, ∀ tree, IsLeafTree ⟨token, pos⟩ tree → e = tree := by
  cases h with
  | boolean value => exact ⟨.boolean value (some pos), by rintro _ ⟨⟩; rfl⟩
  | identifier name => exact ⟨.variable name (some pos), by rintro _ ⟨⟩; rfl⟩
  | number value => exact ⟨.number value (some pos), by rintro _ ⟨⟩; rfl⟩
  | string value => exact ⟨.string value (some pos), by rintro _ ⟨⟩; rfl⟩

/-- **Every greedy phrase is read.** -/
theorem isAccepted_of_greedy {form : Form} {ts : List PlacedToken} (h : Greedy form ts) : IsAccepted ts form := by
  induction h with
  | @leaf token pos hleaf =>
      obtain ⟨e, he⟩ := exists_leafTree hleaf pos
      exact ⟨e, fun text depth => (isOperandOf_leaf hleaf).mono he⟩
  | group _ ih =>
      obtain ⟨first, links, hchain⟩ := ih
      exact ⟨_, fun text depth => isOperandOf_group (hchain.isTakenBy text depth)⟩
  | @block ts pos close _ ih =>
      obtain ⟨es, hbody⟩ := ih
      refine ⟨blockOf pos es, fun text depth => ?_⟩
      refine (isOperandOf_block (hbody.imp fun hitem => hitem text depth)).mono ?_
      rintro _ ⟨body, hall, rfl⟩
      rw [List.forall₂_eq_eq_eq] at hall
      rw [hall]
  | @call ts us pos close _ _ ihcallee ihargs =>
      obtain ⟨callee, hcallee⟩ := ihcallee
      obtain ⟨es, hargs⟩ := ihargs
      refine ⟨.call callee es (some pos), fun text depth => ?_⟩
      refine (isOperandOf_call (hcallee text depth) (hargs.imp fun hitem => hitem text depth)).mono ?_
      rintro _ ⟨_, args, rfl, hall, rfl⟩
      rw [List.forall₂_eq_eq_eq] at hall
      rw [hall]
  | @lambda b word ns ts us name params pos opens close hword hname hparams _ ih =>
      obtain ⟨first, links, hchain⟩ := ih
      refine ⟨.lambda name params (Grouping.ofChain first links).toExpr (some pos), fun text depth => ?_⟩
      refine (isTakenBy_lambda hword hname hparams (hchain.isTakenBy text depth)).mono ?_
      rintro _ ⟨_, rfl, rfl⟩
      rfl
  | @letIn b ns ts us name pos opens close hname _ _ ihbindings ihbody =>
      obtain ⟨bs, hbindings⟩ := ihbindings
      obtain ⟨first, links, hchain⟩ := ihbody
      obtain ⟨e, he⟩ := exists_letTree pos bs (Grouping.ofChain first links).toExpr name
      refine ⟨e, fun text depth => ?_⟩
      refine (isTakenBy_letExpr hname (hbindings.imp fun hitem => hitem text depth)
        (hchain.isTakenBy text depth)).mono ?_
      rintro tree ⟨bindings, _, hall, rfl, htree⟩
      rw [List.forall₂_eq_eq_eq] at hall
      rw [← hall] at htree
      exact (he tree).mp htree
  | @ifThen a b ts us pos _ _ ihtest ihbranch =>
      obtain ⟨first, links, htest⟩ := ihtest
      obtain ⟨branch, hbranch⟩ := ihbranch
      refine ⟨.ifThen (Grouping.ofChain first links).toExpr branch (some pos), fun text depth => ?_⟩
      refine (isTakenBy_conditional (htest.isTakenBy text depth) (hbranch text depth)).mono ?_
      rintro _ ⟨_, _, rfl, rfl, rfl⟩
      rfl
  | @ifThenElse a b ts us vs pos elsePos _ _ _ ihtest ihbranch ihalternative =>
      obtain ⟨first, links, htest⟩ := ihtest
      obtain ⟨branch, hbranch⟩ := ihbranch
      obtain ⟨first', links', halternative⟩ := ihalternative
      refine ⟨.ifThenElse (Grouping.ofChain first links).toExpr branch (Grouping.ofChain first' links').toExpr
        (some pos), fun text depth => ?_⟩
      refine (isTakenBy_conditional_else (htest.isTakenBy text depth) (hbranch text depth)
        (halternative.isTakenBy text depth)).mono ?_
      rintro _ ⟨_, _, _, rfl, rfl, rfl, rfl⟩
      rfl
  | word _ ih =>
      obtain ⟨first, links, hchain⟩ := ih
      exact ⟨_, fun text depth => .inl ⟨_, _, rfl, hchain.isTakenBy text depth⟩⟩
  | brace _ ih =>
      obtain ⟨first, links, hchain⟩ := ih
      exact ⟨_, fun text depth => .inr ⟨⟨_, _, rfl⟩, hchain.isTakenBy text depth⟩⟩
  | closed _ ih =>
      obtain ⟨e, hclosed⟩ := ih
      exact ⟨e, [], .last fun text depth _ rest hends => (hclosed text depth).takes hends.clear hends.no_call⟩
  | opened _ ih =>
      obtain ⟨e, hopened⟩ := ih
      exact ⟨e, [], .last fun text depth => isTakenBy_operand (hopened text depth)⟩
  | chain _ hop _ ihclosed ihrest =>
      obtain ⟨e, hclosed⟩ := ihclosed
      obtain ⟨first, links, hrest⟩ := ihrest
      exact ⟨e, _, .link hop hclosed hrest⟩
  | expression hexpr ih =>
      obtain ⟨first, links, hchain⟩ := ih
      refine ⟨(Grouping.ofChain first links).toExpr, fun text depth => ⟨hexpr.starts, fun _ rest hends => ?_⟩⟩
      exact hchain.isTakenBy text depth rest (hends.of_le fun _ => rfl)
  | bare name pos =>
      refine ⟨Binding.bare name, fun text depth => (isItemOf_binding_bare name pos).mono ?_⟩
      rintro _ rfl
      rfl
  | @bound b name ts pos equals _ ih =>
      obtain ⟨first, links, hchain⟩ := ih
      refine ⟨Binding.bound name (Grouping.ofChain first links).toExpr, fun text depth => ?_⟩
      refine (isItemOf_binding_bound (hchain.isTakenBy text depth)).mono ?_
      rintro _ ⟨_, rfl, rfl⟩
      rfl
  | nil => exact ⟨[], .nil⟩
  | last _ ih =>
      obtain ⟨a, hitem⟩ := ih
      exact ⟨[a], .last hitem⟩
  | cons _ _ ihitem ihrest =>
      obtain ⟨a, hitem⟩ := ihitem
      obtain ⟨as, hrest⟩ := ihrest
      exact ⟨a :: as, .cons hitem hrest⟩

/-! ### Programs -/

theorem takes_programFrom_end {expr : Parser Expr} (rounds : List Char) (body : List Expr) :
    Takes text none (programFrom expr rounds body) [] [] (· = body.reverse) := by
  cases rounds with
  | nil => exact Runs.pure ⟨rfl, rfl⟩
  | cons round rounds => exact Accepts.peek_bind (fun _ => rfl) (Runs.pure ⟨rfl, rfl⟩)

theorem takes_programFrom {expr : Parser Expr} {ts : List PlacedToken} {as : List α} {V : α → Expr → Prop}
    (h : Separated .semicolon (fun us a => IsItemOf text expr us (V a)) ts as) :
    ∀ (rounds : List Char) (body : List Expr), ts.length < rounds.length →
      Takes text none (programFrom expr rounds body) ts [] fun all =>
        ∃ found, all = body.reverse ++ found ∧ List.Forall₂ V as found := by
  induction h with
  | nil =>
      intro rounds body _
      refine (takes_programFrom_end rounds body).mono ?_
      rintro _ rfl
      exact ⟨[], (List.append_nil _).symm, .nil⟩
  | @last ts a hitem =>
      intro rounds body hrounds
      obtain ⟨⟨token, us, rfl, -⟩, htaken⟩ := hitem
      cases rounds with
      | nil => exact absurd hrounds (Nat.not_lt_zero _)
      | cons round rounds =>
          refine .peek_bind .cons ((htaken [] .nil).bind fun e he => .peek_bind (fun _ => rfl) ?_)
          refine (takes_programFrom_end rounds (e :: body)).mono ?_
          rintro _ rfl
          exact ⟨[e], List.reverse_cons, .cons he .nil⟩
  | @cons ts us a as pos hitem hrest ih =>
      intro rounds body hrounds
      obtain ⟨⟨token, vs, rfl, -⟩, htaken⟩ := hitem
      cases rounds with
      | nil => exact absurd hrounds (Nat.not_lt_zero _)
      | cons round rounds =>
          have hfits : us.length < rounds.length := by
            simp only [List.length_append, List.length_cons] at hrounds
            omega
          rw [Takes, List.append_assoc]
          refine .peek_bind .cons ((htaken _ (.punctuation (by decide))).bind fun e he => .peek_bind .cons ?_)
          refine .skipPunctuation_bind .semicolon rfl ((ih rounds (e :: body) hfits).mono ?_)
          rintro _ ⟨found, rfl, hfound⟩
          exact ⟨e :: found, by rw [List.reverse_cons, List.append_assoc]; rfl, .cons he hfound⟩

/-- A reader of programs takes expressions with semicolons between them in whole. -/
theorem takes_program_of_items {ts : List PlacedToken} {as : List α} {V : α → Expr → Prop} {depth : Nat}
    (h : Separated .semicolon (fun us a => IsItemOf text (expression depth) us (V a)) ts as) :
    Takes text none (program depth) ts [] fun tree => ∃ body, List.Forall₂ V as body ∧ tree = .block body (some .start) := by
  refine .get_bind fun stream hrounds => ?_
  rw [List.append_nil] at hrounds
  refine (takes_programFrom h stream.rounds [] hrounds).bind ?_
  rintro all ⟨body, hall, hbody⟩
  obtain rfl : all = body := hall
  exact Runs.pure ⟨⟨all, hbody, rfl⟩, rfl⟩

/-- **Completeness.** A reader of programs takes a derivable token list in whole. -/
theorem takes_program {ts : List PlacedToken} {e : Expr} (h : Program ts e) (depth : Nat) :
    Takes text none (program depth) ts [] fun _ => True := by
  cases h with
  | block hbody =>
      obtain ⟨es, hitems⟩ := isAccepted_of_greedy (greedy_body hbody)
      have hlist : Separated .semicolon (fun us (e : Expr) => IsItemOf text (expression depth) us (e = ·)) ts es :=
        hitems.imp fun hitem => hitem text depth
      exact (takes_program_of_items hlist).mono fun _ _ => trivial

end Parser

end LambdaScript
