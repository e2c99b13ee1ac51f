import LambdaScript.Proofs.Expr.Grammar
import LambdaScript.Proofs.Expr.Run

/-!
What reading delivers is a phrase. Every reader takes away the tokens of a phrase of its kind and gives the
tree of one derivation of it, or stops at a fault of the text. It stops for want of levels only where no more
tokens are left than it has levels: a nested expression starts behind a token of its surroundings, and so does
an operand behind its operator.
-/

namespace LambdaScript

/-- Why reading stops: for a fault of the text, or, if `deep` holds, because no level is left. -/
def Stop.IsOfReading (text : String) (deep : Prop) : Stop → Prop
  | .fault noticed => noticed.IsParsingIn text
  | .tooDeep => deep

namespace Parser

open Grammar

variable {α β : Type} {text : String} {n : Nat} {d : Delivery}

/-- Reading takes tokens away that stand in relation `R` to the result and to what is left. Levels may give
out only if there are at least `n` tokens. -/
def Reads (text : String) (n : Nat) (p : Parser α) (d : Delivery)
    (R : List PlacedToken → α → Delivery → Prop) :
    Prop :=
  Runs text (Stop.IsOfReading text (n ≤ d.tokens.length)) p d fun a rest => ∃ ts, d = rest.behind ts ∧ R ts a rest

variable {p : Parser α} {f : α → Parser β} {S R' : List PlacedToken → α → Delivery → Prop}
  {R : List PlacedToken → β → Delivery → Prop}

theorem Reads.pure {b : β} (h : R [] b d) :
    Reads text n (Pure.pure b : Parser β) d R := Runs.pure ⟨[], rfl, h⟩

theorem Reads.mono {m : Nat} (h : Reads text n p d S) (hle : m ≤ n)
    (hR : ∀ ts a rest, S ts a rest → R' ts a rest) :
    Reads text m p d R' := by
  refine Runs.mono h (fun stop hstop => ?_) ?_
  · cases stop with
    | fault fault => exact hstop
    | tooDeep => exact Nat.le_trans hle hstop
  · intro a rest hresult
    obtain ⟨ts, hsplit, hread⟩ := hresult
    exact ⟨ts, hsplit, hR ts a rest hread⟩

theorem Reads.of_le {m : Nat} (h : Reads text n p d S) (hle : m ≤ n) : Reads text m p d S :=
  h.mono hle fun _ _ _ hread => hread

/-- The tokens that were taken away are the first ones of the delivery. -/
theorem Reads.split (h : Reads text n p d S) :
    Reads text n p d fun ts a rest => d = rest.behind ts ∧ S ts a rest := by
  refine Runs.mono h (fun _ hstop => hstop) ?_
  intro a rest hresult
  obtain ⟨ts, hsplit, hread⟩ := hresult
  exact ⟨ts, hsplit, hsplit, hread⟩

/-- Behind the tokens that one reader took away, the next one has as many levels less to account for. -/
theorem Reads.bind_sub (hp : Reads text n p d S)
    (hf : ∀ ts a rest, S ts a rest → Reads text (n - ts.length) (f a) rest fun us => R (ts ++ us)) :
    Reads text n (p >>= f) d R := by
  refine Runs.bind (Runs.mono hp (fun _ hstop => hstop) ?_)
  intro a rest hresult
  obtain ⟨ts, rfl, hread⟩ := hresult
  refine Runs.mono (hf ts a rest hread) (fun stop hstop => ?_) ?_
  · cases stop with
    | fault fault => exact hstop
    | tooDeep =>
        have hdeep : n - ts.length ≤ rest.tokens.length := hstop
        show n ≤ (rest.behind ts).tokens.length
        rw [Delivery.tokens_behind, List.length_append]
        omega
  · intro b after hresult
    obtain ⟨us, rfl, hboth⟩ := hresult
    exact ⟨ts ++ us, Delivery.behind_behind .., hboth⟩

theorem Reads.bind (hp : Reads text n p d S)
    (hf : ∀ ts a rest, S ts a rest → Reads text n (f a) rest fun us => R (ts ++ us)) : Reads text n
    (p >>= f) d R :=
  .bind_sub hp fun ts a rest hread => (hf ts a rest hread).of_le (Nat.sub_le ..)

theorem Reads.complain {cause : Cause} {pos : Option Position} (hfamily : cause.family = .parsing)
    (hinternal : cause.isInternal = false) (hdiagnosed : cause.isDiagnosed = true)
    (hpos : ∀ here ∈ pos, IsPlaceIn text here) : Reads text n (Parser.complain cause pos : Parser β) d R := by
  refine Runs.complain fun here hhere => ⟨hfamily, hinternal, hdiagnosed, _, rfl, ?_⟩
  cases pos with
  | none => exact hhere
  | some there => exact hpos there rfl

theorem Reads.get :
    Reads text n (MonadState.get : Parser TokenStream) d fun ts stream rest =>
      ts = [] ∧ rest = d ∧ d.tokens.length < stream.rounds.length :=
  Runs.get fun _ hrounds => ⟨[], rfl, rfl, rfl, hrounds⟩

theorem Reads.peek :
    Reads text n Parser.peek d fun ts token? rest =>
      ts = [] ∧ rest = d ∧ token? = d.tokens.head? ∧ (d.tokens = [] → d.fault = none) ∧
        ∀ token ∈ token?, token.IsIn text :=
  Runs.peek (fun _ _ hparsing => hparsing) fun hhead hend => ⟨[], rfl, rfl, rfl, rfl, hend, hhead⟩

theorem Reads.next :
    Reads text n Parser.next d fun ts token? rest =>
      ts = token?.toList ∧ d = rest.behind ts ∧ ∀ token ∈ token?, token.IsIn text := by
  refine Runs.next (fun _ _ hparsing => hparsing) fun hhead => ⟨d.tokens.head?.toList, ?_, rfl, ?_, hhead⟩
  all_goals
    obtain ⟨tokens, fault⟩ := d
    cases tokens <;> rfl

theorem Reads.next_cons {token : PlacedToken} {tokens : List PlacedToken} {fault : Option Fault} :
    Reads text n Parser.next ⟨token :: tokens, fault⟩ fun ts token? rest =>
      ts = [token] ∧ token? = some token ∧ rest = ⟨tokens, fault⟩ :=
  Runs.next (fun _ hempty _ => nomatch hempty) fun _ => ⟨[token], rfl, rfl, rfl, rfl⟩

theorem Reads.herePos_cons {token : PlacedToken} {tokens : List PlacedToken} {fault : Option Fault} :
    Reads text n herePos ⟨token :: tokens, fault⟩ fun ts pos rest =>
      ts = [] ∧ pos = token.pos ∧ rest = ⟨token :: tokens, fault⟩ := by
  refine .bind .peek ?_
  intro _ _ _ hresult
  obtain ⟨rfl, rfl, rfl, -⟩ := hresult
  exact .pure ⟨rfl, rfl, rfl⟩

theorem Reads.next_of_startsWith {token : Token} (h : d.StartsWith token) :
    Reads text n Parser.next d fun ts _ _ => ∃ pos, ts = [⟨token, pos⟩] := by
  obtain ⟨tokens, fault⟩ := d
  obtain ⟨pos, rest, rfl⟩ := h
  refine next_cons.mono (Nat.le_refl n) ?_
  intro _ _ _ hresult
  obtain ⟨rfl, -⟩ := hresult
  exact ⟨pos, rfl⟩

/-- A token that is known to come next is taken away, and a level need not be accounted for any more. -/
theorem Reads.next_bind {f : Option PlacedToken → Parser β} {token : PlacedToken} {tokens : List PlacedToken}
    {fault : Option Fault} (hf : Reads text n (f (some token)) ⟨tokens, fault⟩ fun us => R (token :: us)) :
    Reads text (n + 1) (Parser.next >>= f) ⟨token :: tokens, fault⟩ R := by
  refine .bind_sub next_cons ?_
  intro _ _ _ hresult
  obtain ⟨rfl, rfl, rfl⟩ := hresult
  exact hf

theorem Reads.nextPos_bind {f : Position → Parser β} {token : PlacedToken} {tokens : List PlacedToken}
    {fault : Option Fault} (hf : Reads text n (f token.pos) ⟨tokens, fault⟩ fun us => R (token :: us)) :
    Reads text (n + 1) (nextPos >>= f) ⟨token :: tokens, fault⟩ R := by
  have hnext : Reads text (n + 1) nextPos ⟨token :: tokens, fault⟩ fun ts pos rest =>
      ts = [token] ∧ pos = token.pos ∧ rest = ⟨tokens, fault⟩ := by
    refine .bind next_cons ?_
    intro _ _ _ hresult
    obtain ⟨rfl, rfl, rfl⟩ := hresult
    exact .pure ⟨rfl, rfl, rfl⟩
  refine .bind_sub hnext ?_
  intro _ _ _ hresult
  obtain ⟨rfl, rfl, rfl⟩ := hresult
  exact hf

theorem Reads.sees {test : Token → Bool} {token : Token} (htest : token.Recognised test) :
    Reads text n (Parser.sees test) d fun ts seen rest => ts = [] ∧ rest = d ∧ (seen = true ↔ d.StartsWith token) :=
  Runs.sees htest (fun _ _ hparsing => hparsing) (fun hseen => ⟨[], rfl, rfl, rfl, by simp [hseen]⟩)
    fun hunseen => ⟨[], rfl, rfl, rfl, by simp [hunseen]⟩

theorem Reads.skipPunctuation {name : String} (mark : Punctuation) (hname : name = mark.text) :
    Reads text n (Parser.skipPunctuation name) d fun ts _ _ => ∃ pos, ts = [⟨.punctuation mark, pos⟩] := by
  refine Runs.skip (Token.recognised_isPunctuation mark hname) (fun _ _ hparsing => hparsing)
    (fun _ here hhere => ⟨rfl, rfl, rfl, here, rfl, hhere⟩) fun pos tokens hstarts => ⟨_, ?_, pos, rfl⟩
  rw [Delivery.behind, List.singleton_append, ← hstarts]

theorem Reads.skipKeyword {name : String} (word : Keyword) (hname : name = word.text) :
    Reads text n (Parser.skipKeyword name) d fun ts _ _ => ∃ pos, ts = [⟨.keyword word, pos⟩] := by
  refine Runs.skip (Token.recognised_isKeyword word hname) (fun _ _ hparsing => hparsing)
    (fun _ here hhere => ⟨rfl, rfl, rfl, here, rfl, hhere⟩) fun pos tokens hstarts => ⟨_, ?_, pos, rfl⟩
  rw [Delivery.behind, List.singleton_append, ← hstarts]

/-! ### Lists and names -/

/-- A reader takes away an item and gives what it stands for, whatever comes behind the item. -/
def Sound (text : String) (n : Nat) (p : Parser α) (Item : List PlacedToken → α → Prop) : Prop :=
  ∀ d, Reads text n p d fun ts a _ => Item ts a

theorem Sound.of_le {m : Nat} {Item : List PlacedToken → α → Prop} (h : Sound text n p Item) (hle : m ≤ n) :
    Sound text m p Item := fun d => (h d).of_le hle

/-- What a loop over a list reads behind an item: nothing, or a mark and further items. -/
def Continued (mark : Punctuation) (Item : List PlacedToken → α → Prop) (ts : List PlacedToken)
    (as : List α) : Prop :=
  (ts = [] ∧ as = []) ∨ ∃ pos us, ts = ⟨.punctuation mark, pos⟩ :: us ∧ Separated mark Item us as

theorem Continued.separated {mark : Punctuation} {Item : List PlacedToken → α → Prop}
    {ts us : List PlacedToken} {a : α} {as : List α} (hitem : Item ts a) (h : Continued mark Item us as) :
    Separated mark Item (ts ++ us) (a :: as) := by
  rcases h with ⟨rfl, rfl⟩ | ⟨pos, us, rfl, hrest⟩
  · rw [List.append_nil]
    exact .last hitem
  · exact .cons hitem hrest

theorem sound_itemsUntil {stop name : String} (closing mark : Punctuation) {item : Parser α}
    {Item : List PlacedToken → α → Prop} (hstop : stop = closing.text) (hname : name = mark.text)
    (hitem : Sound text n item Item) (rounds : List Char) : ∀ items : List α,
    Sound text n (itemsUntil stop name item rounds true items)
      (fun ts all => ∃ more, all = items.reverse ++ more ∧ Separated mark Item ts more) ∧
    Sound text n (itemsUntil stop name item rounds false items)
      (fun ts all => ∃ more, all = items.reverse ++ more ∧ Continued mark Item ts more) := by
  induction rounds with
  | nil =>
      intro items
      exact ⟨fun d => .pure ⟨[], by simp, .nil⟩, fun d => .pure ⟨[], by simp, .inl ⟨rfl, rfl⟩⟩⟩
  | cons round rounds ih =>
      intro items
      -- behind the mark, or at the start, the list may end, or an item follows
      have hbody : Sound text n (do
          if ← sees (Token.isPunctuation stop) then Pure.pure items.reverse
          else do
            let a ← item
            itemsUntil stop name item rounds false (a :: items))
          fun ts all => ∃ more, all = items.reverse ++ more ∧ Separated mark Item ts more := by
        intro d
        refine .bind (.sees (Token.recognised_isPunctuation closing hstop)) ?_
        intro _ seen _ hresult
        obtain ⟨rfl, rfl, -⟩ := hresult
        cases seen with
        | true => exact .pure ⟨[], by simp, .nil⟩
        | false =>
            refine .bind (hitem _) fun ts a rest hread => ((ih (a :: items)).2 rest).mono (Nat.le_refl n) ?_
            intro us all _ hresult
            obtain ⟨more, rfl, hmore⟩ := hresult
            have hitems := hmore.separated hread
            exact ⟨a :: more, by simp, hitems⟩
      constructor
      · intro d
        refine .bind .peek ?_
        intro _ token? rest hresult
        obtain ⟨rfl, rfl, -⟩ := hresult
        cases token? with
        | none => exact .pure ⟨[], by simp, .nil⟩
        | some token =>
            by_cases hclosing : token.token.isPunctuation stop = true
            · simp only [hclosing, if_true]
              exact .pure ⟨[], by simp, .nil⟩
            · simp only [hclosing]
              exact hbody _
      · intro d
        refine .bind .peek ?_
        intro _ token? rest hresult
        obtain ⟨rfl, rfl, -⟩ := hresult
        cases token? with
        | none => exact .pure ⟨[], by simp, .inl ⟨rfl, rfl⟩⟩
        | some token =>
            by_cases hclosing : token.token.isPunctuation stop = true
            · simp only [hclosing, if_true]
              exact .pure ⟨[], by simp, .inl ⟨rfl, rfl⟩⟩
            · simp only [hclosing]
              refine .bind (.skipPunctuation mark hname) ?_
              intro _ _ rest hresult
              obtain ⟨pos, rfl⟩ := hresult
              refine (hbody rest).mono (Nat.le_refl n) ?_
              intro us all _ hresult
              obtain ⟨more, hall, hmore⟩ := hresult
              exact ⟨more, hall, .inr ⟨pos, us, rfl, hmore⟩⟩

/-- Items between two marks; the first mark is one token less for the items to account for. -/
theorem sound_delimited {start stop name : String} (opening closing mark : Punctuation) {item : Parser α}
    {Item : List PlacedToken → α → Prop} (hstart : start = opening.text) (hstop : stop = closing.text)
    (hname : name = mark.text) (hitem : Sound text n item Item) :
    Sound text (n + 1) (delimited start stop name item) fun ts as =>
      ∃ pos us close, ts = ⟨.punctuation opening, pos⟩ :: (us ++ [⟨.punctuation closing, close⟩]) ∧
        Separated mark Item us as := by
  intro d
  refine .bind_sub (.skipPunctuation opening hstart) ?_
  intro _ _ rest hresult
  obtain ⟨pos, rfl⟩ := hresult
  refine .bind .get ?_
  intro _ stream _ hresult
  obtain ⟨rfl, rfl, -⟩ := hresult
  refine .bind ((sound_itemsUntil closing mark hstop hname hitem stream.rounds []).1 _) ?_
  intro us as _ hresult
  obtain ⟨more, rfl, hmore⟩ := hresult
  refine .bind (.skipPunctuation closing hstop) ?_
  intro _ _ _ hresult
  obtain ⟨close, rfl⟩ := hresult
  exact .pure ⟨pos, us, close, by simp, hmore⟩

theorem sound_variableName : Sound text n variableName Name := by
  intro d
  refine .bind .next ?_
  intro _ token? rest hresult
  obtain ⟨rfl, -, hplace⟩ := hresult
  cases token? with
  | none => exact .complain rfl rfl rfl fun here hnone => absurd hnone (Option.not_mem_none here)
  | some token =>
      obtain ⟨token, pos⟩ := token
      cases token with
      | identifier name => exact .pure (.identifier name pos)
      | _ => exact .complain rfl rfl rfl fun here hhere => Option.some.inj hhere ▸ (hplace _ rfl).2

theorem sound_ownName : Sound text n ownName? OwnName := by
  intro hresult
  obtain ⟨tokens, fault⟩ := hresult
  refine .bind .peek ?_
  intro _ _ _ hresult
  obtain ⟨rfl, rfl, rfl, -⟩ := hresult
  rcases tokens with _ | ⟨⟨token, pos⟩, tokens⟩
  · exact .pure .none
  · cases token with
    | identifier name =>
        refine .bind .next_cons ?_
        intro _ _ _ hresult
        obtain ⟨rfl, rfl, rfl⟩ := hresult
        exact .pure (.some (.identifier name pos))
    | _ => exact .pure .none

/-! ### Phrases -/

section Phrases

variable {expr : Parser Expr} (hexpr : Sound text n expr Expression)

include hexpr

theorem sound_binding : Sound text n (binding expr) Binds := by
  intro d
  refine .bind (sound_variableName d) ?_
  intro _ name rest hresult
  obtain ⟨_, pos⟩ := hresult
  refine .bind (.sees (Token.recognised_isOperator .assign (by decide) rfl)) ?_
  intro _ seen _ hresult
  obtain ⟨rfl, rfl, hseen⟩ := hresult
  cases seen with
  | false => exact .pure (.bare name pos)
  | true =>
      refine .bind (.next_of_startsWith (hseen.mp rfl)) ?_
      intro _ _ rest hresult
      obtain ⟨equals, rfl⟩ := hresult
      refine .bind (hexpr rest) fun ts init _ hinit => .pure ?_
      rw [List.append_nil]
      exact .bound hinit

theorem reads_lambda {word : Keyword} {pos : Position} {tokens : List PlacedToken} {fault : Option Fault}
    (hword : word = .lambdaWord ∨ word = .lambdaSign) :
    Reads text (n + 1) (lambda expr) ⟨⟨.keyword word, pos⟩ :: tokens, fault⟩ fun ts e _ => Atom ts e := by
  refine .nextPos_bind (.bind (sound_ownName _) fun ns name rest hname => ?_)
  have hparams : Sound text (n + 1) (delimited "(" ")" "," variableName) _ :=
    sound_delimited .openParen .closeParen .comma rfl rfl rfl sound_variableName
  refine .bind (hparams.of_le (Nat.le_succ n) rest) ?_
  intro _ params rest hresult
  obtain ⟨opens, ts, close, rfl, hparams⟩ := hresult
  refine .bind (hexpr rest) fun us body _ hbody => .pure ?_
  simpa using Atom.lambda hword hname hparams hbody

theorem reads_letExpr {pos : Position} {tokens : List PlacedToken} {fault : Option Fault} :
    Reads text (n + 1) (letExpr expr) ⟨⟨.keyword .letWord, pos⟩ :: tokens, fault⟩ fun ts e _ => Atom ts e := by
  refine .nextPos_bind (.bind (sound_ownName _) fun ns name rest hname => ?_)
  have hlist : Sound text (n + 1) (delimited "(" ")" "," (binding expr)) _ :=
    sound_delimited .openParen .closeParen .comma rfl rfl rfl (sound_binding hexpr)
  cases name with
  | none =>
      refine .bind (hlist.of_le (Nat.le_succ n) rest) ?_
      intro _ bindings rest hresult
      obtain ⟨opens, ts, close, rfl, hbindings⟩ := hresult
      refine .bind (hexpr rest) fun us body _ hbody => .pure ?_
      simpa using Atom.letIn hname hbindings hbody .plain
  | some name =>
      refine .bind (hlist.of_le (Nat.le_succ n) rest) ?_
      intro _ bindings rest hresult
      obtain ⟨opens, ts, close, rfl, hbindings⟩ := hresult
      refine .bind (hexpr rest) fun us body _ hbody => .pure ?_
      simpa using Atom.letIn hname hbindings hbody (.named name (initTrees_iff.mpr rfl))

theorem reads_conditional {pos : Position} {tokens : List PlacedToken} {fault : Option Fault} :
    Reads text (n + 1) (conditional expr) ⟨⟨.keyword .ifWord, pos⟩ :: tokens, fault⟩ fun ts e _ => Atom ts e := by
  refine .nextPos_bind (.bind (hexpr _) fun ts test rest htest => ?_)
  -- what is read behind the test and the `then`, if there is one: a branch, and an `else` whenever there is one
  have hbranch (rest : Delivery) : Reads text n (do
      let consequent ← expr
      if ← sees (Token.isKeyword "else") then
        let _ ← next
        let alternative ← expr
        return .ifThenElse test consequent alternative (some pos)
      else
        return .ifThen test consequent (some pos)) rest fun vs e _ =>
        ∃ us ws consequent, vs = us ++ ws ∧ Expression us consequent ∧
          ∀ us', Consequent us' consequent → Atom (⟨.keyword .ifWord, pos⟩ :: (ts ++ (us' ++ ws))) e := by
    refine .bind (hexpr rest) fun us consequent rest hconsequent => ?_
    refine .bind (.sees (Token.recognised_isKeyword .elseWord rfl)) ?_
    intro _ seen _ hresult
    obtain ⟨rfl, rfl, hseen⟩ := hresult
    cases seen with
    | false =>
        refine .pure ⟨us, [], consequent, by simp, hconsequent, fun us' hbranch => ?_⟩
        simpa using Atom.ifThen htest hbranch
    | true =>
        refine .bind (.next_of_startsWith (hseen.mp rfl)) ?_
        intro _ _ rest hresult
        obtain ⟨elsePos, rfl⟩ := hresult
        refine .bind (hexpr rest) fun vs alternative _ halternative => .pure ?_
        refine ⟨us, ⟨.keyword .elseWord, elsePos⟩ :: vs, consequent, by simp, hconsequent, fun us' hbranch => ?_⟩
        exact .ifThenElse htest hbranch halternative
  refine .bind (.sees (Token.recognised_isPunctuation .openBrace rfl)) ?_
  intro _ seen after hresult
  obtain ⟨rfl, rfl, hseen⟩ := hresult
  cases seen with
  | true =>
      refine (hbranch after).split.mono (Nat.le_refl n) ?_
      intro _ e rest hresult
      obtain ⟨hsplit, us, ws, consequent, rfl, hconsequent, hatom⟩ := hresult
      -- the brace that was seen is the first token of the branch
      obtain ⟨brace, tokens, hstarts⟩ := hseen.mp rfl
      cases us with
      | nil => exact absurd rfl hconsequent.ne_nil
      | cons first us =>
          rw [hsplit] at hstarts
          cases hstarts
          simpa using hatom _ (.brace hconsequent)
  | false =>
      refine .bind (.skipKeyword .thenWord rfl) ?_
      intro _ _ rest hresult
      obtain ⟨thenPos, rfl⟩ := hresult
      refine (hbranch rest).mono (Nat.le_refl n) ?_
      intro _ e _ hresult
      obtain ⟨us, ws, consequent, rfl, hconsequent, hatom⟩ := hresult
      simpa using hatom _ (.word hconsequent)

theorem reads_block {pos : Position} {tokens : List PlacedToken} {fault : Option Fault} :
    Reads text (n + 1) (block expr) ⟨⟨.punctuation .openBrace, pos⟩ :: tokens, fault⟩ fun ts e _ => Atom ts e := by
  refine .bind .herePos_cons ?_
  intro _ _ _ hresult
  obtain ⟨rfl, rfl, rfl⟩ := hresult
  refine .bind (sound_delimited .openBrace .closeBrace .semicolon rfl rfl rfl hexpr _).split ?_
  intro _ body rest hresult
  obtain ⟨hsplit, opens, ts, close, rfl, hbody⟩ := hresult
  cases hsplit
  refine .pure ?_
  simpa using Atom.block hbody (blockTree_iff.mpr rfl)

omit hexpr in
theorem reads_truthValue {value : Bool} {pos : Position} {tokens : List PlacedToken} {fault : Option Fault} :
    Reads text (n + 1) (truthValue value) ⟨⟨.boolean value, pos⟩ :: tokens, fault⟩ fun ts e _ => Atom ts e :=
  .next_bind (.pure (.boolean value pos))

omit hexpr in
theorem reads_unexpected {R : List PlacedToken → Expr → Delivery → Prop} : Reads text n unexpected d R := by
  refine .bind .peek ?_
  intro _ token? _ hresult
  obtain ⟨rfl, rfl, -, -, hplace⟩ := hresult
  cases token? with
  | none => exact .complain rfl rfl rfl fun here hnone => absurd hnone (Option.not_mem_none here)
  | some token => exact .complain rfl rfl rfl fun here hhere => Option.some.inj hhere ▸ (hplace _ rfl).2

theorem sound_atom : Sound text (n + 1) (atom expr) Atom := by
  intro hresult
  obtain ⟨tokens, fault⟩ := hresult
  refine .bind .peek ?_
  intro _ _ _ hresult
  obtain ⟨rfl, rfl, rfl, -⟩ := hresult
  rcases tokens with _ | ⟨⟨token, pos⟩, tokens⟩
  · exact reads_unexpected
  cases token with
  | punctuation mark =>
      cases mark with
      | openParen =>
          refine .next_bind (.bind (hexpr _) fun ts e rest hexpr => ?_)
          refine .bind (.skipPunctuation .closeParen rfl) ?_
          intro _ _ _ hresult
          obtain ⟨close, rfl⟩ := hresult
          refine .pure ?_
          simpa using Atom.group hexpr
      | openBrace => exact reads_block hexpr
      | _ => exact reads_unexpected
  | keyword word =>
      cases word with
      | ifWord => exact reads_conditional hexpr
      | lambdaWord => exact reads_lambda hexpr (.inl rfl)
      | lambdaSign => exact reads_lambda hexpr (.inr rfl)
      | letWord => exact reads_letExpr hexpr
      | _ => exact reads_unexpected
  | boolean value => exact reads_truthValue
  | identifier name => exact .next_bind (.pure (.variable name pos))
  | number value => exact .next_bind (.pure (.number value pos))
  | string value => exact .next_bind (.pure (.string value pos))
  | operator op => exact reads_unexpected

theorem reads_application {callee : Expr} (hcall : d.StartsWith (.punctuation .openParen)) :
    Reads text (n + 1) (application expr callee) d fun us e _ =>
      us ≠ [] ∧ ∀ ts, Operand ts callee → Operand (ts ++ us) e := by
  obtain ⟨tokens, fault⟩ := d
  obtain ⟨pos, tokens, rfl⟩ := hcall
  refine .bind .herePos_cons ?_
  intro _ _ _ hresult
  obtain ⟨rfl, rfl, rfl⟩ := hresult
  refine .bind (sound_delimited .openParen .closeParen .comma rfl rfl rfl hexpr _).split ?_
  intro _ args rest hresult
  obtain ⟨hsplit, opens, us, close, rfl, hargs⟩ := hresult
  cases hsplit
  refine .pure ⟨by simp, fun ts hcallee => ?_⟩
  simpa using Operand.call hcallee hargs

/-- Argument lists are taken in as long as there are any. -/
theorem reads_applications (rounds : List Char) : ∀ (d : Delivery) (callee : Expr),
    d.tokens.length < rounds.length → Reads text (n + 1) (applications expr rounds callee) d fun us e rest =>
      ¬rest.StartsWith (.punctuation .openParen) ∧ ∀ ts, Operand ts callee → Operand (ts ++ us) e := by
  induction rounds with
  | nil => exact fun d callee hrounds => absurd hrounds (Nat.not_lt_zero _)
  | cons round rounds ih =>
      intro d callee hrounds
      refine .bind (.sees (Token.recognised_isPunctuation .openParen rfl)) ?_
      intro _ seen _ hresult
      obtain ⟨rfl, rfl, hseen⟩ := hresult
      cases seen with
      | false => exact .pure ⟨fun hcall => Bool.noConfusion (hseen.mpr hcall), fun ts hcallee => by simpa using hcallee⟩
      | true =>
          refine .bind (reads_application hexpr (hseen.mp rfl)).split ?_
          intro us call rest hresult
          obtain ⟨rfl, hnonempty, hcall⟩ := hresult
          have hshorter : rest.tokens.length < rounds.length := by
            have := List.length_pos_iff.mpr hnonempty
            simp only [Delivery.tokens_behind, List.length_append, List.length_cons] at hrounds
            omega
          refine (ih rest call hshorter).mono (Nat.le_refl _) ?_
          intro vs e after hresult
          obtain ⟨hend, happlied⟩ := hresult
          refine ⟨hend, fun ts hcallee => ?_⟩
          have hoperand := happlied _ (hcall ts hcallee)
          simpa using hoperand

theorem reads_applied (callee : Expr) : Reads text (n + 1) (applied expr callee) d fun us e rest =>
    ¬rest.StartsWith (.punctuation .openParen) ∧ ∀ ts, Operand ts callee → Operand (ts ++ us) e := by
  refine .bind .get ?_
  intro _ stream _ hresult
  obtain ⟨rfl, rfl, hrounds⟩ := hresult
  exact reads_applications hexpr _ _ callee hrounds

/-- Behind an operand there is no argument list. -/
theorem reads_operand : Reads text (n + 1) (operand expr) d fun ts e rest =>
    Operand ts e ∧ ¬rest.StartsWith (.punctuation .openParen) := by
  refine .bind (sound_atom hexpr d) fun ts first rest hatom => ?_
  refine (reads_applied hexpr first).mono (Nat.le_refl _) ?_
  intro us e after hresult
  obtain ⟨hend, happlied⟩ := hresult
  exact ⟨happlied ts (.atom hatom), hend⟩

end Phrases

/-! ### Chains of operators -/

theorem reads_peekOperator : Reads text n peekOperator d fun ts found rest =>
    ts = [] ∧ rest = d ∧
      match found with
      | some (op, pos) => op ∈ Operator.known ∧ ∃ tokens, d = ⟨⟨.operator op, pos⟩ :: tokens, d.fault⟩
      | none => ∀ op, ¬d.StartsWith (.operator op) := by
  obtain ⟨tokens, fault⟩ := d
  refine .bind .peek ?_
  intro _ _ _ hresult
  obtain ⟨rfl, rfl, rfl, -, hplace⟩ := hresult
  rcases tokens with _ | ⟨⟨token, pos⟩, tokens⟩
  · exact .pure ⟨rfl, rfl, fun op => Delivery.not_startsWith_nil⟩
  · cases token with
    | operator op =>
        have hreadable := (hplace _ rfl).1
        cases hreadable with
        | operator hknown => exact .pure ⟨rfl, rfl, hknown, tokens, rfl⟩
    | _ =>
        refine .pure ⟨rfl, rfl, fun op hstarts => ?_⟩
        cases Delivery.startsWith_cons.mp hstarts

/-- What going on from an expression reads: a chain of operators that bind more strongly than the bound.
Behind it is neither a further one nor, if there was none before, an argument list. -/
structure Climbs (d : Delivery) (left : Expr) (precedence : Nat) (us : List PlacedToken) (e : Expr)
    (rest : Delivery) : Prop where
  exists_links : ∃ links, Links us links ∧ Grouped left links e ∧ ∀ link ∈ links, precedence < link.op.precedence
  weaker : ∀ op, rest.StartsWith (.operator op) → op.precedence ≤ precedence
  no_call : ¬d.StartsWith (.punctuation .openParen) → ¬rest.StartsWith (.punctuation .openParen)

/-- One operator with its operand, the stronger ones behind it, and the chain that goes on from there. -/
theorem Climbs.link {d behind rest after : Delivery} {left first right e : Expr} {op : Operator}
    {pos : Position} {precedence : Nat} {ts us vs : List PlacedToken} (hknown : op ∈ Operator.known)
    (hstronger : precedence < op.precedence) (hoperand : Operand ts first)
    (hcall : ¬behind.StartsWith (.punctuation .openParen))
    (hright : Climbs behind first op.precedence us right rest)
    (hsplit : rest = after.behind vs)
    (hrest : Climbs rest (combine op pos left right) precedence vs e after) :
    Climbs d left precedence (⟨.operator op, pos⟩ :: (ts ++ (us ++ vs))) e after := by
  obtain ⟨links, hlinks, hgrouped, hlinksBound⟩ := hright.exists_links
  obtain ⟨outer, houter, htree, houterBound⟩ := hrest.exists_links
  have hbehind := hrest.no_call (hright.no_call hcall)
  refine ⟨⟨⟨op, pos, first⟩ :: (links ++ outer), ?_, ?_, ?_⟩, hrest.weaker, fun _ => hbehind⟩
  · exact .cons hknown hoperand (hlinks.append houter)
  · refine hgrouped.link hlinksBound (operatorTree_combine op pos left right) htree fun link hhead => ?_
    obtain ⟨tokens, rfl⟩ := houter.starts link hhead
    exact hright.weaker link.op ⟨link.pos, _, by rw [hsplit]; rfl⟩
  · intro link hmem
    rcases List.mem_cons.mp hmem with rfl | hmem
    · exact hstronger
    · rcases List.mem_append.mp hmem with hlink | houter
      · exact Nat.lt_trans hstronger (hlinksBound link hlink)
      · exact houterBound link houter

theorem reads_climb {depth : Nat} (hexpr : Sound text depth (expression depth) Expression)
    (hclimb : ∀ d left precedence, Reads text depth (climb depth left precedence) d (Climbs d left precedence))
    (left : Expr) (precedence : Nat) :
    Reads text (depth + 1) (climb (depth + 1) left precedence) d (Climbs d left precedence) := by
  rw [climb]
  refine .bind reads_peekOperator ?_
  intro _ found _ hresult
  obtain ⟨rfl, rfl, hfound⟩ := hresult
  cases found with
  | none =>
      exact .pure ⟨⟨[], .nil, .operand left, List.forall_mem_nil _⟩, fun op hstarts => absurd hstarts (hfound op), id⟩
  | some found =>
      obtain ⟨op, pos⟩ := found
      obtain ⟨hknown, tokens, hstarts⟩ := hfound
      by_cases hstronger : precedence < op.precedence
      · simp only [hstronger, if_true]
        rw [hstarts]
        refine .next_bind ?_
        refine .bind ((reads_operand hexpr).of_le (Nat.le_succ depth)) ?_
        intro ts first behind hresult
        obtain ⟨hoperand, hcall⟩ := hresult
        refine .bind (hclimb behind first op.precedence) fun us right rest hright => ?_
        refine (hclimb rest (combine op pos left right) precedence).split.mono (Nat.le_refl _) ?_
        intro vs e after hresult
        obtain ⟨hsplit, hrest⟩ := hresult
        exact Climbs.link hknown hstronger hoperand hcall hright hsplit hrest
      · simp only [hstronger, if_false]
        refine .pure ⟨⟨[], .nil, .operand left, List.forall_mem_nil _⟩, fun other hother => ?_, id⟩
        obtain ⟨pos, rest, hother⟩ := hother
        rw [hstarts] at hother
        cases hother
        exact Nat.le_of_not_lt hstronger

theorem reads_applied_end {expr : Parser Expr} {callee : Expr}
    (hcall : ¬d.StartsWith (.punctuation .openParen)) :
    Reads text n (applied expr callee) d fun us e _ => us = [] ∧ e = callee := by
  refine .bind .get ?_
  intro _ stream _ hresult
  obtain ⟨rfl, rfl, -⟩ := hresult
  refine .bind (.sees (Token.recognised_isPunctuation .openParen rfl)) ?_
  intro _ seen _ hresult
  obtain ⟨rfl, rfl, hseen⟩ := hresult
  cases seen with
  | true => exact absurd (hseen.mp rfl) hcall
  | false => exact .pure ⟨rfl, rfl⟩

/-- Reading an expression takes in at least one token before it goes a level down. -/
theorem sound_expression_and_climb (depth : Nat) :
    Sound text depth (expression depth) Expression ∧
    ∀ d left precedence, Reads text depth (climb depth left precedence) d (Climbs d left precedence) := by
  induction depth with
  | zero =>
      refine ⟨fun d => ?_, fun d left precedence => ?_⟩
      · rw [expression]
        exact Runs.throw (Nat.zero_le _)
      · rw [climb]
        exact Runs.throw (Nat.zero_le _)
  | succ depth ih =>
      obtain ⟨hexpr, hclimb⟩ := ih
      refine ⟨fun d => ?_, fun d left precedence => reads_climb hexpr hclimb left precedence⟩
      rw [expression]
      refine .bind_sub (reads_operand hexpr) ?_
      intro ts first behind hresult
      obtain ⟨hoperand, hcall⟩ := hresult
      have hlevel : depth + 1 - ts.length ≤ depth := by
        have := List.length_pos_iff.mpr hoperand.ne_nil
        omega
      refine .bind ((hclimb behind first 0).of_le hlevel) fun us tree rest htree => ?_
      refine (reads_applied_end (htree.no_call hcall)).mono (Nat.le_refl _) ?_
      intro _ _ _ hresult
      obtain ⟨rfl, rfl⟩ := hresult
      obtain ⟨links, hlinks, hgrouped, -⟩ := htree.exists_links
      simpa using Expression.chain hoperand hlinks hgrouped

theorem sound_expression (depth : Nat) : Sound text depth (expression depth) Expression :=
  (sound_expression_and_climb depth).1

/-! ### Programs -/

theorem reads_programFrom {expr : Parser Expr} (hexpr : Sound text n expr Expression) (rounds : List Char) :
    ∀ (d : Delivery) (body : List Expr), d.tokens.length < rounds.length →
      Reads text n (programFrom expr rounds body) d fun ts all rest =>
        rest = ⟨[], none⟩ ∧ ∃ more, all = body.reverse ++ more ∧ Separated .semicolon Expression ts more := by
  induction rounds with
  | nil => exact fun d body hrounds => absurd hrounds (Nat.not_lt_zero _)
  | cons round rounds ih =>
      intro d body hrounds
      refine .bind .peek ?_
      intro _ token? d hpeek
      obtain ⟨rfl, rfl, htoken, hend, -⟩ := hpeek
      cases token? with
      | none =>
          obtain ⟨tokens, fault⟩ := d
          have hempty : tokens = [] := List.head?_eq_none_iff.mp htoken.symm
          subst hempty
          have hnone : fault = none := hend rfl
          subst hnone
          exact .pure ⟨rfl, [], by simp, .nil⟩
      | some token =>
          refine .bind (hexpr d).split fun ts e behind hread => ?_
          obtain ⟨rfl, hread⟩ := hread
          have hshorter : behind.tokens.length < rounds.length := by
            have := List.length_pos_iff.mpr hread.ne_nil
            simp only [Delivery.tokens_behind, List.length_append, List.length_cons] at hrounds
            omega
          refine .bind .peek ?_
          intro _ next? behind hpeek
          obtain ⟨rfl, rfl, hnext, hend, -⟩ := hpeek
          cases next? with
          | none =>
              refine (ih behind (e :: body) hshorter).split.mono (Nat.le_refl n) ?_
              intro us all rest hrest
              obtain ⟨hsplit, hdone, more, rfl, hmore⟩ := hrest
              -- no token is left, so nothing follows
              have hempty : us = [] := by
                have hnone := List.head?_eq_none_iff.mp hnext.symm
                rw [hsplit, Delivery.tokens_behind] at hnone
                exact (List.append_eq_nil_iff.mp hnone).1
              subst hempty
              obtain rfl := hmore.eq_nil
              exact ⟨hdone, [e], by simp, by simpa using .last hread⟩
          | some token =>
              refine .bind (Reads.skipPunctuation .semicolon rfl).split ?_
              intro _ _ after hskip
              obtain ⟨rfl, pos, rfl⟩ := hskip
              have hafter : after.tokens.length < rounds.length := Nat.lt_of_succ_lt hshorter
              refine (ih after (e :: body) hafter).mono (Nat.le_refl n) ?_
              intro us all rest hrest
              obtain ⟨hdone, more, rfl, hmore⟩ := hrest
              exact ⟨hdone, e :: more, by simp, .cons hread hmore⟩

/-- **Soundness.** What reading a program takes away is the whole text, and the tree is that of a
derivation. -/
theorem reads_program (depth : Nat) : Reads text depth (program depth) d fun ts e rest =>
    rest = ⟨[], none⟩ ∧ Program ts e := by
  refine .bind .get ?_
  intro _ stream _ hget
  obtain ⟨rfl, rfl, hrounds⟩ := hget
  refine .bind (reads_programFrom (sound_expression depth) _ _ [] hrounds) ?_
  intro ts body rest hread
  obtain ⟨rfl, _, rfl, hbody⟩ := hread
  refine .pure ⟨rfl, ?_⟩
  simpa using Program.block hbody

end Parser

end LambdaScript
