import LambdaScript.Proofs.Eval.Layout
import LambdaScript.Proofs.Expr.Sequence
import LambdaScript.Session.Basic

/-!
Two sources in one run. A session that runs one source and then another one does what it would do with both as one
text, a semicolon between them: the second one finds the root scope as the first one left it either way, and the
places that differ, those of the second text, can not be told from outside.
-/

namespace LambdaScript

/-! ### Evaluating in two parts -/

theorem listHeight_append (es es' : List Expr) :
    Expr.listHeight (es ++ es') = max (Expr.listHeight es) (Expr.listHeight es') := by
  induction es with
  | nil => rw [List.nil_append, Expr.listHeight, Nat.zero_max]
  | cons e es ih => rw [List.cons_append, Expr.listHeight, Expr.listHeight, ih, Nat.max_assoc]

/-- The expressions of a block are evaluated one after the other, so one can stop between two of them. -/
theorem evaluate_block_append (depth : Nat) (es : List Expr) {es' : List Expr} (hne : es' ≠ []) (scope : ScopeId)
    (p q r : Option Position) :
    evaluate depth (.block (es ++ es') p) scope =
      evaluate depth (.block es q) scope >>= fun _ => evaluate depth (.block es' r) scope := by
  obtain ⟨e, es', rfl⟩ := List.exists_cons_of_ne_nil hne
  match depth with
  | 0 | 1 | 2 => rfl
  | depth + 3 =>
      simp only [evaluate, List.foldlM_append, List.foldlM_cons]

/-- Evaluates a program in the root scope, if it can be written out. -/
def runProgram (depth : Nat) (program : Expr) : Eval Value :=
  if program.height ≤ depth then evaluate depth program Store.root else throw .tooDeep

/-- A program that can be written out from some expression on is run by running it up to there, and then from there
on. -/
theorem runProgram_append {depth : Nat} (es : List Expr) {es' : List Expr} (hne : es' ≠ []) (p q r : Option Position)
    (hfits : (Expr.block es' r).height ≤ depth) :
    runProgram depth (.block (es ++ es') p) =
      runProgram depth (.block es q) >>= fun _ => runProgram depth (.block es' r) := by
  have hheight : (Expr.block (es ++ es') p).height ≤ depth ↔ (Expr.block es q).height ≤ depth := by
    rw [Expr.height] at hfits
    rw [Expr.height, Expr.height, listHeight_append]
    omega
  unfold runProgram
  rw [if_pos hfits]
  by_cases hes : (Expr.block es q).height ≤ depth
  · rw [if_pos (hheight.mpr hes), if_pos hes]
    exact evaluate_block_append depth es hne Store.root p q r
  · rw [if_neg fun h => hes (hheight.mp h), if_neg hes]
    rfl

theorem runProgram_tooDeep {depth : Nat} (es : List Expr) {es' : List Expr} (p r : Option Position)
    (hdeep : depth < (Expr.block es' r).height) : runProgram depth (.block (es ++ es') p) = throw .tooDeep := by
  refine if_neg fun hfits => ?_
  rw [Expr.height] at hdeep hfits
  rw [listHeight_append] at hfits
  omega

theorem goAlong_runProgram {ρ : Position → Position → Prop} (depth : Nat) {e e' : Expr} (he : e.Like ρ e') :
    GoAlong ρ (runProgram depth e) (runProgram depth e') (Value.Like ρ) := by
  unfold runProgram
  rw [he.height_eq]
  split
  · exact goAlong_evaluate depth Store.root he
  · exact .throw .tooDeep

namespace Session

/-! ### Running one source -/

/-- What is seen of the session in which a run ends. -/
def seen {σ α : Type} (look : Session → σ) : EStateM.Result Stop Session α → EStateM.Result Stop σ α
  | .ok a after => .ok a (look after)
  | .error stop after => .error stop (look after)

def withQueue (session : Session) (queue : List String) : Session := { session with queue := queue }

/-- The value of the source that was run last. -/
def latest : Running Value := do
  return (← get).results.getLast?.getD Value.false

theorem latest_eq (session : Session) :
    latest session = .ok (session.results.getLast?.getD Value.false) session := rfl

theorem of_seen_eq_error {σ α : Type} {look : Session → σ} {result : EStateM.Result Stop Session α} {stop : Stop}
    {after : σ} (h : seen look result = .error stop after) : ∃ last, result = .error stop last ∧ look last = after := by
  cases result with
  | ok a last => cases h
  | error stop last =>
      cases h
      exact ⟨last, rfl, rfl⟩

/-- What waits has no part in running a source. -/
theorem runSource_withQueue (source : String) (session : Session) (queue : List String) :
    runSource source (session.withQueue queue) = seen (·.withQueue queue) (runSource source session) := by
  unfold runSource withQueue
  dsimp only
  cases parse session.depth source with
  | error stop => rfl
  | ok program =>
      cases hsource : program.source? session.depth with
      | none => simp only [hsource, seen]
      | some text =>
          simp only [hsource, write]
          cases evaluate session.depth program Store.root session.world <;> rfl

/-- Running a source leaves what waits, and the bound on nested calls. -/
theorem kept_of_runSource {source : String} {session after : Session} {done : Unit}
    (h : runSource source session = .ok done after) : after.queue = session.queue ∧ after.depth = session.depth := by
  unfold runSource at h
  dsimp only at h
  split at h
  · cases h
  · split at h
    · cases h
    · split at h
      · cases h
      · cases h
        exact ⟨rfl, rfl⟩

/-- Running a source that can be read is running its program in the world of the session. -/
theorem seen_runSource {source : String} {session : Session} {program : Expr}
    (h : parse session.depth source = .ok program) :
    seen world ((runSource source >>= fun _ => latest) session) =
      runProgram session.depth program session.world := by
  simp only [Bind.bind, EStateM.bind, runSource, runProgram, Expr.source?, h]
  by_cases hfits : program.height ≤ session.depth
  · simp only [if_pos hfits, write]
    cases evaluate session.depth program Store.root session.world with
    | error stop world => rfl
    | ok value world =>
        simp only [latest_eq, seen, List.getLast?_concat, Option.getD_some]
  · simp only [if_neg hfits]
    rfl

/-! ### Running a source behind others -/

/-- Either the sources that wait stop the run, whatever comes behind them, or a source behind them is run in the session
that they leave. -/
theorem runAll_behind (waiting : List String) : ∀ session : Session,
    (∃ stop world, ∀ source queue, ∃ last : Session, last.world = world ∧
      runAll (waiting ++ [source]) (session.withQueue queue) = .error stop last) ∨
    ∃ ready : Session, ready.queue = [] ∧ ready.depth = session.depth ∧ ∀ source queue,
      runAll (waiting ++ [source]) (session.withQueue queue) = runSource source ready := by
  induction waiting with
  | nil =>
      intro session
      refine .inr ⟨session.withQueue [], rfl, rfl, fun source queue => ?_⟩
      have hrun : runAll [source] (session.withQueue queue) =
          (runSource source >>= fun _ => pure ()) (session.withQueue []) := rfl
      rw [List.nil_append, hrun, bind_pure_unit]
  | cons first waiting ih =>
      intro session
      have hrun (source : String) (queue : List String) :
          runAll (first :: waiting ++ [source]) (session.withQueue queue) =
            (runSource first >>= fun _ => runAll (waiting ++ [source])) (session.withQueue (waiting ++ [source])) := rfl
      simp only [hrun, Bind.bind, EStateM.bind, runSource_withQueue]
      cases hfirst : runSource first session with
      | error stop after =>
          exact .inl ⟨stop, after.world, fun source queue => ⟨after.withQueue (waiting ++ [source]), rfl, rfl⟩⟩
      | ok _ after =>
          have hdepth := (kept_of_runSource hfirst).2
          rcases ih after with ⟨stop, world, hstop⟩ | ⟨ready, hqueue, hready, hgo⟩
          · exact .inl ⟨stop, world, fun source queue => hstop source (waiting ++ [source])⟩
          · exact .inr ⟨ready, hqueue, hready.trans hdepth, fun source queue => hgo source (waiting ++ [source])⟩

/-- Where nothing waits, a source is run at once. -/
theorem runText_of_idle {session : Session} (hqueue : session.queue = []) (source : String) :
    runText source session = (runSource source >>= fun _ => latest) session := by
  obtain ⟨handler, path, depth, world, queue, results, log⟩ := session
  subst hqueue
  have hrun : runText source ⟨handler, path, depth, world, [], results, log⟩ =
      ((runSource source >>= fun _ => pure ()) >>= fun _ => latest)
        ⟨handler, path, depth, world, [], results, log⟩ := rfl
  rw [hrun, bind_pure_unit]

/-- Either the sources that wait stop the run, or a source is run in the session that they leave. -/
theorem runText_cases (session : Session) :
    (∃ stop world, ∀ source, ∃ last : Session, last.world = world ∧ runText source session = .error stop last) ∨
    ∃ ready : Session, ready.queue = [] ∧ ready.depth = session.depth ∧ ∀ source,
      runText source session = runText source ready := by
  have hrun (source : String) : runText source session =
      (runAll (session.queue ++ [source]) >>= fun _ => latest) (session.withQueue (session.queue ++ [source])) := rfl
  simp only [hrun, Bind.bind, EStateM.bind]
  rcases runAll_behind session.queue session with ⟨stop, world, hstop⟩ | ⟨ready, hqueue, hdepth, hgo⟩
  · refine .inl ⟨stop, world, fun source => ?_⟩
    obtain ⟨last, hworld, hlast⟩ := hstop source (session.queue ++ [source])
    rw [hlast]
    exact ⟨last, hworld, rfl⟩
  · refine .inr ⟨ready, hqueue, hdepth, fun source => ?_⟩
    rw [hgo, runText_of_idle hqueue]
    rfl

/-! ### Two sources -/

/-- What a run of two sources shows, and a run of both as one text: it fails where the first one fails, and if that
does not fail, it ends as the second one does behind it. -/
def SameInOneRun (batch first : EStateM.Result Stop Session Value)
    (second : Session → EStateM.Result Stop Session Value) : Prop :=
  match first with
  | .error stop after => ∃ last, batch = .error stop last ∧ last.world = after.world
  | .ok _ middle =>
    match second middle, batch with
    | .ok value after, .ok value' last =>
      value.text = value'.text ∧ value.Agrees value' ∧ after.world.ShowsAs last.world
    | .error stop after, .error stop' last => stop.Like (fun _ _ => True) stop' ∧ after.world.ShowsAs last.world
    | _, _ => False

/-- The value of a source, and the session in which it can be followed by another one. -/
theorem kept_of_latest {source : String} {session after : Session} {value : Value}
    (h : (runSource source >>= fun _ => latest) session = .ok value after) :
    after.queue = session.queue ∧ after.depth = session.depth := by
  obtain ⟨done, between, hrun, hlatest⟩ := ok_of_bind h
  cases hlatest
  exact kept_of_runSource hrun

/-- A run of a program that begins as another one, next to a run of this other one and then of the rest. -/
theorem sameInOneRun_of_parse {session : Session} {a b batch : String} {as bs bs' : List Expr} {p q r : Option Position}
    (ha : parse session.depth a = .ok (.block as p)) (hb : parse session.depth b = .ok (.block bs q))
    (hbatch : parse session.depth batch = .ok (.block (as ++ bs') r)) (hqueue : session.queue = []) (hne : bs ≠ [])
    (hlike : List.Forall₂ (Expr.Like fun _ _ => True) bs bs') (hfits : (Expr.block bs q).height ≤ session.depth) :
    SameInOneRun (runText batch session) (runText a session) (runText b) := by
  have hrest : (Expr.block bs q).Like (fun _ _ => True) (.block bs' q) :=
    .block hlike (optionRel_refl (fun _ => trivial) q)
  have hne' : bs' ≠ [] := fun h => hne (List.eq_nil_of_length_eq_zero (by rw [hlike.length_eq, h]; rfl))
  have hfirst := seen_runSource ha
  have hall := seen_runSource hbatch
  rw [runProgram_append as hne' r p q (hrest.height_eq ▸ hfits)] at hall
  rw [runText_of_idle hqueue, runText_of_idle hqueue]
  cases hrun : (runSource a >>= fun _ => latest) session with
  | error stop after =>
      rw [hrun] at hfirst
      simp only [Bind.bind, EStateM.bind, ← hfirst, seen] at hall
      exact of_seen_eq_error hall
  | ok value middle =>
      rw [hrun] at hfirst
      rw [bind_of_ok hfirst.symm] at hall
      obtain ⟨hidle, hdepth⟩ := kept_of_latest hrun
      have hsecond := seen_runSource (hdepth ▸ hb)
      have hboth :=
        goAlong_runProgram session.depth hrest middle.world middle.world (World.like_refl (fun _ => trivial) _)
      rw [hdepth] at hsecond
      rw [← hsecond, ← hall] at hboth
      unfold SameInOneRun
      dsimp only
      rw [runText_of_idle (hidle.trans hqueue)]
      generalize (runSource b >>= fun _ => latest) middle = x at hboth ⊢
      generalize (runSource batch >>= fun _ => latest) session = y at hboth ⊢
      cases x <;> cases y
      · exact ⟨hboth.2.text_eq, hboth.2.agrees, hboth.1.showsAs⟩
      · exact hboth.elim
      · exact hboth.elim
      · exact ⟨hboth.2, hboth.1.showsAs⟩

/-- **Running two sources one after the other is running them as one**, whatever session they are run in. -/
theorem runText_sequence (session : Session) {a b : String} {as bs : List Expr} {p q : Option Position}
    (ha : parse session.depth a = .ok (.block as p)) (hb : parse session.depth b = .ok (.block bs q)) (hne : as ≠ [])
    (hne' : bs ≠ [])
    (hlast : ∀ tokens, tokenize a = .ok tokens → ∀ token ∈ tokens.getLast?, token.token ≠ .punctuation .semicolon) :
    ∃ bs', parse session.depth (a ++ "\n;\n" ++ b) = .ok (.block (as ++ bs') (some .start)) ∧
      Expr.listAgrees bs bs' = true ∧
      (SameInOneRun (runText (a ++ "\n;\n" ++ b) session) (runText a session) (runText b) ∨
        session.depth < (Expr.block bs q).height ∧
          ∃ last, runText (a ++ "\n;\n" ++ b) session = .error .tooDeep last) := by
  obtain ⟨bs', hab, hlike⟩ := parse_sequence ha hb hne hlast
  refine ⟨bs', hab, listAgrees_of_like hlike, ?_⟩
  rcases runText_cases session with ⟨stop, world, hstop⟩ | ⟨ready, hqueue, hdepth, hgo⟩
  · -- what waits stops both runs
    obtain ⟨after, hafter, hrun⟩ := hstop a
    obtain ⟨last, hworld, hrun'⟩ := hstop (a ++ "\n;\n" ++ b)
    rw [hrun, hrun']
    exact .inl ⟨last, rfl, hworld.trans hafter.symm⟩
  · rw [← hdepth] at ha hb hab ⊢
    rw [hgo, hgo]
    by_cases hfits : (Expr.block bs q).height ≤ ready.depth
    · exact .inl (sameInOneRun_of_parse ha hb hab hqueue hne' hlike hfits)
    · -- the second source cannot be written out, and then both together cannot
      have hbatch := seen_runSource hab
      have hdeep : ready.depth < (Expr.block bs' q).height := by
        rw [Expr.height] at hfits ⊢
        rw [← listHeight_eq_of_like hlike]
        exact Nat.lt_of_not_le hfits
      rw [runProgram_tooDeep as _ q hdeep] at hbatch
      rw [runText_of_idle hqueue]
      obtain ⟨last, hrun, -⟩ := of_seen_eq_error hbatch
      exact .inr ⟨Nat.lt_of_not_le hfits, last, hrun⟩

/-- A builtin is replaced by a function, and then that is called. -/
theorem runText_sequence_redefined :
    ∃ as bs, parse 20 "print = lambda(x) x" = .ok (.block as (some .start)) ∧
      parse 20 "print(true)" = .ok (.block bs (some .start)) ∧ as ≠ [] ∧ bs ≠ [] ∧
      (∀ tokens, tokenize "print = lambda(x) x" = .ok tokens →
        ∀ token ∈ tokens.getLast?, token.token ≠ .punctuation .semicolon) ∧
      ∃ bs', parse 20 ("print = lambda(x) x" ++ "\n;\n" ++ "print(true)") = .ok (.block (as ++ bs') (some .start)) ∧
        Expr.listAgrees bs bs' = true ∧
        let session := start (.fresh false false false) codePath 20 []
        (SameInOneRun (runText ("print = lambda(x) x" ++ "\n;\n" ++ "print(true)") session)
            (runText "print = lambda(x) x" session) (runText "print(true)") ∨
          20 < (Expr.block bs (some .start)).height ∧
            ∃ last, runText ("print = lambda(x) x" ++ "\n;\n" ++ "print(true)") session = .error .tooDeep last) := by
  have htokens : tokenize "print = lambda(x) x" = .ok [⟨.identifier "print", ⟨1, 0⟩⟩, ⟨.operator .assign, ⟨1, 6⟩⟩,
      ⟨.keyword .lambdaWord, ⟨1, 8⟩⟩, ⟨.punctuation .openParen, ⟨1, 14⟩⟩, ⟨.identifier "x", ⟨1, 15⟩⟩,
      ⟨.punctuation .closeParen, ⟨1, 16⟩⟩, ⟨.identifier "x", ⟨1, 18⟩⟩] := by decide +kernel
  have hfirst : (parse 20 "print = lambda(x) x").toOption.any
      (Expr.hasBody fun body => !body.isEmpty) = true := by decide +kernel
  have hsecond : (parse 20 "print(true)").toOption.any
      (Expr.hasBody fun body => !body.isEmpty) = true := by decide +kernel
  obtain ⟨as, ha, hsome⟩ := exists_body hfirst
  obtain ⟨bs, hb, hsome'⟩ := exists_body hsecond
  have hne : as ≠ [] := by simpa using hsome
  have hne' : bs ≠ [] := by simpa using hsome'
  have hlast : ∀ tokens, tokenize "print = lambda(x) x" = .ok tokens →
      ∀ token ∈ tokens.getLast?, token.token ≠ .punctuation .semicolon := by
    intro tokens h
    cases htokens.symm.trans h
    rintro token ⟨⟩
    decide
  exact ⟨as, bs, ha, hb, hne, hne', hlast,
    runText_sequence (start (.fresh false false false) codePath 20 []) ha hb hne hne' hlast⟩

end Session

end LambdaScript
