import LambdaScript.Proofs.Session.Batch

/-!
Histories of sessions. Sources are queued, run and taken back in any order, and any of them may fail. A source is
started when all that were queued before it have been, and never again: what has been started so far and what waits
are together all that was ever queued, in the order in which it was. A run goes through the sources that wait, each in
the world that the one before it left, up to the end or to the first that fails.
-/

namespace LambdaScript

namespace Session

/-! ### Sources one after the other -/

/-- Sources are run one after the other from a world. They have values and leave a world, or the last one fails. One
that can not be read leaves the world as it was. -/
inductive InTurn (depth : Nat) : World → List String → List Value → Option Stop → World → Prop where
  | nothing (world : World) : InTurn depth world [] [] none world
  | value {world middle last : World} {source : String} {program : Expr} {value : Value} {sources : List String}
      {values : List Value} {stop? : Option Stop} (hread : parse depth source = .ok program)
      (hrun : runProgram depth program world = .ok value middle)
      (hrest : InTurn depth middle sources values stop? last) :
      InTurn depth world (source :: sources) (value :: values) stop? last
  | unread {world : World} {source : String} {stop : Stop} (hread : parse depth source = .error stop) :
      InTurn depth world [source] [] (some stop) world
  | failed {world last : World} {source : String} {program : Expr} {stop : Stop}
      (hread : parse depth source = .ok program) (hrun : runProgram depth program world = .error stop last) :
      InTurn depth world [source] [] (some stop) last

/-- The last source runs in the world that those before it leave. -/
theorem InTurn.last_value {depth : Nat} {world last : World} {earlier : List String} {source : String}
    {values : List Value} (h : InTurn depth world (earlier ++ [source]) values none last) :
    ∃ before value middle program, values = before ++ [value] ∧ InTurn depth world earlier before none middle ∧
      parse depth source = .ok program ∧ runProgram depth program middle = .ok value last := by
  induction earlier generalizing world values with
  | nil =>
      rw [List.nil_append] at h
      cases h with
      | value hread hrun hrest =>
          cases hrest
          exact ⟨[], _, world, _, rfl, .nothing world, hread, hrun⟩
  | cons first earlier ih =>
      rw [List.cons_append] at h
      generalize hall : earlier ++ [source] = all at h
      cases h with
      | value hread hrun hrest =>
          subst hall
          obtain ⟨before, value, middle, program, rfl, hbefore, hsource⟩ := ih hrest
          exact ⟨_ :: before, value, middle, program, rfl, .value hread hrun hbefore, hsource⟩

/-! ### Runs -/

variable {session after : Session} {queue started : List String} {values : List Value} {stop : Stop} {source : String}

/-- A run that comes to the end of a queue. -/
structure Finishes (session : Session) (queue : List String) (values : List Value) (after : Session) : Prop where
  inTurn : InTurn session.depth session.world queue values none after.world
  queue_eq : after.queue = []
  results_eq : after.results = session.results ++ values
  depth_eq : after.depth = session.depth

/-- A run that stops in a queue, at the last of the sources that were started. Those behind it wait, and the results
are those of the sources before it. -/
structure StopsIn (session : Session) (queue started : List String) (stop : Stop) (after : Session) : Prop where
  queue_eq : queue = started ++ after.queue
  inTurn : ∃ values, InTurn session.depth session.world started values (some stop) after.world ∧
    after.results = session.results ++ values
  depth_eq : after.depth = session.depth

/-- What becomes of a run of a queue. -/
def GoesThrough (session : Session) (queue : List String) : EStateM.Result Stop Session Unit → Prop
  | .ok _ after => ∃ values, session.Finishes queue values after
  | .error stop after => ∃ started, session.StopsIn queue started stop after

/-- Running one source, whatever waits behind it. -/
theorem runSource_ends (source : String) (session : Session) :
    (∃ program value, ∃ after : Session, runSource source session = .ok () after ∧
      parse session.depth source = .ok program ∧
      runProgram session.depth program session.world = .ok value after.world ∧
      after.results = session.results ++ [value] ∧ after.queue = session.queue ∧ after.depth = session.depth) ∨
    ∃ stop, ∃ after : Session, runSource source session = .error stop after ∧
      InTurn session.depth session.world [source] [] (some stop) after.world ∧ after.results = session.results ∧
      after.queue = session.queue ∧ after.depth = session.depth := by
  unfold runSource
  dsimp only
  cases hread : parse session.depth source with
  | error stop => exact .inr ⟨stop, _, rfl, .unread hread, rfl, rfl, rfl⟩
  | ok program =>
      have hrun : runProgram session.depth program session.world =
          if program.height ≤ session.depth then evaluate session.depth program Store.root session.world
          else .error .tooDeep session.world := by
        unfold runProgram
        split <;> rfl
      by_cases hfits : program.height ≤ session.depth
      · rw [if_pos hfits] at hrun
        simp only [Expr.source?, if_pos hfits, write]
        cases hvalue : evaluate session.depth program Store.root session.world with
        | error stop world => exact .inr ⟨stop, _, rfl, .failed hread (hrun.trans hvalue), rfl, rfl, rfl⟩
        | ok value world => exact .inl ⟨program, value, _, rfl, rfl, hrun.trans hvalue, rfl, rfl, rfl⟩
      · rw [if_neg hfits] at hrun
        simp only [Expr.source?, if_neg hfits]
        exact .inr ⟨.tooDeep, _, rfl, .failed hread hrun, rfl, rfl, rfl⟩

/-- A source that has a value may stand before a run. -/
theorem GoesThrough.behind {middle : Session} {program : Expr} {value : Value}
    {result : EStateM.Result Stop Session Unit} (h : middle.GoesThrough queue result)
    (hread : parse session.depth source = .ok program)
    (hrun : runProgram session.depth program session.world = .ok value middle.world)
    (hresults : middle.results = session.results ++ [value]) (hdepth : middle.depth = session.depth) :
    session.GoesThrough (source :: queue) result := by
  cases result with
  | ok done after =>
      obtain ⟨values, hturn, hqueue, hmore, hkept⟩ := h
      rw [hdepth] at hturn
      refine ⟨value :: values, .value hread hrun hturn, hqueue, ?_, hkept.trans hdepth⟩
      rw [hmore, hresults, List.append_assoc, List.singleton_append]
  | error stop after =>
      obtain ⟨started, hqueue, ⟨values, hturn, hmore⟩, hkept⟩ := h
      rw [hdepth] at hturn
      refine ⟨source :: started, ?_, ⟨value :: values, .value hread hrun hturn, ?_⟩, hkept.trans hdepth⟩
      · rw [hqueue, List.cons_append]
      · rw [hmore, hresults, List.append_assoc, List.singleton_append]

/-- A run of the queue. While it goes on, what it still has to do is what waits. -/
theorem goesThrough_runAll (queue : List String) : ∀ session : Session, session.queue = queue →
    session.GoesThrough queue (runAll queue session) := by
  induction queue with
  | nil =>
      intro session hqueue
      exact ⟨[], .nothing session.world, hqueue, (List.append_nil _).symm, rfl⟩
  | cons source rest ih =>
      intro session hqueue
      show session.GoesThrough (source :: rest) ((runSource source >>= fun _ => runAll rest) (session.withQueue rest))
      simp only [Bind.bind, EStateM.bind]
      rcases runSource_ends source (session.withQueue rest) with
        ⟨program, value, middle, hrun, hread, hvalue, hresults, hwaits, hdepth⟩ |
        ⟨stop, after, hrun, hturn, hresults, hwaits, hdepth⟩
      · rw [hrun]
        exact (ih middle hwaits).behind hread hvalue hresults hdepth
      · rw [hrun]
        refine ⟨[source], ?_, ⟨[], hturn, ?_⟩, hdepth⟩
        · rw [hwaits]
          rfl
        · rw [hresults, List.append_nil]
          rfl

theorem goesThrough_run (session : Session) : session.GoesThrough session.queue (run session) :=
  goesThrough_runAll session.queue session rfl

/-! ### Steps -/

/-- What can be done with a session. -/
inductive Step where
  | add (source : String)
  | run
  | runText (source : String)
  | pop

/-- What is given back when something is done with a session. -/
inductive Reply where
  | nothing
  | value (value : Value)
  | text (text : String)

/-- The sources that a step queues. -/
def Step.added : Step → List String
  | .add source | .runText source => [source]
  | .run | .pop => []

/-- Does a step. A run that stops fails, and so does taking back a value where there is none. -/
def Step.perform : Step → EStateM Departure Session Reply
  | .add source => do
    modify fun session => session.add source
    return .nothing
  | .run => do
    EStateM.adaptExcept Stop.departure Session.run
    return .nothing
  | .runText source => do
    return .value (← EStateM.adaptExcept Stop.departure (Session.runText source))
  | .pop => do
    return .text (← Session.pop)

/-- Does steps one after the other. One that fails does not keep the next ones from being done. -/
def performAll (session : Session) (steps : List Step) : Session :=
  steps.foldl (fun session step => leftBy (step.perform session)) session

/-- What a step does, and which sources it starts. The value that is given back for a source is the value of that one,
whatever had been waiting. To take back a value where there is none fails and changes nothing. -/
inductive Turn (session : Session) : Step → List String → EStateM.Result Departure Session Reply → Prop where
  | add (source : String) : Turn session (.add source) [] (.ok .nothing (session.withQueue (session.queue ++ [source])))
  | run {values : List Value} {after : Session} (hrun : session.Finishes session.queue values after) :
      Turn session .run session.queue (.ok .nothing after)
  | run_stops {started : List String} {stop : Stop} {after : Session}
      (hrun : session.StopsIn session.queue started stop after) : Turn session .run started (.error stop.departure after)
  | runText {source : String} {values : List Value} {value : Value} {program : Expr} {middle : World} {after : Session}
      (hrun : session.Finishes (session.queue ++ [source]) (values ++ [value]) after)
      (hbefore : InTurn session.depth session.world session.queue values none middle)
      (hread : parse session.depth source = .ok program)
      (hvalue : runProgram session.depth program middle = .ok value after.world) :
      Turn session (.runText source) (session.queue ++ [source]) (.ok (.value value) after)
  | runText_stops {source : String} {started : List String} {stop : Stop} {after : Session}
      (hrun : session.StopsIn (session.queue ++ [source]) started stop after) :
      Turn session (.runText source) started (.error stop.departure after)
  | pop {results : List Value} {value : Value} (hresults : session.results = results ++ [value]) :
      Turn session .pop [] (.ok (.text value.text) { session with results := results })
  | pop_nothing (hresults : session.results = []) :
      Turn session .pop [] (.error (.hostFailure "IndexError" "pop from empty list") session)

theorem turn_run (session : Session) : ∃ started, session.Turn .run started (Step.run.perform session) := by
  have hrun := goesThrough_run session
  show ∃ started, session.Turn .run started
    ((EStateM.adaptExcept Stop.departure Session.run >>= fun _ => pure Reply.nothing) session)
  simp only [Bind.bind, EStateM.bind, EStateM.adaptExcept]
  cases hresult : Session.run session with
  | ok done after =>
      rw [hresult] at hrun
      obtain ⟨values, hrun⟩ := hrun
      exact ⟨session.queue, .run hrun⟩
  | error stop after =>
      rw [hresult] at hrun
      obtain ⟨started, hrun⟩ := hrun
      exact ⟨started, .run_stops hrun⟩

/-- The source itself is the last one that a run with it goes through, so the latest result is its value. -/
theorem turn_runText (session : Session) (source : String) :
    ∃ started, session.Turn (.runText source) started ((Step.runText source).perform session) := by
  have hrun := goesThrough_run (session.add source)
  show ∃ started, session.Turn (.runText source) started
    ((EStateM.adaptExcept Stop.departure (Session.run >>= fun _ => latest) >>= fun value => pure (Reply.value value))
      (session.add source))
  simp only [Bind.bind, EStateM.bind, EStateM.adaptExcept]
  cases hresult : Session.run (session.add source) with
  | ok done after =>
      rw [hresult] at hrun
      obtain ⟨values, hrun⟩ := hrun
      obtain ⟨before, value, middle, program, rfl, hbefore, hread, hvalue⟩ := hrun.inTurn.last_value
      have hlast : after.results.getLast?.getD Value.false = value := by
        rw [hrun.results_eq, ← List.append_assoc, List.getLast?_concat, Option.getD_some]
      refine ⟨session.queue ++ [source], ?_⟩
      show session.Turn _ _ (.ok (.value (after.results.getLast?.getD Value.false)) after)
      rw [hlast]
      exact .runText ⟨hrun.inTurn, hrun.queue_eq, hrun.results_eq, hrun.depth_eq⟩ hbefore hread hvalue
  | error stop after =>
      rw [hresult] at hrun
      obtain ⟨started, hrun⟩ := hrun
      exact ⟨started, .runText_stops ⟨hrun.queue_eq, hrun.inTurn, hrun.depth_eq⟩⟩

theorem turn_pop (session : Session) : session.Turn .pop [] (Step.pop.perform session) := by
  show session.Turn .pop [] ((Session.pop >>= fun text => pure (Reply.text text)) session)
  simp only [Bind.bind, EStateM.bind, Session.pop]
  rcases List.eq_nil_or_concat' session.results with hnone | ⟨results, value, hsome⟩
  · have hpop : pop? session = none := by simp [pop?, hnone]
    simp only [hpop]
    exact .pop_nothing hnone
  · have hpop : pop? session = some (value.text, { session with results := results }) := by simp [pop?, hsome]
    simp only [hpop]
    exact .pop hsome

/-- Every step does what it should. -/
theorem turn_perform (session : Session) (step : Step) :
    ∃ started, session.Turn step started (step.perform session) := by
  cases step with
  | add source => exact ⟨[], .add source⟩
  | run => exact turn_run session
  | runText source => exact turn_runText session source
  | pop => exact ⟨[], turn_pop session⟩

/-- A step starts sources from the front of the queue, and puts those it adds behind all others. -/
theorem Turn.queue_eq {step : Step} {result : EStateM.Result Departure Session Reply}
    (h : session.Turn step started result) : session.queue ++ step.added = started ++ (leftBy result).queue := by
  cases h with
  | add source => rfl
  | run hrun =>
      show session.queue ++ [] = session.queue ++ _
      rw [leftBy, hrun.queue_eq]
  | run_stops hrun =>
      show session.queue ++ [] = _
      rw [List.append_nil]
      exact hrun.queue_eq
  | runText hrun =>
      rw [leftBy, hrun.queue_eq, List.append_nil]
      rfl
  | runText_stops hrun => exact hrun.queue_eq
  | pop => exact List.append_nil _
  | pop_nothing => exact List.append_nil _

/-! ### Histories -/

/-- Steps done one after the other, and the sources that they start. -/
inductive History : Session → List Step → List String → Session → Prop where
  | nil (session : Session) : History session [] [] session
  | cons {session last : Session} {step : Step} {steps : List Step} {started later : List String}
      (hturn : session.Turn step started (step.perform session))
      (hrest : History (leftBy (step.perform session)) steps later last) :
      History session (step :: steps) (started ++ later) last

theorem History.queue_eq {steps : List Step} (h : History session steps started after) :
    session.queue ++ steps.flatMap Step.added = started ++ after.queue := by
  induction h with
  | nil session => exact List.append_nil _
  | @cons session last step steps started later hturn _ ih =>
      calc
        _ = (session.queue ++ step.added) ++ steps.flatMap Step.added := by
          rw [List.flatMap_cons, List.append_assoc]
        _ = started ++ ((leftBy (step.perform session)).queue ++ steps.flatMap Step.added) := by
          rw [hturn.queue_eq, List.append_assoc]
        _ = (started ++ later) ++ last.queue := by
          rw [ih, List.append_assoc]

theorem history_performAll (session : Session) (steps : List Step) :
    ∃ started, History session steps started (session.performAll steps) := by
  induction steps generalizing session with
  | nil => exact ⟨[], .nil session⟩
  | cons step steps ih =>
      obtain ⟨started, hturn⟩ := turn_perform session step
      obtain ⟨later, hrest⟩ := ih (leftBy (step.perform session))
      exact ⟨started ++ later, .cons hturn hrest⟩

/-- A source that can not be read is gone from the queue, and nothing else has become of it. -/
theorem run_of_unread {rest : List String} (hqueue : session.queue = source :: rest)
    (hread : parse session.depth source = .error stop) :
    ∃ after, run session = .error stop after ∧ after.queue = rest ∧ after.results = session.results ∧
      after.world = session.world := by
  have hrun : run session = (runSource source >>= fun _ => runAll rest) (session.withQueue rest) := by
    show runAll session.queue session = _
    rw [hqueue]
    rfl
  rw [hrun]
  simp only [Bind.bind, EStateM.bind, runSource, withQueue, hread]
  exact ⟨_, rfl, rfl, rfl, rfl⟩

/-- **Sources are started in the order in which they were queued, and no more than once**, whatever is done with a
session and whichever of them fail. Every run goes through what waits, up to the end or to the first source that
fails, and keeps the sources behind that one; every value that is given back is that of the source it was asked for. A
source that can not be read changes nothing but the queue. -/
theorem performAll_history (session : Session) (steps : List Step) :
    (∃ started, History session steps started (session.performAll steps) ∧
      session.queue ++ steps.flatMap Step.added = started ++ (session.performAll steps).queue) ∧
    ∀ source rest stop, session.queue = source :: rest → parse session.depth source = .error stop →
      ∃ after, run session = .error stop after ∧ after.queue = rest ∧ after.results = session.results ∧
        after.world = session.world := by
  constructor
  · obtain ⟨started, hhistory⟩ := history_performAll session steps
    exact ⟨started, hhistory, hhistory.queue_eq⟩
  · intro source rest stop hqueue hread
    exact run_of_unread hqueue hread

/-- The second of three sources can not be read; the third one is started when a fourth one is asked for. -/
theorem performAll_history_unread :
    ∃ started stop, ∃ after : Session,
      History (start (.fresh false false false) codePath 20 ["print(true)"])
        [.add "(", .add "2", .run, .runText "3", .pop] started
        (performAll (start (.fresh false false false) codePath 20 ["print(true)"])
          [.add "(", .add "2", .run, .runText "3", .pop]) ∧
      started = ["print(true)", "(", "2", "3"] ∧
      parse 20 "(" = .error stop ∧
      run (start (.fresh false false false) codePath 20 ["(", "2"]) = .error stop after ∧ after.queue = ["2"] ∧
      after.results = [] ∧ after.world = .initial := by
  obtain ⟨started, hhistory, hqueue⟩ := (performAll_history
    (start (.fresh false false false) codePath 20 ["print(true)"])
    [.add "(", .add "2", .run, .runText "3", .pop]).1
  have hlast : (performAll (start (.fresh false false false) codePath 20 ["print(true)"])
      [.add "(", .add "2", .run, .runText "3", .pop]).queue = [] := by decide +kernel
  have hunread : (parse 20 "(").toOption.isNone = true := by decide +kernel
  rw [hlast, List.append_nil] at hqueue
  cases hread : parse 20 "(" with
  | ok program =>
      rw [hread] at hunread
      cases hunread
  | error stop =>
      obtain ⟨after, hrun⟩ :=
        (performAll_history (start (.fresh false false false) codePath 20 ["(", "2"]) []).2 "(" ["2"] stop rfl hread
      exact ⟨started, stop, after, hhistory, hqueue.symm, rfl, hrun⟩

end Session

end LambdaScript
