import LambdaScript.CommandLine.Run
import LambdaScript.Proofs.Report.Bookkeeping
import LambdaScript.Proofs.Session.Batch

/-!
Entrances. A program that no one talks to can be handed over in a file, on the standard input, or as a text of the
command line. What a call does with it is the same each time, but for the name that reports give it: it prints what the
program prints and, if that is wanted and the program has a value, the value. It ends with status 0 if the program could
be read and has a value, and with status 1 if not; tracing only adds to the error stream.
-/

namespace LambdaScript

/-! ### Texts -/

theorem Text.unifyFrom_of_not_mem {cs : List Char} (h : '\r' ∉ cs) (done : List Char) :
    unifyFrom done cs = done.reverse ++ cs := by
  induction cs generalizing done with
  | nil => rw [unifyFrom, List.append_nil]
  | cons c cs ih =>
      rw [List.mem_cons, not_or] at h
      obtain ⟨hc, hcs⟩ := h
      have hstep : unifyFrom done (c :: cs) = unifyFrom (c :: done) cs := by
        rw [unifyFrom]
        · rw [if_neg (Ne.symm hc)]
        · rintro rest rfl
          exact absurd rfl hc
      rw [hstep, ih hcs, List.reverse_cons, List.append_assoc, List.singleton_append]

/-- A text without carriage returns is read as it is. -/
theorem Text.unifyLineEndings_of_not_mem {text : String} (h : '\r' ∉ text.toList) : unifyLineEndings text = text := by
  rw [unifyLineEndings, unifyFrom_of_not_mem h, List.reverse_nil, List.nil_append, String.ofList_toList]

/-! ### Reports -/

/-- The fault that is reported when a computation stops. -/
def Stop.reported : Stop → Fault
  | fault f => f
  | tooDeep => ⟨.nestedTooDeeply, none⟩

/-- The head of a report about a single source, up to the line. -/
def tracebackHead (name : String) : String := "Traceback:\n" ++ "  File '" ++ name ++ "', line "

/-- Whether two texts differ at most in the name that the head of a report gives the source. -/
def SameButName (name other text text' : String) : Prop :=
  text = text' ∨ ∃ before behind,
    text = before ++ tracebackHead name ++ behind ∧ text' = before ++ tracebackHead other ++ behind

namespace Handler

/-- A handler that ends the program at a fault, and has been told of one source. -/
def single (verbose coloured : Bool) (name source : String) : Handler :=
  ⟨true, verbose, coloured, [(name, some source)], [(name, Text.lines source)]⟩

theorem traceback_single (verbose coloured : Bool) (name source : String) (fault : Fault) :
    (single verbose coloured name source).traceback fault =
      tracebackHead name ++ ((reportedLine fault).repr ++ ":\n") := by
  have hactive : (single verbose coloured name source).active = [(name, source)] := rfl
  have hjoin (entry : String) : String.join [entry] = entry := by
    rw [String.join, List.foldl_cons, List.foldl_nil, String.empty_append]
  simp only [traceback, hactive, List.map_cons, List.map_nil, List.isEmpty_cons, if_neg Bool.false_ne_true, hjoin,
    tracebackHead, String.append_assoc]

theorem sourceLines_single (verbose coloured : Bool) (name source : String) :
    (single verbose coloured name source).sourceLines = Text.lines source := by
  simp [sourceLines, active, single]

/-- A report about a single source depends on its name only in its head, and on tracing nowhere. -/
theorem exists_report_single (coloured : Bool) (source : String) (fault : Fault) :
    ∃ behind, ∀ verbose name, (single verbose coloured name source).report fault = tracebackHead name ++ behind := by
  refine ⟨(reportedLine fault).repr ++ ":\n" ++ account coloured fault (Text.lines source), fun verbose name => ?_⟩
  rw [report_eq, traceback_single, sourceLines_single]
  simp only [single, String.append_assoc]

theorem activate_single (verbose coloured : Bool) (name source : String) :
    (Handler.register (.fresh true verbose coloured) name).activate name source =
      single verbose coloured name source := by
  simp only [register, activate, fresh, setSource, setEntry, single, if_pos]

theorem leave_single (verbose coloured : Bool) (name source : String) (stop : Stop) :
    (single verbose coloured name source).leave stop.departure =
      ((single verbose coloured name source).report stop.reported, .exit 1, single verbose coloured name source) := by
  cases stop <;> rfl

end Handler

/-! ### One program -/

namespace CommandLine

open Session (start runSource guarded)

theorem guarded_run_start (handler : Handler) (name : String) (depth : Nat) (text : String) :
    (start handler name depth [text]).guarded Session.run = (start handler name depth []).guarded (runSource text) := by
  have hrun : Session.run (start handler name depth [text]) =
      (runSource text >>= fun _ => pure ()) (start handler name depth []) := rfl
  rw [guarded, guarded, hrun, bind_pure_unit]

/-- What tracing a text that is run adds to the error stream. -/
def traced (depth : Nat) (coloured : Bool) (text : String) (verbose : Bool) : String :=
  let stage := Handler.stage (.fresh true verbose coloured)
  match parse depth text with
  | .error _ => ""
  | .ok program =>
    if program.height ≤ depth then
      stage "parse" program.source ++
        match evaluate depth program Store.root .initial with
        | .error .. => ""
        | .ok value _ => stage "eval" value.text
    else ""

theorem traced_silent (depth : Nat) (coloured : Bool) (text : String) : traced depth coloured text false = "" := by
  have hstage (name text : String) : Handler.stage (.fresh true false coloured) name text = "" := rfl
  simp only [traced, hstage, String.empty_append]
  split
  · rfl
  · split
    · split <;> rfl
    · rfl

/-- What stops a text that is run, if anything does. -/
def hindrance (depth : Nat) (text : String) : Option Stop :=
  match parse depth text with
  | .error stop => some stop
  | .ok program =>
    match LambdaScript.runProgram depth program .initial with
    | .error stop _ => some stop
    | .ok .. => none

/-- What is seen of a text that is run: whether it could be read and has a value, what it prints, and its value if that
is wanted. -/
def Outcome.Shows (depth : Nat) (text : String) (printResult : Bool) (outcome : Outcome) : Prop :=
  match parse depth text with
  | .error _ => outcome.status = 1 ∧ outcome.output = ""
  | .ok program =>
    match LambdaScript.runProgram depth program .initial with
    | .error _ world => outcome.status = 1 ∧ outcome.output = world.output
    | .ok value world =>
      outcome.status = 0 ∧ outcome.output = world.output ++ if printResult then value.text ++ "\n" else ""

theorem Outcome.Shows.unique {depth : Nat} {text : String} {printResult : Bool} {outcome outcome' : Outcome}
    (h : outcome.Shows depth text printResult) (h' : outcome'.Shows depth text printResult) :
    outcome.status = outcome'.status ∧ outcome.output = outcome'.output := by
  unfold Shows at h h'
  cases hparse : parse depth text with
  | error stop =>
      rw [hparse] at h h'
      exact ⟨h.1.trans h'.1.symm, h.2.trans h'.2.symm⟩
  | ok program =>
      simp only [hparse] at h h'
      cases hrun : LambdaScript.runProgram depth program .initial <;> rw [hrun] at h h' <;>
        exact ⟨h.1.trans h'.1.symm, h.2.trans h'.2.symm⟩

/-- A session that is started with a text shows the program in it. Its errors are what tracing adds, and then the report
of what stopped the program, if anything did. -/
theorem runProgram_start (depth : Nat) (coloured : Bool) (text : String) (printResult verbose : Bool) (name : String) :
    let outcome := runProgram (start (.fresh true verbose coloured) name depth [text]) printResult
    outcome.Shows depth text printResult ∧
      outcome.errors = traced depth coloured text verbose ++ (hindrance depth text).elim "" fun stop =>
        (Handler.single verbose coloured name text).report stop.reported := by
  have hstage : (Handler.single verbose coloured name text).stage = Handler.stage (.fresh true verbose coloured) := rfl
  have houtput : World.initial.output = "" := rfl
  unfold runProgram traced hindrance Outcome.Shows
  rw [guarded_run_start]
  cases hparse : parse depth text with
  | error stop =>
      simp only [guarded, runSource, start, hparse, Handler.activate_single, Handler.leave_single, houtput,
        Option.elim_some, and_self]
  | ok program =>
      by_cases hfits : program.height ≤ depth
      · have hsource : program.source? depth = some program.source := if_pos hfits
        have hprogram : LambdaScript.runProgram depth program = evaluate depth program Store.root := if_pos hfits
        simp only [if_pos hfits, hprogram]
        cases hrun : evaluate depth program Store.root .initial with
        | error stop world =>
            simp only [guarded, runSource, start, hparse, Handler.activate_single, Handler.leave_single, hsource, hrun,
              Session.write, hstage, String.empty_append, String.append_empty, Option.elim_some, and_self]
        | ok value world =>
            simp only [guarded, runSource, start, hparse, Handler.activate_single, Handler.leave, hsource, hrun,
              Session.write, hstage, Session.pop?, String.empty_append, String.append_empty, Option.elim_none, true_and]
            exact ⟨rfl, trivial⟩
      · have hsource : program.source? depth = none := if_neg hfits
        have hprogram : LambdaScript.runProgram depth program = throw .tooDeep := if_neg hfits
        simp only [guarded, runSource, start, hparse, Handler.activate_single, Handler.leave_single, hsource, hprogram,
          if_neg hfits, String.empty_append]
        exact ⟨⟨trivial, rfl⟩, rfl⟩

/-! ### The command line -/

/-- The switches of a call: whether the value is wanted, and whether it is traced. -/
def switchWords (printResult verbose : Bool) : List String :=
  (if printResult then ["-p"] else []) ++ if verbose then ["-v"] else []

/-- The ways to hand over a program. -/
inductive Entrance where
  | file (path : String)
  /-- On the standard input, asked for by a dash. -/
  | dash
  /-- On the standard input, where nothing else is asked for. -/
  | pipe
  | switch
deriving DecidableEq, Repr

namespace Entrance

/-- The words of the command line that hand over a text. A path that could be taken for a switch is set off. -/
def words (text : String) : Entrance → List String
  | file path => if path.toList.head? = some '-' then ["--", path] else [path]
  | dash => ["-"]
  | pipe => []
  | switch => ["--eval=" ++ text]

/-- The name that reports give the text. -/
def name : Entrance → String
  | file path => path
  | dash | pipe => Session.inputPath
  | switch => Session.codePath

/-- Whether a text is found where a call looks for it. -/
def Finds (text : String) (around : Surroundings) : Entrance → Prop
  | file path => path ≠ Session.shellPath ∧ path ≠ Session.inputPath ∧ around.files path = some text
  | dash => around.input = text
  | pipe => around.input = text ∧ around.terminal = false
  | switch => True

/-- What the words of a call set. -/
def settings (text : String) (printResult verbose : Bool) : Entrance → Settings
  | file path => ⟨some path, none, printResult, verbose, .value defaultLimit⟩
  | dash => ⟨some "-", none, printResult, verbose, .value defaultLimit⟩
  | pipe => ⟨none, none, printResult, verbose, .value defaultLimit⟩
  | switch => ⟨none, some (.ofText text), printResult, verbose, .value defaultLimit⟩

end Entrance

theorem classify_code (text : String) : classify ("--eval=" ++ text) = .ok (.long .code (some text)) := by
  have hchars : ("--eval=" ++ text).toList = '-' :: '-' :: ("eval=".toList ++ text.toList) := by
    rw [String.toList_append]
    rfl
  have hsplit : splitAtEquals ('-' :: '-' :: ("eval=".toList ++ text.toList)) = some ("--eval", text) := by
    simp [splitAtEquals]
  have hnames : completions "--eval" = [("--eval", .code)] := by decide
  unfold classify
  rw [hchars]
  simp only [longWord, hsplit, hnames]

theorem classifyAll_cons {text : String} {word : Word} (h : text ≠ "--") (hword : classify text = .ok word)
    (texts : List String) : classifyAll (text :: texts) = (classifyAll texts).map (word :: ·) := by
  rw [classifyAll, if_neg h, hword]
  cases classifyAll texts <;> rfl

/-- What the words for the switches of a call are. -/
def flagWords (printResult verbose : Bool) : List Word :=
  (if printResult then [.short .printResult []] else []) ++ if verbose then [.short .verbose []] else []

theorem classifyAll_switchWords (printResult verbose : Bool) (texts : List String) :
    classifyAll (switchWords printResult verbose ++ texts) =
      (classifyAll texts).map (flagWords printResult verbose ++ ·) := by
  have hp : ∀ texts, classifyAll ("-p" :: texts) = (classifyAll texts).map (.short .printResult [] :: ·) :=
    classifyAll_cons (by decide) (by decide)
  have hv : ∀ texts, classifyAll ("-v" :: texts) = (classifyAll texts).map (.short .verbose [] :: ·) :=
    classifyAll_cons (by decide) (by decide)
  have hid (words : Except UsageError (List Word)) : words.map (fun words => words) = words := by cases words <;> rfl
  unfold switchWords flagWords
  cases printResult <;> cases verbose
  · exact (hid _).symm
  · exact hv texts
  · exact hp texts
  · simp only [if_true, List.cons_append, List.nil_append, hp, hv]
    cases classifyAll texts <;> rfl

/-- A switch that takes no value only sets what it asks for. -/
theorem followWords_short {switch : Switch} {settings after : Settings} (h : switch.takesValue = false)
    (hset : settings.set switch "" = .ok after) (words : List Word) :
    followWords ⟨settings, true, []⟩ (.short switch [] :: words) = followWords ⟨after, true, []⟩ words := by
  have hcluster : Word.cluster (.short switch []) = .ok ⟨[switch], .nothing⟩ := by
    show Except.ok (Cluster.single switch) = _
    rw [Cluster.single, h]
    rfl
  have hfollow : Progress.follow ⟨settings, true, []⟩ [(switch, "")] = .ok ⟨after, true, []⟩ := by
    simp only [Progress.follow, Settings.setAll, hset]
    rfl
  rw [followWords, hcluster]
  · show Progress.follow ⟨settings, true, []⟩ [(switch, "")] >>= (followWords · words) = _
    rw [hfollow]
    rfl
  all_goals nofun

theorem followWords_code (settings : Settings) (text : String) :
    followWords ⟨settings, true, []⟩ [.long .code (some text)] =
      .ok ⟨{ settings with code := some (.ofText text) }, true, []⟩ := by
  rw [followWords]
  · rfl
  all_goals nofun

theorem followWords_flagWords (printResult verbose : Bool) (words : List Word) :
    followWords .initial (flagWords printResult verbose ++ words) =
      followWords ⟨⟨none, none, printResult, verbose, .value defaultLimit⟩, true, []⟩ words := by
  unfold flagWords
  cases printResult <;> cases verbose
  · rfl
  · exact followWords_short rfl rfl words
  · exact followWords_short rfl rfl words
  · exact (followWords_short rfl rfl _).trans (followWords_short rfl rfl words)

theorem readSettings_words (entrance : Entrance) (text : String) (printResult verbose : Bool) :
    readSettings (switchWords printResult verbose ++ entrance.words text) =
      .ok (entrance.settings text printResult verbose) := by
  have hread {words : List Word} {settings : Settings} {wants : Bool}
      (hwords : classifyAll (entrance.words text) = .ok words)
      (hfollow : followWords ⟨⟨none, none, printResult, verbose, .value defaultLimit⟩, true, []⟩ words =
        .ok ⟨settings, wants, []⟩) :
      readSettings (switchWords printResult verbose ++ entrance.words text) = .ok settings := by
    rw [readSettings, classifyAll_switchWords, hwords]
    show (followWords .initial (flagWords printResult verbose ++ words) >>= _) = _
    rw [followWords_flagWords, hfollow]
    rfl
  cases entrance with
  | file path =>
      by_cases hdash : path.toList.head? = some '-'
      · have hwords : classifyAll ((Entrance.file path).words text) = .ok [.separator, .plain path] := by
          rw [Entrance.words, if_pos hdash, classifyAll, if_pos rfl]
          rfl
        exact hread hwords rfl
      · have hplain : classify path = .ok (.plain path) := by
          unfold classify
          split
          · simp_all
          · simp_all
          · rfl
        have hne : path ≠ "--" := by
          rintro rfl
          exact hdash rfl
        have hwords : classifyAll ((Entrance.file path).words text) = .ok [.plain path] := by
          rw [Entrance.words, if_neg hdash, classifyAll_cons hne hplain]
          rfl
        exact hread hwords rfl
  | dash => exact hread (show classifyAll ["-"] = .ok [.plain "-"] from rfl) rfl
  | pipe => exact hread (show classifyAll [] = .ok [] from rfl) rfl
  | switch =>
      have hne : "--eval=" ++ text ≠ "--" := by
        intro h
        have hlength : 7 + text.length = 2 := (String.length_append "--eval=" text).symm.trans (congrArg String.length h)
        omega
      have hwords : classifyAll (Entrance.words text .switch) = .ok [.long .code (some text)] := by
        rw [Entrance.words, classifyAll_cons hne (classify_code text)]
        rfl
      exact hread hwords (followWords_code _ text)

/-! ### A call -/

/-- The bound on nested calls where none is given. -/
def callDepth : Nat := defaultLimit - ownDepth

/-- What a call leaves behind to which a text is handed over. -/
def Entrance.call (entrance : Entrance) (text : String) (printResult verbose : Bool) (around : Surroundings) : Outcome :=
  run (switchWords printResult verbose ++ entrance.words text) around

variable {entrance other : Entrance} {text : String} {around around' : Surroundings}

/-- However a text is handed over, it is run under the name that goes with that. -/
theorem call_eq (hreturn : '\r' ∉ text.toList) (hfinds : entrance.Finds text around)
    (hdashes : entrance = .switch → text ≠ "--") (printResult verbose : Bool) :
    entrance.call text printResult verbose around =
      runProgram (start (.fresh true verbose around.coloured) entrance.name callDepth [text]) printResult := by
  have hunify := Text.unifyLineEndings_of_not_mem hreturn
  have hdepth : programDepth (.value (defaultLimit : Int)) = .ok callDepth := by decide
  rw [Entrance.call, run, readSettings_words]
  cases entrance with
  | file path =>
      obtain ⟨hshell, hinput, hfile⟩ := hfinds
      simp only [Entrance.settings, runWith, hdepth, Settings.source, Settings.handler, Session.prepare, hfile, hunify,
        if_neg hshell, if_neg hinput, Bool.false_eq_true, if_false, Entrance.name]
  | dash =>
      have hinput : around.input = text := hfinds
      have hshell : "-" ≠ Session.shellPath := by decide
      simp only [Entrance.settings, runWith, hdepth, Settings.source, Settings.handler, Session.prepare, hinput, hunify,
        if_neg hshell, Bool.false_eq_true, if_false, Entrance.name]
      rfl
  | pipe =>
      obtain ⟨hinput, hterminal⟩ := hfinds
      have hshell : Session.inputPath ≠ Session.shellPath := by decide
      simp only [Entrance.settings, runWith, hdepth, Settings.source, Settings.handler, Session.prepare, hinput, hunify,
        hterminal, if_neg hshell, Bool.false_eq_true, if_false, if_true, Entrance.name]
  | switch =>
      have hgiven : Given.ofText text = .value text := if_neg (hdashes rfl)
      have hshell : Session.codePath ≠ Session.shellPath := by decide
      simp only [Entrance.settings, runWith, hdepth, Settings.source, Settings.handler, Session.prepare, hgiven,
        if_neg hshell, Bool.false_eq_true, if_false, Entrance.name, String.empty_append]

/-- Two dashes attached to the switch for code give it no text, and the call fails before anything is run. -/
theorem call_dashes (printResult verbose : Bool) (around : Surroundings) :
    Entrance.switch.call "--" printResult verbose around = ⟨1, "",
      (Handler.single verbose around.coloured Session.codePath "").report
        ⟨.hostFailure "AttributeError" "'list' object has no attribute 'split'", none⟩⟩ := by
  have hdepth : programDepth (.value (defaultLimit : Int)) = .ok callDepth := by decide
  rw [Entrance.call, run, readSettings_words]
  rfl

/-- However a text is handed over, what is seen of the call is what is seen of the program. -/
theorem shows_call (hreturn : '\r' ∉ text.toList) (hfinds : entrance.Finds text around) (printResult verbose : Bool) :
    (entrance.call text printResult verbose around).Shows callDepth text printResult := by
  by_cases hdashes : entrance = .switch → text ≠ "--"
  · rw [call_eq hreturn hfinds hdashes]
    exact (runProgram_start ..).1
  · rw [Classical.not_imp, not_not] at hdashes
    obtain ⟨rfl, rfl⟩ := hdashes
    have hparse : (parse callDepth "--").toOption = none := by decide +kernel
    rw [call_dashes, Outcome.Shows]
    cases h : parse callDepth "--" with
    | error stop => exact ⟨rfl, rfl⟩
    | ok program =>
        rw [h] at hparse
        cases hparse

/-- Tracing only adds to the error stream, in front of what is reported. -/
theorem exists_call_verbose (hreturn : '\r' ∉ text.toList) (hfinds : entrance.Finds text around) (printResult : Bool) :
    ∃ trace, (entrance.call text printResult true around).errors =
      trace ++ (entrance.call text printResult false around).errors := by
  have hreport (name source : String) (fault : Fault) :
      (Handler.single true around.coloured name source).report fault =
        (Handler.single false around.coloured name source).report fault := rfl
  by_cases hdashes : entrance = .switch → text ≠ "--"
  · refine ⟨traced callDepth around.coloured text true, ?_⟩
    rw [call_eq hreturn hfinds hdashes, call_eq hreturn hfinds hdashes, (runProgram_start ..).2, (runProgram_start ..).2,
      traced_silent, String.empty_append]
    simp only [hreport]
  · rw [Classical.not_imp, not_not] at hdashes
    obtain ⟨rfl, rfl⟩ := hdashes
    refine ⟨"", ?_⟩
    simp only [call_dashes, String.empty_append, hreport]

/-- **However a text is handed over, the same is seen of it.** What a call shows is what is seen of the program, and
tracing only adds to the error stream. Two calls report the same but for the name that they give the text, unless two
dashes are attached to the switch for code. -/
theorem call_agrees (hreturn : '\r' ∉ text.toList) (hfinds : entrance.Finds text around)
    (hother : other.Finds text around') (hcoloured : around.coloured = around'.coloured) (printResult verbose : Bool) :
    let outcome := entrance.call text printResult verbose around
    let outcome' := other.call text printResult verbose around'
    (outcome.status = outcome'.status ∧ outcome.output = outcome'.output ∧
      ((entrance = .switch ∨ other = .switch → text ≠ "--") →
        SameButName entrance.name other.name outcome.errors outcome'.errors)) ∧
    outcome.Shows callDepth text printResult ∧
    ∃ trace, (entrance.call text printResult true around).errors =
      trace ++ (entrance.call text printResult false around).errors := by
  have hshows := shows_call hreturn hfinds printResult verbose
  obtain ⟨hstatus, houtput⟩ := hshows.unique (shows_call hreturn hother printResult verbose)
  refine ⟨⟨hstatus, houtput, fun hdashes => ?_⟩, hshows, exists_call_verbose hreturn hfinds printResult⟩
  rw [call_eq hreturn hfinds (fun h => hdashes (.inl h)), call_eq hreturn hother (fun h => hdashes (.inr h)),
    (runProgram_start ..).2, (runProgram_start ..).2, hcoloured]
  cases hindrance callDepth text with
  | none =>
      left
      rw [Option.elim_none, Option.elim_none]
  | some stop =>
      obtain ⟨behind, hbehind⟩ := Handler.exists_report_single around'.coloured text stop.reported
      refine .inr ⟨traced callDepth around'.coloured text verbose, behind, ?_, ?_⟩
      · rw [Option.elim_some, hbehind, String.append_assoc]
      · rw [Option.elim_some, hbehind, String.append_assoc]

/-- A program that prints something and then divides by zero, from a file and from the standard input. -/
theorem call_agrees_of_division :
    let text := "println(1); 1 / 0"
    let around : Surroundings := ⟨fun path => if path = "a.ulc" then some text else none, text, false, false⟩
    '\r' ∉ text.toList ∧ (Entrance.file "a.ulc").Finds text around ∧ Entrance.pipe.Finds text around ∧
      let outcome := (Entrance.file "a.ulc").call text true true around
      let outcome' := Entrance.pipe.call text true true around
      (outcome.status = outcome'.status ∧ outcome.output = outcome'.output ∧
        SameButName "a.ulc" "-" outcome.errors outcome'.errors) ∧
      outcome.Shows callDepth text true ∧
      ∃ trace, outcome.errors = trace ++ ((Entrance.file "a.ulc").call text true false around).errors := by
  intro text around
  have hreturn : '\r' ∉ text.toList := by decide
  have hfile : (Entrance.file "a.ulc").Finds text around := ⟨by decide, by decide, by decide⟩
  have hpipe : Entrance.pipe.Finds text around := ⟨rfl, rfl⟩
  obtain ⟨⟨hstatus, houtput, herrors⟩, hshows, htrace⟩ := call_agrees hreturn hfile hpipe rfl true true
  exact ⟨hreturn, hfile, hpipe, ⟨hstatus, houtput, herrors fun _ => by decide⟩, hshows, htrace⟩

/-- Two dashes on the standard input are reported as an operator that does not exist; attached to the switch for code
they are reported as a failure of the host. -/
theorem call_dashes_differs :
    let around : Surroundings := ⟨fun _ => none, "--", false, false⟩
    let outcome := Entrance.switch.call "--" false false around
    let outcome' := Entrance.pipe.call "--" false false around
    Entrance.switch.Finds "--" around ∧ Entrance.pipe.Finds "--" around ∧
      outcome.errors = "Traceback:\n  File '<eval>', line 1:\n" ++
        "[internal] error: unknown error: 'AttributeError: 'list' object has no attribute 'split''\n" ∧
      outcome'.errors = "Traceback:\n  File '-', line 1:\nerror: Unknown operator '--' (1:0)\n  --\n  ^\n" ∧
      ¬ SameButName Session.codePath Session.inputPath outcome.errors outcome'.errors := by
  intro around outcome outcome'
  have hswitch : outcome.errors = "Traceback:\n  File '<eval>', line 1:\n" ++
      "[internal] error: unknown error: 'AttributeError: 'list' object has no attribute 'split''\n" := by
    decide +kernel
  have hpipe : outcome'.errors =
      "Traceback:\n  File '-', line 1:\nerror: Unknown operator '--' (1:0)\n  --\n  ^\n" := by
    decide +kernel
  have hlengths : outcome.errors.length ≠ outcome'.errors.length + 5 := by
    rw [hswitch, hpipe]
    decide +kernel
  refine ⟨trivial, ⟨rfl, rfl⟩, hswitch, hpipe, ?_⟩
  rintro (h | ⟨before, behind, h, h'⟩)
  · rw [hswitch, hpipe] at h
    exact absurd h (by decide +kernel)
  · have hnames : (tracebackHead Session.codePath).length = (tracebackHead Session.inputPath).length + 5 := by
      decide +kernel
    rw [h, h'] at hlengths
    simp only [String.length_append] at hlengths
    omega

end CommandLine

end LambdaScript
