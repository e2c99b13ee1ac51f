import LambdaScript.Proofs.Eval.RunText
import LambdaScript.Proofs.Report.Bookkeeping
import LambdaScript.Proofs.Session.Queue

/-!
What reports show of the sources of a session. While a source is run, it is the one whose lines the handler shows. A
fault of reading is at a place in it, and so is a fault of its own code. But functions outlive the source that made
them, and a fault of their code keeps its place in that source; its line and column are then looked up in the text of
another one.
-/

namespace LambdaScript

/-- A token of one of some texts starts there. -/
def IsStartIn (texts : List String) (pos : Position) : Prop := ∃ text ∈ texts, IsTokenStart text pos

theorem keepsPlaced_runProgram {P : Position → Prop} {program : Expr} (depth : Nat) (h : program.IsPlaced P) :
    KeepsPlaced P (runProgram depth program) (Value.IsPlaced P) := by
  unfold runProgram
  split
  · exact keepsPlaced_evaluate depth program Store.root h
  · exact .tooDeep

namespace Session

variable {session after : Session} {texts : List String} {source : String}

/-- A session about a single file, all of whose functions were made by some sources. -/
structure IsAbout (session : Session) (texts : List String) : Prop where
  files : ∃ active, session.handler.files = [(session.path, active)]
  placed : session.world.IsPlaced (IsStartIn texts)

/-- Running a source keeps the session about its file. Where the run stops, the source is the active one, and its
lines are stored. -/
theorem files_runSource (source : String) {active : Option String}
    (h : session.handler.files = [(session.path, active)]) :
    match runSource source session with
    | .ok _ after => after.handler.files = [(after.path, none)]
    | .error _ after => after.handler.files = [(after.path, some source)] ∧
        after.handler.lines.lookup after.path = some (Text.lines source) := by
  have hfiles : (session.handler.activate session.path source).files = [(session.path, some source)] := by
    simp [Handler.activate, Handler.setSource, Handler.setEntry, h]
  have hlines : (session.handler.activate session.path source).lines.lookup session.path =
      some (Text.lines source) :=
    (Handler.lookup_setEntry ..).trans (if_pos rfl)
  have hactive := And.intro hfiles hlines
  unfold runSource
  dsimp only
  cases parse session.depth source with
  | error stop => exact hactive
  | ok program =>
      cases hsource : program.source? session.depth with
      | none =>
          simp only [hsource]
          exact hactive
      | some text =>
          simp only [hsource, write]
          cases evaluate session.depth program Store.root session.world with
          | error stop world => exact hactive
          | ok value world => simp [Handler.deactivate, Handler.setSource, Handler.setEntry, hfiles]

/-- What the code of a source does: it leaves functions of its own and of earlier sources, and if it fails, the code of
one of these does. -/
theorem runSource_placed {P : Position → Prop} (hplaced : session.world.IsPlaced P)
    (hsource : ∀ pos, IsTokenStart source pos → P pos) :
    match runSource source session with
    | .ok _ after => after.world.IsPlaced P
    | .error stop after => after.world.IsPlaced P ∧
        ∀ fault, stop = .fault fault → fault.IsParsingIn source ∨ stop.IsOfEvaluation P := by
  have hsafe {program : Expr} (hread : parse session.depth source = .ok program) :=
    keepsPlaced_runProgram session.depth ((isPlaced_of_parse hread).mono hsource) session.world hplaced
  unfold Leads at hsafe
  rcases runSource_ends source session with
    ⟨program, value, after, hrun, hread, hvalue, -⟩ | ⟨stop, after, hrun, hturn, -⟩
  · have hleft := hsafe hread
    rw [hvalue] at hleft
    rw [hrun]
    exact hleft.1
  · rw [hrun]
    dsimp only
    generalize after.world = last at hturn ⊢
    cases hturn with
    | unread hread =>
        have hsound := parse_sound session.depth source
        rw [hread] at hsound
        refine ⟨hplaced, fun fault hfault => .inl ?_⟩
        subst hfault
        exact hsound
    | failed hread hvalue =>
        have hleft := hsafe hread
        rw [hvalue] at hleft
        exact ⟨hleft.2, fun fault hfault => .inr hleft.1⟩

/-- Running one more source in a session about some others. -/
theorem IsAbout.runSource (h : session.IsAbout texts) (source : String) :
    match runSource source session with
    | .ok _ after => after.IsAbout (texts ++ [source])
    | .error stop after => after.IsAbout (texts ++ [source]) ∧ after.handler.sourceLines = Text.lines source ∧
        ∀ fault, stop = .fault fault →
          fault.IsParsingIn source ∨ stop.IsOfEvaluation (IsStartIn (texts ++ [source])) := by
  obtain ⟨⟨active, hfiles⟩, hplaced⟩ := h
  have hearlier : session.world.IsPlaced (IsStartIn (texts ++ [source])) := by
    refine hplaced.mono fun pos hpos => ?_
    obtain ⟨text, hmem, hstart⟩ := hpos
    exact ⟨text, List.mem_append_left _ hmem, hstart⟩
  have hsource (pos : Position) (hstart : IsTokenStart source pos) : IsStartIn (texts ++ [source]) pos :=
    ⟨source, List.mem_append_right _ (List.mem_singleton_self source), hstart⟩
  have hfilesLeft := files_runSource source hfiles
  have hplacedLeft := runSource_placed hearlier hsource
  cases hrun : Session.runSource source session with
  | ok done after =>
      rw [hrun] at hfilesLeft hplacedLeft
      exact ⟨⟨none, hfilesLeft⟩, hplacedLeft⟩
  | error stop after =>
      rw [hrun] at hfilesLeft hplacedLeft
      obtain ⟨hactive, hlines⟩ := hfilesLeft
      refine ⟨⟨⟨some source, hactive⟩, hplacedLeft.1⟩, ?_, hplacedLeft.2⟩
      simp [Handler.sourceLines, Handler.active, hactive, hlines]

theorem IsAbout.leftBy_runSource (h : session.IsAbout texts) (source : String) :
    (leftBy (Session.runSource source session)).IsAbout (texts ++ [source]) := by
  have hafter := h.runSource source
  cases hrun : Session.runSource source session with
  | ok done after =>
      rw [hrun] at hafter
      exact hafter
  | error stop after =>
      rw [hrun] at hafter
      exact hafter.1

/-- Sources run one after the other, whatever becomes of each. -/
def runEach (session : Session) (sources : List String) : Session :=
  sources.foldl (fun session source => leftBy (runSource source session)) session

theorem IsAbout.runEach (h : session.IsAbout texts) (sources : List String) :
    (session.runEach sources).IsAbout (texts ++ sources) := by
  unfold Session.runEach
  induction sources generalizing session texts with
  | nil =>
      rw [List.append_nil]
      exact h
  | cons source sources ih =>
      rw [List.foldl_cons, List.append_cons]
      exact ih (h.leftBy_runSource source)

/-- **A report shows the lines of the source that was run, and blames a token of it or of an earlier one.** Sources
are run one after the other in a session, whatever becomes of each, and then one more. If that fails, its lines are
those that the handler shows. A fault of reading is at a place in it; a fault of a running program is where a token of
it or of one of the earlier sources starts. If no function in the session was made by another source, the place is one
of the source that was run, and the report points to it. -/
theorem runSource_blames (fatal verbose coloured : Bool) (path : String) (depth : Nat) (queue earlier : List String)
    (source : String) :
    let session := runEach (start (.fresh fatal verbose coloured) path depth queue) earlier
    match runSource source session with
    | .error (.fault fault) after =>
      after.handler.sourceLines = Text.lines source ∧
      (fault.IsParsingIn source ∨ (Stop.fault fault).IsOfEvaluation (IsStartIn (earlier ++ [source]))) ∧
      (session.world.IsPlaced (IsTokenStart source) → ∃ pos, fault.IsShownIn source pos)
    | _ => True := by
  intro session
  have hstart : (start (.fresh fatal verbose coloured) path depth queue).IsAbout [] :=
    ⟨⟨none, rfl⟩, World.isPlaced_initial⟩
  have hafter := (hstart.runEach earlier).runSource source
  have hown (hplaced : session.world.IsPlaced (IsTokenStart source)) :=
    runSource_placed hplaced fun pos hpos => hpos
  rw [List.nil_append] at hafter
  cases hrun : runSource source session with
  | ok done after => trivial
  | error stop after =>
      rw [hrun] at hafter hown
      cases stop with
      | tooDeep => trivial
      | fault fault =>
          obtain ⟨-, hlines, hblames⟩ := hafter
          refine ⟨hlines, hblames fault rfl, fun hplaced => ?_⟩
          rcases (hown hplaced).2 fault rfl with hparsing | hrunning
          · exact hparsing.isShownIn
          · exact Fault.isShownIn_of_evaluation hrunning

/-- A run that was stopped by a fault, of which there is some report. -/
theorem exists_of_reported (result : EStateM.Result Stop Session Unit) (fault : Fault) (text : String)
    (h : (match result with
      | .error (.fault found) after => found == fault && after.handler.report fault == text
      | _ => false) = true) : ∃ after, result = .error (.fault fault) after ∧ after.handler.report fault = text := by
  split at h
  · next found after =>
    rw [Bool.and_eq_true, beq_iff_eq, beq_iff_eq] at h
    exact ⟨after, by rw [h.1], h.2⟩
  · cases h

/-- A function that an earlier source made divides by zero. The place is that of the division, and the report has a
caret behind the end of a line where nothing is wrong. -/
theorem runSource_blames_earlier :
    let session := runEach (start (.fresh false false false) shellPath 40 []) ["f = λ(x) 1 / x"]
    ∃ fault after, runSource "f(0)" session = .error (.fault fault) after ∧ fault.cause.IsOfEvaluation ∧
      fault.pos = some ⟨1, 11⟩ ∧ IsTokenStart "f = λ(x) 1 / x" ⟨1, 11⟩ ∧ ¬IsTokenStart "f(0)" ⟨1, 11⟩ ∧
      after.handler.report fault = "Traceback:\n  File '<in>', line 1:\n" ++
        "error: Division by zero in '/' (1:11)\n" ++ "  f(0)\n" ++ "      ^\n" := by
  obtain ⟨after, hrun, hreport⟩ := exists_of_reported
    (runSource "f(0)" (runEach (start (.fresh false false false) shellPath 40 []) ["f = λ(x) 1 / x"]))
    ⟨.divisionByZero "/", some ⟨1, 11⟩⟩
    ("Traceback:\n  File '<in>', line 1:\n" ++ "error: Division by zero in '/' (1:11)\n" ++ "  f(0)\n" ++ "      ^\n")
    (by decide +kernel)
  exact ⟨_, after, hrun, trivial, rfl, by decide +kernel, by decide +kernel, hreport⟩

end Session

end LambdaScript
