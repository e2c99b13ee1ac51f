import LambdaScript.Report.Handler
import Mathlib.Data.List.Induction
import Mathlib.Data.List.Nodup

/-!
What a handler keeps. Whatever is done with a handler, in whatever order, its files are those ever mentioned, in
the order of their first mention, and each has the source that its own history leaves active. The lines stored for
a file are those of the source that was activated for it last: an activation stores them, and nothing takes them
away. Though the two are set by different steps, for a file with an active source the stored lines are those of that
source. A report names the files with an active source and no others, and is diagnosed against the last of them.
-/

namespace LambdaScript

/-- The fault that is reported when control leaves a block, if one is. -/
def Departure.reported? : Departure → Option Fault
  | .normal | .quit => none
  | .fault reason => some reason
  | .tooDeep => some ⟨.nestedTooDeeply, none⟩
  | .interrupted => some ⟨.interrupted, none⟩
  | .hostFailure kind text => some ⟨.hostFailure kind text, none⟩

/-- What follows when control has left a block whose handler does not end the program. -/
def Departure.ending : Departure → Ending
  | .normal => .fine
  | .quit => .quit
  | .fault _ | .tooDeep | .interrupted => .suppressed
  | .hostFailure kind _ => .raised kind

namespace Handler

/-! ### Steps -/

/-- What can be done with a handler. -/
inductive Step where
  | register (path : String)
  | activate (path source : String)
  | deactivate (path : String)
  | stage (name text : String)
  | warn (fault : Fault)
  | throw (fault : Fault)
  | leave (departure : Departure)
deriving DecidableEq, Repr

/-- Takes a step. The parts are the text written, what follows, and the handler afterwards. -/
def perform (handler : Handler) : Step → String × Ending × Handler
  | .register path => ("", .fine, handler.register path)
  | .activate path source => ("", .fine, handler.activate path source)
  | .deactivate path => ("", .fine, handler.deactivate path)
  | .stage name text => (handler.stage name text, .fine, handler)
  | .warn fault => (handler.warning fault, .fine, handler)
  | .throw fault => handler.throw fault
  | .leave departure => handler.leave departure

/-- The handler after some steps. One that has ended the program is still there, so steps may follow. -/
def after (handler : Handler) (steps : List Step) : Handler :=
  steps.foldl (fun handler step => (handler.perform step).2.2) handler

namespace Step

/-- The entry that a step makes: a file and its source from then on. -/
def entry? : Step → Option (String × Option String)
  | register path | deactivate path => some (path, none)
  | activate path source => some (path, some source)
  | _ => none

/-- The lines that a step stores: a file, and the lines of its source. -/
def lines? : Step → Option (String × List (List Char))
  | activate path source => some (path, Text.lines source)
  | _ => none

/-- The fault that a step reports. -/
def reported? : Step → Option Fault
  | throw fault => some fault
  | leave departure => departure.reported?
  | _ => none

/-- What follows a step of a handler that does not end the program. -/
def ending : Step → Ending
  | throw _ => .suppressed
  | leave departure => departure.ending
  | _ => .fine

/-- The files known after a step. -/
def pathsAfter (paths : List String) (step : Step) : List String :=
  match step.entry? with
  | some (path, _) => if path ∈ paths then paths else paths ++ [path]
  | none => paths

/-- The active source of a file after a step: an entry sets that of its own file, and a report that does not end
the program takes away that of every file. -/
def sourceAfter (fatal : Bool) (path : String) (source : Option String) (step : Step) : Option String :=
  match step.entry? with
  | some (named, other) => if named = path then other else source
  | none => if step.reported?.isSome && !fatal then none else source

/-- The lines stored for a file after a step. -/
def linesAfter (path : String) (lines : Option (List (List Char))) (step : Step) : Option (List (List Char)) :=
  match step.lines? with
  | some (named, stored) => if named = path then some stored else lines
  | none => lines

end Step

/-! ### What a history leaves -/

/-- The files that steps mention, in the order of their first mention. -/
def mentioned (steps : List Step) : List String :=
  (steps.filterMap fun step => step.entry?.map Prod.fst).eraseDups

/-- The source that steps leave active for a file. -/
def activeSource (fatal : Bool) (steps : List Step) (path : String) : Option String :=
  steps.foldl (Step.sourceAfter fatal path) none

/-- The lines that steps leave stored for a file. -/
def storedLines (steps : List Step) (path : String) : Option (List (List Char)) :=
  steps.foldl (Step.linesAfter path) none

/-- The files that steps leave with an active source, in the order of their first mention. -/
def running (fatal : Bool) (steps : List Step) : List String :=
  (mentioned steps).filter fun path => (activeSource fatal steps path).isSome

/-- The entries that steps leave: the files mentioned, and the source of each. -/
def table (fatal : Bool) (steps : List Step) : List (String × Option String) :=
  (mentioned steps).map fun path => (path, activeSource fatal steps path)

/-- The list of some files at the head of a report. -/
def fileList (paths : List String) (fault : Fault) : String :=
  if paths.isEmpty then ""
  else "Traceback:\n" ++ String.join (paths.map fun path =>
    "  File '" ++ path ++ "', line " ++ (reportedLine fault).repr ++ ":\n")

/-- What a report says behind the list of the files, with the lines that the fault is looked up in. -/
def account (coloured : Bool) (fault : Fault) (lines : List (List Char)) : String :=
  let mark := paint coloured .bold (some .red)
  let internal := if fault.cause.isInternal then mark "[internal] " else ""
  let message := internal ++ mark "error: " ++ fault.render coloured ++ "\n"
  if fault.cause.isInternal || !fault.cause.isDiagnosed then message
  else match diagnosis coloured .red fault.pos lines with
    | some lines => message ++ lines ++ "\n"
    | none => message

/-- The report of a fault after some steps: it lists the files with an active source, and the fault is looked up
in the lines stored for the last of them. -/
def reportAfter (fatal coloured : Bool) (steps : List Step) (fault : Fault) : String :=
  fileList (running fatal steps) fault ++
    account coloured fault (((running fatal steps).getLast?.bind (storedLines steps)).getD [])

/-- The entries that steps and a report leave: those that the steps leave if the report ends the program, and else
the files mentioned with no source at all. -/
def tableAfterReport (fatal : Bool) (steps : List Step) : List (String × Option String) :=
  if fatal then table fatal steps else (mentioned steps).map fun path => (path, none)

/-- What a handler does about a fault after some steps, where something is to follow if it does not end the program:
it reports the fault, and ends the program or forgets all active sources. The stored lines stay as they are. -/
def reactionAfter (fatal verbose coloured : Bool) (steps : List Step) (fault : Fault) (ending : Ending) :
    String × Ending × Handler :=
  (reportAfter fatal coloured steps fault,
    if fatal then .exit 1 else ending,
    { after (.fresh fatal verbose coloured) steps with files := tableAfterReport fatal steps })

section History

variable (fatal : Bool) (steps : List Step) (step : Step) (path : String)

theorem mentioned_concat : mentioned (steps ++ [step]) = step.pathsAfter (mentioned steps) := by
  unfold mentioned Step.pathsAfter
  rw [List.filterMap_append, List.eraseDups_append]
  cases hentry : step.entry? with
  | none => simp [hentry, List.removeAll]
  | some entry =>
      by_cases hmem : entry.1 ∈ steps.filterMap fun step => step.entry?.map Prod.fst
      · simp only [if_pos (List.mem_eraseDups.mpr hmem)]
        simp [hentry, List.removeAll, hmem]
      · simp only [if_neg (fun h => hmem (List.mem_eraseDups.mp h))]
        simp [hentry, List.removeAll, hmem, List.eraseDups_cons]

theorem activeSource_concat :
    activeSource fatal (steps ++ [step]) path = step.sourceAfter fatal path (activeSource fatal steps path) :=
  List.foldl_append

theorem storedLines_concat :
    storedLines (steps ++ [step]) path = step.linesAfter path (storedLines steps path) :=
  List.foldl_append

theorem after_concat (handler : Handler) :
    handler.after (steps ++ [step]) = ((handler.after steps).perform step).2.2 :=
  List.foldl_append

/-- Every file is listed once. -/
theorem nodup_mentioned : (mentioned steps).Nodup := by
  induction steps using List.reverseRecOn with
  | nil => exact List.nodup_nil
  | append_singleton steps step ih =>
      rw [mentioned_concat, Step.pathsAfter]
      cases step.entry? with
      | none => exact ih
      | some entry =>
          dsimp only
          split
          · exact ih
          · rw [← List.concat_eq_append]
            exact List.Nodup.concat ‹_› ih

variable {fatal steps step path} in
/-- What is stored keeps up with what is active: only an activation makes a source active, and it stores its lines. -/
theorem Step.linesAfter_of_sourceAfter {source : Option String} {lines : Option (List (List Char))}
    (hbefore : ∀ old, source = some old → lines = some (Text.lines old)) {new : String}
    (h : step.sourceAfter fatal path source = some new) : step.linesAfter path lines = some (Text.lines new) := by
  have hcleared (hnew : (if step.reported?.isSome && !fatal then none else source) = some new) :
      source = some new := by
    split at hnew
    · cases hnew
    · exact hnew
  cases step with
  | activate named other =>
      simp only [sourceAfter, entry?] at h
      simp only [linesAfter, lines?]
      split at h
      · rw [if_pos ‹_›, Option.some.inj h]
      · rw [if_neg ‹_›]
        exact hbefore new h
  | register named | deactivate named =>
      simp only [sourceAfter, entry?] at h
      split at h
      · cases h
      · exact hbefore new h
  | stage name text => exact hbefore new (hcleared h)
  | warn fault => exact hbefore new (hcleared h)
  | throw fault => exact hbefore new (hcleared h)
  | leave departure => exact hbefore new (hcleared h)

variable {fatal steps path} in
/-- **For a file with an active source, the lines of that source are stored.** -/
theorem storedLines_of_activeSource {source : String} (h : activeSource fatal steps path = some source) :
    storedLines steps path = some (Text.lines source) := by
  induction steps using List.reverseRecOn generalizing source with
  | nil => cases h
  | append_singleton steps step ih =>
      rw [activeSource_concat] at h
      rw [storedLines_concat]
      exact Step.linesAfter_of_sourceAfter (fun old hold => ih hold) h

end History

/-! ### What one step does -/

variable {handler : Handler} {paths : List String} {sources : String → Option String}

/-- A report of a handler that does not end the program leaves no source active. -/
def afterReport (handler : Handler) : Handler := if handler.fatal then handler else handler.deactivateAll

/-- A step that reports a fault writes its report, and ends the program unless the handler goes on. -/
theorem perform_of_reported {step : Step} {fault : Fault} (h : step.reported? = some fault) :
    handler.perform step =
      (handler.report fault, if handler.fatal then .exit 1 else step.ending, handler.afterReport) := by
  have hthrow (fault : Fault) : handler.throw fault =
      (handler.report fault, if handler.fatal then .exit 1 else .suppressed, handler.afterReport) := by
    unfold throw afterReport
    cases handler.fatal <;> rfl
  cases step with
  | throw fault =>
      cases h
      exact hthrow fault
  | leave departure =>
      cases departure with
      | normal | quit => cases h
      | fault | tooDeep | interrupted =>
          cases h
          exact hthrow _
      | hostFailure kind text =>
          cases h
          rw [perform, Handler.leave, hthrow]
          cases handler.fatal <;> rfl
  | register | activate | deactivate | stage | warn => cases h

/-- Makes an entry, if there is one to be made. -/
def entered {α : Type} (entries : List (String × α)) : Option (String × α) → List (String × α)
  | some (path, value) => setEntry entries path value
  | none => entries

/-- A step that reports no fault changes nothing but the entries that it makes. -/
theorem perform_of_not_reported {step : Step} (h : step.reported? = none) :
    (handler.perform step).2 = (step.ending,
      { handler with files := entered handler.files step.entry?, lines := entered handler.lines step.lines? }) := by
  cases step with
  | throw => cases h
  | leave departure =>
      cases departure with
      | normal | quit => rfl
      | fault | tooDeep | interrupted | hostFailure => cases h
  | register | activate | deactivate | stage | warn => rfl

/-- Setting an entry keeps all others there are. -/
theorem mem_setEntry {α : Type} {entries : List (String × α)} {path : String} {value : α} {entry : String × α}
    (h : entry ∈ setEntry entries path value) : entry = (path, value) ∨ entry ∈ entries := by
  induction entries with
  | nil => exact .inl (List.mem_singleton.mp h)
  | cons first entries ih =>
      rw [setEntry] at h
      split at h
      · next hpath =>
          rcases List.mem_cons.mp h with rfl | hrest
          · exact .inl (congrArg (·, value) hpath)
          · exact .inr (List.mem_cons_of_mem first hrest)
      · rcases List.mem_cons.mp h with rfl | hrest
        · exact .inr List.mem_cons_self
        · exact (ih hrest).imp_right (List.mem_cons_of_mem first)

theorem lookup_entry {α : Type} (path other : String) (value : α) (entries : List (String × α)) :
    List.lookup other ((path, value) :: entries) = if path = other then some value else entries.lookup other := by
  rw [List.lookup_cons]
  by_cases hother : path = other
  · subst hother
    simp
  · rw [if_neg hother, beq_false_of_ne (Ne.symm hother)]

/-- What is found for a file after the entry of one was set. -/
theorem lookup_setEntry {α : Type} (entries : List (String × α)) (path other : String) (value : α) :
    (setEntry entries path value).lookup other = if path = other then some value else entries.lookup other := by
  induction entries with
  | nil => exact lookup_entry path other value []
  | cons first entries ih =>
      obtain ⟨named, old⟩ := first
      rw [setEntry]
      split
      · next hnamed =>
          rw [lookup_entry, lookup_entry, hnamed]
          split <;> rfl
      · next hnamed =>
          rw [lookup_entry, lookup_entry, ih]
          by_cases hother : path = other
          · subst hother
            rw [if_neg hnamed, if_pos rfl, if_pos rfl]
          · rw [if_neg hother, if_neg hother]

/-- Where files are listed once each, setting the entry of one changes no other. -/
theorem setEntry_map (hnodup : paths.Nodup) (path : String) (source : Option String) :
    setEntry (paths.map fun path => (path, sources path)) path source =
      (if path ∈ paths then paths else paths ++ [path]).map
        fun other => (other, if path = other then source else sources other) := by
  induction paths with
  | nil => simp [setEntry]
  | cons first paths ih =>
      obtain ⟨hfirst, hrest⟩ := List.nodup_cons.mp hnodup
      rw [List.map_cons, setEntry]
      by_cases hpath : first = path
      · subst hpath
        have hothers : paths.map (fun other => (other, if first = other then source else sources other)) =
            paths.map fun other => (other, sources other) :=
          List.map_congr_left fun other hother => by
            rw [if_neg fun (heq : first = other) => hfirst (heq ▸ hother)]
        rw [if_pos rfl, if_pos List.mem_cons_self, List.map_cons, hothers, if_pos rfl]
      · have hmem : path ∈ first :: paths ↔ path ∈ paths := by simp [Ne.symm hpath]
        rw [if_neg hpath, ih hrest]
        simp only [hmem]
        split <;> simp [Ne.symm hpath]

/-- A step that reports a fault makes no entry. -/
theorem Step.entry?_of_reported {step : Step} {fault : Fault} (h : step.reported? = some fault) :
    step.entry? = none ∧ step.lines? = none := by
  cases step with
  | throw | leave => exact ⟨rfl, rfl⟩
  | register | activate | deactivate | stage | warn => cases h

/-- **What one step does to the files**: they stay listed once each, and each source is what the step makes of it. -/
theorem files_perform (hnodup : paths.Nodup) (hfiles : handler.files = paths.map fun path => (path, sources path))
    (step : Step) :
    (handler.perform step).2.2.files =
      (step.pathsAfter paths).map fun path => (path, step.sourceAfter handler.fatal path (sources path)) := by
  cases hreported : step.reported? with
  | some fault =>
      obtain ⟨hentry, -⟩ := Step.entry?_of_reported hreported
      rw [perform_of_reported hreported, afterReport]
      simp only [Step.pathsAfter, Step.sourceAfter, hentry, hreported]
      cases handler.fatal with
      | true => simpa using hfiles
      | false => simp [deactivateAll, hfiles]
  | none =>
      rw [perform_of_not_reported hreported]
      simp only [Step.pathsAfter, Step.sourceAfter, hreported]
      cases step.entry? with
      | some entry =>
          dsimp only [entered]
          rw [hfiles, setEntry_map hnodup]
      | none => simpa [entered] using hfiles

/-- **What one step does to the stored lines**: those of a file are what the step makes of them. -/
theorem lookup_lines_perform (handler : Handler) (step : Step) (path : String) :
    (handler.perform step).2.2.lines.lookup path = step.linesAfter path (handler.lines.lookup path) := by
  cases hreported : step.reported? with
  | some fault =>
      obtain ⟨-, hlines⟩ := Step.entry?_of_reported hreported
      rw [perform_of_reported hreported, afterReport, Step.linesAfter, hlines]
      split <;> rfl
  | none =>
      rw [perform_of_not_reported hreported, Step.linesAfter]
      cases step.lines? with
      | some entry => exact lookup_setEntry handler.lines entry.1 path entry.2
      | none => rfl

/-- No step changes how reports are made. -/
theorem perform_eq (handler : Handler) (step : Step) :
    (handler.perform step).2.2 =
      { handler with files := (handler.perform step).2.2.files, lines := (handler.perform step).2.2.lines } := by
  cases hreported : step.reported? with
  | some fault =>
      rw [perform_of_reported hreported, afterReport]
      split <;> rfl
  | none => rw [perform_of_not_reported hreported]

/-! ### What some steps do -/

/-- **The files of a handler are a function of its history**, and it makes its reports in the same way throughout. -/
theorem after_eq (fatal verbose coloured : Bool) (steps : List Step) :
    after (fresh fatal verbose coloured) steps =
      ⟨fatal, verbose, coloured, table fatal steps, (after (fresh fatal verbose coloured) steps).lines⟩ := by
  induction steps using List.reverseRecOn with
  | nil => rfl
  | append_singleton steps step ih =>
      have hfiles : (after (fresh fatal verbose coloured) steps).files = table fatal steps := congrArg files ih
      have hstep : (after (fresh fatal verbose coloured) (steps ++ [step])).files =
          table fatal (steps ++ [step]) := by
        have hfatal : (after (fresh fatal verbose coloured) steps).fatal = fatal := congrArg Handler.fatal ih
        rw [after_concat, files_perform (nodup_mentioned steps) hfiles, hfatal, table, mentioned_concat]
        simp only [activeSource_concat]
      rw [after_concat] at hstep ⊢
      rw [← hstep]
      refine (perform_eq _ step).trans ?_
      rw [ih]

/-- **The stored lines of a handler are a function of its history.** -/
theorem lookup_lines_after (fatal verbose coloured : Bool) (steps : List Step) (path : String) :
    (after (fresh fatal verbose coloured) steps).lines.lookup path = storedLines steps path := by
  induction steps using List.reverseRecOn with
  | nil => rfl
  | append_singleton steps step ih => rw [after_concat, lookup_lines_perform, ih, storedLines_concat]

/-- The files with an active source, where each file has one entry. -/
theorem map_fst_active (hfiles : handler.files = paths.map fun path => (path, sources path)) :
    handler.active.map Prod.fst = paths.filter fun path => (sources path).isSome := by
  unfold active
  rw [hfiles]
  clear hfiles
  induction paths with
  | nil => rfl
  | cons path paths ih => cases h : sources path <;> simp_all

theorem traceback_eq (handler : Handler) (fault : Fault) :
    handler.traceback fault = fileList (handler.active.map Prod.fst) fault := by
  unfold traceback fileList
  simp only [List.isEmpty_map, List.map_map, Function.comp_def]

/-- A report is the list of the files and what it says behind that. -/
theorem report_eq (handler : Handler) (fault : Fault) :
    handler.report fault =
      handler.traceback fault ++ account handler.coloured fault handler.sourceLines := by
  unfold report account
  dsimp only
  by_cases hshort : (fault.cause.isInternal || !fault.cause.isDiagnosed) = true
  · rw [if_pos hshort, if_pos hshort]
    simp only [String.append_assoc]
  · rw [if_neg hshort, if_neg hshort]
    cases diagnosis handler.coloured .red fault.pos handler.sourceLines <;> simp only [String.append_assoc]

/-- A diagnosis is looked up in the lines stored for the last file with an active source. -/
theorem sourceLines_eq (handler : Handler) :
    handler.sourceLines =
      ((handler.active.map Prod.fst).getLast?.bind fun path => handler.lines.lookup path).getD [] := by
  unfold sourceLines
  rw [List.getLast?_map]
  cases handler.active.getLast? <;> rfl

/-- **What a handler reports after some steps.** -/
theorem report_after (fatal verbose coloured : Bool) (steps : List Step) (fault : Fault) :
    (after (fresh fatal verbose coloured) steps).report fault = reportAfter fatal coloured steps fault := by
  have hafter := after_eq fatal verbose coloured steps
  have hrunning : (after (fresh fatal verbose coloured) steps).active.map Prod.fst = running fatal steps :=
    map_fst_active (congrArg files hafter)
  have hcoloured : (after (fresh fatal verbose coloured) steps).coloured = coloured := congrArg Handler.coloured hafter
  rw [report_eq, traceback_eq, sourceLines_eq, hrunning, hcoloured]
  simp only [lookup_lines_after]
  rfl

theorem afterReport_after (fatal verbose coloured : Bool) (steps : List Step) :
    (after (fresh fatal verbose coloured) steps).afterReport =
      { after (fresh fatal verbose coloured) steps with files := tableAfterReport fatal steps } := by
  rw [after_eq, afterReport]
  cases fatal with
  | true => rfl
  | false => simp [deactivateAll, table, tableAfterReport]

example : running false [.activate "b" "1", .activate "a" "2", .register "b", .activate "c" "", .stage "parse" ""] =
    ["a", "c"] := by decide

end Handler

end LambdaScript
