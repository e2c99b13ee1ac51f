import LambdaScript.Report.Fault
import LambdaScript.Text.Place

/-!
The handler of faults. It keeps the files that are known, in the order of their first mention, and for each the
source that is being run from it, if one is; apart from these it keeps the lines of the source that was run last from
each file. A report lists the files with an active source and shows the offending line of the last of them, with a
caret under the column: a column behind the end of the line counts as the end, where the caret stands alone, and a
place on no line of the source is not shown. A fatal handler ends the program with status 1 after a report; any other
goes on, with no source active.
-/

namespace LambdaScript

/-- The diagnosis of a place in a source given by its lines. -/
def diagnosis (coloured : Bool) (hue : Hue) (pos : Option Position) (lines : List (List Char)) : Option String :=
  match pos with
  | some ⟨line + 1, column⟩ =>
    lines[line]?.map fun chars =>
      let column := min column chars.length
      let mark := paint coloured .bold (some hue)
      "  " ++ String.ofList (chars.take column) ++ mark (String.ofList ((chars.drop column).take 1)) ++
        String.ofList (chars.drop (column + 1)) ++ "\n" ++
        "  " ++ String.ofList (List.replicate column ' ') ++ mark "^"
  | _ => none

/-- How reports are made, and which sources they are about. -/
structure Handler where
  fatal : Bool
  verbose : Bool
  coloured : Bool
  /-- The known files and their active sources. -/
  files : List (String × Option String)
  /-- The lines of the source that was activated last for a file. They stay when it is no longer active. -/
  lines : List (String × List (List Char))
deriving DecidableEq, Repr

/-- How control leaves a block that a handler guards. -/
inductive Departure where
  | normal
  | quit
  | fault (fault : Fault)
  | tooDeep
  | interrupted
  /-- The host failed in a way the interpreter does not know. -/
  | hostFailure (kind text : String)
deriving DecidableEq, Repr

/-- What follows when control has left a guarded block. -/
inductive Ending where
  | fine
  /-- What was wrong has been reported, and the program goes on. -/
  | suppressed
  | exit (status : Nat)
  | quit
  | raised (kind : String)
deriving DecidableEq, Repr

/-- A computation that stopped leaves the block around it. -/
def Stop.departure : Stop → Departure
  | fault f => .fault f
  | tooDeep => .tooDeep

namespace Handler

/-- A handler that knows no files. -/
def fresh (fatal verbose coloured : Bool) : Handler := ⟨fatal, verbose, coloured, [], []⟩

/-- Sets the entry of a file; a file without one gets it behind all others. -/
def setEntry {α : Type} (entries : List (String × α)) (path : String) (value : α) : List (String × α) :=
  match entries with
  | [] => [(path, value)]
  | (p, v) :: rest => if p = path then (p, value) :: rest else (p, v) :: setEntry rest path value

/-- Sets the active source of a file. -/
def setSource (handler : Handler) (path : String) (source : Option String) : Handler :=
  { handler with files := setEntry handler.files path source }

def register (handler : Handler) (path : String) : Handler := handler.setSource path none

/-- Marks a source as the one that is being run from a file, and stores its lines. -/
def activate (handler : Handler) (path source : String) : Handler :=
  { handler.setSource path (some source) with lines := setEntry handler.lines path (Text.lines source) }

def deactivate (handler : Handler) (path : String) : Handler := handler.setSource path none

/-- Marks every file as having no source that is being run. -/
def deactivateAll (handler : Handler) : Handler :=
  { handler with files := handler.files.map fun file => (file.1, none) }

def active (handler : Handler) : List (String × String) :=
  handler.files.filterMap fun file => file.2.map (file.1, ·)

/-- The line that a report names for every file: that of the fault, or else the first. -/
def reportedLine (fault : Fault) : Nat :=
  match fault.pos with
  | some pos => if pos.line = 0 then 1 else pos.line
  | none => 1

/-- The list of files with an active source at the head of a report; nothing if there are none. -/
def traceback (handler : Handler) (fault : Fault) : String :=
  let entries := handler.active.map fun file =>
    "  File '" ++ file.1 ++ "', line " ++ (reportedLine fault).repr ++ ":\n"
  if entries.isEmpty then "" else "Traceback:\n" ++ String.join entries

/-- The lines that a diagnosis is about: those stored for the last file with an active source. -/
def sourceLines (handler : Handler) : List (List Char) :=
  match handler.active.getLast? with
  | some file => (handler.lines.lookup file.1).getD []
  | none => []

/-- The report of a fault. -/
def report (handler : Handler) (fault : Fault) : String :=
  let mark := paint handler.coloured .bold (some .red)
  let internal := if fault.cause.isInternal then mark "[internal] " else ""
  let message := handler.traceback fault ++ internal ++ mark "error: " ++ fault.render handler.coloured ++ "\n"
  if fault.cause.isInternal || !fault.cause.isDiagnosed then message
  else match diagnosis handler.coloured .red fault.pos handler.sourceLines with
    | some lines => message ++ lines ++ "\n"
    | none => message

def warning (handler : Handler) (fault : Fault) : String :=
  paint handler.coloured .bold (some .magenta) "warning: " ++ fault.render handler.coloured ++ "\n"

def stage (handler : Handler) (name text : String) : String :=
  if handler.verbose then
    paint handler.coloured .bold (some .cyan) ("[" ++ name ++ "] ") ++
      paint handler.coloured .dark none text ++ "\n"
  else ""

/-- Reports a fault. The parts are the text of the report, what follows, and the handler afterwards. -/
def throw (handler : Handler) (fault : Fault) : String × Ending × Handler :=
  let text := handler.report fault
  if handler.fatal then (text, .exit 1, handler) else (text, .suppressed, handler.deactivateAll)

/-- Leaves a guarded block. The parts are the text written, what follows, and the handler afterwards. -/
def leave (handler : Handler) : Departure → String × Ending × Handler
  | .normal => ("", .fine, handler)
  | .quit => ("", .quit, handler)
  | .fault fault => handler.throw fault
  | .tooDeep => handler.throw ⟨.nestedTooDeeply, none⟩
  | .interrupted => handler.throw ⟨.interrupted, none⟩
  | .hostFailure kind text =>
    match handler.throw ⟨.hostFailure kind text, none⟩ with
    | (text, .suppressed, handler) => (text, .raised kind, handler)
    | reaction => reaction

end Handler

end LambdaScript
