import LambdaScript.Eval.Evaluate
import LambdaScript.Report.Handler

/-!
Sessions. A session runs sources one after the other against one root scope that they share. Sources wait in a
queue and are run in the order they came; a source that fails ends the run and is gone, and those behind it stay
in the queue. While a source is run it is the active source of the session's file.
-/

namespace LambdaScript

/-- A running session. -/
structure Session where
  handler : Handler
  /-- The name that reports give the sources. -/
  path : String
  /-- The bound on nested calls. -/
  depth : Nat
  world : World
  /-- The sources that wait to be run. -/
  queue : List String
  /-- The values of the sources that were run and not taken back. -/
  results : List Value
  /-- What has been written to the error stream. -/
  log : String

/-- A computation over a session; a stop keeps the session as it was when it came. -/
abbrev Running := EStateM Stop Session

namespace Session

def shellPath : String := "<in>"

def inputPath : String := "-"

def codePath : String := "<eval>"

def start (handler : Handler) (path : String) (depth : Nat) (queue : List String) : Session where
  handler := handler.register path
  path := path
  depth := depth
  world := .initial
  queue := queue
  results := []
  log := ""

/-- Prepares a session. The source is the given one, or else it is read from the standard input or the file that
`path` names; `files` gives the contents of the readable files. The interactive input has no source to begin
with, and its name is reserved for it. An interactive handler is never fatal. -/
def prepare (handler : Handler) (path : String) (depth : Nat) (interactive : Bool) (source : Option String)
    (files : String → Option String) (input : String) : Except Fault Session :=
  let handler := if interactive then { handler with fatal := false } else handler
  if path = shellPath then
    if interactive then .ok (start handler path depth []) else .error ⟨.reservedName path, none⟩
  else match source with
    | some text => .ok (start handler path depth [text])
    | none =>
      if path = inputPath then .ok (start handler path depth [Text.unifyLineEndings input])
      else match files path with
        | some text => .ok (start handler path depth [Text.unifyLineEndings text])
        | none => .error ⟨.unreadableFile path, none⟩

def add (session : Session) (source : String) : Session :=
  { session with queue := session.queue ++ [source] }

def write (session : Session) (text : String) : Session :=
  { session with log := session.log ++ text }

def runSource (source : String) : Running Unit := fun session =>
  let session := { session with handler := session.handler.activate session.path source }
  match parse session.depth source with
  | .error stop => .error stop session
  | .ok program =>
    match program.source? session.depth with
    | none => .error .tooDeep session
    | some text =>
      let session := session.write (session.handler.stage "parse" text)
      match evaluate session.depth program Store.root session.world with
      | .error stop world => .error stop { session with world := world }
      | .ok value world =>
        let session := session.write (session.handler.stage "eval" value.text)
        .ok () { session with
          world := world
          results := session.results ++ [value]
          handler := session.handler.deactivate session.path }

/-- Runs sources in order, and keeps as the queue those not yet started. -/
def runAll : List String → Running Unit
  | [] => pure ()
  | source :: rest => do
    modify fun session => { session with queue := rest }
    runSource source
    runAll rest

/-- Runs all sources in the queue. -/
def run : Running Unit := do
  runAll (← get).queue

/-- Runs a source behind those in the queue and gives its value. -/
def runText (source : String) : Running Value := do
  modify fun session => session.add source
  run
  return (← get).results.getLast?.getD Value.false

/-- The latest value as text and the session without it, if there is one. -/
def pop? (session : Session) : Option (String × Session) :=
  session.results.getLast?.map fun value =>
    (value.text, { session with results := session.results.dropLast })

/-- Takes back the latest value. The host fails where there is none. -/
def pop : EStateM Departure Session String := fun session =>
  match session.pop? with
  | some (text, session) => .ok text session
  | none => .error (.hostFailure "IndexError" "pop from empty list") session

/-- Does something under the guard of the handler. -/
def guarded {α : Type} (action : Running α) (session : Session) : Ending × Session :=
  let (departure, session) : Departure × Session :=
    match action session with
    | .ok _ session => (.normal, session)
    | .error stop session => (stop.departure, session)
  let (text, ending, handler) := session.handler.leave departure
  (ending, { session with handler := handler, log := session.log ++ text })

/-- What has been printed and what has been written to the error stream since the last time, and the session
with both forgotten. -/
def drain (session : Session) : String × String × Session :=
  (session.world.output, session.log,
    { session with world := { session.world with output := "" }, log := "" })

end Session

end LambdaScript
