import LambdaScript.CommandLine.Settings
import LambdaScript.Session.Shell

/-!
Running the interpreter from the command line. Code given with the call goes before a file, a file before the
standard input; a terminal without either starts the shell. The status is 0 unless the command line is wrong (2)
or a fault ended the program (1).
-/

namespace LambdaScript.CommandLine

/-- What a call finds around it: the readable files, the standard input, whether that is a terminal, and whether
colours are wanted. -/
structure Surroundings where
  files : String → Option String
  input : String
  terminal : Bool
  coloured : Bool

/-- What a call leaves behind: its status and what it wrote to the two output streams. -/
structure Outcome where
  status : Nat
  output : String
  errors : String
deriving DecidableEq, Repr

/-- The nested calls that the interpreter needs for itself before it runs the simplest program. -/
def ownDepth : Nat := 18

def greatestLimit : Int := 2147483647

/-- The bound on nested calls of programs under a limit, or what goes wrong if the host does not take it. -/
def programDepth : Given Int → Except Departure Nat
  | .empty => .error (.hostFailure "TypeError" "'list' object cannot be interpreted as an integer")
  | .value limit =>
    if limit < -greatestLimit - 1 ∨ greatestLimit < limit then
      .error (.hostFailure "OverflowError" "Python int too large to convert to C int")
    else if limit < 1 then
      .error (.hostFailure "ValueError" "recursion limit must be greater or equal than 1")
    else if limit ≤ ownDepth then .error .tooDeep
    else .ok (limit.toNat - ownDepth)

/-- Where a program comes from. -/
inductive Source where
  | code (code : Given String)
  | file (path : String)
  | input
  | shell
deriving DecidableEq, Repr

def Settings.source (settings : Settings) (terminal : Bool) : Source :=
  match settings.code, settings.file with
  | some code, _ => .code code
  | none, some path => .file path
  | none, none => if terminal then .shell else .input

def failure (handler : Handler) (departure : Departure) : Outcome :=
  let (text, _, _) := handler.leave departure
  ⟨1, "", text⟩

/-- Runs the queued program of a session, and prints its value if that is wanted. -/
def runProgram (session : Session) (printResult : Bool) : Outcome :=
  match session.guarded Session.run with
  | (.fine, session) =>
    let value := if printResult then (session.pop?.map (·.1 ++ "\n")).getD "" else ""
    ⟨0, session.world.output ++ value, session.log⟩
  | (_, session) => ⟨1, session.world.output, session.log⟩

/-- Feeds lines to a shell until it ends; at the end of the lines the input ends. -/
def converse (shell : Shell) (output errors : String) : List String → Outcome
  | [] =>
    let (answer, after) := shell.takeLine "EOF"
    let (printed, reported, _) := after.session.drain
    ⟨0, output ++ shell.prompt ++ printed ++ answer.echo, errors ++ reported⟩
  | line :: lines =>
    let (answer, after) := shell.takeLine line
    let (printed, reported, session) := after.session.drain
    let output := output ++ shell.prompt ++ printed ++ answer.echo
    let errors := errors ++ reported
    if answer.stop then ⟨0, output, errors⟩ else converse { after with session := session } output errors lines

def Settings.handler (settings : Settings) (coloured : Bool) : Handler :=
  .fresh true settings.verbose coloured

/-- Calls the interpreter under some settings. -/
def runWith (settings : Settings) (around : Surroundings) : Outcome :=
  let handler := settings.handler around.coloured
  match programDepth settings.limit with
  | .error departure => failure handler departure
  | .ok depth =>
    let open? := fun path interactive source =>
      Session.prepare handler path depth interactive source around.files around.input
    let runFrom := fun path source =>
      match open? path false source with
      | .ok session => runProgram session settings.printResult
      | .error fault => failure handler (.fault fault)
    match settings.source around.terminal with
    | .code code =>
      let warning := match settings.file with
        | some path => handler.warning ⟨.ignoredFile path, none⟩
        | none => ""
      let outcome := match code with
        | .value text => runFrom Session.codePath (some text)
        | .empty =>
          -- no text, but it is marked as the source before its lines are asked for
          failure (handler.setSource Session.codePath (some ""))
            (.hostFailure "AttributeError" "'list' object has no attribute 'split'")
      { outcome with errors := warning ++ outcome.errors }
    | .file path => runFrom path none
    | .input => runFrom Session.inputPath none
    | .shell =>
      match open? Session.shellPath true none with
      | .ok session =>
        converse (.start session) (Shell.intro ++ "\n") "" (Text.inputLines (Text.unifyLineEndings around.input))
      | .error fault => failure handler (.fault fault)

/-- What a command line that is not followed leaves behind. -/
def EarlyEnd.outcome : EarlyEnd → Outcome
  | help => ⟨0, helpText, ""⟩
  | wrong error => ⟨2, "", usage ++ "ulc: error: " ++ error.message ++ "\n"⟩

/-- Calls the interpreter with the words of a command line. -/
def run (words : List String) (around : Surroundings) : Outcome :=
  match readSettings words with
  | .ok settings => runWith settings around
  | .error early => early.outcome

end LambdaScript.CommandLine
