import LambdaScript.CommandLine.Run

/-!
The program. It looks up what a call finds around it, calls the interpreter and writes what comes of it; the shell
is run line by line, so that every answer is there before the next line is read.
-/

namespace LambdaScript

def readFile? (path : String) : IO (Option String) := do
  try
    return some (← IO.FS.readFile path)
  catch _ =>
    return none

/-- Whether reports are to be coloured: on request, or else on a terminal. -/
def wantsColour : IO Bool := do
  if (← IO.getEnv "NO_COLOR").isSome then return false
  if (← IO.getEnv "FORCE_COLOR").isSome then return true
  return (← (← IO.getStdout).isTty) && (← IO.getEnv "TERM") != some "dumb"

/-- Runs a shell on the standard streams. -/
partial def converseOn (input output errors : IO.FS.Stream) (shell : Shell) : IO Unit := do
  output.putStr shell.prompt
  output.flush
  let line ← input.getLine
  let text := if line.isEmpty then "EOF" else
    String.ofList ((Text.unifyLineEndings line).toList.filter (· != '\n'))
  let (answer, after) := shell.takeLine text
  let (printed, reported, session) := after.session.drain
  output.putStr (printed ++ answer.echo)
  errors.putStr reported
  if answer.stop then output.flush
  else converseOn input output errors { after with session := session }

def callWith (settings : CommandLine.Settings) : IO UInt32 := do
  let input ← IO.getStdin
  let output ← IO.getStdout
  let errors ← IO.getStderr
  let terminal ← input.isTty
  let coloured ← wantsColour
  let source := settings.source terminal
  match source, CommandLine.programDepth settings.limit with
  | .shell, .ok depth =>
    match Session.prepare (settings.handler coloured) Session.shellPath depth true none (fun _ => none) "" with
    | .ok session =>
      output.putStr (Shell.intro ++ "\n")
      converseOn input output errors (.start session)
      return 0
    | .error _ => return 1
  | _, _ =>
    let contents ← match source with
      | .file path => if path = Session.inputPath then pure none else readFile? path
      | _ => pure none
    let wantsInput := source = .input || source = .file Session.inputPath
    let text ← if wantsInput then input.readToEnd else pure ""
    let outcome := CommandLine.runWith settings ⟨fun _ => contents, text, terminal, coloured⟩
    output.putStr outcome.output
    errors.putStr outcome.errors
    return outcome.status.toUInt32

end LambdaScript

/-- Calls the interpreter with the words of the command line. -/
def main (words : List String) : IO UInt32 := do
  match LambdaScript.CommandLine.readSettings words with
  | .ok settings => LambdaScript.callWith settings
  | .error early =>
    let outcome := early.outcome
    (← IO.getStdout).putStr outcome.output
    (← IO.getStderr).putStr outcome.errors
    return outcome.status.toUInt32
