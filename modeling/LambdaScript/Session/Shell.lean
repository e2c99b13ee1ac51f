import LambdaScript.Session.Basic

/-!
The interactive shell. Lines are collected until they make a complete entry, which is then run; its value is echoed.
An entry goes on as long as it has an open parenthesis, brace or string; brackets in strings and comments do not
count, and closing brackets are counted against all that were opened before. A line that says `help` or `exit` is a
command if no entry is pending, and the line `EOF` always ends the shell. Faults are reported, and the shell goes on.
-/

namespace LambdaScript

/-! ### Entries -/

/-- What has been seen of an entry. -/
structure EntryScan where
  depth : Int
  inString : Bool
  escaped : Bool
  inComment : Bool
deriving DecidableEq, Repr

namespace EntryScan

def initial : EntryScan := ⟨0, false, false, false⟩

/-- Takes in one character. -/
def step (scan : EntryScan) (c : Char) : EntryScan :=
  if scan.inComment then { scan with inComment := c != '\n' }
  else if scan.inString then
    if scan.escaped then { scan with escaped := false }
    else if c = '\\' then { scan with escaped := true }
    else if c = '"' then { scan with inString := false }
    else scan
  else if c = '#' then { scan with inComment := true }
  else if c = '"' then { scan with inString := true }
  else if c = '(' ∨ c = '\x7b' then { scan with depth := scan.depth + 1 }
  else if c = ')' ∨ c = '\x7d' then { scan with depth := scan.depth - 1 }
  else scan

def isOpen (scan : EntryScan) : Bool := scan.inString || decide (0 < scan.depth)

end EntryScan

/-- Whether an entry needs more lines. -/
def needsMore (entry : String) : Bool := (entry.toList.foldl EntryScan.step .initial).isOpen

/-- The entry that a line makes together with the lines before it. -/
def joinEntry (pending line : String) : String :=
  if pending.isEmpty then line else pending ++ "\n" ++ line

/-! ### The shell -/

/-- A shell: its session, the lines of an entry that is not complete, and what invites the next line. -/
structure Shell where
  session : Session
  pending : String
  prompt : String

namespace Shell

def intro : String := "ulc interpreter :: Python backend\nType 'help' for more information, 'exit' to quit."

def helpText : String :=
  "Welcome to the ulc interpreter!\n\n" ++
  "ulc is a small expression language built on the untyped lambda calculus: numbers, \n" ++
  "strings, booleans, if/then/else, assignment, \x7b blocks \x7d and closures.\n\n" ++
  "Try it out by typing 'fib = λ(n) if n < 2 then n else fib(n - 1) + fib(n - 2)'.\n" ++
  "Next, try typing 'fib(10)'. Output goes through print(x) and println(x).\n"

/-- Invites a new entry. -/
def freshPrompt : String := "> "

/-- Invites one more line of an entry that is not complete. -/
def furtherPrompt : String := ". "

/-- A shell that has not been given a line. -/
def start (session : Session) : Shell := ⟨session, "", freshPrompt⟩

/-- The answer to a line: whether the shell ends, and what it says. -/
structure Answer where
  stop : Bool
  echo : String
deriving DecidableEq, Repr

def runEntry (session : Session) (entry : String) : String × Session :=
  match Session.guarded Session.run (session.add entry) with
  | (.fine, session) =>
    match session.pop? with
    | some (value, session) => (value ++ "\n", session)
    | none => ("", session)
  | (_, session) => ("", session)

/-- Takes a line of code. What is pending and what invites the next line is settled before an entry is run, so a
fault finds both as they are to be. -/
def takeCode (shell : Shell) (line : String) : Answer × Shell :=
  let entry := joinEntry shell.pending line
  if needsMore entry then (⟨false, ""⟩, { shell with pending := entry, prompt := furtherPrompt })
  else
    let shell := { shell with pending := "", prompt := freshPrompt }
    let (echo, session) := runEntry shell.session entry
    (⟨false, echo⟩, { shell with session := session })

/-- Takes a line. -/
def takeLine (shell : Shell) (line : String) : Answer × Shell :=
  let words := Text.trim line
  let fresh := shell.pending.isEmpty
  if fresh && words == "help" then (⟨false, helpText⟩, shell)
  else if fresh && words == "exit" then (⟨true, ""⟩, shell)
  else if (fresh && words == "EOF") || line == "EOF" then (⟨true, "\n"⟩, shell)
  else if fresh && words.isEmpty then (⟨false, ""⟩, shell)
  else shell.takeCode line

end Shell

end LambdaScript
