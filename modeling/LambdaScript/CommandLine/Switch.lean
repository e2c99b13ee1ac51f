/-!
The switches of the command line: their names, which of them take a value, and the usage text.
-/

namespace LambdaScript.CommandLine

/-- What a switch asks for. -/
inductive Switch where
  | help
  | code
  | printResult
  | verbose
  | recursionLimit
deriving DecidableEq, Repr

/-- The names of all switches, in the order in which they are matched and listed. -/
def switchNames : List (String × Switch) :=
  [("-h", .help), ("--help", .help), ("-e", .code), ("--eval", .code), ("-p", .printResult),
    ("--print-result", .printResult), ("-v", .verbose), ("--verbose", .verbose),
    ("--recursion-limit", .recursionLimit)]

def Switch.ofName? (name : String) : Option Switch := switchNames.lookup name

def Switch.takesValue : Switch → Bool
  | code | recursionLimit => true
  | help | printResult | verbose => false

def Switch.title (switch : Switch) : String :=
  "/".intercalate ((switchNames.filter fun entry => entry.2 == switch).map Prod.fst)

def defaultLimit : Nat := 10000

def usage : String :=
  "usage: ulc [-h] [-e CODE] [-p] [-v] [--recursion-limit RECURSION_LIMIT] [file]\n"

def helpText : String :=
  usage ++
  "\nInterpreter for the ulc lambda language.\n" ++
  "\npositional arguments:\n" ++
  "  file                  file to interpret and run, '-' for stdin (if empty,\n" ++
  "                        reads piped stdin or goes to command-line mode)\n" ++
  "\noptions:\n" ++
  "  -h, --help            show this help message and exit\n" ++
  "  -e CODE, --eval CODE  evaluate CODE instead of a file\n" ++
  "  -p, --print-result    print the value of the program\n" ++
  "  -v, --verbose         trace the parsed program and its value\n" ++
  "  --recursion-limit RECURSION_LIMIT\n" ++
  "                        host recursion limit, bounds ulc call depth (default:\n" ++
  "                        " ++ defaultLimit.repr ++ ")\n"

end LambdaScript.CommandLine
