import LambdaScript.CommandLine.Switch
import LambdaScript.Text.Character
import LambdaScript.Text.Quoted

/-!
Words of the command line, told apart before any of them takes effect. A word is a switch if it starts with two
dashes and the beginning of just one long name, or with a short name. Numbers below zero, words with blanks in
them and a single dash are plain; two dashes make all words behind them plain.
-/

namespace LambdaScript.CommandLine

/-- Why a command line cannot be followed. -/
inductive UsageError where
  | ambiguous (word : String) (names : List String)
  | missingValue (switch : Switch)
  | unwantedValue (switch : Switch) (value : String)
  | invalidInteger (switch : Switch) (value : String)
  | unrecognized (words : List String)
deriving DecidableEq, Repr

def UsageError.message : UsageError → String
  | ambiguous word names => "ambiguous option: " ++ word ++ " could match " ++ ", ".intercalate names
  | missingValue switch => "argument " ++ switch.title ++ ": expected one argument"
  | unwantedValue switch value =>
    "argument " ++ switch.title ++ ": ignored explicit argument " ++ Text.quoted value
  | invalidInteger switch value =>
    "argument " ++ switch.title ++ ": invalid int value: " ++ Text.quoted value
  | unrecognized words => "unrecognized arguments: " ++ " ".intercalate words

/-- What a word is. -/
inductive Word where
  | plain (text : String)
  | separator
  /-- A switch by its long name, and the text behind an equals sign. -/
  | long (switch : Switch) (value : Option String)
  /-- A switch by its short name, and all characters behind it. -/
  | short (switch : Switch) (tail : List Char)
  | unknown (text : String)
deriving DecidableEq, Repr

/-- The parts of a word before and behind its first equals sign, if it has one. -/
def splitAtEquals (word : List Char) : Option (String × String) :=
  match word.dropWhile (· != '=') with
  | [] => none
  | _ :: rest => some (String.ofList (word.takeWhile (· != '=')), String.ofList rest)

/-- Whether a word is a number below zero: a dash and decimal digits, with a point before the last run of them
or without. A newline may follow. -/
def isNegativeNumber (word : List Char) : Bool :=
  let isDigit := fun c => (Text.digitValue? c).isSome
  let isEnd := fun (rest : List Char) => rest == [] || rest == ['\n']
  match word with
  | '-' :: rest =>
    let whole := rest.takeWhile isDigit
    match rest.drop whole.length with
    | '.' :: behind =>
      let fraction := behind.takeWhile isDigit
      !fraction.isEmpty && isEnd (behind.drop fraction.length)
    | behind => !whole.isEmpty && isEnd behind
  | _ => false

/-- The switches that have a name with some beginning, with those names. -/
def completions (beginning : String) : List (String × Switch) :=
  switchNames.filter fun entry => beginning.toList.isPrefixOf entry.1.toList

/-- What a word is that starts with a dash and names no switch. -/
def strangeWord (word : List Char) : Word :=
  if isNegativeNumber word || word.contains ' ' then .plain (String.ofList word) else .unknown (String.ofList word)

/-- What a word with two dashes in front is. No long name is the beginning of another, so that a full name is
never ambiguous. -/
def longWord (word : List Char) : Except UsageError Word :=
  let (beginning, value) : String × Option String :=
    match splitAtEquals word with
    | some (name, value) => (name, some value)
    | none => (String.ofList word, none)
  match completions beginning with
  | [] => .ok (strangeWord word)
  | [(_, switch)] => .ok (.long switch value)
  | several => .error (.ambiguous (String.ofList word) (several.map Prod.fst))

def classify (text : String) : Except UsageError Word :=
  match text.toList with
  | '-' :: '-' :: cs => longWord ('-' :: '-' :: cs)
  | '-' :: c :: cs =>
    match Switch.ofName? (String.ofList ['-', c]) with
    | some switch => .ok (.short switch cs)
    | none => .ok (strangeWord ('-' :: c :: cs))
  | _ => .ok (.plain text)

def classifyAll : List String → Except UsageError (List Word)
  | [] => .ok []
  | word :: words =>
    if word = "--" then .ok (.separator :: words.map .plain)
    else do
      let first ← classify word
      return first :: (← classifyAll words)

end LambdaScript.CommandLine
