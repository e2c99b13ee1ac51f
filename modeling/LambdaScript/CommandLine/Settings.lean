import LambdaScript.CommandLine.Words

/-!
What a command line asks for. Words take effect from left to right, the last value of a switch counts, and the
first plain word that no switch takes is the file. Words without a meaning are complained about when all others
have taken effect; a request for help is met at once. The limit is an integer as people write them: blanks around,
a sign, and decimal digits of any script with single underscores between them, no more than a certain number.
-/

namespace LambdaScript.CommandLine

/-! ### Integers -/

/-- A blank that may stand around an integer; the four information separators may not. -/
def isIntegerMargin (c : Char) : Bool :=
  Text.isBlank c && !(decide (0x1c ≤ c.toNat) && decide (c.toNat ≤ 0x1f))

/-- The greatest number of digits an integer may be written with. -/
def maxIntegerDigits : Nat := 4300

/-- The digit values of a text that goes on behind a digit: digits, each with at most one underscore before it. -/
def moreDigits? : List Char → Option (List Nat)
  | [] => some []
  | '_' :: c :: cs => do
    let value ← Text.digitValue? c
    return value :: (← moreDigits? cs)
  | c :: cs => do
    let value ← Text.digitValue? c
    return value :: (← moreDigits? cs)

def natural? : List Char → Option Nat
  | [] => none
  | c :: cs => do
    let first ← Text.digitValue? c
    let digits := first :: (← moreDigits? cs)
    if digits.length ≤ maxIntegerDigits then some (digits.foldl (fun n digit => 10 * n + digit) 0) else none

def signed? : List Char → Option Int
  | '-' :: cs => (natural? cs).map fun n => -(n : Int)
  | '+' :: cs => (natural? cs).map fun n => (n : Int)
  | cs => (natural? cs).map fun n => (n : Int)

def integer? (text : String) : Option Int :=
  signed? ((text.toList.dropWhile isIntegerMargin).reverse.dropWhile isIntegerMargin).reverse

/-! ### Settings -/

/-- The value given to a switch. Two dashes attached to a switch give it an empty value, which is neither a text
nor a number. -/
inductive Given (α : Type) where
  | value (value : α)
  | empty
deriving DecidableEq, Repr

/-- What a text attached to a switch, or behind it, gives. -/
def Given.ofText (text : String) : Given String := if text = "--" then .empty else .value text

/-- What a command line sets. -/
structure Settings where
  file : Option String
  code : Option (Given String)
  printResult : Bool
  verbose : Bool
  limit : Given Int
deriving DecidableEq, Repr

def Settings.default : Settings := ⟨none, none, false, false, .value (defaultLimit : Int)⟩

/-- Why reading a command line comes to an early end. -/
inductive EarlyEnd where
  | help
  | wrong (error : UsageError)
deriving DecidableEq, Repr

/-- Sets what a switch asks for; `text` is its value if it takes one. -/
def Settings.set (settings : Settings) (switch : Switch) (text : String) : Except EarlyEnd Settings :=
  match switch with
  | .help => .error .help
  | .code => .ok { settings with code := some (.ofText text) }
  | .printResult => .ok { settings with printResult := true }
  | .verbose => .ok { settings with verbose := true }
  | .recursionLimit =>
    match Given.ofText text with
    | .empty => .ok { settings with limit := .empty }
    | .value text =>
      match integer? text with
      | some n => .ok { settings with limit := .value n }
      | none => .error (.wrong (.invalidInteger switch text))

/-- Sets what several switches ask for, each with its value. -/
def Settings.setAll (settings : Settings) : List (Switch × String) → Except EarlyEnd Settings
  | [] => .ok settings
  | (switch, text) :: rest => do (← settings.set switch text).setAll rest

/-- What stands behind the switches without a value that one word names. -/
inductive Remainder where
  | nothing
  | awaiting (switch : Switch)
  | given (switch : Switch) (value : String)
deriving DecidableEq, Repr

/-- What one word asks for: switches without a value, and then at most one that takes a value. -/
structure Cluster where
  flags : List Switch
  remainder : Remainder
deriving DecidableEq, Repr

namespace Cluster

def single (switch : Switch) : Cluster :=
  if switch.takesValue then ⟨[], .awaiting switch⟩ else ⟨[switch], .nothing⟩

def assigned (switch : Switch) (value : String) : Except UsageError Cluster :=
  if switch.takesValue then .ok ⟨[], .given switch value⟩ else .error (.unwantedValue switch value)

/-- A switch with the characters attached to it: its value, or further short names if it takes none. -/
def attached (switch : Switch) : List Char → Except UsageError Cluster
  | [] => .ok (single switch)
  | c :: cs =>
    if switch.takesValue then assigned switch (String.ofList (c :: cs))
    else match Switch.ofName? (String.ofList ['-', c]) with
      | some next => do
        let cluster ← attached next cs
        return { cluster with flags := switch :: cluster.flags }
      | none => .error (.unwantedValue switch (String.ofList (c :: cs)))

/-- A switch by its short name with the characters behind it. An equals sign right behind the first name of a word
only sets off what follows; it is no different from attaching that, unless nothing follows. -/
def ofTail (switch : Switch) : List Char → Except UsageError Cluster
  | ['='] => assigned switch ""
  | '=' :: cs => attached switch cs
  | cs => attached switch cs

end Cluster

/-- How far the reading of a command line has come: what is set, whether a file may still come, and the words
without a meaning, in reverse. -/
structure Progress where
  settings : Settings
  wantsFile : Bool
  strange : List String
deriving DecidableEq, Repr

namespace Progress

def initial : Progress := ⟨.default, true, []⟩

def takeFile (progress : Progress) (file : Option String) : Progress :=
  ⟨{ progress.settings with file := file }, false, progress.strange⟩

def putAside (progress : Progress) (text : String) : Progress :=
  { progress with strange := text :: progress.strange }

def follow (progress : Progress) (switches : List (Switch × String)) : Except EarlyEnd Progress := do
  let settings ← progress.settings.setAll switches
  return { progress with settings := settings }

end Progress

def orWrong {α : Type} (result : Except UsageError α) : Except EarlyEnd α :=
  result.mapError .wrong

/-- What a word asks for; a word that is no switch asks for nothing. -/
def Word.cluster : Word → Except UsageError Cluster
  | .long switch none => .ok (.single switch)
  | .long switch (some value) => Cluster.assigned switch value
  | .short switch tail => Cluster.ofTail switch tail
  | _ => .ok ⟨[], .nothing⟩

/-- Follows the words of a command line. The separator goes with the file before or behind it, if there is one;
where no file is wanted any more it has no meaning. -/
def followWords (progress : Progress) : List Word → Except EarlyEnd Progress
  | [] => .ok progress
  | .plain text :: words =>
    if progress.wantsFile then
      match words with
      | .separator :: words => followWords (progress.takeFile text) words
      | words => followWords (progress.takeFile text) words
    else followWords (progress.putAside text) words
  | .separator :: words =>
    if progress.wantsFile then
      match words with
      | .plain text :: words => followWords (progress.takeFile text) words
      | words => followWords (progress.takeFile none) words
    else followWords (progress.putAside "--") words
  | .unknown text :: words => followWords (progress.putAside text) words
  | switch :: words => do
    let ⟨flags, remainder⟩ ← orWrong switch.cluster
    let flags := flags.map (·, "")
    match remainder with
    | .nothing => followWords (← progress.follow flags) words
    | .given last value => followWords (← progress.follow (flags ++ [(last, value)])) words
    | .awaiting last =>
      match words with
      | .plain value :: words => followWords (← progress.follow (flags ++ [(last, value)])) words
      | _ => .error (.wrong (.missingValue last))

def readSettings (words : List String) : Except EarlyEnd Settings := do
  let progress ← followWords .initial (← orWrong (classifyAll words))
  if progress.strange.isEmpty then return progress.settings
  else throw (.wrong (.unrecognized progress.strange.reverse))

end LambdaScript.CommandLine
