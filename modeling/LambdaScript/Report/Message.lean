import LambdaScript.Text.Quoted

/-!
Messages with parts that stand out, and the terminal colours that make them. Painted text stands between an attribute
code, a colour code where one is wanted, and a reset code; with colours off it is the bare text. A message is its
wording with the texts of the program among it; in colour these are bold, and without colour all parts read alike.
A message may be made from a template, whose places are filled with texts in order.
-/

namespace LambdaScript

/-! ### Colours -/

/-- How strongly painted text stands out. -/
inductive Weight where
  | bold
  | dark
deriving DecidableEq, Repr

/-- The colours in use: errors are red, warnings magenta and stages cyan. -/
inductive Hue where
  | red
  | magenta
  | cyan
deriving DecidableEq, Repr

def Weight.code : Weight → String
  | bold => "1"
  | dark => "2"

def Hue.code : Hue → String
  | red => "31"
  | magenta => "35"
  | cyan => "36"

/-- A terminal control sequence that selects a rendition. -/
def selectRendition (code : String) : String := "\x1b[" ++ code ++ "m"

/-- A text with its codes around it, or by itself if colours are off. -/
def paint (coloured : Bool) (weight : Weight) (hue : Option Hue) (text : String) : String :=
  if coloured then
    let hueCode := match hue with
      | some h => selectRendition h.code
      | none => ""
    selectRendition weight.code ++ hueCode ++ text ++ selectRendition "0"
  else text

/-! ### Messages -/

/-- A part of a message: wording, something of the program's that it speaks of, or such a thing between quotes. -/
inductive Piece where
  | plain (text : String)
  | shown (text : String)
  | quoted (text : String)
deriving DecidableEq, Repr

namespace Piece

/-- What is between quotes is painted before it is quoted, its codes with it. -/
def render (coloured : Bool) : Piece → String
  | plain text => text
  | shown text => paint coloured .bold none text
  | quoted text => Text.quoted (paint coloured .bold none text)

def shown? : Piece → Option String
  | plain _ => none
  | shown text | quoted text => some text

end Piece

def renderPieces (coloured : Bool) (pieces : List Piece) : String :=
  String.join (pieces.map (Piece.render coloured))

/-! ### Templates -/

/-- The parts of a template whose places are filled with some texts, and the texts that are left over; `wording`
holds the characters since the last place, in reverse. A place is a pair of braces, and may ask for the text as it is
or between quotes; a doubled brace is a brace. There are no parts if a brace is out of place or a text is missing. -/
def fillFrom (wording : List Char) : List Char → List String → Option (List Piece × List String)
  | '\x7b' :: '\x7b' :: rest, texts => fillFrom ('\x7b' :: wording) rest texts
  | '\x7d' :: '\x7d' :: rest, texts => fillFrom ('\x7d' :: wording) rest texts
  | '\x7b' :: '\x7d' :: rest, text :: texts => place wording (.shown text) (fillFrom [] rest texts)
  | '\x7b' :: '!' :: 's' :: '\x7d' :: rest, text :: texts => place wording (.shown text) (fillFrom [] rest texts)
  | '\x7b' :: '!' :: 'r' :: '\x7d' :: rest, text :: texts => place wording (.quoted text) (fillFrom [] rest texts)
  | c :: rest, texts => if c = '\x7b' ∨ c = '\x7d' then none else fillFrom (c :: wording) rest texts
  | [], texts => some ([.plain (String.ofList wording.reverse)], texts)
where
  /-- Puts a filled place, with the wording before it, in front of what follows. -/
  place (wording : List Char) (piece : Piece) (behind : Option (List Piece × List String)) :
      Option (List Piece × List String) :=
    behind.map fun filled => (.plain (String.ofList wording.reverse) :: piece :: filled.1, filled.2)

/-- Fills the places of a template. -/
def fill (template : String) (texts : List String) : Option (List Piece × List String) :=
  fillFrom [] template.toList texts

end LambdaScript
