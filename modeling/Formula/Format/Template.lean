import Formula.Datum
import Formula.Text.Letter

/-!
# Pieces of LaTeX

Joining pieces so that a command keeps its name, and filling the places of templates.

In the template of an operator `%0` and `%1` are the places of its operands.  In the template of a function `%^` and
`%_` are the places of its scripts and any other `%` that of its argument; a `%` behind a backslash is a percent sign.
-/

namespace Formula

open Text

namespace Format

/-- A letter of a command. -/
def isCommandLetter (c : Char) : Bool := ('a' ≤ c && c ≤ 'z') || ('A' ≤ c && c ≤ 'Z')

/-- The characters, which come in reverse order, end in a command of letters. -/
def endsInCommandReversed (cs : List Char) : Bool :=
  let letters := cs.takeWhile isCommandLetter
  !letters.isEmpty && (cs.drop letters.length).head? == some '\\'

/-- The text ends in a command of letters, perhaps with a line end behind it. -/
def endsInCommand (s : String) : Bool :=
  match s.toList.reverse with
  | '\n' :: cs => endsInCommandReversed cs
  | cs => endsInCommandReversed cs

/-- A text with a piece behind it, and a blank between a command and a letter. -/
def glue (out piece : String) : String :=
  match piece.toList with
  | [] => out
  | c :: _ => if isLetter c && endsInCommand out then out ++ " " ++ piece else out ++ piece

/-- The pieces one behind the other. -/
def join (pieces : List String) : String := pieces.foldl glue ""

/-- A text with a piece behind it that may be no text, and is looked at before it is refused. -/
def glueValue (out : String) (piece : Datum) : Outcome String := do
  match piece with
  | .text s => return glue out s
  | d =>
    if !out.isEmpty && !d.isVoid then
      if ((← d.first).text?).isNone then throw .noOperation
    Datum.appendTo out d

/-- Pieces one behind the other, each of which ought to be a text. -/
def joinValues (pieces : List Datum) : Outcome String := pieces.foldlM glueValue ""

/-- The template of an operator with its operands filled in. -/
def fillOperator (left right : List Char) : List Char → List Char
  | '%' :: '0' :: rest => left ++ fillOperator left right rest
  | '%' :: '1' :: rest => right ++ fillOperator left right rest
  | c :: rest => c :: fillOperator left right rest
  | [] => []

/-- The template of a function with its argument and its scripts filled in; the first truth value tells of a backslash
in front. -/
def fillFunction (argument sup sub : List Char) : Bool → List Char → List Char
  | _, [] => []
  | false, '%' :: '^' :: rest => sup ++ fillFunction argument sup sub false rest
  | false, '%' :: '_' :: rest => sub ++ fillFunction argument sup sub false rest
  | false, '%' :: rest => argument ++ fillFunction argument sup sub false rest
  | _, c :: rest => c :: fillFunction argument sup sub (c = '\\') rest

/-- What stands before and behind the first place of a template. -/
def splitAtPlace (before : List Char) (escaped : Bool) : List Char → Option (List Char × List Char)
  | [] => none
  | c :: rest =>
    if c = '%' ∧ !escaped then
      match rest with
      | '^' :: more | '_' :: more => some (before.reverse, more)
      | _ => some (before.reverse, rest)
    else splitAtPlace (c :: before) (c = '\\') rest

/-- The template encloses the argument on both sides. -/
def enclosesArgument (template : String) : Bool :=
  let bare := replaceAll (replaceAll template "%^" "") "%_" ""
  match splitAtPlace [] false bare.toList with
  | some (before, behind) => !before.all isBlank && !behind.all isBlank
  | none => false

end Format

end Formula
