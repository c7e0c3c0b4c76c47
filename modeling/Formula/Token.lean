import Formula.Fault
import Formula.Places
import Formula.Text.Blank
import Formula.Text.Letter

/-!
# Tokens of LaTeX sources

`Token.scan` splits a source into tokens: commands, single characters, the sign `:=`, and commands such as `\text` whose
argument is kept as it is written.  Blanks between tokens and comments are left out; nothing else is, and no source is
refused.
-/

namespace Formula

open Text

/-- A token of a LaTeX source. -/
inductive Token where
  | char (c : Char)
  /-- A command by its name: letters, or one character of another kind, or nothing at the end of the source. -/
  | command (name : String)
  /-- A command with its argument as it is written. -/
  | verbatim (name content : String)
  /-- The sign `:=`. -/
  | assign
deriving DecidableEq, Repr, Inhabited

namespace Token

/-- The text of a token. -/
def text : Token → String
  | char c => c.toString
  | command name => "\\" ++ name
  | verbatim name content => "\\" ++ name ++ "\x7b" ++ content ++ "\x7d"
  | assign => ":="

/-- Commands whose argument is kept as it is written. -/
def verbatimCommands : List String := ["text", "textrm", "textup", "mbox", "operatorname"]

/-- The length of the group that starts at the first of the characters, up to and with the brace that closes it, if
there is one.  Braces behind a backslash are part of the content; `escaped` tells of a backslash in front. -/
def groupLength (depth : Int) (escaped : Bool) : List Char → Option Nat
  | [] => none
  | c :: rest =>
    if c = '\x7b' ∧ !escaped then (groupLength (depth + 1) false rest).map (· + 1)
    else if c = '\x7d' ∧ !escaped then
      if depth = 1 then some 1 else (groupLength (depth - 1) false rest).map (· + 1)
    else (groupLength depth (c = '\\') rest).map (· + 1)

/-- The content of the group that starts at the first of the characters, and the length of the group with its braces.
A group that is not closed reaches to the end. -/
def group (escaped : Bool) (cs : List Char) : List Char × Nat :=
  match groupLength 0 escaped cs with
  | some n => ((cs.take (n - 1)).drop 1, n)
  | none => (cs.drop 1, cs.length)

/-- The characters from a place on.  Where they come to the start of the text again, an opening brace counts whatever
stands at the end of the text. -/
def charsFrom? (cs : List Char) (place : Int) : Option (List Char) :=
  if place < 0 ∧ cs.head? = some '\x7b' ∧ cs.getLast? = some '\\' then
    (Places.onward? cs place).map fun row => row.take (place.natAbs - 1) ++ ' ' :: row.drop place.natAbs
  else Places.onward? cs place

/-- The content of the group at a place of a text, and the place behind it.  A brace whose neighbour in front is beyond
the text has no such group. -/
def groupAt (s : String) (place : Int) : Outcome (String × Int) :=
  let cs := s.toList
  match charsFrom? cs place with
  | none => .error .noPlace
  | some row =>
    let head := row.headD ' '
    let before := if place = 0 ∧ head = '\x7b' then some ' ' else Places.item? cs (place - 1)
    if (head = '\x7b' ∨ head = '\x7d') ∧ before = none then .error .noPlace
    else match groupLength 0 (before = some '\\') row with
      | some n =>
        let last := place + n - 1
        .ok (String.ofList (Places.between cs (place + 1) last), last + 1)
      | none => .ok (String.ofList (Places.between cs (place + 1) cs.length), cs.length)

/-- The characters of the name of a command behind its backslash: letters, or else a single character. -/
def commandName (cs : List Char) : List Char :=
  match cs.takeWhile isLetter with
  | [] => cs.take 1
  | letters => letters

/-- The command whose name starts the characters, and how many of them belong to it. -/
def readCommand (cs : List Char) : Token × Nat :=
  let name := commandName cs
  let rest := cs.drop name.length
  let blanks := rest.takeWhile isBlank
  match rest.drop blanks.length with
  | '\x7b' :: more =>
    if verbatimCommands.contains (String.ofList name) then
      let argument := group false ('\x7b' :: more)
      (.verbatim (String.ofList name) (String.ofList argument.1), name.length + blanks.length + argument.2)
    else (.command (String.ofList name), name.length)
  | _ => (.command (String.ofList name), name.length)

/-- The tokens of a source whose first `skip` characters belong to what was read before. -/
def scanFrom : Nat → List Char → List Token
  | _, [] => []
  | skip + 1, _ :: rest => scanFrom skip rest
  | 0, c :: rest =>
    if isBlank c then scanFrom 0 rest
    else if c = '%' then scanFrom (rest.takeWhile (· ≠ '\n')).length rest
    else if c = '\\' then
      let read := readCommand rest
      read.1 :: scanFrom read.2 rest
    else if c = ':' ∧ rest.head? = some '=' then .assign :: scanFrom 1 rest
    else .char c :: scanFrom 0 rest

/-- The tokens of a source. -/
def scan (source : String) : List Token := scanFrom 0 source.toList

end Token

end Formula
