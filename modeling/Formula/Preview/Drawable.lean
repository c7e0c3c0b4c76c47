import Formula.Text.Part

/-!
# Drawable LaTeX

A preview is drawn by a renderer that knows most of LaTeX but not every command of normalized LaTeX.  `drawable`
replaces those it does not know by what comes close, one rule after the other, each from left to right.
-/

namespace Formula.Preview

open Text

/-- A rule of replacement. -/
inductive Rule where
  /-- One of the parts, wherever it stands. -/
  | parts (parts : List String) (replacement : String)
  /-- One of the commands, where no letter continues its name. -/
  | commands (commands : List String) (replacement : String)
  /-- A command up to the bracket that closes its argument, without the argument. -/
  | dropped (opening : String) (closing : Char)
  /-- A command with an argument in braces that holds no braces itself; the argument stays, between two texts. -/
  | renamed (opening before after : String)

namespace Rule

/-- One of the parts at the front of the characters. -/
def partAt (parts : List String) (cs : List Char) : Option String := parts.find? fun part => part.toList.isPrefixOf cs

/-- The occurrence of a rule at the front of the characters: its length, and what stands in its place. -/
def occurrence (r : Rule) (cs : List Char) : Option (Nat × List Char) :=
  match r with
  | parts ps replacement => (partAt ps cs).map fun part => (part.length, replacement.toList)
  | commands names replacement =>
    match partAt names cs with
    | some name =>
      if (cs.drop name.length).head?.any Char.isAlpha then none else some (name.length, replacement.toList)
    | none => none
  | dropped opening closing =>
    if opening.toList.isPrefixOf cs then
      let argument := (cs.drop opening.length).takeWhile (· ≠ closing)
      let length := opening.length + argument.length
      if length < cs.length then some (length + 1, []) else none
    else none
  | renamed opening before after =>
    if opening.toList.isPrefixOf cs then
      let argument := (cs.drop opening.length).takeWhile fun c => c ≠ '\x7b' ∧ c ≠ '\x7d'
      let length := opening.length + argument.length
      if (cs.drop length).head? = some '\x7d' then
        some (length + 1, before.toList ++ argument ++ after.toList)
      else none
    else none

/-- The characters with every occurrence of a rule replaced; the first `skip` characters belong to an occurrence already
replaced. -/
def apply (r : Rule) : Nat → List Char → List Char
  | _, [] => []
  | skip + 1, _ :: rest => apply r skip rest
  | 0, c :: rest =>
    match r.occurrence (c :: rest) with
    | some (length, replacement) => replacement ++ apply r (length - 1) rest
    | none => c :: apply r 0 rest

end Rule

/-- The rules, in the order of their application. -/
def rules : List Rule := [
  .dropped "\\bbox[" ']',
  .renamed "\\operatorname\x7b" "\\mathrm\x7b" "\x7d\\,",
  .parts ["\\left.", "\\right."] "",
  .commands ["\\left", "\\right"] "",
  .renamed "\\text\x7b" "\\mathrm\x7b" "\x7d",
  .commands ["\\mathscr"] "\\mathcal",
  .commands ["\\ldots"] "\\dots",
  .commands ["\\coloneq"] ":=",
  .commands ["\\doubleprime"] "\\prime\\prime"]

/-- The text with the commands that cannot be drawn replaced. -/
def drawable (latex : String) : String :=
  String.ofList (rules.foldl (fun cs r => r.apply 0 cs) latex.toList)

end Formula.Preview
