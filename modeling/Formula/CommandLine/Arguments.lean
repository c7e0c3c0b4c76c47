import Formula.CommandLine.Switch
import Formula.Path

/-!
# Arguments

What the words of a command line ask for.  The words are read from left to right.  The first plain word is the
expression; any further one is left over, and so is a word that looks like a switch and is none.  Words that are left
over are a fault only when all words have been read.
-/

namespace Formula.CommandLine

open Text

/-- What a command line asks for. -/
structure Arguments where
  expression : Option String := none
  file : Option Path := none
  config : Option Path := none
  style : String := "default"
  /-- Show the outline of the expression instead of LaTeX. -/
  outline : Bool := false
  preview : Option Path := none
  openPreview : Bool := false
deriving Repr

/-- Why the words of a command line ask for no conversion. -/
inductive Stop where
  /-- The help was asked for. -/
  | help
  | fault (f : WordFault)
deriving Repr

/-- The place of the expression among the words.  One separator belongs to it: in front of the expression or right
behind it. -/
inductive Slot where
  | free
  | behindSeparator
  | behindExpression
  | closed
deriving DecidableEq, Repr

/-- The words read so far. -/
structure Reading where
  arguments : Arguments := {}
  slot : Slot := .free
  /-- The words that are left over. -/
  leftOver : List String := []

namespace Reading

/-- Does what a switch with a value asks for. -/
def set (r : Reading) (s : Switch) (value : String) : Except Stop Reading :=
  let a := r.arguments
  match s with
  | .help => .error .help
  | .file => .ok { r with arguments := { a with file := some (Path.ofText value) } }
  | .config => .ok { r with arguments := { a with config := some (Path.ofText value) } }
  | .style =>
    if Settings.styleNames.contains value then .ok { r with arguments := { a with style := value } }
    else .error (.fault (.unknownValue .style value Settings.styleNames))
  | .outline => .ok { r with arguments := { a with outline := true } }
  | .preview => .ok { r with arguments := { a with preview := some (Path.ofText value) } }
  | .openPreview => .ok { r with arguments := { a with openPreview := true } }

/-- The words with one more left over. -/
def leave (r : Reading) (s : String) : Reading := { r with leftOver := r.leftOver ++ [s] }

/-- The words with a plain word behind them. -/
def plain (r : Reading) (s : String) : Reading :=
  let filled (slot : Slot) : Reading := { r with arguments := { r.arguments with expression := some s }, slot }
  match r.slot with
  | .free => filled .behindExpression
  | .behindSeparator => filled .closed
  | .behindExpression | .closed => { r with slot := .closed }.leave s

/-- The words with a separator behind them. -/
def separator (r : Reading) : Reading :=
  match r.slot with
  | .free => { r with slot := .behindSeparator }
  | .behindSeparator | .behindExpression => { r with slot := .closed }
  | .closed => r.leave "--"

/-- The words when the next one is no plain word: an expression that was just read is over. -/
def pause (r : Reading) : Reading := if r.slot = .behindExpression then { r with slot := .closed } else r

end Reading

/-- The switches that one word asks for with their values, what of the word is left over, and whether the next word was
taken as a value. -/
structure Bundle where
  settings : List (Switch × String) := []
  leftOver : List String := []
  takesNext : Bool := false

/-- A switch whose value, if it has one, is the next word. -/
def bundleNext (s : Switch) (next : Option String) : Except WordFault Bundle :=
  if s.hasValue then
    match next with
    | some value => .ok { settings := [(s, value)], takesNext := true }
    | none => .error (.noValue s)
  else .ok { settings := [(s, "")] }

/-- A switch of one letter with the rest of its word right behind it: its value, or more switches of one letter, up to
an equals sign. -/
def bundleLetters (s : Switch) (next : Option String) : List Char → Except WordFault Bundle
  | [] => bundleNext s next
  | c :: rest =>
    if s.hasValue then
      .ok { settings := [(s, String.ofList (if c = '=' then rest else c :: rest))] }
    else if c = '=' ∨ c = '-' then
      .error (.unusedValue s (String.ofList (if c = '=' then rest else c :: rest)))
    else match Switch.named (String.ofList ['-', c]) with
      | none => .ok { settings := [(s, "")], leftOver := [String.ofList ('-' :: c :: rest)] }
      | some t => do
        let more ← bundleLetters t next rest
        return { more with settings := (s, "") :: more.settings }

/-- What a switch asks for, with what is attached to it and the plain word behind it. -/
def bundleOf (s : Switch) (attached : Attached) (next : Option String) : Except WordFault Bundle :=
  match attached with
  | .nothing => bundleNext s next
  | .equal value => if s.hasValue then .ok { settings := [(s, value)] } else .error (.unusedValue s value)
  | .direct value => bundleLetters s next value.toList

/-- The plain word at the front of words. -/
def nextPlain : List Word → Option String
  | .plain s :: _ => some s
  | _ => none

/-- Reads words; `taken` tells that the switch in front has taken the first as its value. -/
def readWords (r : Reading) (taken : Bool) : List Word → Except Stop Reading
  | [] => .ok r
  | .plain s :: rest => if taken then readWords r false rest else readWords (r.plain s) false rest
  | .separator :: rest => readWords r.separator false rest
  | .unknown s :: rest => readWords (r.pause.leave s) false rest
  | .switch s _ attached :: rest => do
    let bundle ← (bundleOf s attached (nextPlain rest)).mapError Stop.fault
    let set ← bundle.settings.foldlM (fun r e => r.set e.1 e.2) (bundle.leftOver.foldl Reading.leave r.pause)
    readWords set bundle.takesNext rest

/-- What the words of a command line ask for. -/
def Arguments.ofTexts (texts : List String) : Except Stop Arguments := do
  let words ← (Word.ofTexts texts).mapError Stop.fault
  let read ← readWords {} false words
  if read.leftOver.isEmpty then return read.arguments
  else throw (.fault (.unknownWords read.leftOver))

end Formula.CommandLine
