import Formula.Settings
import Formula.Text.Digit
import Formula.Text.Part
import Formula.Text.Quoted

/-!
# Switches

The switches of the command line, and what one word of it is: a switch, perhaps with a value attached, a plain word, or
the separator `--`, behind which all words are plain.  The name of a switch may be cut short as long as it stays
unique.
-/

namespace Formula.CommandLine

open Text

/-- A switch. -/
inductive Switch where
  | help
  | file
  | config
  | style
  | outline
  | preview
  | openPreview
deriving DecidableEq, Repr

namespace Switch

/-- All switches. -/
def all : List Switch := [help, file, config, style, outline, preview, openPreview]

/-- The names of a switch. -/
def names : Switch → List String
  | help => ["-h", "--help"]
  | file => ["-f", "--file"]
  | config => ["-c", "--config"]
  | style => ["-s", "--style"]
  | outline => ["--ast"]
  | preview => ["--preview"]
  | openPreview => ["--open"]

/-- The names of a switch in messages. -/
def label (s : Switch) : String := "/".intercalate s.names

/-- The switch has a value. -/
def hasValue : Switch → Bool
  | file | config | style | preview => true
  | help | outline | openPreview => false

/-- Every name with its switch. -/
def table : List (String × Switch) := all.flatMap fun s => s.names.map fun name => (name, s)

/-- The switch of a name. -/
def named (name : String) : Option Switch := table.lookup name

end Switch

/-- A fault in the words of a command line. -/
inductive WordFault where
  | ambiguous (word : String) (names : List String)
  | noValue (s : Switch)
  | unusedValue (s : Switch) (value : String)
  | unknownValue (s : Switch) (value : String) (known : List String)
  | unknownWords (words : List String)
deriving DecidableEq, Repr

/-- The wording of a fault. -/
def WordFault.message : WordFault → String
  | ambiguous word names => s!"ambiguous option: {word} could match " ++ ", ".intercalate names
  | noValue s => s!"argument {s.label}: expected one argument"
  | unusedValue s value => s!"argument {s.label}: ignored explicit argument {quoted value}"
  | unknownValue s value known =>
    s!"argument {s.label}: invalid choice: {quoted value} (choose from " ++
      ", ".intercalate (known.map quoted) ++ ")"
  | unknownWords words => "unrecognized arguments: " ++ " ".intercalate words

/-- What is attached to a switch in the same word. -/
inductive Attached where
  | nothing
  /-- The text behind an equals sign. -/
  | equal (value : String)
  /-- The text right behind a switch of one letter. -/
  | direct (value : String)
deriving DecidableEq, Repr

/-- A word of the command line. -/
inductive Word where
  | plain (s : String)
  | separator
  /-- A switch, by the name that was meant. -/
  | switch (s : Switch) (name : String) (attached : Attached)
  /-- A word that looks like a switch and is none. -/
  | unknown (s : String)
deriving DecidableEq, Repr

namespace Word

/-- The text in front of the first equals sign, and the text behind it if there is one. -/
def splitEqual (s : String) : String × Option String :=
  let name := s.toList.takeWhile (· ≠ '=')
  let rest := s.toList.drop name.length
  (String.ofList name, if rest.isEmpty then none else some (String.ofList (rest.drop 1)))

/-- The text behind an equals sign, if there is one. -/
def attachedOf : Option String → Attached
  | none => .nothing
  | some value => .equal value

/-- The switches that a word with a dash, which is no full name, may stand for. -/
def candidates (s : String) : List (String × Switch × Attached) :=
  if beginsWith s "--" then
    let (name, value) := splitEqual s
    (Switch.table.filter fun e => beginsWith e.1 name).map fun e => (e.1, e.2, attachedOf value)
  else
    let short := String.ofList (s.toList.take 2)
    Switch.table.filterMap fun e =>
      if e.1 = short then some (e.1, e.2, .direct (String.ofList (s.toList.drop 2)))
      else if beginsWith e.1 s then some (e.1, e.2, .nothing)
      else none

/-- Decimal digits, with a point in front of the last or among them; a line end may follow. -/
def isNegativeNumber (s : String) : Bool :=
  let isDigit := fun c => (digitValue? c).isSome
  match s.toList with
  | '-' :: cs =>
    let cs := if cs.getLast? = some '\n' then cs.dropLast else cs
    let rest := cs.dropWhile isDigit
    match rest with
    | [] => !cs.isEmpty
    | '.' :: fraction => !fraction.isEmpty && fraction.all isDigit
    | _ => false
  | _ => false

/-- The word that a text in front of the separator is. -/
def ofText (s : String) : Except WordFault Word :=
  if !beginsWith s "-" then .ok (.plain s)
  else match Switch.named s with
    | some found => .ok (.switch found s .nothing)
    | none =>
      if s = "-" then .ok (.plain s)
      else
        let (name, value) := splitEqual s
        match value, Switch.named name with
        | some value, some found => .ok (.switch found name (.equal value))
        | _, _ => match candidates s with
          | [] => .ok (if isNegativeNumber s || holds s " " then .plain s else .unknown s)
          | [(name, found, attached)] => .ok (.switch found name attached)
          | many => .error (.ambiguous s (many.map (·.1)))

/-- The words of a command line. -/
def ofTexts : List String → Except WordFault (List Word)
  | [] => .ok []
  | s :: rest =>
    if s = "--" then .ok (.separator :: rest.map plain)
    else do
      let word ← ofText s
      let words ← ofTexts rest
      return word :: words

end Word

end Formula.CommandLine
