import Formula.Fault
import Formula.Path
import Formula.Text.Quoted

/-!
# Files

The files that a command line or a setting may name.  `Files.read` is the text at a path, if there is a file, and
`Files.checkWrite` tells whether a file can be put there.  The ends of lines of a text are single characters, however
the file writes them.
-/

namespace Formula

open Text

/-- What stands at a path. -/
inductive Place where
  | missing
  | directory
  | text (content : String)
  /-- A file that holds no text. -/
  | bytes
deriving Repr, Inhabited

/-- Places under their paths. -/
structure Files where
  places : List (Path × Place)
deriving Inhabited

namespace Files

/-- The files with the given texts under names. -/
def ofTexts (texts : List (String × String)) : Files := ⟨texts.map fun t => (Path.ofText t.1, .text t.2)⟩

/-- What stands at a path.  The places on the way to a file are directories, and so are the working directory and what
lies above it. -/
def place (f : Files) (p : Path) : Place :=
  match f.places.find? fun e => e.1 = p with
  | some e => e.2
  | none => if p.isUpward || f.places.any (fun e => p.isAbove e.1) then .directory else .missing

/-- Something stands at a path. -/
def hasPlace (f : Files) (p : Path) : Outcome Bool :=
  if p.isTooLong then .error (.nameTooLong (quoted p.text))
  else match f.place p with
    | .missing => .ok false
    | _ => .ok true

/-- The characters with a single line feed at every end of a line. -/
def lineEnds : List Char → List Char
  | [] => []
  | '\r' :: '\n' :: rest => '\n' :: lineEnds rest
  | c :: rest => (if c = '\r' then '\n' else c) :: lineEnds rest

/-- The text at a path, if something stands there. -/
def read (f : Files) (p : Path) : Outcome (Option String) :=
  if p.isTooLong then .error (.nameTooLong (quoted p.text))
  else match f.place p with
    | .missing => .ok none
    | .directory => .error (.isDirectory (quoted p.text))
    | .text content => .ok (some (String.ofList (lineEnds content.toList)))
    | .bytes => .error (.notText (quoted p.text))

/-- A file stands on the way to a path. -/
def isBlocked (f : Files) (p : Path) : Bool :=
  f.places.any fun e => match e.2 with
    | .text _ | .bytes => e.1.isAbove p
    | _ => false

/-- Refuses a path at which no file can be written. -/
def checkWrite (f : Files) (p : Path) : Outcome Unit :=
  if p.isTooLong then .error (.nameTooLong (quoted p.text))
  else match f.place p with
    | .directory => .error (.isDirectory (quoted p.text))
    | .text _ | .bytes => .ok ()
    | .missing =>
      if f.isBlocked p then .error (.notDirectory (quoted p.text))
      else match f.place p.parent with
        | .directory => .ok ()
        | _ => .error (.noSuchFile (quoted p.text))

end Files

end Formula
