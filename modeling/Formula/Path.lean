import Formula.Text.Part

/-!
# Paths

A path names a place among the files: where it starts, and the names on the way.  Two spellings that differ only in
repeated slashes, in names `.` or in a slash at the end are one path.
-/

namespace Formula

open Text

/-- A path: its root, which is empty for a path from the working directory, and the names that follow. -/
structure Path where
  root : String
  names : List String
deriving DecidableEq, Repr, Inhabited

namespace Path

/-- The names between the slashes of a text, with `name` in front of the first. -/
def namesFrom (name : List Char) : List Char → List (List Char)
  | [] => [name]
  | c :: rest => if c = '/' then name :: namesFrom [] rest else namesFrom (name ++ [c]) rest

/-- The root of a path: a path with exactly two slashes in front has a root of its own. -/
def rootOf (cs : List Char) : String :=
  match (cs.takeWhile (· == '/')).length with
  | 0 => ""
  | 2 => "//"
  | _ => "/"

/-- The path of a text. -/
def ofText (s : String) : Path :=
  let names := (namesFrom [] s.toList).map String.ofList
  ⟨rootOf s.toList, names.filter fun name => name ≠ "" ∧ name ≠ "."⟩

/-- The shortest text of a path. -/
def text (p : Path) : String :=
  if p.root = "" ∧ p.names = [] then "." else p.root ++ "/".intercalate p.names

/-- The path of the directory that holds a place. -/
def parent (p : Path) : Path := { p with names := p.names.dropLast }

/-- The paths on the way to a path, from its root on, and the path itself. -/
def way (p : Path) : List Path :=
  (List.range (p.names.length + 1)).map fun k => { p with names := p.names.take k }

/-- The last name of a path. -/
def name (p : Path) : String := p.names.getLast?.getD ""

/-- The last dot of a name and what follows it; nothing if it is the first or the last character. -/
def extensionChars (cs : List Char) : List Char :=
  let tail := cs.reverse.takeWhile (· != '.')
  if tail = [] ∨ cs.length ≤ tail.length + 1 then [] else '.' :: tail.reverse

/-- The extension of the last name, in small letters. -/
def extension (p : Path) : String := String.ofList ((extensionChars p.name.toList).map Char.toLower)

/-- The path leads upward only. -/
def isUpward (p : Path) : Bool := p.names.all (· == "..")

/-- The path is longer, or has a longer name, than a file can have. -/
def isTooLong (p : Path) : Bool := p.names.any (fun name => 255 < name.utf8ByteSize) || 4095 < p.text.utf8ByteSize

/-- The path `p` lies on the way to `q`. -/
def isAbove (p q : Path) : Bool :=
  p.root == q.root && p.names.isPrefixOf q.names && decide (p.names.length < q.names.length)

end Path

end Formula
