import Formula.Json
import Formula.Yaml.Time

/-!
# Tags of YAML nodes

A tag tells what kind of value a node stands for.  A plain scalar without a tag of its own has the tag of the form in
which it is written, and is text if it is written in none of the forms.
-/

namespace Formula.Yaml

/-- What kind of value a node stands for. -/
inductive Tag where
  | truth
  | float
  | whole
  /-- The key of entries that come from another mapping. -/
  | merge
  | null
  | time
  /-- The key of the value that stands for a whole mapping. -/
  | default
  | text
  | sequence
  | mapping
  | set
  /-- A sequence of mappings of one entry each. -/
  | pairs
  /-- Pairs whose order counts. -/
  | orderedPairs
  | other (name : String)
deriving DecidableEq, Repr, Inhabited

/-- The parts of characters between the places of a sign. -/
def partsAt (sign : Char) : List Char → List (List Char)
  | [] => [[]]
  | c :: rest =>
    let parts := partsAt sign rest
    if c = sign then [] :: parts else (c :: parts.headD []) :: parts.drop 1

namespace Tag

/-! ### Names -/

/-- The start of the names of the tags that every document knows. -/
def home : String := "tag:yaml.org,2002:"

/-- The tags that every document knows, by the ends of their names. -/
def known : List (String × Tag) := [
  ("bool", truth), ("float", float), ("int", whole), ("merge", merge), ("null", null), ("timestamp", time),
  ("value", default), ("str", text), ("seq", sequence), ("map", mapping), ("set", set), ("pairs", pairs),
  ("omap", orderedPairs)]

/-- The tag of a name. -/
def ofName (name : String) : Tag := ((known.find? fun e => home ++ e.1 = name).map (·.2)).getD (other name)

/-- The name of a tag. -/
def name : Tag → String
  | other name => name
  | tag => home ++ ((known.find? fun e => e.2 = tag).map (·.1)).getD ""

/-! ### Plain scalars -/

/-- A digit or an underscore. -/
def isLooseDigit (c : Char) : Bool := c.isDigit || c = '_'

/-- A run of digits and underscores that starts with a character of a kind. -/
def isLooseRun (first : Char → Bool) : List Char → Bool
  | [] => false
  | c :: rest => first c && rest.all isLooseDigit

/-- A digit of base sixty: one or two decimal digits. -/
def isSixtieth : List Char → Bool
  | [a] => a.isDigit
  | [a, b] => a.isDigit && a ≤ '5' && b.isDigit
  | _ => false

/-- Digits of base sixty with colons between them, behind a first number of any size. -/
def isSexagesimal (first : Char → Bool) (cs : List Char) : Bool :=
  match partsAt ':' cs with
  | head :: tail => isLooseRun first head && !tail.isEmpty && tail.all isSixtieth
  | [] => false

/-- A run of at least one character, each an underscore or of a kind. -/
def isRunOf (p : Char → Bool) (cs : List Char) : Bool := !cs.isEmpty && cs.all fun c => p c || c = '_'

/-- A whole number in base two, eight, ten, sixteen or sixty. -/
def isWhole (cs : List Char) : Bool :=
  match (Number.takeSign cs).2 with
  | ['0'] => true
  | '0' :: 'b' :: digits => isRunOf (fun c => c = '0' || c = '1') digits
  | '0' :: 'x' :: digits => isRunOf (fun c => (Json.hexDigit? c).isSome) digits
  | '0' :: digits => isRunOf (fun c => c.isDigit && c ≤ '7') digits
  | digits => isLooseRun isLeading digits || isSexagesimal isLeading digits
where
  /-- A digit at the start of a number. -/
  isLeading (c : Char) : Bool := c.isDigit && c ≠ '0'

/-- What stands behind the point of a number: digits and underscores, and perhaps an exponent with a sign. -/
def isFraction (cs : List Char) : Bool :=
  match cs.dropWhile isLooseDigit with
  | [] => true
  | e :: sign :: digits =>
    (e = 'e' || e = 'E') && (sign = '+' || sign = '-') && !digits.isEmpty && digits.all Char.isDigit
  | _ => false

/-- A floating-point number with a point. -/
def isFloat (cs : List Char) : Bool :=
  let body := (Number.takeSign cs).2
  let whole := body.takeWhile (· ≠ '.')
  let fraction := (body.dropWhile (· ≠ '.')).drop 1
  let word := String.ofList fraction
  if whole.length = body.length then false
  else if whole.isEmpty then
    ["inf", "Inf", "INF"].contains word ||
      (body.length = cs.length &&
        (["nan", "NaN", "NAN"].contains word || ((fraction.headD '_').isDigit && isFraction fraction)))
  else
    (isLooseRun Char.isDigit whole && isFraction fraction) ||
      (isSexagesimal Char.isDigit whole && fraction.all isLooseDigit)

/-- The words for true and for false, in small letters. -/
def truthWords : List (String × Bool) :=
  [("yes", true), ("no", false), ("true", true), ("false", false), ("on", true), ("off", false)]

/-- The word with its first letter as a capital letter. -/
def capitalized (word : String) : String :=
  match word.toList with
  | [] => word
  | c :: rest => String.ofList (c.toUpper :: rest)

/-- The text is a word in small letters, in capital letters, or with one capital letter in front. -/
def isWord (text word : String) : Bool := text == word || text == capitalized word || text == word.toUpper

/-- The tag of a plain scalar. -/
def ofPlain (s : String) : Tag :=
  if truthWords.any fun w => isWord s w.1 then truth
  else if isFloat s.toList then float
  else if isWhole s.toList then whole
  else if s = "<<" then merge
  else if s = "~" || s.isEmpty || isWord s "null" then null
  else if Moment.isPlain s then time
  else if s = "=" then default
  else text

end Tag

end Formula.Yaml
