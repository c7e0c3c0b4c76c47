import Formula.Table
import Formula.Yaml.Node

/-!
# Values of YAML nodes

The value of a node is made of the values of its parts, by its tag.  Before that, entries under the key `<<` give way to
the entries of the mappings behind it.

Of several faults of a document the one that is less deep in the tree counts, and of those that are equally deep the
first one.
-/

namespace Formula.Yaml

open Number

/-! ### Scalars -/

/-- The sign at the start of the text of a number, and the rest, without underscores. -/
def signedDigits (text : String) : Outcome (Bool × List Char) :=
  match text.toList.filter (· ≠ '_') with
  | [] => .error .noPlace
  | cs => .ok (takeSign cs)

/-- The number with the sign in front. -/
def withSign (signed : Bool × List Char) (n : Int) : Int := if signed.1 then -n else n

/-- The digits of a number in a base without the mark of the base, which is a letter behind a zero. -/
def withoutMark (mark : Char) (cs : List Char) : List Char :=
  match cs with
  | '0' :: c :: rest => if c.toLower = mark then rest else cs
  | cs => cs

/-- The number that digits write in a base. -/
def digitsIn? (base : Nat) (cs : List Char) : Option Nat :=
  if cs.isEmpty then none
  else cs.foldlM (fun n c => do
    let digit ← Json.hexDigit? c
    if digit < base then some (base * n + digit) else none) 0

/-- The number that a text writes in a base, whose mark may stand in front of the digits. -/
def wholeIn (base : Nat) (mark : Char) (cs : List Char) : Outcome Int :=
  let text := String.ofList cs
  let signed := takeSign (numberChars text)
  match digitsIn? base (withoutMark mark signed.2) with
  | some n => .ok (withSign signed n)
  | none => .error (.unreadableWhole base (Text.quoted text))

/-- The whole number that a text writes in base two, eight, ten, sixteen or sixty. -/
def wholeOf (text : String) : Outcome Int := do
  let signed ← signedDigits text
  let n ← match signed.2 with
    | [] => throw .noPlace
    | ['0'] => pure 0
    | '0' :: 'b' :: digits => wholeIn 2 'b' digits
    | '0' :: 'x' :: digits => wholeIn 16 'x' digits
    | '0' :: _ => wholeIn 8 'o' signed.2
    | digits => do
      let parts ← (partsAt ':' digits).mapM fun part => (Datum.text (String.ofList part)).toWhole
      pure (parts.foldl (fun n digit => 60 * n + digit) 0)
  return withSign signed n

/-- The sum of two numbers, rounded to the nearest.  What is no finite number stays. -/
def sum (x y : Double) : Double :=
  match x.toRat?, y.toRat? with
  | some r, some s => .ofRat (r + s)
  | none, _ => x
  | _, none => y

/-- The product of a number and a scale, rounded to the nearest.  What is no finite number stays. -/
def scaled (x scale : Double) : Double :=
  match x.toRat?, scale.toRat? with
  | some r, some s => .ofRat (r * s)
  | _, _ => x

/-- The number whose digits in base sixty are given, the last digit first; `scale` is the weight of the first of
them. -/
def sumOfDigits (total : Double) (scale : Int) : List Double → Outcome Double
  | [] => .ok total
  | digit :: rest => do sumOfDigits (sum total (scaled digit (← Datum.wholeToDouble scale))) (60 * scale) rest

/-- The floating-point number that a text writes in base ten or sixty. -/
def floatOf (text : String) : Outcome Double := do
  let signed ← signedDigits (String.ofList (text.toList.map Char.toLower))
  let word := String.ofList signed.2
  let x ← if word = ".inf" then pure (.infinite false)
    else if word = ".nan" then pure .nan
    else match ← (partsAt ':' signed.2).mapM fun part => (Datum.text (String.ofList part)).toDouble with
      | [x] => pure x
      | parts => sumOfDigits .zero 1 parts.reverse
  return if signed.1 then x.neg else x

/-- A tag whose nodes have no value of their own. -/
def undetermined (tag : Tag) : Fault :=
  .yaml ("could not determine a constructor for the tag " ++ Text.quoted tag.name)

/-- A node of another kind was expected. -/
def unexpected (expected found : String) : Fault := .yaml s!"expected a {expected} node, but found {found}"

/-- What is wrong about a node that is no list of pairs. -/
def badPairs (tag : Tag) : Fault :=
  .yaml ("while constructing " ++ if tag = .orderedPairs then "an ordered map" else "pairs")

/-- What is wrong about a collection whose tag asks for something else. -/
def misplaced (tag : Tag) (kind : String) : Fault :=
  match tag with
  | .merge | .default | .other _ => undetermined tag
  | .sequence => unexpected "sequence" kind
  | .mapping | .set => unexpected "mapping" kind
  | .pairs | .orderedPairs => badPairs tag
  | _ => unexpected "scalar" kind

/-- The value of a scalar. -/
def scalarValue (tag : Tag) (text : String) : Outcome Datum :=
  match tag with
  | .null => .ok .null
  | .truth => match Tag.truthWords.lookup text.toLower with
    | some b => .ok (.bool b)
    | none => .error .noEntry
  | .whole => (wholeOf text).map .int
  | .float => (floatOf text).map .float
  | .time => match Moment.ofText? text with
    | some m => m.toDatum
    | none => .error .noOperation
  | .text => .ok (.text text)
  | tag => .error (misplaced tag "scalar")

/-! ### Merged mappings -/

namespace Node

/-- What is wrong about a mapping whose entries cannot be merged, or whose keys are collections. -/
def badMapping : String := "while constructing a mapping"

/-- The node is the key of entries from other mappings. -/
def isMerge : Node → Bool
  | scalar .merge _ => true
  | _ => false

/-- A key of a mapping.  The key of the value that stands for the mapping is a text among others. -/
def plainKey : Node → Node
  | scalar .default text => scalar .text text
  | n => n

/-- The entries of a mapping, none for other nodes. -/
def entries? : Node → Option (List (Node × Node))
  | mapping _ entries => some entries
  | _ => none

/-- The entries that a mapping or a list of mappings gives to another mapping.  Those of earlier mappings of the list
come last, and so count. -/
def mergedEntries? : Node → Option (List (Node × Node))
  | mapping _ entries => some entries
  | sequence _ items => (items.mapM entries?).map fun lists => lists.reverse.flatten
  | _ => none

/-- A mapping with the entries from other mappings in front of its own. -/
def merged (tag : Tag) (entries : List (Node × Node)) : Node :=
  match (entries.filter fun e => e.1.isMerge).mapM fun e => e.2.mergedEntries? with
  | some lists =>
    mapping tag (lists.flatten ++ (entries.filter fun e => !e.1.isMerge).map fun e => (e.1.plainKey, e.2))
  | none => broken badMapping

mutual

/-- The node with all of its mappings merged. -/
def flat : Node → Node
  | scalar tag text => scalar tag text
  | sequence tag items => sequence tag (flatItems items)
  | mapping .mapping entries => merged .mapping (flatEntries entries)
  | mapping .set entries => merged .set (flatEntries entries)
  | mapping tag entries => mapping tag (flatEntries entries)
  | broken problem => broken problem

/-- The items of a sequence with all of their mappings merged. -/
def flatItems : List Node → List Node
  | [] => []
  | n :: rest => n.flat :: flatItems rest

/-- The entries of a mapping with all of the mappings in them merged. -/
def flatEntries : List (Node × Node) → List (Node × Node)
  | [] => []
  | (k, v) :: rest => (k.flat, v.flat) :: flatEntries rest

end

/-! ### Values -/

/-- A fault, and how deep in the tree it is. -/
structure Trouble where
  depth : Nat
  fault : Fault

/-- A value, or the fault that counts. -/
abbrev Built (α : Type) := Except Trouble α

/-- Two values, of which the first is built first. -/
def both {α β : Type} (a : Built α) (b : Built β) : Built (α × β) :=
  match a, b with
  | .ok x, .ok y => .ok (x, y)
  | .error s, .error t => .error (if t.depth < s.depth then t else s)
  | .error s, .ok _ => .error s
  | .ok _, .error t => .error t

/-- An outcome at a depth. -/
def atDepth {α : Type} (depth : Nat) (x : Outcome α) : Built α := x.mapError fun fault => ⟨depth, fault⟩

/-- A collection by its tag, whose parts are built after all that stands beside it. -/
def isCollection : Node → Bool
  | scalar tag _ | sequence tag _ | mapping tag _ =>
    [.sequence, .mapping, .set, .pairs, .orderedPairs].contains tag
  | broken _ => true

mutual

/-- The value of a node that is met at a depth. -/
def valueAt (depth : Nat) : Node → Built Datum
  | scalar tag text => atDepth (if (scalar tag text).isCollection then depth + 1 else depth) (scalarValue tag text)
  | sequence tag items =>
    match tag with
    | .sequence => (itemValues (depth + 1) items).map .list
    | .pairs | .orderedPairs => (pairValues (badPairs tag) (depth + 1) items).map .list
    | _ => .error ⟨if (sequence tag []).isCollection then depth + 1 else depth, misplaced tag "sequence"⟩
  | mapping tag entries =>
    match tag with
    | .mapping => (entryValues (depth + 1) entries).map fun e => .map (Table.putAll [] e)
    | .set => (entryValues (depth + 1) entries).map fun e => .set ((Table.putAll [] e).map (·.1))
    | _ => .error ⟨if (mapping tag []).isCollection then depth + 1 else depth, misplaced tag "mapping"⟩
  | broken problem => .error ⟨depth + 1, .yaml problem⟩

/-- The values of the items of a sequence. -/
def itemValues (depth : Nat) : List Node → Built (List Datum)
  | [] => .ok []
  | n :: rest => (both (n.valueAt depth) (itemValues depth rest)).map fun e => e.1 :: e.2

/-- The values of mappings of one entry each as pairs. -/
def pairValues (refusal : Fault) (depth : Nat) : List Node → Built (List Datum)
  | [] => .ok []
  | mapping _ [(k, v)] :: rest =>
    (both (both (k.valueAt depth) (v.valueAt depth)) (pairValues refusal depth rest)).map fun e =>
      .tuple [e.1.1, e.1.2] :: e.2
  | _ :: _ => .error ⟨depth, refusal⟩

/-- The values of the entries of a mapping, whose keys are no collections. -/
def entryValues (depth : Nat) : List (Node × Node) → Built (Table Datum)
  | [] => .ok []
  | (k, v) :: rest =>
    let key := if k.isCollection then .error ⟨depth, .yaml badMapping⟩ else k.valueAt depth
    (both (both key (v.valueAt depth)) (entryValues depth rest)).map fun e => e.1 :: e.2

end

/-- The value of a node. -/
def toDatum (n : Node) : Outcome Datum := (n.flat.valueAt 0).mapError Trouble.fault

end Node

end Formula.Yaml
