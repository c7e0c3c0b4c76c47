import Formula.Atom

/-!
# Atoms from payloads

A host sends atoms as a list of mappings with one entry per field.  `Atom.ofSequence` reads such a list.  An atom needs
a known type and known fields only; its nested sequences are read in turn, and every other field is taken as it is.
-/

namespace Formula

namespace Atom

/-- The fields of an atom that hold sequences of atoms, in the order in which they are read. -/
def nestedFields : List String := ["superscript", "subscript", "body", "numer", "denom", "index"]

/-- The names of the fields of an atom. -/
def fieldNames : List String :=
  ["type", "value", "latex"] ++ nestedFields ++ ["delim", "left_delim", "right_delim", "font"]

/-- The names of entries that are no fields, in order.  Names other than text can be neither ordered nor joined. -/
def unknownFields (entries : List (Datum × Datum)) : Outcome (List String) := do
  let unknown := (entries.map (·.1)).filter fun d => match d with
    | .text s => !fieldNames.contains s
    | _ => true
  let names := unknown.filterMap Datum.text?
  match unknown.find? fun d => d.text?.isNone with
  | none => .ok (names.mergeSort fun a b => decide (a ≤ b))
  | some d => match names with
    | [] => .error (.notTextPart 0 d.kindName)
    | _ :: _ => .error (.notComparable "<" d.kindName "str")

/-- The type that an atom names. -/
def readType (d : Datum) : Outcome AtomType := do
  let type ← d.key
  match type.text?.bind AtomType.ofTag? with
  | some t => .ok t
  | none => .error (.unknownAtomType type.literal)

/-- The entries of a mapping whose values are sequences, with the atoms in them. -/
abbrev Sequences := List (Datum × Outcome (List Atom))

/-- The sequence of a nested field, none if the field is absent or null. -/
def readNested (entries : List (Datum × Datum)) (sequences : Sequences) (name : String) :
    Outcome (Option (List Atom)) :=
  if (Datum.field entries name).isNull then .ok none
  else match (sequences.find? fun e => e.1.isText name).map (·.2) with
    | some sequence => sequence.map some
    | none => .ok none

/-- The atom of a mapping, whose nested sequences are given. -/
def ofEntries (entries : List (Datum × Datum)) (sequences : Sequences) : Outcome Atom := do
  let type ← readType (Datum.field entries "type")
  match ← unknownFields entries with
  | [] => pure ()
  | names => throw (.unknownAtomFields names)
  let superscript ← readNested entries sequences "superscript"
  let subscript ← readNested entries sequences "subscript"
  let body ← readNested entries sequences "body"
  let numerator ← readNested entries sequences "numer"
  let denominator ← readNested entries sequences "denom"
  let index ← readNested entries sequences "index"
  return {
    type, superscript, subscript, body, numerator, denominator, index
    value := (Datum.field? entries "value").getD (.text "")
    latex := Datum.field entries "latex"
    delim := Datum.field entries "delim"
    leftDelim := Datum.field entries "left_delim"
    rightDelim := Datum.field entries "right_delim"
    font := Datum.field entries "font" }

mutual

/-- The atom of a payload item. -/
def ofItem : Datum → Outcome Atom
  | .map entries => ofEntries entries (sequencesOf entries)
  | d => .error (.notAtom d.shortKindName)

/-- The atoms of a payload. -/
def ofSequence : Datum → Outcome (List Atom)
  | .list items | .tuple items => ofItems items
  | _ => .error .notAtomSequence

/-- The atoms of the items of a list, up to the first item that is none. -/
def ofItems : List Datum → Outcome (List Atom)
  | [] => .ok []
  | d :: rest => do
    let a ← ofItem d
    let more ← ofItems rest
    return a :: more

/-- The values of the entries as sequences. -/
def sequencesOf : List (Datum × Datum) → Sequences
  | [] => []
  | (k, v) :: rest => (k, ofSequence v) :: sequencesOf rest

end

end Atom

end Formula
