import Formula.Datum

/-!
# Atoms

An atom is one token of a mathematical text: a symbol, an operator, a fence, or a construct such as a fraction that
holds sequences of atoms of its own.  Any atom may carry a superscript and a subscript.

The text fields (`value`, `latex`, the delimiters and the font) are payload values, kept as the host sent them; the
spelling of an atom is `Atom.text`.  `count` and `nestingDepth` walk a sequence with a list of pending work, so that
deep nesting takes no stack.
-/

namespace Formula

open Text

/-- The types of atoms. -/
inductive AtomType where
  /-- An ordinary symbol: a letter, a digit, a Greek letter. -/
  | ordinary
  /-- An ordinary symbol in the role of text: symmetric fences, postfix marks, the nabla. -/
  | textual
  | binary
  | relation
  | punctuation
  | opening
  | closing
  /-- A delimiter with an explicit size, whose glyph is in `delim`. -/
  | sized
  /-- A group between two delimiters that fit its height, with a body of its own. -/
  | fenced
  /-- The name of a function or a large operator. -/
  | operator
  | fraction
  | radical
  | font
  | spacing
  | text
deriving DecidableEq, Repr, Inhabited

namespace AtomType

/-- The types with their tags in payloads. -/
def tags : List (AtomType × String) := [
  (.ordinary, "mord"), (.textual, "textord"), (.binary, "mbin"), (.relation, "mrel"), (.punctuation, "mpunct"),
  (.opening, "mopen"), (.closing, "mclose"), (.sized, "sizeddelim"), (.fenced, "leftright"), (.operator, "mop"),
  (.fraction, "genfrac"), (.radical, "surd"), (.font, "font"), (.spacing, "spacing"), (.text, "text")]

/-- The tag of a type in payloads. -/
def tag : AtomType → String
  | ordinary => "mord"
  | textual => "textord"
  | binary => "mbin"
  | relation => "mrel"
  | punctuation => "mpunct"
  | opening => "mopen"
  | closing => "mclose"
  | sized => "sizeddelim"
  | fenced => "leftright"
  | operator => "mop"
  | fraction => "genfrac"
  | radical => "surd"
  | font => "font"
  | spacing => "spacing"
  | text => "text"

/-- The type with a tag. -/
def ofTag? (tag : String) : Option AtomType := (tags.find? fun t => t.2 == tag).map (·.1)

/-- A type is found under its tag. -/
theorem ofTag?_tag (t : AtomType) : ofTag? t.tag = some t := by cases t <;> rfl

end AtomType

/-- One token of a mathematical text. -/
structure Atom where
  type : AtomType
  /-- The character, or the content of a text. -/
  value : Datum := .text ""
  /-- The LaTeX spelling. -/
  latex : Datum := .null
  superscript : Option (List Atom) := none
  subscript : Option (List Atom) := none
  body : Option (List Atom) := none
  numerator : Option (List Atom) := none
  denominator : Option (List Atom) := none
  /-- The index of a radical. -/
  index : Option (List Atom) := none
  /-- The glyph of a sized delimiter. -/
  delim : Datum := .null
  leftDelim : Datum := .null
  rightDelim : Datum := .null
  /-- The font family. -/
  font : Datum := .null
deriving Inhabited

/-- The value of a placeholder: an ordinary atom without width that carries scripts for the atom before it. -/
def zeroWidth : String := "\u200b"

namespace Atom

/-- The ten digits. -/
def digits : List String := ["0", "1", "2", "3", "4", "5", "6", "7", "8", "9"]

/-- The spelling: the LaTeX text without the blanks around it, or the value if there is none. -/
def text (a : Atom) : Outcome Datum :=
  if a.latex.isVoid then .ok a.value
  else match a.latex with
    | .text s => if allBlank s then .ok a.value else .ok (.text (trim s))
    | _ => .error .noOperation

/-- The atom is spelled `s`. -/
def spelled (a : Atom) (s : String) : Bool :=
  match a.text with
  | .ok d => d.isText s
  | .error _ => false

/-- The atom carries a superscript or a subscript, if only an empty one. -/
def hasScripts (a : Atom) : Bool := a.superscript.isSome || a.subscript.isSome

/-- A placeholder for scripts. -/
def isPlaceholder (a : Atom) : Bool := a.type == .ordinary && a.value.isText zeroWidth

mutual

/-- The number of atoms that matter to a reader: the atom and those nested in it, spaces left out. -/
def size : Atom → Nat
  | ⟨type, _, _, superscript, subscript, body, numerator, denominator, index, _, _, _, _⟩ =>
    if type = .spacing then 0
    else
      1 + fieldSize superscript + fieldSize subscript + fieldSize body + fieldSize numerator + fieldSize denominator +
        fieldSize index

/-- The number of atoms that matter in a nested sequence. -/
def fieldSize : Option (List Atom) → Nat
  | none => 0
  | some atoms => listSize atoms

/-- The number of atoms that matter in a sequence. -/
def listSize : List Atom → Nat
  | [] => 0
  | a :: rest => a.size + listSize rest

end

/-- The sequences of atoms inside an atom, without the empty ones. -/
def nested (a : Atom) : List (List Atom) :=
  [a.superscript, a.subscript, a.body, a.numerator, a.denominator, a.index].filterMap fun field =>
    match field with
    | some (b :: rest) => some (b :: rest)
    | _ => none

/-- Work for a walk: the total size of the pending sequences. -/
noncomputable def workSize : List (List Atom) → Nat
  | [] => 0
  | s :: w => sizeOf s + workSize w

theorem sizeOf_nested (a : Atom) : workSize a.nested < sizeOf a := by
  obtain ⟨type, value, latex, f1, f2, f3, f4, f5, f6, delim, left, right, font⟩ := a
  have bound : ∀ field : Option (List Atom),
      workSize ([field].filterMap fun f => match f with
        | some (b :: rest) => some (b :: rest)
        | _ => none) ≤ sizeOf field := by
    intro field
    rcases field with _ | _ | ⟨b, rest⟩ <;> simp [workSize]
  have split : ∀ (field : Option (List Atom)) (more : List (Option (List Atom))),
      workSize ((field :: more).filterMap fun f => match f with
        | some (b :: rest) => some (b :: rest)
        | _ => none) ≤ sizeOf field + workSize (more.filterMap fun f => match f with
        | some (b :: rest) => some (b :: rest)
        | _ => none) := by
    intro field more
    rcases field with _ | _ | ⟨b, rest⟩ <;> simp [workSize]
  have h1 := split f1 [f2, f3, f4, f5, f6]
  have h2 := split f2 [f3, f4, f5, f6]
  have h3 := split f3 [f4, f5, f6]
  have h4 := split f4 [f5, f6]
  have h5 := split f5 [f6]
  have h6 := bound f6
  simp only [nested, Atom.mk.sizeOf_spec]
  omega

theorem workSize_append (v w : List (List Atom)) : workSize (v ++ w) = workSize v + workSize w := by
  induction v with
  | nil => simp [workSize]
  | cons s v ih => simp [workSize, ih, Nat.add_assoc]

theorem workSize_cons (s : List Atom) (w : List (List Atom)) : workSize (s :: w) = sizeOf s + workSize w := rfl

/-- The sequences nested in the atoms of a sequence. -/
def nestedIn (atoms : List Atom) : List (List Atom) := atoms.flatMap nested

/-- What is nested in a sequence is smaller than the sequence. -/
theorem workSize_nestedIn (atoms : List Atom) : workSize (nestedIn atoms) < sizeOf atoms := by
  induction atoms with
  | nil => simp [workSize, nestedIn]
  | cons a rest ih =>
    have := sizeOf_nested a
    rw [nestedIn] at ih
    rw [nestedIn, List.flatMap_cons, workSize_append, List.cons.sizeOf_spec]
    omega

/-- Adds up the lengths of the pending sequences and of all that is nested in them. -/
def countFrom (total : Nat) : List (List Atom) → Nat
  | [] => total
  | atoms :: work => countFrom (total + atoms.length) (nestedIn atoms ++ work)
termination_by work => workSize work
decreasing_by
  have := workSize_nestedIn atoms
  rw [workSize_append, workSize_cons]
  omega

/-- The number of atoms, those in nested sequences included. -/
def count (atoms : List Atom) : Nat := countFrom 0 [atoms]

/-- The number of fences open after an atom, of those open before it. -/
def fencesAfter (fences : Nat) (a : Atom) : Nat :=
  match a.type with
  | .opening => fences + 1
  | .closing => fences - 1
  | _ => fences

/-- The nested sequences of a sequence with the levels that they start at. -/
def nestedLevels (depth : Nat) : Nat → List Atom → List (List Atom × Nat)
  | _, [] => []
  | fences, a :: rest =>
    let after := fencesAfter fences a
    a.nested.map (fun s => (s, depth + after + 1)) ++ nestedLevels depth after rest

/-- The greatest level of the atoms of a sequence itself. -/
def flatDepth (depth : Nat) : Nat → List Atom → Nat
  | _, [] => 0
  | fences, a :: rest =>
    let after := fencesAfter fences a
    max (depth + after) (flatDepth depth after rest)

theorem nestedLevels_fst (depth : Nat) : ∀ (fences : Nat) (atoms : List Atom),
    (nestedLevels depth fences atoms).map (·.1) = nestedIn atoms
  | _, [] => rfl
  | fences, a :: rest => by
    simp [nestedLevels, nestedLevels_fst depth _ rest, nestedIn, Function.comp_def]

/-- The greatest level in the pending sequences and in all that is nested in them. -/
def depthFrom (deepest : Nat) : List (List Atom × Nat) → Nat
  | [] => deepest
  | (atoms, depth) :: work =>
    depthFrom (max deepest (flatDepth depth 0 atoms)) (nestedLevels depth 0 atoms ++ work)
termination_by work => workSize (work.map (·.1))
decreasing_by
  have := workSize_nestedIn atoms
  rw [List.map_append, nestedLevels_fst, workSize_append, List.map_cons, workSize_cons]
  dsimp only
  omega

/-- The depth of nesting: a flat sequence has depth one; nested sequences and open fences each add a level. -/
def nestingDepth (atoms : List Atom) : Nat := depthFrom 0 [(atoms, 1)]

end Atom

end Formula
