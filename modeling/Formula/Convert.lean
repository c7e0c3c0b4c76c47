import Formula.Atom.Payload
import Formula.Expr.Latex
import Formula.Expr.OfAtoms
import Formula.Expr.Query
import Formula.Settings
import Formula.Source

/-!
# Conversion of formulas

The whole way from a LaTeX source or a payload of atoms to normalized LaTeX: the input is checked against the limits,
read as an expression, and written.  Parts of the input without a meaning stay, and give a warning each.

Input that nests deeper than `recursionLimit` is refused whatever the limits say.
-/

namespace Formula

/-- The deepest nesting of groups in a source, and the longest run of signs in front of an operand. -/
def recursionLimit : Nat := 1500

/-! ### Reading without limits -/

mutual

/-- The longest run of signs in the sequences nested in an atom. -/
def Atom.signRun (c : Catalog) : Atom → Nat
  | ⟨_, _, _, superscript, subscript, body, numerator, denominator, index, _, _, _, _⟩ =>
    max (max (max (fieldSignRun c superscript) (fieldSignRun c subscript)) (max (fieldSignRun c body)
      (fieldSignRun c numerator))) (max (fieldSignRun c denominator) (fieldSignRun c index))

/-- The longest run of signs in a nested sequence. -/
def fieldSignRun (c : Catalog) : Option (List Atom) → Nat
  | none => 0
  | some atoms => listSignRun c 0 atoms

/-- The longest run of signs in a sequence or in what is nested in it, with `run` signs in front. -/
def listSignRun (c : Catalog) (run : Nat) : List Atom → Nat
  | [] => run
  | a :: rest =>
    if a.type = .spacing then listSignRun c run rest
    else if ((a.sign? c).toOption.getD none).isSome then listSignRun c (run + 1) rest
    else max run (max (a.signRun c) (listSignRun c 0 rest))

end

/-- The atoms of a source. -/
def readSource (c : Catalog) (source : String) : Outcome (List Atom) := do
  let read ← Source.read c source
  if recursionLimit < read.depth then throw .recursion else return read.value

/-- The expression of a sequence of atoms. -/
def readAtoms (c : Catalog) (atoms : List Atom) : Outcome Expr :=
  if recursionLimit < listSignRun c 0 atoms then .error .recursion else Expr.ofAtoms c atoms

/-! ### Limits -/

/-- A control character other than a tab or the end of a line. -/
def isControl (c : Char) : Bool :=
  let n := c.toNat
  n ≤ 0x08 || n == 0x0b || n == 0x0c || (0x0e ≤ n && n ≤ 0x1f) || n == 0x7f

/-- A command whose backslash stands in front of the characters has this name. -/
def isCommandNamed (name : String) (cs : List Char) : Bool :=
  name.toList.isPrefixOf cs && !((cs.drop name.length).head?.any Format.isCommandLetter)

/-- The deepest nesting of groups and of fences between `\left` and `\right` in a source.  Braces behind a backslash do
not count; `escaped` tells of a backslash in front. -/
def groupDepth (escaped : Bool) (depth deepest : Nat) : List Char → Nat
  | [] => deepest
  | c :: rest =>
    if (c = '\x7b' ∧ !escaped) ∨ (c = '\\' ∧ isCommandNamed "left" rest) then
      groupDepth (c = '\\') (depth + 1) (max deepest (depth + 1)) rest
    else if (c = '\x7d' ∧ !escaped) ∨ (c = '\\' ∧ isCommandNamed "right" rest) then
      groupDepth (c = '\\') (depth - 1) deepest rest
    else groupDepth (c = '\\') depth deepest rest

/-- Refuses a source with control characters, with too many characters or with groups that nest too deep. -/
def Limits.checkSource (l : Limits) (source : String) : Outcome Unit := do
  let cs := source.toList
  if cs.any isControl then throw .controlCharacters
  if ← l.maxLatexChars.isBelow cs.length then throw (.latexTooLong l.maxLatexChars.shown)
  let deepest := groupDepth false 0 0 cs
  if ← l.maxDepth.isBelow deepest then throw (.groupsTooDeep deepest l.maxDepth.shown)

/-- Refuses too many atoms and atoms that nest too deep. -/
def Limits.checkAtoms (l : Limits) (atoms : List Atom) : Outcome Unit := do
  let total := Atom.count atoms
  if ← l.maxAtoms.isBelow total then throw (.tooManyAtoms total l.maxAtoms.shown)
  let deepest := Atom.nestingDepth atoms
  if ← l.maxDepth.isBelow deepest then throw (.atomsTooDeep deepest l.maxDepth.shown)

/-! ### Conversion -/

/-- The fault in place of the general fault of too deep recursion. -/
def renamed {α : Type} (fault : Fault) (x : Outcome α) : Outcome α :=
  match x with
  | .error .recursion => .error fault
  | x => x

/-- The expression of a LaTeX source within the limits. -/
def parseLatex (l : Limits) (c : Catalog) (source : Datum) : Outcome Expr := do
  match source with
  | .text latex =>
    l.checkSource latex
    let atoms ← renamed .latexRecursion (readSource c latex)
    l.checkAtoms atoms
    renamed .parseRecursion (readAtoms c atoms)
  | _ => throw .latexNotText

/-- The expression of a payload of atoms within the limits. -/
def parseAtoms (l : Limits) (c : Catalog) (payload : Datum) : Outcome Expr := do
  let atoms ← Atom.ofSequence payload
  l.checkAtoms atoms
  renamed .parseRecursion (readAtoms c atoms)

/-- The expression of an input: a text is a LaTeX source, anything else a payload of atoms. -/
def parseInput (l : Limits) (c : Catalog) (source : Datum) : Outcome Expr :=
  match source with
  | .text _ => parseLatex l c source
  | _ => parseAtoms l c source

/-- A converted input: the LaTeX, and a warning for every part of the input without a meaning. -/
structure Conversion where
  latex : String
  warnings : List String
deriving Repr

/-- The warning of an error node. -/
def warningOf : Expr → String
  | .error placeholder message _ _ => s!"Could not parse '{placeholder.shown}': {message.shown}"
  | _ => ""

/-- The warnings of an expression, in the order of its error nodes. -/
def Expr.warnings (e : Expr) : Outcome (List String) := do return (← e.errors).map warningOf

/-- Normalizes an input. -/
def convert (s : Settings) (c : Catalog) (source : Datum) : Outcome Conversion := do
  let tree ← parseInput s.limits c source
  let warnings ← tree.warnings
  let latex ← tree.latex s.format c
  return ⟨latex, warnings⟩

end Formula
