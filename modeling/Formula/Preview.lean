import Formula.Preview.Drawable
import Formula.Preview.Picture
import Formula.Settings

/-!
# Previews

The picture of normalized LaTeX in the look of the settings.  `draw` draws formulas that show nothing, which are an
empty canvas; glyphs are beyond it, and it refuses all other formulas.  `frame` puts a drawn formula into the middle of
a canvas.

The options of a look are used as they came: a side of a picture may turn out to be no number.
-/

namespace Formula.Preview

/-! ### Sizes -/

/-- Twice a value, if it can be doubled: a number, or the items of a text or a list two times over. -/
def twice : Datum → Option Datum
  | .bool b => some (.int (2 * Datum.ofBool b))
  | .int n => some (.int (2 * n))
  | .float x => some (.float (((x.toRat?).map fun r => Number.Double.ofRat (2 * r)).getD x))
  | .text s => some (.text (s ++ s))
  | .list items => some (.list (items ++ items))
  | .tuple items => some (.tuple (items ++ items))
  | .null | .map _ | .set _ | .record .. | .other .. => none

/-- The larger of one and a value. -/
def atLeastOne (d : Datum) : Outcome Datum :=
  match d with
  | .bool _ => .ok (.int 1)
  | .int n => .ok (.int (max 1 n))
  | .float x => .ok (if (Number.Double.ofInt 1).lt x then d else .int 1)
  | _ => .error (.notComparable ">" d.kindName "int")

/-- The sum of a natural number and a value. -/
def plus (n : Nat) (d : Datum) : Outcome Datum :=
  match d with
  | .bool b => .ok (.int (n + Datum.ofBool b))
  | .int m => .ok (.int (n + m))
  | .float x => .ok (.float (x.addInt n))
  | _ => .error (.notCombinable "+" "int" d.kindName)

/-- The margins above and below together. -/
def margins (look : Look) : Outcome Datum :=
  match twice look.padding with
  | some d => .ok d
  | none => .error (.notCombinable "*" "int" look.padding.kindName)

/-- Refuses a negative side of a picture, and one without an order. -/
def checkSign (d : Datum) : Outcome Unit := do
  if !d.isNumeric then throw (.notComparable "<" d.kindName "int")
  if ← d.isBelow 0 then throw .negativeSize

/-- A side of a picture. -/
def side (d : Datum) : Outcome Nat :=
  match d with
  | .bool b => .ok b.toNat
  | .int n => if n < Number.twoTo 31 then .ok n.toNat else .error .sizeTooLarge
  | _ => .error (.notSide d.kindName)

/-- The most pixels of a row. -/
def longestRow : Nat := Number.twoTo 29 - 2

/-- The sides of a picture, the width and the height. -/
def sides (width height : Datum) : Outcome (Nat × Nat) := do
  let columns ← side width
  let rows ← side height
  if longestRow < columns then throw .rowTooLong
  return (columns, rows)

/-- An empty canvas.  A color that is named is looked up before the sides are taken; the parts of a color are checked
behind them. -/
def canvas (width height background : Datum) : Outcome Picture := do
  checkSign width
  checkSign height
  match background with
  | .text name =>
    let parts ← Color.Parts.ofText name
    let (columns, rows) ← sides width height
    return .plain columns rows (← parts.toColor)
  | _ =>
    let (columns, rows) ← sides width height
    return .plain columns rows (← Color.ofDatum background)

/-! ### Drawing -/

/-- The diameter of corners, if a value is a number. -/
def diameterOf (d : Datum) : Outcome Rat :=
  match d with
  | .bool b => .ok (Datum.ofBool b)
  | .int n => .ok n
  | .float .nan => .error .notANumberToWhole
  | .float (.infinite negative) => if negative then .error .notANumberToWhole else .ok (Number.twoTo 32)
  | .float x => .ok ((x.toRat?).getD 0)
  | _ => .error (.notComparable ">=" d.kindName "int")

/-- The picture with the corners of a look.  A picture without pixels is none. -/
def finish (look : Look) (p : Picture) : Outcome Picture := do
  if look.borderRadius.isVoid then
    if p.width = 0 ∨ p.height = 0 then throw .noPixels else return p
  else
    if p.width = 0 then throw (.noCorners "x")
    if p.height = 0 then throw (.noCorners "y")
    match twice look.borderRadius with
    | some d => p.roundCorners (← diameterOf d)
    | none => throw (.notCombinable "*" look.borderRadius.kindName "int")

/-- The picture of a formula that shows nothing. -/
def blank (look : Look) : Outcome Picture := do
  let height ← atLeastOne (← margins look)
  finish look (← canvas look.imageWidth height look.background)

/-- A drawn formula without its margins, in the middle of a canvas of at least the width of the look, with the padding
of the look above and below. -/
def frame (look : Look) (drawn : Picture) : Outcome Picture := do
  let ink := drawn.trim (← Color.ofDatum look.background)
  let width := if ← look.imageWidth.isBelow ink.width then .int ink.width else look.imageWidth
  let height ← plus ink.height (← margins look)
  let empty ← canvas width height look.background
  let left := (empty.width - ink.width) / 2
  finish look (empty.paste ink left (← look.padding.toWhole))

/-- The picture of a formula. -/
def draw (look : Look) (latex : String) : Outcome Picture :=
  if Text.allBlank (drawable latex) then blank look else .error .noDrawing

end Formula.Preview
