import Formula.Preview.Color

/-!
# Pictures

A picture is a function from places to colors, with a width and a height.  `trim` cuts off the margins that show
nothing but a background, `paste` puts one picture on another, and `roundCorners` makes the corners transparent.
-/

namespace Formula.Preview

/-- A picture.  Columns count from the left and rows from the top. -/
structure Picture where
  width : Nat
  height : Nat
  /-- The color at a column and a row. -/
  color : Nat → Nat → Color
  /-- Where the picture can be seen, if it is transparent in other places. -/
  mask : Option (Nat → Nat → Bool) := none

namespace Picture

/-- A picture of one color. -/
def plain (width height : Nat) (color : Color) : Picture := { width, height, color := fun _ _ => color }

/-- The picture with the given rows, which all have the width of the first. -/
def ofRows (rows : Array (Array Color)) : Picture :=
  { width := (rows[0]?.getD #[]).size
    height := rows.size
    color := fun x y => ((rows[y]?.getD #[])[x]?).getD default }

/-- The colors of a row. -/
def row (p : Picture) (y : Nat) : List Color := (List.range p.width).map fun x => p.color x y

/-- The colors, row by row. -/
def rows (p : Picture) : List (List Color) := (List.range p.height).map p.row

/-! ### Trimming -/

/-- A place whose color is not the background. -/
def hasInk (p : Picture) (background : Color) (x y : Nat) : Bool := p.color x y != background

/-- The columns with ink, from left to right. -/
def inkColumns (p : Picture) (background : Color) : List Nat :=
  (List.range p.width).filter fun x => (List.range p.height).any fun y => p.hasInk background x y

/-- The rows with ink, from top to bottom. -/
def inkRows (p : Picture) (background : Color) : List Nat :=
  (List.range p.height).filter fun y => (List.range p.width).any fun x => p.hasInk background x y

/-- A rectangle of a picture. -/
structure Box where
  left : Nat
  top : Nat
  width : Nat
  height : Nat
deriving DecidableEq, Repr

/-- The least rectangle that holds all ink, if there is any. -/
def inkBox (p : Picture) (background : Color) : Option Box :=
  match p.inkColumns background, p.inkRows background with
  | x :: xs, y :: ys => some ⟨x, y, (x :: xs).getLastD x + 1 - x, (y :: ys).getLastD y + 1 - y⟩
  | _, _ => none

/-- The part of a picture in a rectangle. -/
def crop (p : Picture) (box : Box) : Picture :=
  { width := box.width, height := box.height, color := fun x y => p.color (box.left + x) (box.top + y) }

/-- The picture without the margins that show only the background; all of it, if it shows nothing else. -/
def trim (p : Picture) (background : Color) : Picture :=
  match p.inkBox background with
  | some box => p.crop box
  | none => p

/-- The picture `top` on the picture `p`, with its first place at column `left` and row `above`.  What lies outside of
`p` is lost. -/
def paste (p top : Picture) (left above : Int) : Picture :=
  { p with color := fun x y =>
      let column := (x : Int) - left
      let row := (y : Int) - above
      if 0 ≤ column ∧ column < top.width ∧ 0 ≤ row ∧ row < top.height then top.color column.toNat row.toNat
      else p.color x y }

/-! ### Round corners -/

/-- The place `(x, y)` of a rectangle from `(0, 0)` to `(right, bottom)` lies in the ellipse that fills the rectangle.
Coordinates count in halves from the center, and the ellipse is a little wider than its axes. -/
def inEllipse (right bottom x y : Int) : Bool :=
  let u := right - 2 * x
  let v := bottom - 2 * y
  decide (bottom * bottom * u * u + right * right * v * v ≤
    right * right * bottom * bottom + max (right * right) (bottom * bottom))

/-- How far a coordinate between `0` and `last` lies in a margin of `diameter / 2` at either end, in halves. -/
def intoMargin (last diameter x : Int) : Int := max 0 (max (diameter - 2 * x) (diameter - 2 * (last - x)))

/-- The diameter of the corners of a rectangle from `(0, 0)` to `(right, bottom)`.  A diameter that leaves no straight
edge becomes the edge; if it leaves none at all, there is none, and the rectangle becomes an ellipse. -/
def cornerDiameter? (diameter : Rat) (right bottom : Int) : Option Int :=
  let fullWidth := decide (((right - 1 : Int) : Rat) ≤ diameter)
  let across : Rat := if fullWidth then right else diameter
  let fullHeight := decide (((bottom - 1 : Int) : Rat) ≤ across)
  if fullWidth && fullHeight then none
  else some (if fullHeight then bottom else across.floor)

/-- The place `(x, y)` of a rectangle from `(0, 0)` to `(right, bottom)` is not cut off by corners of a diameter. -/
def inRoundedBox (diameter : Rat) (right bottom x y : Int) : Bool :=
  match cornerDiameter? diameter right bottom with
  | none => inEllipse right bottom x y
  | some d =>
    let u := intoMargin right d x
    let v := intoMargin bottom d y
    decide (u * u + v * v ≤ d * d + 1)

/-- The picture with transparent corners outside of a rounded rectangle.  Corners have no negative diameter. -/
def roundCorners (p : Picture) (diameter : Rat) : Outcome Picture :=
  let right : Int := p.width - 1
  let bottom : Int := p.height - 1
  match cornerDiameter? diameter right bottom with
  | some d =>
    if d < 0 then .error (.noCorners "x")
    else .ok { p with mask := some fun x y => inRoundedBox diameter right bottom x y }
  | none => .ok { p with mask := some fun x y => inRoundedBox diameter right bottom x y }

end Picture

end Formula.Preview
