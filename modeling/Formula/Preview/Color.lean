import Formula.Datum
import Formula.Json
import Formula.Number.FiniteDouble
import Formula.Preview.ColorName
import Formula.Text.Blank
import Formula.Text.Digit
import Formula.Text.SmallLetter

/-!
# Colors

A color is three bytes.  Settings name one in any of the forms of style sheets: by a name, as `#rgb` or `#rrggbb`, by
parts in `rgb(…)`, or by hue in `hsl(…)` and `hsv(…)`.  What a form says about transparency is passed over.  Hues and
percentages are floating-point numbers, and each step toward a part rounds.
-/

namespace Formula.Preview

open Number (FiniteDouble)
open Text

/-- A color. -/
structure Color where
  red : UInt8
  green : UInt8
  blue : UInt8
deriving DecidableEq, Repr, Inhabited

namespace Color

/-- The color whose red, green and blue are the bytes of a number, from the most significant on. -/
def ofNat (n : Nat) : Color := ⟨UInt8.ofNat (n / 65536), UInt8.ofNat (n / 256), UInt8.ofNat n⟩

/-- The parts of a color as they are written, whole numbers of any size. -/
structure Parts where
  red : Int
  green : Int
  blue : Int
deriving DecidableEq, Repr, Inhabited

namespace Parts

/-- A part of a color, moved into the range of a byte. -/
def clamp (n : Int) : UInt8 := UInt8.ofNat (min n.toNat 255)

/-- A whole number fits a number of bits, one of them for its sign. -/
def fits (bits : Nat) (n : Int) : Bool :=
  decide (-(Number.twoTo (bits - 1) : Int) ≤ n) && decide (n < Number.twoTo (bits - 1))

/-- The color with given parts, of which red has 64 bits at most and the others 32. -/
def toColor (p : Parts) : Outcome Color :=
  if fits 64 p.red && fits 32 p.green && fits 32 p.blue then .ok ⟨clamp p.red, clamp p.green, clamp p.blue⟩
  else .error .sizeTooLarge

/-- The parts of a color. -/
def ofColor (c : Color) : Parts := ⟨c.red.toNat, c.green.toNat, c.blue.toNat⟩

/-! ### Shares

A share is a part of a color in units of the greatest byte, a floating-point number.
-/

/-- The whole part of a number with a half added, which is the nearest whole number unless the number is negative. -/
def nearest (x : FiniteDouble) : Int := (x + 1 / 2).wholePart

/-- The parts with three given shares. -/
def ofShares (red green blue : FiniteDouble) : Parts :=
  ⟨nearest (red * 255), nearest (green * 255), nearest (blue * 255)⟩

/-- The share of the part of a color at a hue, which counts in turns of the circle, between a least and a greatest
share. -/
def shareAt (least greatest hue : FiniteDouble) : FiniteDouble :=
  let turn := hue.aboveFloor
  if turn < 1 / 6 then least + (greatest - least) * turn * 6
  else if turn < 1 / 2 then greatest
  else if turn < 2 / 3 then least + (greatest - least) * (2 / 3 - turn) * 6
  else least

/-- The parts of a hue, a saturation and a lightness. -/
def ofLightness (hue saturation lightness : FiniteDouble) : Parts :=
  let greatest :=
    if lightness ≤ 1 / 2 then lightness * (1 + saturation) else lightness + saturation - lightness * saturation
  let least := 2 * lightness - greatest
  ofShares (shareAt least greatest (hue + 1 / 3)) (shareAt least greatest hue) (shareAt least greatest (hue - 1 / 3))

/-- The parts of a hue, a saturation and a brightness.  The circle has six sectors; in each of them one part is the
greatest, one the least, and one goes up or down. -/
def ofBrightness (hue saturation brightness : FiniteDouble) : Parts :=
  let sectors := hue * 6
  let inside := sectors.aboveFloor
  let least := brightness * (1 - saturation)
  let falling := brightness * (1 - saturation * inside)
  let rising := brightness * (1 - saturation * (1 - inside))
  match sectors.floor % 6 with
  | 0 => ofShares brightness rising least
  | 1 => ofShares falling brightness least
  | 2 => ofShares least brightness rising
  | 3 => ofShares least falling brightness
  | 4 => ofShares rising least brightness
  | _ => ofShares brightness least falling

/-! ### Written forms -/

/-- A whole number of decimal digits. -/
def natOf? (cs : List Char) : Option Nat := do
  let digits ← cs.mapM digitValue?
  if digits.isEmpty then none else return digits.foldl (fun n d => 10 * n + d) 0

/-- A number of decimal digits, perhaps with a point and more digits. -/
def numberOf? (cs : List Char) : Option FiniteDouble := do
  let whole := cs.takeWhile (· ≠ '.')
  let fraction := (cs.drop whole.length).drop 1
  let n ← natOf? whole
  let m ← if fraction.isEmpty then some 0 else natOf? fraction
  return .ofRat (n + mkRat m (Number.tenTo fraction.length))

/-- The characters in front of a sign of percent at their end. -/
def percent? (cs : List Char) : Option (List Char) := if cs.getLast? = some '%' then some cs.dropLast else none

/-- The parts of characters between commas, without the blanks around them, with `part` in front of the first. -/
def argumentsFrom (part : List Char) : List Char → List (List Char)
  | [] => [trimChars part]
  | c :: rest => if c = ',' then trimChars part :: argumentsFrom [] rest else argumentsFrom (part ++ [c]) rest

/-- The arguments in parentheses behind a name, if the characters are nothing else. -/
def arguments? (name : String) (cs : List Char) : Option (List (List Char)) :=
  let opening := name.toList ++ ['(']
  if opening.isPrefixOf cs ∧ cs.getLast? = some ')' then
    some (argumentsFrom [] (cs.drop opening.length).dropLast)
  else none

/-- The parts by hexadecimal digits behind `#`; a fourth part is passed over. -/
def ofHex? (cs : List Char) : Option Parts := do
  let digits ← match cs with
    | '#' :: digits => digits.mapM Json.hexDigit?
    | _ => none
  match digits with
  | [r, g, b] | [r, g, b, _] => return ⟨17 * r, 17 * g, 17 * b⟩
  | [r, s, g, h, b, c] | [r, s, g, h, b, c, _, _] => return ⟨16 * r + s, 16 * g + h, 16 * b + c⟩
  | _ => none

/-- The part of a color at a number of percent. -/
def ofPercent (n : Nat) : Int := nearest (.ofRat (255 * n : Nat) / 100)

/-- The parts as whole numbers or percentages. -/
def ofCall? (cs : List Char) : Option Parts := do
  let parts ← arguments? "rgb" cs
  match parts with
  | [r, g, b] =>
    match percent? r, percent? g, percent? b with
    | some r, some g, some b => return ⟨ofPercent (← natOf? r), ofPercent (← natOf? g), ofPercent (← natOf? b)⟩
    | _, _, _ => return ⟨← natOf? r, ← natOf? g, ← natOf? b⟩
  | _ => none

/-- The parts as whole numbers, with a transparency. -/
def ofCallWithAlpha? (cs : List Char) : Option Parts := do
  let parts ← arguments? "rgba" cs
  match parts with
  | [r, g, b, a] =>
    let _ ← natOf? a
    return ⟨← natOf? r, ← natOf? g, ← natOf? b⟩
  | _ => none

/-- The parts by a hue in degrees and two percentages. -/
def ofHue? (name : String) (parts : FiniteDouble → FiniteDouble → FiniteDouble → Parts) (cs : List Char) :
    Option Parts := do
  match ← arguments? name cs with
  | [h, s, l] =>
    return parts ((← numberOf? h) / 360) ((← numberOf? (← percent? s)) / 100) ((← numberOf? (← percent? l)) / 100)
  | _ => none

/-- The parts in any form with digits; a line end may follow. -/
def ofForm? (cs : List Char) : Option Parts :=
  let cs := if cs.getLast? = some '\n' then cs.dropLast else cs
  ofHex? cs <|> ofCall? cs <|> ofHue? "hsl" ofLightness cs <|> ofHue? "hsb" ofBrightness cs
    <|> ofHue? "hsv" ofBrightness cs <|> ofCallWithAlpha? cs

/-- The parts of the color that a text names.  Capital letters count as small ones. -/
def ofText (s : String) : Outcome Parts :=
  if 100 < s.length then .error .longColor
  else
    let cs := smallLetters false s.toList
    match colorNames.lookup (String.ofList cs) with
    | some n => .ok (ofColor (ofNat n))
    | none => match ofForm? cs with
      | some parts => .ok parts
      | none => .error (.unknownColor (quoted (String.ofList cs)))

end Parts

/-- The color that a value of the settings stands for: the name of a color, or a number with red as its least
significant byte, of 64 bits at most. -/
def ofDatum (d : Datum) : Outcome Color :=
  match d with
  | .text s => do (← Parts.ofText s).toColor
  | .null => .ok ⟨0, 0, 0⟩
  | .bool b => .ok ⟨UInt8.ofNat b.toNat, 0, 0⟩
  | .int n =>
    if Parts.fits 64 n then
      .ok ⟨UInt8.ofNat (n % 256).toNat, UInt8.ofNat (n / 256 % 256).toNat, UInt8.ofNat (n / 65536 % 256).toNat⟩
    else .error .sizeTooLarge
  | _ => .error .notColor

end Color

end Formula.Preview
