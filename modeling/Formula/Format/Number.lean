import Formula.Format
import Formula.Format.Repeat
import Formula.Text.Part

/-!
# Numbers in a format

A number is rounded to a number of significant digits, a half going up.  Its digits come in groups of three; a repeating
block is marked, other digits that were cut off leave an ellipsis; and large and small numbers have a power of ten.

Magnitudes are taken with at most `contextPlaces` digits, whatever the precision.
-/

namespace Formula

open Number Text

namespace Format

/-- What is written for the value that is no number. -/
def notANumber : String := "\\mathrm\x7bNaN\x7d"

/-- The number of digits of a magnitude. -/
def contextPlaces : Nat := 28

/-- Numbers from this power of ten on are written without one. -/
def leastPlainExponent : Int := -6

/-! ### Groups of digits -/

/-- Groups of three digits, of which the first has `first` digits. -/
def groupsOf (first : Nat) (digits : List Char) : List (List Char) :=
  let rest := digits.drop first
  let groups := (List.range ((rest.length + 2) / 3)).map fun i => (rest.drop (3 * i)).take 3
  if first = 0 then groups else digits.take first :: groups

/-- Groups of digits with the separator between them, if there is one and the digits are more than three. -/
def grouped (separator : Datum) (first : Nat) (digits : List Char) : Outcome String :=
  if separator.isVoid || digits.length ≤ 3 then .ok (String.ofList digits)
  else match separator with
    | .text s => .ok (s.intercalate ((groupsOf first digits).map String.ofList))
    | _ => .error .noOperation

/-- The digits before the point, in groups from the point on. -/
def groupedWhole (separator : Datum) (digits : List Char) : Outcome String :=
  grouped separator (digits.length % 3) digits

/-- The digits behind the point, in groups from the point on. -/
def groupedFraction (separator : Datum) (digits : List Char) : Outcome String := grouped separator 0 digits

/-! ### Digits and exponent -/

/-- A rounded magnitude: its digits without zeros at the end, the power of ten of the first of them, and whether digits
were cut off. -/
structure Rounded where
  digits : List Char
  leading : Int
  truncated : Bool
deriving Repr

/-- Rounds a magnitude to a number of significant digits.  Only digits that fill all places can have lost others. -/
def rounded (places : Nat) (d : Decimal) : Rounded :=
  let kept := d.round .up places
  let shown := (kept.round .even contextPlaces).normalize
  let digits := shown.digitChars
  ⟨digits, digits.length - 1 + shown.exponent, !kept.same d && places ≤ digits.length⟩

/-- The power of ten that is written behind the number. -/
def shiftOf (rule : Datum) (places : Int) (leading : Int) : Int :=
  if rule.isText "engineering" then leading - leading.emod 3
  else if rule.isText "on" then leading
  else if leastPlainExponent ≤ leading ∧ leading < places then 0
  else leading

/-- Digits of which the first `whole` stand before the point, filled up with zeros: those before and those behind it. -/
def splitDigits (digits : List Char) (whole : Int) : List Char × List Char :=
  if whole ≤ 0 then (['0'], zeroChars (-whole).toNat ++ digits)
  else if digits.length ≤ whole then (digits ++ zeroChars (whole.toNat - digits.length), [])
  else (digits.take whole.toNat, digits.drop whole.toNat)

/-- The digits behind the point.  The last digit of a number that was cut off was rounded and repeats nothing. -/
def fractionText (f : Format) (digits : List Char) (truncated : Bool) : Outcome String :=
  if !truncated || digits.isEmpty then groupedFraction f.groupSeparator digits
  else match findRepeat digits.dropLast with
    | none => do Datum.appendTo (← groupedFraction f.groupSeparator digits) f.ellipsis
    | some (offset, period) => do
      let start ← Datum.appendTo (← groupedFraction f.groupSeparator (digits.take offset)) f.beginRepeat
      Datum.appendTo (start ++ String.ofList ((digits.drop offset).take period)) f.endRepeat

/-- The digits before and behind the point, with the marks of digits that were cut off. -/
def mantissaText (f : Format) (whole fraction : List Char) (truncated : Bool) : Outcome String := do
  let wholeText ← groupedWhole f.groupSeparator whole
  let fraction ← f.fractionText fraction truncated
  if !fraction.isEmpty then return wholeText ++ (← f.decimalMarker.append fraction)
  else if truncated then Datum.appendTo wholeText f.ellipsis
  else return wholeText

/-- A number and its power of ten. -/
def withExponent (f : Format) (mantissa : String) (shift : Int) : String :=
  let power := "10^\x7b" ++ intText shift ++ "\x7d"
  if shift = 0 then mantissa
  else if !f.exponentMarker.isVoid then mantissa ++ f.exponentMarker.shown ++ intText shift
  else if mantissa = "1" then power
  else mantissa ++ f.exponentProduct.shown ++ power

/-- The largest number of significant digits. -/
def maxPlaces : Int := tenTo 18 - 1

/-- The number of significant digits, at least one. -/
def places (f : Format) : Outcome Int := do
  let n := max 1 (← f.precision.toWhole)
  if twoTo 63 ≤ n then throw .sizeTooLarge
  if maxPlaces < n then throw .tooPrecise
  return n

/-- A magnitude. -/
def magnitude (f : Format) (d : Decimal) : Outcome String := do
  let places ← f.places
  let r := rounded places.toNat d
  let shift := shiftOf f.scientificNotation places r.leading
  let (whole, fraction) := splitDigits r.digits (r.leading - shift + 1)
  return f.withExponent (← f.mantissaText whole fraction r.truncated) shift

/-! ### Numbers -/

/-- A sign and a magnitude, which is taken with at most `contextPlaces` digits. -/
def signed (f : Format) (negative : Bool) (d : Decimal) : Outcome String := do
  return (if negative then "-" else "") ++ (← f.magnitude (d.round .even contextPlaces))

/-- A whole number. -/
def whole (f : Format) (n : Int) : Outcome String := f.signed (n < 0) ⟨n.natAbs, 0⟩

/-- A floating-point number. -/
def double (f : Format) : Double → Outcome String
  | .nan => .ok notANumber
  | .infinite negative => .ok (if negative then "-\\infty" else "\\infty")
  | .finite negative m q => if m = 0 then f.signed false ⟨0, 0⟩ else f.signed negative (Double.shortest m q)

/-- Whole numbers with more digits than this are not written. -/
def maxWrittenDigits : Nat := 4300

/-- A whole number in decimal, if it is not too long. -/
def digitsOf (n : Nat) : Outcome String :=
  if maxWrittenDigits < decimalLength n then .error .tooLongToWrite else .ok (intText n)

/-- A ratio in lowest terms. -/
def ratio (f : Format) (r : Rat) : Outcome String := do
  if r.num = 0 then return "0"
  else if r.den = 1 then f.whole r.num
  else
    let numerator ← digitsOf r.num.natAbs
    let denominator ← digitsOf r.den
    return (if r.num < 0 then "-" else "") ++ "\\frac\x7b" ++ numerator ++ "\x7d\x7b" ++ denominator ++ "\x7d"

/-- The text of a ratio of two numbers. -/
def ratioText (f : Format) (numerator denominator : String) : Outcome String :=
  match readRatio (trim numerator), readRatio (trim denominator) with
  | .ok n, .ok d => if d.num = 0 then .ok notANumber else f.ratio (n / d)
  | _, _ => .ok notANumber

/-- The text of a number or of a ratio.  Any other text is no number. -/
def numberText (f : Format) (text : String) : Outcome String :=
  let cs := text.toList
  if cs.contains '/' then
    f.ratioText (String.ofList (cs.takeWhile (· ≠ '/'))) (String.ofList ((cs.dropWhile (· ≠ '/')).drop 1))
  else match readDouble text with
    | some x => f.double x
    | none => .ok notANumber

/-- A value that ought to be a number or the text of one. -/
def number (f : Format) (value : Datum) : Outcome String := do
  match value with
  | .text s => f.numberText (trim s)
  | .int n => f.whole n
  | _ => f.double (← value.toDouble)

/-- The text is an unsigned run of digits, perhaps with a point between two of them. -/
def isPlain (latex : String) : Bool :=
  let cs := latex.toList
  let behind := cs.dropWhile Char.isDigit
  !(cs.takeWhile Char.isDigit).isEmpty && match behind with
    | [] => true
    | '.' :: rest => !rest.isEmpty && rest.all Char.isDigit
    | _ => false

end Format

end Formula
