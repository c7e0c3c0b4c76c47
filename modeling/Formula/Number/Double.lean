import Formula.Number.Decimal

/-!
# Floating-point numbers of 64 bits

`Double` is the binary format with 53 significant bits, kept as an exact significand and exponent, so that all of its
arithmetic is arithmetic of whole numbers.  `ofRatio` rounds a quotient to the nearest such number (a tie goes to the
even significand); everything that makes a `Double` goes through it.
-/

namespace Formula.Number

/-- A floating-point number: `± significand * 2 ^ exponent`, or one of the special values. -/
inductive Double where
  | nan
  | infinite (negative : Bool)
  | finite (negative : Bool) (significand : Nat) (exponent : Int)
deriving DecidableEq, Repr, Inhabited

namespace Double

/-- The least exponent. -/
def minExponent : Int := -1074

/-- The greatest exponent. -/
def maxExponent : Int := 971

/-- Significands lie below this bound. -/
def significandBound : Nat := twoTo 53

/-- Zero. -/
def zero : Double := .finite false 0 minExponent

/-- `num / den` in units of `2 ^ q`, as a numerator and a denominator. -/
def inUnits (num den : Nat) (q : Int) : Nat × Nat := (num * twoTo (-q).toNat, den * twoTo q.toNat)

/-- The exponent at which `num / den` has a significand of 53 bits. -/
def unitExponent (num den : Nat) : Int :=
  let q : Int := (num.log2 : Int) - den.log2 - 53
  let s := inUnits num den q
  if s.1 / s.2 < significandBound then q else q + 1

/-- The number nearest to `± num / den`. -/
def ofRatio (negative : Bool) (num den : Nat) : Double :=
  if num = 0 then .finite negative 0 minExponent
  else
    let q := max minExponent (unitExponent num den)
    let s := inUnits num den q
    let m := roundDiv .even s.1 s.2
    let r := if m < significandBound then (m, q) else (m / 2, q + 1)
    if r.2 ≤ maxExponent then .finite negative r.1 r.2 else .infinite negative

/-- The number nearest to `± units * 10 ^ exponent`.  Magnitudes from `10 ^ 309` on are infinite and those below
`10 ^ (-324)` are zero, whatever their digits. -/
def ofDecimal (negative : Bool) (d : Decimal) : Double :=
  let magnitude : Int := decimalLength d.units + d.exponent
  if d.units = 0 then .finite negative 0 minExponent
  else if 310 ≤ magnitude then .infinite negative
  else if magnitude ≤ -324 then .finite negative 0 minExponent
  else ofRatio negative (d.units * tenTo d.exponent.toNat) (tenTo (-d.exponent).toNat)

/-- The number nearest to a rational number. -/
def ofRat (r : Rat) : Double := ofRatio (r.num < 0) r.num.natAbs r.den

/-- The number nearest to a whole number. -/
def ofInt (n : Int) : Double := ofRatio (n < 0) n.natAbs 1

/-- The number with the other sign. -/
def neg : Double → Double
  | .nan => .nan
  | .infinite negative => .infinite !negative
  | .finite negative m q => .finite (!negative) m q

/-- The exact value of a finite number. -/
def toRat? : Double → Option Rat
  | .finite negative m q =>
    let magnitude := mkRat (m * twoTo q.toNat : Nat) (twoTo (-q).toNat)
    some (if negative then -magnitude else magnitude)
  | _ => none

/-- The number is positive or negative zero. -/
def isZero : Double → Bool
  | .finite _ m _ => m == 0
  | _ => false

/-- The number is finite and whole. -/
def isInteger (x : Double) : Bool :=
  match x.toRat? with
  | some r => r.den == 1
  | none => false

/-- Comparison of numbers: a zero equals either zero, and nothing is less than or equal to a number that is none. -/
def lt (x y : Double) : Bool :=
  match x, y with
  | .nan, _ => false
  | _, .nan => false
  | .infinite a, .infinite b => a && !b
  | .infinite a, .finite .. => a
  | .finite .., .infinite b => !b
  | x, y => match x.toRat?, y.toRat? with
    | some r, some s => decide (r < s)
    | _, _ => false

/-- Equality of numbers: a zero equals either zero, and the value that is no number equals nothing. -/
def eq (x y : Double) : Bool :=
  match x, y with
  | .infinite a, .infinite b => a == b
  | .finite .., .finite .. => x.toRat? == y.toRat?
  | _, _ => false

/-- The magnitude. -/
def abs : Double → Double
  | .nan => .nan
  | .infinite _ => .infinite false
  | .finite _ m q => .finite false m q

/-- The sum with a whole number, rounded to the nearest. -/
def addInt (x : Double) (n : Int) : Double :=
  match x.toRat? with
  | some r => ofRat (r + n)
  | none => x

end Double

end Formula.Number
