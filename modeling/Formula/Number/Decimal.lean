import Formula.Number.Power
import Formula.Number.Rounding

/-!
# Decimal numbers

An exact decimal is a natural number of units times a power of ten.  `round` keeps a number of significant digits,
`normalize` drops the zeros at the end, and `digitChars` spells the units out.
-/

namespace Formula.Number

/-- The magnitude `units * 10 ^ exponent`. -/
structure Decimal where
  units : Nat
  exponent : Int
deriving DecidableEq, Repr, Inhabited

namespace Decimal

/-- The digits of the units, the leading one first. -/
def digitChars (d : Decimal) : List Char := Nat.toDigits 10 d.units

/-- The value as a rational number. -/
def toRat (d : Decimal) : Rat :=
  if 0 ≤ d.exponent then ((d.units * tenTo d.exponent.toNat : Nat) : Rat)
  else mkRat d.units (tenTo (-d.exponent).toNat)

/-- Two decimals name the same number. -/
def same (a b : Decimal) : Bool :=
  let low := min a.exponent b.exponent
  a.units * tenTo (a.exponent - low).toNat == b.units * tenTo (b.exponent - low).toNat

/-- The decimal rounded to `places` significant digits. -/
def round (tie : Tie) (places : Nat) (d : Decimal) : Decimal :=
  let surplus := decimalLength d.units - places
  if surplus = 0 then d else ⟨roundDiv tie d.units (tenTo surplus), d.exponent + surplus⟩

/-- Drops at most `fuel` zeros from the end of the units. -/
def stripZeros : Nat → Decimal → Decimal
  | 0, d => d
  | fuel + 1, d => if d.units % 10 = 0 then stripZeros fuel ⟨d.units / 10, d.exponent + 1⟩ else d

/-- The same number without zeros at the end of the units; zero has exponent zero. -/
def normalize (d : Decimal) : Decimal :=
  if d.units = 0 then ⟨0, 0⟩ else stripZeros (decimalLength d.units) d

/-- A decimal with few digits is not rounded. -/
theorem round_of_length_le {tie : Tie} {places : Nat} {d : Decimal} (h : decimalLength d.units ≤ places) :
    d.round tie places = d := by
  have : decimalLength d.units - places = 0 := by omega
  simp [round, this]

end Decimal

end Formula.Number
