/-!
# Rounding a quotient

The nearest whole number to a quotient of natural numbers, with the rule for a quotient half way between two of them
as a parameter.  All rounding of the library goes through `roundDiv`.
-/

namespace Formula.Number

/-- What happens to a quotient half way between two whole numbers. -/
inductive Tie where
  /-- It goes to the larger of them. -/
  | up
  /-- It goes to the even one of them. -/
  | even
deriving DecidableEq, Repr

/-- A remainder of exactly half the divisor moves the quotient `q` to `q + 1`. -/
def Tie.moves (tie : Tie) (q : Nat) : Bool :=
  match tie with
  | .up => true
  | .even => q % 2 == 1

/-- The whole number nearest to `num / den`. -/
def roundDiv (tie : Tie) (num den : Nat) : Nat :=
  let q := num / den
  let r := num % den
  if 2 * r < den then q else if den < 2 * r then q + 1 else if tie.moves q then q + 1 else q

/-- A quotient that comes out even stays as it is. -/
theorem roundDiv_mul (tie : Tie) (q den : Nat) (h : 0 < den) : roundDiv tie (q * den) den = q := by
  simp [roundDiv, Nat.mul_div_cancel q h, h]

/-- Rounding gives the quotient cut off or the one above it. -/
theorem roundDiv_bounds (tie : Tie) (num den : Nat) :
    num / den ≤ roundDiv tie num den ∧ roundDiv tie num den ≤ num / den + 1 := by
  simp only [roundDiv]
  split
  · omega
  · split
    · omega
    · split <;> omega

/-- The number of decimal digits of `n`; zero has one. -/
def decimalLength (n : Nat) : Nat := (Nat.toDigits 10 n).length

end Formula.Number
