import Formula.Number.Double

/-!
# The shortest decimal that reads back

`Double.shortest` finds, for a positive finite number, the decimal with the fewest digits that rounds to it, and among
those the nearest.  The reals that round to `m * 2 ^ q` form an interval around it, which holds its ends iff `m` is
even.  For each number of digits only the two neighbours on the decimal grid have to be tried.
-/

namespace Formula.Number

namespace Double

/-- The interval of reals that round to `m * 2 ^ q`, over the common denominator `den`. -/
structure Interval where
  low : Nat
  value : Nat
  high : Nat
  den : Nat
  closed : Bool
deriving Repr

/-- The rounding interval of `m * 2 ^ q`.  Below the least significand the neighbours are half as far away. -/
def interval (m : Nat) (q : Int) : Interval :=
  let unit := twoTo (q - 2).toNat
  let below := if m = twoTo 52 ∧ minExponent < q then 1 else 2
  ⟨(4 * m - below) * unit, 4 * m * unit, (4 * m + 2) * unit, twoTo (2 - q).toNat, m % 2 == 0⟩

/-- `units * 10 ^ exponent` lies in the interval. -/
def Interval.holds (i : Interval) (units : Nat) (exponent : Int) : Bool :=
  let x := units * tenTo exponent.toNat * i.den
  let scale := tenTo (-exponent).toNat
  if i.closed then i.low * scale ≤ x && x ≤ i.high * scale else i.low * scale < x && x < i.high * scale

/-- The least `k` with `value < 10 ^ k`. -/
def Interval.magnitude (i : Interval) : Int :=
  if i.den ≤ i.value then decimalLength (i.value / i.den)
  else
    let j := decimalLength (i.den / i.value) - 1
    if i.value * tenTo j = i.den then 1 - j else -j

/-- The nearest decimal with `places` digits in the interval, if there is one. -/
def Interval.candidate (i : Interval) (places : Nat) : Option Decimal :=
  let exponent : Int := i.magnitude - places
  let num := i.value * tenTo (-exponent).toNat
  let den := i.den * tenTo exponent.toNat
  let near := roundDiv .even num den
  let floor := num / den
  let far := if near = floor then floor + 1 else floor
  if i.holds near exponent then some ⟨near, exponent⟩
  else if i.holds far exponent then some ⟨far, exponent⟩
  else none

/-- The first hit among the next `fuel` numbers of digits, from `places` on. -/
def Interval.search (i : Interval) : Nat → Nat → Decimal
  | 0, places => ⟨roundDiv .even (i.value * tenTo (places - i.magnitude).toNat)
      (i.den * tenTo (i.magnitude - places).toNat), i.magnitude - places⟩
  | fuel + 1, places => match i.candidate places with
    | some d => d
    | none => i.search fuel (places + 1)

/-- The shortest decimal that rounds to `m * 2 ^ q`, for positive `m`; seventeen digits always do. -/
def shortest (m : Nat) (q : Int) : Decimal := ((interval m q).search 16 1).normalize

end Double

end Formula.Number
