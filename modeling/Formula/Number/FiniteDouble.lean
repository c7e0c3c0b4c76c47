import Formula.Number.Double

/-!
# Arithmetic of finite numbers

A finite floating-point number is kept as its exact value.  Each operation computes the exact result and rounds it
once, to the nearest number that a `Double` holds, so that the order of operations can be seen in the last digit.  The
sign of a zero is not kept.
-/

namespace Formula.Number

/-- A finite floating-point number. -/
structure FiniteDouble where
  /-- The exact value. -/
  value : Rat
deriving DecidableEq, Repr, Inhabited

namespace FiniteDouble

/-- The number nearest to a ratio.  A ratio beyond all finite numbers stays as it is. -/
def ofRat (r : Rat) : FiniteDouble := ⟨((Double.ofRat r).toRat?).getD r⟩

instance (n : Nat) : OfNat FiniteDouble n := ⟨ofRat n⟩

instance : Add FiniteDouble := ⟨fun x y => ofRat (x.value + y.value)⟩

instance : Sub FiniteDouble := ⟨fun x y => ofRat (x.value - y.value)⟩

instance : Mul FiniteDouble := ⟨fun x y => ofRat (x.value * y.value)⟩

instance : Div FiniteDouble := ⟨fun x y => ofRat (x.value / y.value)⟩

instance : LT FiniteDouble := ⟨fun x y => x.value < y.value⟩

instance : LE FiniteDouble := ⟨fun x y => x.value ≤ y.value⟩

instance (x y : FiniteDouble) : Decidable (x < y) := inferInstanceAs (Decidable (x.value < y.value))

instance (x y : FiniteDouble) : Decidable (x ≤ y) := inferInstanceAs (Decidable (x.value ≤ y.value))

/-- The greatest whole number that is not greater. -/
def floor (x : FiniteDouble) : Int := x.value.floor

/-- What a number has above its floor.  For a negative number next to zero this is one. -/
def aboveFloor (x : FiniteDouble) : FiniteDouble := ofRat (x.value - x.floor)

/-- The whole part, toward zero. -/
def wholePart (x : FiniteDouble) : Int := Int.tdiv x.value.num x.value.den

end FiniteDouble

end Formula.Number
