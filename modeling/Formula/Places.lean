/-!
# Places from either end

A place in a row of items counts from the start of the row, and below zero from its end.  Whoever goes on from a place
below zero comes to the start of the row behind its end.
-/

namespace Formula.Places

variable {α : Type}

/-- A place as it counts from the start of a row of a length. -/
def fromStart (length : Nat) (place : Int) : Int := if place < 0 then place + length else place

/-- The item at a place. -/
def item? (row : List α) (place : Int) : Option α :=
  let n := fromStart row.length place
  if n < 0 then none else row[n.toNat]?

/-- The items from a place on, none if the row has no such place below zero. -/
def onward? (row : List α) (place : Int) : Option (List α) :=
  let n := fromStart row.length place
  if n < 0 then none
  else some (row.drop n.toNat ++ if place < 0 then row else [])

/-- The items from a place up to another. -/
def between (row : List α) (first last : Int) : List α :=
  (row.take (fromStart row.length last).toNat).drop (fromStart row.length first).toNat

end Formula.Places
