/-!
# Repeating digits

A tail of a run of digits repeats with a period if every digit of it stands again one period later.  `findRepeat`
looks for the earliest tail that has a short period, and for its shortest period.
-/

namespace Formula

/-- Periods are at most this long. -/
def maxPeriod : Nat := 17

/-- Every digit stands again `period` places later, as far as there are digits. -/
def hasPeriod (digits : List Char) (period : Nat) : Bool := (digits.drop period).isPrefixOf digits

/-- The shortest period that the digits repeat at least twice. -/
def shortestPeriod? (digits : List Char) : Option Nat :=
  ((List.range (min maxPeriod (digits.length / 2))).map (· + 1)).find? (hasPeriod digits)

/-- The place in the first half of the digits from which on they repeat, and their period. -/
def findRepeat (digits : List Char) : Option (Nat × Nat) :=
  (List.range (digits.length / 2 + 1)).findSome? fun offset =>
    (shortestPeriod? (digits.drop offset)).map fun period => (offset, period)

end Formula
