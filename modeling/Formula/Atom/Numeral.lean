import Formula.Atom
import Formula.Places

/-!
# Numerals in sequences of atoms

A numeral is a run of atoms: digits, at most one decimal point, commas between digits, and perhaps an exponent marker
with a sign and digits behind it.  It ends at the latest behind an atom that carries scripts.
-/

namespace Formula

namespace Atom

/-- The letters that mark an exponent. -/
def exponentMarkers : List String := ["e", "E", "d", "D"]

/-- The spellings of signs, with the signs. -/
def signs : List (String × String) := [("+", "+"), ("-", "-"), ("−", "-")]

/-- The atom is a digit. -/
def isDigit (a : Atom) : Outcome Bool := do
  if a.type = .ordinary then (← a.text).isOneOf digits else return false

theorem isDigit_of_ne_ordinary {a : Atom} (h : a.type ≠ .ordinary) : a.isDigit = .ok false := if_neg h

/-- The first of the atoms is a digit. -/
def startsWithDigit : List Atom → Outcome Bool
  | [] => .ok false
  | a :: _ => a.isDigit

/-- The atom is a sign, which it writes so. -/
def signOf? (a : Atom) : Outcome (Option String) := do
  if a.type = .binary then (← a.text).lookup signs else return none

theorem signOf?_of_ne_binary {a : Atom} (h : a.type ≠ .binary) : a.signOf? = .ok none := if_neg h

/-- The atoms behind an exponent marker start with a digit, or with a sign and a digit. -/
def startsWithExponent (atoms : List Atom) : Outcome Bool := do
  if ← startsWithDigit atoms then return true
  match atoms with
  | [] => return false
  | a :: rest => match ← a.signOf? with
    | some _ => startsWithDigit rest
    | none => return false

/-- Where in a numeral a scan is: in the mantissa, with or without a point behind it, at the sign of the exponent, or
behind that. -/
inductive NumeralState where
  | mantissa (pointed : Bool)
  | sign
  | exponent
deriving DecidableEq, Repr

/-- What an atom adds to a numeral, and the state behind it; none if the numeral ends before it.  `before` tells whether
the numeral has begun, and `behind` is what follows the atom. -/
def numeralStep (state : NumeralState) (before : Bool) (a : Atom) (behind : List Atom) :
    Outcome (Option (List Char × NumeralState)) := do
  let text ← a.text
  let digit ← a.isDigit
  let marker ← if a.type = .ordinary then text.isOneOf exponentMarkers else pure false
  let chars := (text.text?.getD "").toList
  match state with
  | .mantissa pointed =>
    if digit then return some (chars, state)
    else if a.type = .ordinary && text.isText "." && !pointed then return some (chars, .mantissa true)
    else if text.isText "," && before && (a.type = .punctuation || a.type = .ordinary) then
      if ← startsWithDigit behind then return some ([], state)
      else return none
    else if marker && before && !a.hasScripts then
      if ← startsWithExponent behind then return some (['e'], .sign) else return none
    else return none
  | .sign =>
    match ← a.signOf? with
    | some sign => return some (sign.toList, .exponent)
    | none => return if digit then some (chars, .exponent) else none
  | .exponent => return if digit then some (chars, .exponent) else none

/-- A numeral that was read: its characters, its last atom, and the atoms behind it. -/
structure NumeralReading where
  chars : List Char
  last : Option Atom
  rest : List Atom

/-- Reads on in a numeral, of which `chars` were read in reverse order, up to the atom `last`. -/
def scanNumeralFrom (state : NumeralState) (chars : List Char) (last : Option Atom) :
    List Atom → Outcome NumeralReading
  | [] => .ok ⟨chars.reverse, last, []⟩
  | a :: rest => do
    match ← numeralStep state (!chars.isEmpty) a rest with
    | none => return ⟨chars.reverse, last, a :: rest⟩
    | some (added, next) =>
      if a.hasScripts then return ⟨(added.reverse ++ chars).reverse, some a, rest⟩
      else scanNumeralFrom next (added.reverse ++ chars) (some a) rest

/-- Reads the longest numeral in front of the atoms. -/
def scanNumeral (atoms : List Atom) : Outcome NumeralReading := scanNumeralFrom (.mantissa false) [] none atoms

/-- The characters of the longest numeral at a place of the atoms, and the place behind it. -/
def scanNumeralAt (atoms : List Atom) (place : Int) : Outcome (String × Int) :=
  match Places.onward? atoms place with
  | none => .error .noPlace
  | some row => do
    let read ← scanNumeral row
    return (String.ofList read.chars, place + (row.length - read.rest.length : Nat))

end Atom

end Formula
