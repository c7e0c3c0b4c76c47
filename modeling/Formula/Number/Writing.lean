import Formula.Number.Shortest

/-!
# Floating-point numbers as text

A number is written with the fewest digits that read back: positional from `10 ^ (-4)` to below `10 ^ 16`, with at
least one digit after the point, and otherwise with an exponent of at least two digits.
-/

namespace Formula.Number

/-- A whole number in decimal. -/
def intText (n : Int) : String :=
  if n < 0 then "-" ++ String.ofList (Nat.toDigits 10 n.natAbs) else String.ofList (Nat.toDigits 10 n.natAbs)

/-- `n` zeros. -/
def zeroChars (n : Nat) : List Char := List.replicate n '0'

/-- Digits with a point in front of place `point`, filled up with zeros. -/
def positional (digits : List Char) (point : Int) : List Char :=
  if point ≤ 0 then '0' :: '.' :: (zeroChars (-point).toNat ++ digits)
  else
    let whole := point.toNat
    if digits.length ≤ whole then digits ++ zeroChars (whole - digits.length) ++ ['.', '0']
    else digits.take whole ++ '.' :: digits.drop whole

/-- Digits with a point behind the first of them and the exponent `e`. -/
def scientific (digits : List Char) (e : Int) : List Char :=
  let mantissa := match digits with
    | [] => []
    | [d] => [d]
    | d :: rest => d :: '.' :: rest
  let places := Nat.toDigits 10 e.natAbs
  let padded := if places.length < 2 then '0' :: places else places
  mantissa ++ 'e' :: (if e < 0 then '-' else '+') :: padded

/-- The text of a positive decimal. -/
def Decimal.chars (d : Decimal) : List Char :=
  let digits := d.digitChars
  let point := digits.length + d.exponent
  if -4 < point ∧ point ≤ 16 then positional digits point else scientific digits (point - 1)

/-- The text of a floating-point number. -/
def Double.text : Double → String
  | .nan => "nan"
  | .infinite negative => if negative then "-inf" else "inf"
  | .finite negative m q =>
    let magnitude := if m = 0 then ['0', '.', '0'] else (Double.shortest m q).chars
    String.ofList (if negative then '-' :: magnitude else magnitude)

end Formula.Number
