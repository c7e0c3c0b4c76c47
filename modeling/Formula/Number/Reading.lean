import Formula.Number.Double
import Formula.Text.Blank
import Formula.Text.Digit

/-!
# Numbers from text

Three readers: whole numbers (`readInt`), floating-point numbers (`readDouble`) and exact ratios (`readRatio`).  All
accept blanks around the number, the decimal digits of every script, and a single underscore between two digits.
-/

namespace Formula.Number

open Formula.Text

/-- Decimal digits of other scripts replaced by the ordinary ones. -/
def plainDigits (cs : List Char) : List Char :=
  cs.map fun c => match digitValue? c with
    | some v => Nat.digitChar v
    | none => c

/-- The value of a list of digits. -/
def digitsToNat (cs : List Char) : Nat := cs.foldl (fun n c => 10 * n + (c.toNat - 48)) 0

/-- Drops the underscores, each of which has to stand between two digits; `before` tells of a digit in front. -/
def dropUnderscores (before : Bool) : List Char → Option (List Char)
  | [] => some []
  | '_' :: c :: rest =>
    if before && c.isDigit then (dropUnderscores true rest).map (c :: ·) else none
  | c :: rest => if c = '_' then none else (dropUnderscores c.isDigit rest).map (c :: ·)

/-- A sign in front of the rest: whether it is a minus, and the rest. -/
def takeSign : List Char → Bool × List Char
  | '-' :: rest => (true, rest)
  | '+' :: rest => (false, rest)
  | cs => (false, cs)

/-- A blank that may stand around a number: any but the information separators. -/
def isNumberBlank (c : Char) : Bool := isBlank c && !(0x1C ≤ c.toNat && c.toNat ≤ 0x1F)

/-- The characters between the blanks, with ordinary digits. -/
def numberChars (s : String) : List Char :=
  plainDigits ((s.toList.dropWhile isNumberBlank).reverse.dropWhile isNumberBlank).reverse

/-- Texts of whole numbers with more digits than this are refused. -/
def maxIntDigits : Nat := 4300

/-- Why a text is no whole number. -/
inductive IntFailure where
  /-- The text has another form. -/
  | malformed
  /-- The text has more digits than `maxIntDigits`. -/
  | tooLong (digits : Nat)
deriving DecidableEq, Repr

/-- A run of at least one digit. -/
def readNat (cs : List Char) : Except IntFailure Nat :=
  if cs.isEmpty || !cs.all Char.isDigit then .error .malformed
  else if maxIntDigits < cs.length then .error (.tooLong cs.length)
  else .ok (digitsToNat cs)

/-- A whole number. -/
def readInt (s : String) : Except IntFailure Int :=
  let signed := takeSign (numberChars s)
  match dropUnderscores false signed.2 with
  | none => .error .malformed
  | some cs => (readNat cs).map fun n => if signed.1 then -(n : Int) else n

/-- The exponent of a decimal numeral: its sign and its digits, none if it is left out. -/
structure Exponent where
  negative : Bool
  digits : List Char
deriving Repr

/-- The value of an exponent. -/
def Exponent.value (e : Exponent) : Int := if e.negative then -(digitsToNat e.digits : Int) else digitsToNat e.digits

/-- The parts of a decimal numeral: digits before and after the point, and the exponent. -/
structure Numeral where
  whole : List Char
  fraction : List Char
  exponent : Exponent
deriving Repr

/-- The exponent behind the marker `e`, which has at least one digit. -/
def readExponent : List Char → Option Exponent
  | [] => some ⟨false, []⟩
  | c :: rest =>
    if c = 'e' ∨ c = 'E' then
      let signed := takeSign rest
      if signed.2.isEmpty || !signed.2.all Char.isDigit then none else some ⟨signed.1, signed.2⟩
    else none

/-- A decimal numeral: digits, at most one point, at least one digit, and perhaps an exponent. -/
def readNumeral (cs : List Char) : Option Numeral :=
  let whole := cs.takeWhile Char.isDigit
  let rest := cs.dropWhile Char.isDigit
  let pointed : List Char × List Char := match rest with
    | '.' :: more => (more.takeWhile Char.isDigit, more.dropWhile Char.isDigit)
    | _ => ([], rest)
  if whole.isEmpty && pointed.1.isEmpty then none
  else (readExponent pointed.2).map fun e => ⟨whole, pointed.1, e⟩

/-- The exact value of a numeral. -/
def Numeral.toDecimal (n : Numeral) : Decimal :=
  ⟨digitsToNat (n.whole ++ n.fraction), n.exponent.value - n.fraction.length⟩

/-- The words for the values that are no finite numbers. -/
def specialWord? (negative : Bool) (cs : List Char) : Option Double :=
  let word := String.ofList (cs.map Char.toLower)
  if word = "inf" ∨ word = "infinity" then some (.infinite negative)
  else if word = "nan" then some .nan
  else none

/-- A floating-point number: the one nearest to the decimal that is written, or one of the special values. -/
def readDouble (s : String) : Option Double :=
  match dropUnderscores false (numberChars s) with
  | none => none
  | some cs =>
    let signed := takeSign cs
    match specialWord? signed.1 signed.2 with
    | some x => some x
    | none => (readNumeral signed.2).map fun n => .ofDecimal signed.1 n.toDecimal

/-- Why a text is no ratio. -/
inductive RatioFailure where
  | malformed
  | zeroDenominator
deriving DecidableEq, Repr

/-- A run of digits for `readRatio`, of which an empty one counts as zero. -/
def ratioPart (cs : List Char) : Except RatioFailure Nat :=
  if cs.isEmpty then .ok 0
  else match readNat cs with
    | .ok n => .ok n
    | .error _ => .error .malformed

/-- The value `whole.fraction * 10 ^ exponent` of a numeral as a ratio. -/
def Numeral.toRatio (n : Numeral) : Except RatioFailure Rat := do
  let whole ← ratioPart n.whole
  let fraction ← ratioPart n.fraction
  let exponent ← ratioPart n.exponent.digits
  let scale := tenTo n.fraction.length
  let up := if n.exponent.negative then 1 else tenTo exponent
  let down := if n.exponent.negative then tenTo exponent else 1
  return mkRat ((whole * scale + fraction) * up : Nat) (scale * down)

/-- An exact ratio: a decimal numeral, or two whole numbers with a slash between them. -/
def readRatio (s : String) : Except RatioFailure Rat :=
  match dropUnderscores false (plainDigits (trimChars s.toList)) with
  | none => .error .malformed
  | some cs =>
    let signed := takeSign cs
    let signOf (r : Rat) : Rat := if signed.1 then -r else r
    let head := signed.2.takeWhile (· ≠ '/')
    match signed.2.dropWhile (· ≠ '/') with
    | [] => match readNumeral signed.2 with
      | none => .error .malformed
      | some n => n.toRatio.map signOf
    | _ :: tail => match readNat head, readNat tail with
      | .ok n, .ok d => if d = 0 then .error .zeroDenominator else .ok (signOf (mkRat n d))
      | _, _ => .error .malformed

end Formula.Number
