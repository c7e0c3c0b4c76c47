import Formula.Text.Range

/-!
# Character references

A character reference names a character by its number, as in `&#955;` and `&#x3bb;`, or by a name, as in `&amp;`.  The
semicolon may be left out.  Numbers of a few control characters stand for others, and some numbers for nothing.
-/

namespace Formula.Text

/-- Characters for the numbers `0x80` to `0x9f`, and for zero and the carriage return. -/
def renumbered : List (Nat × Char) := [
  (0x00, '\ufffd'), (0x0d, '\r'), (0x80, '\u20ac'), (0x81, '\u0081'), (0x82, '\u201a'), (0x83, '\u0192'),
  (0x84, '\u201e'), (0x85, '\u2026'), (0x86, '\u2020'), (0x87, '\u2021'), (0x88, '\u02c6'), (0x89, '\u2030'),
  (0x8a, '\u0160'), (0x8b, '\u2039'), (0x8c, '\u0152'), (0x8d, '\u008d'), (0x8e, '\u017d'), (0x8f, '\u008f'),
  (0x90, '\u0090'), (0x91, '\u2018'), (0x92, '\u2019'), (0x93, '\u201c'), (0x94, '\u201d'), (0x95, '\u2022'),
  (0x96, '\u2013'), (0x97, '\u2014'), (0x98, '\u02dc'), (0x99, '\u2122'), (0x9a, '\u0161'), (0x9b, '\u203a'),
  (0x9c, '\u0153'), (0x9d, '\u009d'), (0x9e, '\u017e'), (0x9f, '\u0178')]

/-- Numbers that stand for nothing, as ranges; in every plane the last two do as well. -/
def voidRanges : List (Nat × Nat) := [(0x1, 0x8), (0xb, 0xb), (0xe, 0x1f), (0x7f, 0x9f), (0xfdd0, 0xfdef)]

/-- The characters of a number. -/
def charsOfNumber (n : Nat) : List Char :=
  match renumbered.lookup n with
  | some c => [c]
  | none =>
    if (0xD800 ≤ n ∧ n ≤ 0xDFFF) ∨ 0x10FFFF < n then ['\ufffd']
    else if inRanges voidRanges n || n % 0x10000 == 0xfffe || n % 0x10000 == 0xffff then []
    else [Char.ofNat n]

/-- References by name. -/
def namedReferences : List (String × Char) := [("amp;", '&'), ("amp", '&'), ("alpha;", 'α')]

/-- The value of a digit in bases up to sixteen. -/
def baseDigit (c : Char) : Nat :=
  if c.isDigit then c.toNat - 48 else if 'a' ≤ c then c.toNat - 87 else c.toNat - 55

/-- A hexadecimal digit. -/
def isHexDigit (c : Char) : Bool := c.isDigit || ('a' ≤ c && c ≤ 'f') || ('A' ≤ c && c ≤ 'F')

/-- The number in front of the characters, in a base with the given digits, and the length of its digits and of a
semicolon behind them. -/
def readNumber? (base : Nat) (isDigit : Char → Bool) (cs : List Char) : Option (Nat × Nat) :=
  match cs.takeWhile isDigit with
  | [] => none
  | digits =>
    let behind := if (cs.drop digits.length).head? = some ';' then 1 else 0
    some (digits.foldl (fun n c => base * n + baseDigit c) 0, digits.length + behind)

/-- A character that may be part of a name. -/
def isNameChar (c : Char) : Bool := !(['\t', '\n', '\x0c', ' ', '<', '&', '#', ';'].contains c)

/-- The name in front of the characters, with a semicolon behind it. -/
def referenceName (cs : List Char) : List Char :=
  let name := (cs.take 32).takeWhile isNameChar
  if (cs.drop name.length).head? = some ';' then name ++ [';'] else name

/-- The longest beginning of a name that is known, and its character. -/
def namedCharacter? (name : List Char) : Option (List Char × Nat) :=
  ((List.range (name.length + 1)).reverse.findSome? fun n =>
    (namedReferences.lookup (String.ofList (name.take n))).map fun c => ([c], n))

/-- The characters of the reference whose ampersand stands in front of the characters, and its length behind that. -/
def reference? (cs : List Char) : Option (List Char × Nat) :=
  match cs with
  | '#' :: rest =>
    match readNumber? 10 Char.isDigit rest with
    | some (n, length) => some (charsOfNumber n, length + 1)
    | none => match rest with
      | x :: rest =>
        if x = 'x' ∨ x = 'X' then
          (readNumber? 16 isHexDigit rest).map fun read => (charsOfNumber read.1, read.2 + 2)
        else none
      | [] => none
  | _ => namedCharacter? (referenceName cs)

/-- The characters with all references replaced; the first `skip` of them belong to a reference already read. -/
def resolveFrom : Nat → List Char → List Char
  | _, [] => []
  | skip + 1, _ :: rest => resolveFrom skip rest
  | 0, c :: rest =>
    if c = '&' then
      match reference? rest with
      | some (chars, length) => chars ++ resolveFrom length rest
      | none => c :: resolveFrom 0 rest
    else c :: resolveFrom 0 rest

/-- The number of digits of the longest decimal number of a reference. -/
def longestReference : List Char → Nat
  | [] => 0
  | c :: rest =>
    let digits := match c, rest with
      | '&', '#' :: number => number.takeWhile Char.isDigit
      | _, _ => []
    max digits.length (longestReference rest)

/-- The text with all character references replaced. -/
def resolveReferences (s : String) : String := String.ofList (resolveFrom 0 s.toList)

end Formula.Text
