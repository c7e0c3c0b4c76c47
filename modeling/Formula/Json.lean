import Formula.Datum

/-!
# JSON documents

`Json.read` reads a JSON document into a payload value.  The numbers that are none (`NaN`, `Infinity`, `-Infinity`) are
accepted; of several entries of one name the last counts, in the place of the first.  A refusal tells what was expected
and where.
-/

namespace Formula

open Number

namespace Json

/-- Why a document was refused, and what of it begins at the place of the fault. -/
structure Failure where
  reason : String
  behind : List Char

/-- The result of reading the start of the characters: a value and the characters behind it. -/
abbrev Result (α : Type) := Except Failure (α × List Char)

/-- A blank between the parts of a document. -/
def isBlank (c : Char) : Bool := c = ' ' || c = '\t' || c = '\n' || c = '\r'

/-- The characters without the blanks in front. -/
def skipBlanks (cs : List Char) : List Char := cs.dropWhile isBlank

/-- The value of a hexadecimal digit. -/
def hexDigit? (c : Char) : Option Nat :=
  if c.isDigit then some (c.toNat - 48)
  else if 'a' ≤ c ∧ c ≤ 'f' then some (c.toNat - 87)
  else if 'A' ≤ c ∧ c ≤ 'F' then some (c.toNat - 55)
  else none

/-- The number written by four hexadecimal digits. -/
def hexFour? (a b c d : Char) : Option Nat := do
  let a ← hexDigit? a
  let b ← hexDigit? b
  let c ← hexDigit? c
  let d ← hexDigit? d
  return ((a * 16 + b) * 16 + c) * 16 + d

/-- The character that a letter behind a backslash stands for. -/
def escaped? (c : Char) : Option Char :=
  [('"', '"'), ('\\', '\\'), ('/', '/'), ('b', '\x08'), ('f', '\x0c'), ('n', '\n'), ('r', '\r'), ('t', '\t')].lookup c

/-- The first half of a character beyond the first plane. -/
def isHighHalf (n : Nat) : Bool := 0xD800 ≤ n && n ≤ 0xDBFF

/-- The second half of a character beyond the first plane. -/
def isLowHalf (n : Nat) : Bool := 0xDC00 ≤ n && n ≤ 0xDFFF

/-- The character of a number, a replacement character for half a character. -/
def charOf (n : Nat) : Char := if isHighHalf n || isLowHalf n then '\ufffd' else Char.ofNat n

/-- The character of two halves. -/
def joined (high low : Nat) : Char := Char.ofNat (0x10000 + (high - 0xD800) * 1024 + (low - 0xDC00))

/-- The character of an escape whose backslash stands in front of the characters, and how many of them belong to it.
Two escapes of halves make one character. -/
def readEscape (cs : List Char) : Except Failure (Char × Nat) :=
  match cs with
  | 'u' :: a :: b :: c :: d :: e :: rest =>
    match hexFour? a b c d with
    | none => .error ⟨"Invalid \\uXXXX escape", cs⟩
    | some high =>
      match e, rest with
      | '\\', 'u' :: a :: b :: c :: d :: _ :: _ =>
        if isHighHalf high then
          match hexFour? a b c d with
          | none => .error ⟨"Invalid \\uXXXX escape", rest⟩
          | some low =>
            if isLowHalf low then .ok (joined high low, 11)
            else .ok (charOf high, 5)
        else .ok (charOf high, 5)
      | _, _ => .ok (charOf high, 5)
  | 'u' :: _ => .error ⟨"Invalid \\uXXXX escape", cs⟩
  | c :: _ => match escaped? c with
    | some d => .ok (d, 1)
    | none => .error ⟨"Invalid \\escape", '\\' :: cs⟩
  | [] => .error ⟨"Invalid \\escape", ['\\']⟩

/-- Reads the characters of a string behind its opening quote, from which on the document is `start`.  The first `skip`
characters belong to an escape already read, and `read` holds the characters so far in reverse order. -/
def readChars (start : List Char) (read : List Char) : Nat → List Char → Result String
  | _, [] => .error ⟨"Unterminated string starting at", start⟩
  | skip + 1, _ :: rest => readChars start read skip rest
  | 0, c :: rest =>
    if c = '"' then .ok (String.ofList read.reverse, rest)
    else if c = '\\' then
      if rest.isEmpty then .error ⟨"Unterminated string starting at", start⟩
      else match readEscape rest with
        | .ok (d, skip) => readChars start (d :: read) skip rest
        | .error failure => .error failure
    else if c.toNat < 32 then .error ⟨"Invalid control character at", c :: rest⟩
    else readChars start (c :: read) 0 rest

/-- The exponent in front of the characters, with its marker, if it has a digit. -/
def exponentChars (cs : List Char) : List Char :=
  match cs with
  | c :: rest =>
    let sign := match rest with
      | s :: _ => if s = '+' ∨ s = '-' then [s] else []
      | [] => []
    let digits := (rest.drop sign.length).takeWhile Char.isDigit
    if (c = 'e' ∨ c = 'E') ∧ digits ≠ [] then c :: (sign ++ digits) else []
  | [] => []

/-- The fraction in front of the characters, with its point, if it has a digit. -/
def fractionChars (cs : List Char) : List Char :=
  match cs with
  | '.' :: rest => match rest.takeWhile Char.isDigit with
    | [] => []
    | digits => '.' :: digits
  | _ => []

/-- The whole part of a number in front of the characters, which is empty if there is none. -/
def wholeChars (cs : List Char) : List Char :=
  match cs with
  | '0' :: _ => ['0']
  | _ => cs.takeWhile Char.isDigit

/-- Reads a number. -/
def readNumber (cs : List Char) : Except Fault (Option (Datum × List Char)) :=
  let sign := match cs with
    | '-' :: _ => ['-']
    | _ => []
  let rest := cs.drop sign.length
  let whole := wholeChars rest
  let fraction := fractionChars (rest.drop whole.length)
  let exponent := exponentChars (rest.drop (whole.length + fraction.length))
  let behind := rest.drop (whole.length + fraction.length + exponent.length)
  if whole.isEmpty then .ok none
  else if fraction.isEmpty && exponent.isEmpty then
    match readNat whole with
    | .ok n => .ok (some (.int (if sign.isEmpty then (n : Int) else -(n : Int)), behind))
    | .error (.tooLong digits) => .error (.tooManyDigits digits)
    | .error .malformed => .ok none
  else
    match readDouble (String.ofList (sign ++ whole ++ fraction ++ exponent)) with
    | some x => .ok (some (.float x, behind))
    | none => .ok none

/-- The words that are values. -/
def words : List (List Char × Datum) := [
  ("null".toList, .null), ("true".toList, .bool true), ("false".toList, .bool false), ("NaN".toList, .float .nan),
  ("Infinity".toList, .float (.infinite false)), ("-Infinity".toList, .float (.infinite true))]

/-- Reads a word. -/
def readWord (cs : List Char) : Option (Datum × List Char) :=
  (words.find? fun w => w.1.isPrefixOf cs).map fun w => (w.2, cs.drop w.1.length)

/-- The entries of an object with one set, in its old place or at the end. -/
def putEntry (name : String) (value : Datum) : List (Datum × Datum) → List (Datum × Datum)
  | [] => [(.text name, value)]
  | e :: rest => if e.1.isText name then (e.1, value) :: rest else e :: putEntry name value rest

/-- A fault of a document: of its form, or of a number in it. -/
inductive Refusal where
  | form (failure : Failure)
  | number (fault : Fault)

/-- The result of reading a value: the value and the characters behind it. -/
abbrev Read := Except Refusal (Datum × List Char)

/-- A fault of form. -/
def refuse {α : Type} (reason : String) (behind : List Char) : Except Refusal α := .error (.form ⟨reason, behind⟩)

mutual

/-- Reads a value that starts at the first of the characters.  The fuel bounds the number of steps; two for every
character are enough. -/
def readValue : Nat → List Char → Read
  | 0, cs => refuse "Expecting value" cs
  | fuel + 1, cs =>
    match cs with
    | '"' :: rest => match readChars cs [] 0 rest with
      | .ok (s, rest) => .ok (.text s, rest)
      | .error failure => .error (.form failure)
    | '[' :: rest => match skipBlanks rest with
      | ']' :: rest => .ok (.list [], rest)
      | rest => readItems fuel [] rest
    | '\x7b' :: rest => match skipBlanks rest with
      | '\x7d' :: rest => .ok (.map [], rest)
      | rest => readEntries fuel [] rest
    | _ => match readWord cs with
      | some read => .ok read
      | none => match readNumber cs with
        | .ok (some read) => .ok read
        | .ok none => refuse "Expecting value" cs
        | .error fault => .error (.number fault)

/-- Reads the items of an array, behind those read before, which come in reverse order. -/
def readItems : Nat → List Datum → List Char → Read
  | 0, _, cs => refuse "Expecting value" cs
  | fuel + 1, items, cs =>
    match readValue fuel cs with
    | .error refusal => .error refusal
    | .ok (item, rest) => match skipBlanks rest with
      | ']' :: rest => .ok (.list (item :: items).reverse, rest)
      | ',' :: rest => readItems fuel (item :: items) (skipBlanks rest)
      | rest => refuse "Expecting ',' delimiter" rest

/-- Reads the entries of an object, behind those read before. -/
def readEntries : Nat → List (Datum × Datum) → List Char → Read
  | 0, _, cs => refuse "Expecting value" cs
  | fuel + 1, entries, cs =>
    match cs with
    | '"' :: rest => match readChars cs [] 0 rest with
      | .error failure => .error (.form failure)
      | .ok (name, rest) => match skipBlanks rest with
        | ':' :: rest => match readValue fuel (skipBlanks rest) with
          | .error refusal => .error refusal
          | .ok (value, rest) =>
            let entries := putEntry name value entries
            match skipBlanks rest with
            | '\x7d' :: rest => .ok (.map entries, rest)
            | ',' :: rest => readEntries fuel entries (skipBlanks rest)
            | rest => refuse "Expecting ',' delimiter" rest
        | rest => refuse "Expecting ':' delimiter" rest
    | _ => refuse "Expecting property name enclosed in double quotes" cs

end

/-- A fault of form in words: what was expected, and the line, the column and the position of the place. -/
def Failure.message (failure : Failure) (document : List Char) : String :=
  let before := document.take (document.length - failure.behind.length)
  let line := before.count '\n' + 1
  let column := (before.reverse.takeWhile (· ≠ '\n')).length + 1
  s!"{failure.reason}: line {line} column {column} (char {before.length})"

/-- Reads a document. -/
def readDocument (cs : List Char) : Except Refusal Datum := do
  match cs with
  | '\ufeff' :: _ => refuse "Unexpected UTF-8 BOM (decode using utf-8-sig)" cs
  | _ =>
    let (value, rest) ← readValue (2 * cs.length + 2) (skipBlanks cs)
    match skipBlanks rest with
    | [] => return value
    | rest => refuse "Extra data" rest

/-- The value of a JSON document. -/
def read (document : String) : Outcome Datum :=
  match readDocument document.toList with
  | .ok value => .ok value
  | .error (.form failure) => .error (.json (failure.message document.toList))
  | .error (.number fault) => .error fault

end Json

end Formula
