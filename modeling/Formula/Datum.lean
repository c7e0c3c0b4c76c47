import Formula.Fault
import Formula.Number.Writing
import Formula.Number.Reading
import Formula.Text.Part
import Formula.Text.Quoted

/-!
# Payload values

`Datum` is a value of a decoded JSON or YAML document, or one that a host puts into a tree.  Payloads come from outside
and are kept as they came: a field that ought to hold text may hold any value, and only its use checks it.  This module
has the value type, its two written forms (`shown` inside a text, `literal` on its own), when two values are one key
(`same`), and the checks that the rest of the library uses.
-/

namespace Formula

open Number Text

/-- A value from outside. -/
inductive Datum where
  | null
  | bool (b : Bool)
  | int (n : Int)
  | float (x : Double)
  | text (s : String)
  | list (items : List Datum)
  /-- A fixed row of values, such as the delimiters of a fence. -/
  | tuple (items : List Datum)
  | map (entries : List (Datum × Datum))
  | set (items : List Datum)
  /-- A node of a tree: its kind and its fields. -/
  | record (kind : String) (fields : List (String × Datum))
  /-- A value of another kind, such as a date, by its two written forms. -/
  | other (kind shown literal : String)
deriving Inhabited, Repr

namespace Datum

instance : Coe String Datum := ⟨Datum.text⟩

/-- The name of the kind of a value in messages. -/
def kindName : Datum → String
  | null => "NoneType"
  | bool _ => "bool"
  | int _ => "int"
  | float _ => "float"
  | text _ => "str"
  | list _ => "list"
  | tuple _ => "tuple"
  | map _ => "dict"
  | set _ => "set"
  | record kind _ | other kind _ _ => kind

/-- The last part of the name of the kind of a value. -/
def shortKindName (d : Datum) : String := (d.kindName.splitOn ".").getLastD ""

/-- A value that counts as left out: null, false, zero, and whatever is empty. -/
def isVoid : Datum → Bool
  | null => true
  | bool b => !b
  | int n => n == 0
  | float x => x.isZero
  | text s => s.isEmpty
  | list items | tuple items | set items => items.isEmpty
  | map entries => entries.isEmpty
  | record .. | other .. => false

/-- The value, or `other` in its place if it counts as left out. -/
def orElse (d other : Datum) : Datum := if d.isVoid then other else d

/-- The value is null. -/
def isNull : Datum → Bool
  | null => true
  | _ => false

/-- The value is the text `s`. -/
def isText (d : Datum) (s : String) : Bool :=
  match d with
  | text t => t == s
  | _ => false

theorem eq_text_of_isText {d : Datum} {s : String} (h : d.isText s = true) : d = .text s := by
  cases d with
  | text t => rw [eq_of_beq h]
  | _ => cases h

/-- The text, if the value is one. -/
def text? : Datum → Option String
  | text s => some s
  | _ => none

/-- The value is a whole or floating-point number, or a truth value, which counts as one or zero. -/
def isNumeric : Datum → Bool
  | bool _ | int _ | float _ => true
  | _ => false

mutual

/-- The value as it is written on its own: text in quotes, lists in brackets, rows in parentheses, mappings and sets in
braces, and nodes by their kind and their fields. -/
def literal : Datum → String
  | null => "None"
  | bool b => if b then "True" else "False"
  | int n => intText n
  | float x => x.text
  | text s => quoted s
  | list items => "[" ++ ", ".intercalate (literals items) ++ "]"
  | tuple [d] => "(" ++ d.literal ++ ",)"
  | tuple items => "(" ++ ", ".intercalate (literals items) ++ ")"
  | map entries => "\x7b" ++ ", ".intercalate (entryLiterals entries) ++ "\x7d"
  | set [] => "set()"
  | set items => "\x7b" ++ ", ".intercalate (literals items) ++ "\x7d"
  | record kind fields => kind ++ "(" ++ ", ".intercalate (fieldLiterals fields) ++ ")"
  | other _ _ literal => literal

/-- The written forms of the values of a list. -/
def literals : List Datum → List String
  | [] => []
  | d :: rest => d.literal :: literals rest

/-- The written forms of the entries of a mapping. -/
def entryLiterals : List (Datum × Datum) → List String
  | [] => []
  | (k, v) :: rest => (k.literal ++ ": " ++ v.literal) :: entryLiterals rest

/-- The written forms of the fields of a node. -/
def fieldLiterals : List (String × Datum) → List String
  | [] => []
  | (name, v) :: rest => (name ++ "=" ++ v.literal) :: fieldLiterals rest

end

/-- The value inside a text: text as it is, any other value in its written form. -/
def shown : Datum → String
  | text s => s
  | other _ shown _ => shown
  | d => d.literal

/-! ### Keys -/

mutual

/-- The kind of the first list, mapping or set in a value, which keeps the value from being a key. -/
def looseKind? : Datum → Option String
  | list _ => some "list"
  | map _ => some "dict"
  | set _ => some "set"
  | tuple items => looseKindIn? items
  | record _ fields => looseKindOf? fields
  | _ => none

/-- The kind of the first list, mapping or set in a row of values. -/
def looseKindIn? : List Datum → Option String
  | [] => none
  | d :: rest => (d.looseKind?).or (looseKindIn? rest)

/-- The kind of the first list, mapping or set in the fields of a node. -/
def looseKindOf? : List (String × Datum) → Option String
  | [] => none
  | (_, d) :: rest => (d.looseKind?).or (looseKindOf? rest)

end

/-- The value as a key of a table: lists, mappings and sets are none, nor is what holds them. -/
def key (d : Datum) : Outcome Datum :=
  match d.looseKind? with
  | some kind => .error (.notKey kind)
  | none => .ok d

/-- The number one or zero for a truth value. -/
def ofBool (b : Bool) : Int := if b then 1 else 0

/-- The number, if the value is a whole one or a truth value. -/
def whole? : Datum → Option Int
  | bool b => some (ofBool b)
  | int n => some n
  | _ => none

/-- Two numbers are equal, whatever their kinds. -/
def sameNumber (d e : Datum) : Bool :=
  match d, e with
  | float x, float y => x.eq y
  | float x, e => match x.toRat?, e.whole? with
    | some r, some n => r == (n : Rat)
    | _, _ => false
  | d, float y => match d.whole?, y.toRat? with
    | some n, some r => r == (n : Rat)
    | _, _ => false
  | d, e => match d.whole?, e.whole? with
    | some m, some n => m == n
    | _, _ => false

mutual

/-- Two values are the same key.  Truth values and numbers of all kinds are the same if they are equal. -/
def same : Datum → Datum → Bool
  | null, e => match e with
    | null => true
    | _ => false
  | text s, e => match e with
    | text t => s == t
    | _ => false
  | tuple items, e => match e with
    | tuple others => sameEach items others
    | _ => false
  | record kind fields, e => match e with
    | record otherKind others => kind == otherKind && sameFields fields others
    | _ => false
  | other kind _ literal, e => match e with
    | other otherKind _ otherLiteral => kind == otherKind && literal == otherLiteral
    | _ => false
  | d, e => sameNumber d e

/-- The values of two rows are the same keys. -/
def sameEach : List Datum → List Datum → Bool
  | [], others => others.isEmpty
  | d :: rest, others => match others with
    | [] => false
    | e :: more => d.same e && sameEach rest more

/-- The fields of two nodes are the same keys. -/
def sameFields : List (String × Datum) → List (String × Datum) → Bool
  | [], others => others.isEmpty
  | (_, d) :: rest, others => match others with
    | [] => false
    | (_, e) :: more => d.same e && sameFields rest more

end

/-- The entry of a mapping under a text. -/
def field? (entries : List (Datum × Datum)) (name : String) : Option Datum :=
  (entries.find? fun e => e.1.isText name).map (·.2)

/-- The entry of a mapping under a text, null if it has none. -/
def field (entries : List (Datum × Datum)) (name : String) : Datum := (field? entries name).getD null

/-- The entry of a table of texts under a value; values other than text have none. -/
def lookup {α : Type} (table : List (String × α)) (d : Datum) : Outcome (Option α) :=
  d.key.map fun d => d.text?.bind fun s => table.lookup s

/-- The value is one of the given texts. -/
def isOneOf (names : List String) (d : Datum) : Outcome Bool :=
  d.key.map fun d => d.text?.any names.contains

/-! ### Parts -/

/-- The number of parts of a value: characters, items or entries. -/
def length? : Datum → Option Nat
  | text s => some s.length
  | list items | tuple items | set items => some items.length
  | map entries => some entries.length
  | _ => none

/-- The elements of a value: the items of a list, the characters of a text, the keys of a mapping. -/
def elements : Datum → Outcome (List Datum)
  | list items | tuple items | set items => .ok items
  | text s => .ok (s.toList.map fun c => text c.toString)
  | map entries => .ok (entries.map (·.1))
  | d => .error (.notIterable d.kindName)

/-- The value holds a text: as a part of a text, or as an item. -/
def holdsText (part : String) (d : Datum) : Outcome Bool :=
  match d with
  | text s => .ok (holds s part)
  | list items | tuple items | set items => .ok (items.any fun item => item.isText part)
  | map entries => .ok (entries.any fun e => e.1.isText part)
  | _ => .error (.notContainer d.kindName)

/-- The first character of a text, the first item of a list, or the entry of a mapping under zero. -/
def first : Datum → Outcome Datum
  | text s => match s.toList with
    | c :: _ => .ok (text c.toString)
    | [] => .error .noEntry
  | list (d :: _) | tuple (d :: _) => .ok d
  | list [] | tuple [] => .error .noEntry
  | map entries => match entries.find? fun e => e.1.same (int 0) with
    | some e => .ok e.2
    | none => .error .noEntry
  | d => .error (.notIndexable d.kindName)

/-! ### Texts -/

/-- The value without the blanks around it, if it is text. -/
def trimmed (d : Datum) : Outcome String :=
  match d with
  | text s => .ok (trim s)
  | _ => .error .noOperation

/-- A text with a value behind it. -/
def appendTo (s : String) (d : Datum) : Outcome String :=
  match d with
  | text t => .ok (s ++ t)
  | _ => .error (.notAppendable "str" d.kindName)

/-- A value with a text behind it. -/
def append (d : Datum) (s : String) : Outcome String :=
  match d with
  | text t => .ok (t ++ s)
  | list _ | tuple _ => .error (.notAppendable d.kindName "str")
  | _ => .error (.notCombinable "+" d.kindName "str")

/-! ### Numbers -/

/-- The floating-point number nearest to a whole number, if it is not too large. -/
def wholeToDouble (n : Int) : Outcome Double :=
  match Double.ofInt n with
  | .infinite _ => .error .wholeToFloat
  | x => .ok x

/-- The value as a floating-point number: a number, or the text of one. -/
def toDouble (d : Datum) : Outcome Double :=
  match d with
  | bool b => .ok (Double.ofInt (ofBool b))
  | int n => wholeToDouble n
  | float x => .ok x
  | text s => match readDouble s with
    | some x => .ok x
    | none => .error (.unreadableNumber (quoted s))
  | _ => .error (.notNumber d.kindName)

/-- The whole part of a rational number, toward zero. -/
def wholePart (r : Rat) : Int := Int.tdiv r.num r.den

/-- The value as a whole number: a number without its fraction, or the text of a whole number. -/
def toWhole (d : Datum) : Outcome Int :=
  match d with
  | bool b => .ok (ofBool b)
  | int n => .ok n
  | float x => match x with
    | .nan => .error .notANumberToWhole
    | .infinite _ => .error .infinityToWhole
    | x => .ok (((x.toRat?).map wholePart).getD 0)
  | text s => match readInt s with
    | .ok n => .ok n
    | .error .malformed => .error (.unreadableWhole 10 (quoted s))
    | .error (.tooLong digits) => .error (.tooManyDigits digits)
  | _ => .error (.notWhole d.kindName)

/-- The value is less than the natural number `n`. -/
def isBelow (d : Datum) (n : Nat) : Outcome Bool :=
  match d with
  | bool b => .ok (decide (ofBool b < n))
  | int m => .ok (decide (m < n))
  | float x => match x with
    | .nan => .ok false
    | .infinite negative => .ok negative
    | x => .ok (decide ((x.toRat?).getD 0 < (n : Rat)))
  | _ => .error (.notComparable ">" "int" d.kindName)

/-- The value is the number one. -/
def isOne : Datum → Bool
  | bool b => b
  | int n => n == 1
  | float x => x.eq (Double.ofInt 1)
  | _ => false

end Datum

end Formula
