/-!
# Faults

What can go wrong, as causes.  `Fault.kind` sorts them by what a caller does about them, and `Fault.message` words
them.  Names of kinds of values in messages are those of `Datum.kindName`.
-/

namespace Formula

/-- The sorts of faults that callers tell apart. -/
inductive FaultKind where
  /-- A value of the right kind that is not acceptable. -/
  | value
  /-- A value of the wrong kind. -/
  | type
  /-- An operation that a value does not have. -/
  | operation
  /-- An entry that a mapping does not have. -/
  | entry
  /-- A place that a sequence does not have. -/
  | place
  /-- A number too large for the result. -/
  | overflow
  /-- Nesting too deep to follow. -/
  | depth
  /-- A text that is no YAML document. -/
  | markup
  /-- A file that cannot be opened. -/
  | file
  /-- A formula that cannot be drawn. -/
  | drawing
  /-- A picture that cannot be written. -/
  | encoding
  /-- A picture too large to be held. -/
  | memory
deriving DecidableEq, Repr

/-- The causes of failure. -/
inductive Fault where
  /-- Atoms were expected, and the value is no sequence. -/
  | notAtomSequence
  /-- An item of a sequence of atoms is no mapping. -/
  | notAtom (kind : String)
  | unknownAtomType (shown : String)
  | unknownAtomFields (names : List String)
  /-- The value cannot be looked up in a table. -/
  | notKey (kind : String)
  /-- The value has no such operation. -/
  | noOperation
  /-- The mapping has no such entry. -/
  | noEntry
  /-- The sequence has no such place. -/
  | noPlace
  | notIndexable (kind : String)
  | notIterable (kind : String)
  | notContainer (kind : String)
  | notSized (kind : String)
  /-- Part `index` of a text to be joined is no text. -/
  | notTextPart (index : Nat) (kind : String)
  /-- A value other than text behind a text, or other than a list behind a list. -/
  | notAppendable (first second : String)
  /-- Two values that an operation does not combine. -/
  | notCombinable (symbol first second : String)
  /-- Two values without an order. -/
  | notComparable (symbol first second : String)
  | notNumber (kind : String)
  | notWhole (kind : String)
  | notReplaceable (kind : String)
  /-- The value ought to be a text to search. -/
  | notSearchable (kind : String)
  | wrongFence
  | unreadableNumber (shown : String)
  /-- A text that is no whole number in a base. -/
  | unreadableWhole (base : Nat) (shown : String)
  /-- A text of a whole number with too many digits to be read. -/
  | tooManyDigits (digits : Nat)
  /-- A whole number with too many digits to be written. -/
  | tooLongToWrite
  | notANumberToWhole
  | infinityToWhole
  | wholeToFloat
  | ratioToFloat
  | shortEntry (index length : Nat)
  | badEntry (index : Nat)
  | controlCharacters
  | latexNotText
  | latexTooLong (limit : String)
  | groupsTooDeep (deepest : Nat) (limit : String)
  | tooManyAtoms (total : Nat) (limit : String)
  | atomsTooDeep (deepest : Nat) (limit : String)
  /-- Recursion reached its limit. -/
  | recursion
  | latexRecursion
  | parseRecursion
  | unknownStyle (name : String) (known : List String)
  | sectionNotMapping (name : String)
  | configNotMapping (path : String)
  | catalogNotMapping (path : String)
  | badConfig
  | noAtomList (path : String)
  | unknownColor (shown : String)
  | longColor
  | notColor
  /-- The side of a picture is no whole number. -/
  | notSide (kind : String)
  | negativeSize
  /-- A whole number too large for a size. -/
  | sizeTooLarge
  /-- A picture with rows too long to be held. -/
  | rowTooLong
  /-- A number that is no code point of a character. -/
  | noCharacter
  /-- A number too large for a code point. -/
  | codeTooLarge
  | yearOutOfRange (year : Nat)
  | monthOutOfRange
  | dayOutOfRange
  | hourOutOfRange
  | minuteOutOfRange
  | secondOutOfRange
  /-- A time zone a day or more away. -/
  | zoneOutOfRange (shown : String)
  /-- More significant digits than a number can be rounded to. -/
  | tooPrecise
  /-- A picture without pixels cannot be written. -/
  | noPixels
  /-- A picture without pixels along an axis has no corners. -/
  | noCorners (axis : String)
  | json (text : String)
  | yaml (text : String)
  | isDirectory (path : String)
  | notDirectory (path : String)
  | noSuchFile (path : String)
  | nameTooLong (path : String)
  /-- The file is no text. -/
  | notText (path : String)
  | noDrawing
deriving DecidableEq, Repr

namespace Fault

/-- The sort of a fault. -/
def kind : Fault → FaultKind
  | notAtomSequence | notAtom .. | notKey .. | notIndexable .. | notIterable .. | notContainer .. | notSized ..
  | notTextPart .. | notAppendable .. | notCombinable .. | notComparable .. | notNumber .. | notWhole ..
  | notReplaceable .. | notSearchable .. | wrongFence | badEntry .. | latexNotText | badConfig | notColor
  | notSide .. => .type
  | noOperation => .operation
  | noEntry => .entry
  | noPlace => .place
  | infinityToWhole | wholeToFloat | ratioToFloat | sizeTooLarge | codeTooLarge => .overflow
  | recursion => .depth
  | yaml _ => .markup
  | isDirectory _ | notDirectory _ | noSuchFile _ | nameTooLong _ => .file
  | noDrawing => .drawing
  | noPixels => .encoding
  | rowTooLong => .memory
  | unknownAtomType .. | unknownAtomFields .. | unreadableNumber .. | unreadableWhole .. | tooManyDigits ..
  | tooLongToWrite | notANumberToWhole | shortEntry .. | controlCharacters | latexTooLong .. | groupsTooDeep ..
  | tooManyAtoms .. | atomsTooDeep .. | latexRecursion | parseRecursion | unknownStyle .. | sectionNotMapping ..
  | configNotMapping .. | catalogNotMapping .. | noAtomList .. | unknownColor .. | longColor | negativeSize
  | tooPrecise | noCorners _ | notText _ | json _ | noCharacter | yearOutOfRange _ | monthOutOfRange | dayOutOfRange
  | hourOutOfRange | minuteOutOfRange | secondOutOfRange | zoneOutOfRange _ => .value

/-- The first characters of a written form that may be long. -/
def shortened (shown : String) : String := String.ofList (shown.toList.take 200)

/-- The wording of a fault. -/
def message : Fault → String
  | notAtomSequence => "atoms must be a sequence of atoms or mappings."
  | notAtom kind => s!"Cannot build an atom from {kind}."
  | unknownAtomType shown => s!"Unknown atom type: {shown}"
  | unknownAtomFields names => "Unknown atom field(s): " ++ ", ".intercalate names
  | notKey kind => s!"unhashable type: '{kind}'"
  | noOperation => "no such operation"
  | noEntry => "no such entry"
  | noPlace => "no such place"
  | notIndexable kind => s!"'{kind}' object is not subscriptable"
  | notIterable kind => s!"'{kind}' object is not iterable"
  | notContainer kind => s!"argument of type '{kind}' is not iterable"
  | notSized kind => s!"object of type '{kind}' has no len()"
  | notTextPart index kind => s!"sequence item {index}: expected str instance, {kind} found"
  | notAppendable first second => s!"can only concatenate {first} (not \"{second}\") to {first}"
  | notCombinable symbol first second =>
    s!"unsupported operand type(s) for {symbol}: '{first}' and '{second}'"
  | notComparable symbol first second =>
    s!"'{symbol}' not supported between instances of '{first}' and '{second}'"
  | notNumber kind => s!"float() argument must be a string or a real number, not '{kind}'"
  | notWhole kind => s!"int() argument must be a string, a bytes-like object or a real number, not '{kind}'"
  | notReplaceable kind => s!"replace() argument 1 must be str, not {kind}"
  | notSearchable kind => s!"expected string or bytes-like object, got '{kind}'"
  | wrongFence => "a fence has two glyphs"
  | unreadableNumber shown => s!"could not convert string to float: {shown}"
  | unreadableWhole base shown => s!"invalid literal for int() with base {base}: " ++ shortened shown
  | tooManyDigits digits => s!"Exceeds the limit (4300 digits) for integer string conversion: value has {digits} " ++
      "digits; use sys.set_int_max_str_digits() to increase the limit"
  | tooLongToWrite => "Exceeds the limit (4300 digits) for integer string conversion; " ++
      "use sys.set_int_max_str_digits() to increase the limit"
  | notANumberToWhole => "cannot convert float NaN to integer"
  | infinityToWhole => "cannot convert float infinity to integer"
  | wholeToFloat => "int too large to convert to float"
  | ratioToFloat => "integer division result too large for a float"
  | shortEntry index length =>
    s!"dictionary update sequence element #{index} has length {length}; 2 is required"
  | badEntry index => s!"cannot convert dictionary update sequence element #{index} to a sequence"
  | controlCharacters => "LaTeX input contains invalid control characters"
  | latexNotText => "latex must be a string."
  | latexTooLong limit => s!"LaTeX input exceeds {limit} characters."
  | groupsTooDeep deepest limit => s!"LaTeX input nests {deepest} groups deep; the limit is {limit}."
  | tooManyAtoms total limit => s!"Input has {total} atoms; the limit is {limit}."
  | atomsTooDeep deepest limit => s!"Input nests {deepest} levels deep; the limit is {limit}."
  | recursion => "maximum recursion depth exceeded"
  | latexRecursion => "LaTeX input nests too deeply."
  | parseRecursion => "Input nests too deeply to parse."
  | unknownStyle name known => s!"Unknown style '{name}'. Available: " ++ ", ".intercalate known
  | sectionNotMapping name => s!"Config section '{name}' must be a mapping."
  | configNotMapping path => s!"Config file must contain a mapping: {path}"
  | catalogNotMapping path => s!"Catalog file must contain a mapping: {path}"
  | badConfig => "config must be None, Config, dict-like mapping, or a config file path."
  | noAtomList path => s!"'{path}' must contain a list of atoms."
  | unknownColor shown => s!"unknown color specifier: {shown}"
  | longColor => "color specifier is too long"
  | notColor => "color must be int or tuple"
  | notSide kind => s!"'{kind}' object cannot be interpreted as an integer"
  | negativeSize => "Width and height must be >= 0"
  | tooPrecise => "valid range for prec is [1, MAX_PREC]"
  | sizeTooLarge => "signed integer is greater than maximum"
  | rowTooLong => "the rows of the picture are too long"
  | noCharacter => "chr() arg not in range(0x110000)"
  | codeTooLarge => "the number is too large for a code point"
  | yearOutOfRange year => s!"year {year} is out of range"
  | monthOutOfRange => "month must be in 1..12"
  | dayOutOfRange => "day is out of range for month"
  | hourOutOfRange => "hour must be in 0..23"
  | minuteOutOfRange => "minute must be in 0..59"
  | secondOutOfRange => "second must be in 0..59"
  | zoneOutOfRange shown => "offset must be a timedelta strictly between -timedelta(hours=24) and " ++
      s!"timedelta(hours=24), not {shown}."
  | noPixels => "tile cannot extend outside image"
  | noCorners axis => s!"{axis}1 must be greater than or equal to {axis}0"
  | json text => text
  | yaml text => text
  | isDirectory path => s!"[Errno 21] Is a directory: {path}"
  | notDirectory path => s!"[Errno 20] Not a directory: {path}"
  | noSuchFile path => s!"[Errno 2] No such file or directory: {path}"
  | nameTooLong path => s!"[Errno 36] File name too long: {path}"
  | notText path => s!"the file is no text: {path}"
  | noDrawing => "only blank formulas can be drawn"

end Fault

/-- Results that may fail. -/
abbrev Outcome := Except Fault

namespace Outcome

variable {α β : Type}

/-- A step with a value behind it had one in front. -/
theorem bind_eq_ok {r : Outcome α} {s : α → Outcome β} {w : β} : (r >>= s) = .ok w ↔ ∃ v, r = .ok v ∧ s v = .ok w := by
  constructor
  · intro h
    cases r with
    | ok v => exact ⟨v, rfl, h⟩
    | error f => cases h
  · rintro ⟨v, rfl, h⟩
    exact h

theorem map_eq_ok {r : Outcome α} {g : α → β} {w : β} : Except.map g r = .ok w ↔ ∃ v, r = .ok v ∧ g v = w := by
  constructor
  · intro h
    cases r with
    | ok v => exact ⟨v, rfl, Except.ok.inj h⟩
    | error f => cases h
  · rintro ⟨v, rfl, rfl⟩
    rfl

end Outcome

end Formula
