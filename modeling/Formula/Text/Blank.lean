import Formula.Text.Range

/-!
# Blank characters and trimming

The blank characters: spaces of every width, tabs, line and paragraph ends, and the four information separators
`U+001C` to `U+001F`.  `trim` removes them from both ends of a text.
-/

namespace Formula.Text

/-- The blank characters as ranges of code points. -/
def blankRanges : List (Nat × Nat) := [
  (0x9, 0xD), (0x1C, 0x20), (0x85, 0x85), (0xA0, 0xA0), (0x1680, 0x1680), (0x2000, 0x200A), (0x2028, 0x2029),
  (0x202F, 0x202F), (0x205F, 0x205F), (0x3000, 0x3000)]

/-- A blank character. -/
def isBlank (c : Char) : Bool := inRanges blankRanges c.toNat

/-- The characters without the blanks at both ends. -/
def trimChars (cs : List Char) : List Char :=
  ((cs.dropWhile isBlank).reverse.dropWhile isBlank).reverse

/-- The text without the blanks at both ends. -/
def trim (s : String) : String := String.ofList (trimChars s.toList)

/-- The text holds no character but blanks. -/
def allBlank (s : String) : Bool := s.toList.all isBlank

end Formula.Text
