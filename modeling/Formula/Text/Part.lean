/-!
# Parts of texts

Whether a text begins or ends with another, holds another, and what it is with every occurrence of another replaced.
-/

namespace Formula.Text

/-- The text begins with `head`. -/
def beginsWith (s head : String) : Bool := head.toList.isPrefixOf s.toList

/-- The text ends with `tail`. -/
def endsWith (s tail : String) : Bool := tail.toList.isSuffixOf s.toList

/-- The characters `part` stand somewhere in a row. -/
def holdsChars (part : List Char) : List Char → Bool
  | [] => part.isEmpty
  | c :: rest => part.isPrefixOf (c :: rest) || holdsChars part rest

/-- The text holds `part`. -/
def holds (s part : String) : Bool := holdsChars part.toList s.toList

/-- The characters with every occurrence of `old`, from left to right, replaced; the first `skip` characters belong to
an occurrence already replaced. -/
def replaceChars (old new : List Char) : Nat → List Char → List Char
  | _, [] => []
  | skip + 1, _ :: rest => replaceChars old new skip rest
  | 0, c :: rest =>
    if old.isPrefixOf (c :: rest) then new ++ replaceChars old new (old.length - 1) rest
    else c :: replaceChars old new 0 rest

/-- The text with every occurrence of `old` replaced by `new`.  An empty text occurs around every character. -/
def replaceAll (s old new : String) : String :=
  if old.isEmpty then String.ofList (new.toList ++ s.toList.flatMap fun c => c :: new.toList)
  else String.ofList (replaceChars old.toList new.toList 0 s.toList)

end Formula.Text
