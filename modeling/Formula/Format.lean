import Formula.Datum

/-!
# Formats

How numbers and expressions are written.  The options come from settings and are kept as they came; an option of the
wrong kind shows only where it is used.
-/

namespace Formula

/-- The options of the written form. -/
structure Format where
  /-- The number of significant digits. -/
  precision : Datum := .int 14
  decimalMarker : Datum := "."
  /-- What stands between groups of three digits. -/
  groupSeparator : Datum := "\\, "
  /-- What stands between the factors of a product. -/
  product : Datum := "\\cdot "
  /-- What stands between a number and the power of ten behind it. -/
  exponentProduct : Datum := "\\cdot "
  /-- What stands between a number and its exponent, in place of a power of ten. -/
  exponentMarker : Datum := ""
  /-- When numbers have an exponent: `auto`, `engineering` or `on`. -/
  scientificNotation : Datum := "auto"
  beginRepeat : Datum := "\\overline\x7b"
  endRepeat : Datum := "\x7d"
  /-- What stands behind digits that are not all. -/
  ellipsis : Datum := "\\ldots"
  imaginaryUnit : Datum := "\\mathrm\x7bi\x7d"
  /-- The background of parts of the input without a meaning. -/
  errorColor : Datum := "#F56165"
deriving Inhabited

namespace Format

/-- The options under their names. -/
def entries (f : Format) : List (String × Datum) := [
  ("precision", f.precision), ("decimal_marker", f.decimalMarker), ("group_separator", f.groupSeparator),
  ("product", f.product), ("exponent_product", f.exponentProduct), ("exponent_marker", f.exponentMarker),
  ("scientific_notation", f.scientificNotation), ("begin_repeating_digits", f.beginRepeat),
  ("end_repeating_digits", f.endRepeat), ("ellipsis", f.ellipsis), ("imaginary_unit", f.imaginaryUnit),
  ("error_color", f.errorColor)]

/-- The format with one option set; other names are passed over. -/
def set (f : Format) (name : String) (value : Datum) : Format :=
  match name with
  | "precision" => { f with precision := value }
  | "decimal_marker" => { f with decimalMarker := value }
  | "group_separator" => { f with groupSeparator := value }
  | "product" => { f with product := value }
  | "exponent_product" => { f with exponentProduct := value }
  | "exponent_marker" => { f with exponentMarker := value }
  | "scientific_notation" => { f with scientificNotation := value }
  | "begin_repeating_digits" => { f with beginRepeat := value }
  | "end_repeating_digits" => { f with endRepeat := value }
  | "ellipsis" => { f with ellipsis := value }
  | "imaginary_unit" => { f with imaginaryUnit := value }
  | "error_color" => { f with errorColor := value }
  | _ => f

end Format

end Formula
