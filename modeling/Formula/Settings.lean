import Formula.Format

/-!
# Settings

The settings of a conversion in three sections: the written form, the limits of the input, and the look of a preview.
Settings come from outside and are kept as they came.  A style changes a few of them on top of the rest.
-/

namespace Formula

/-- The limits of the input. -/
structure Limits where
  /-- The most atoms, nested ones included. -/
  maxAtoms : Datum := .int 10000
  /-- The deepest nesting of scripts, fractions and fences. -/
  maxDepth : Datum := .int 64
  /-- The most characters of a LaTeX source. -/
  maxLatexChars : Datum := .int 20000
deriving Inhabited

namespace Limits

/-- The limits under their names. -/
def entries (l : Limits) : List (String × Datum) :=
  [("max_atoms", l.maxAtoms), ("max_depth", l.maxDepth), ("max_latex_chars", l.maxLatexChars)]

/-- The limits with one set; other names are passed over. -/
def set (l : Limits) (name : String) (value : Datum) : Limits :=
  match name with
  | "max_atoms" => { l with maxAtoms := value }
  | "max_depth" => { l with maxDepth := value }
  | "max_latex_chars" => { l with maxLatexChars := value }
  | _ => l

end Limits

/-- The look of a preview. -/
structure Look where
  fontSize : Datum := .int 48
  dpi : Datum := .int 150
  color : Datum := "black"
  background : Datum := "white"
  /-- The margin above and below, in pixels. -/
  padding : Datum := .int 68
  /-- The width of the canvas, in pixels. -/
  imageWidth : Datum := .int 1920
  /-- The radius of the corners, in pixels. -/
  borderRadius : Datum := .int 0
deriving Inhabited

namespace Look

/-- The options of the look under their names. -/
def entries (l : Look) : List (String × Datum) := [
  ("font_size", l.fontSize), ("dpi", l.dpi), ("color", l.color), ("background", l.background), ("padding", l.padding),
  ("image_width", l.imageWidth), ("border_radius", l.borderRadius)]

/-- The look with one option set; other names are passed over. -/
def set (l : Look) (name : String) (value : Datum) : Look :=
  match name with
  | "font_size" => { l with fontSize := value }
  | "dpi" => { l with dpi := value }
  | "color" => { l with color := value }
  | "background" => { l with background := value }
  | "padding" => { l with padding := value }
  | "image_width" => { l with imageWidth := value }
  | "border_radius" => { l with borderRadius := value }
  | _ => l

end Look

/-- The settings of a conversion. -/
structure Settings where
  format : Format := {}
  limits : Limits := {}
  look : Look := {}
deriving Inhabited

namespace Settings

/-- The options of a section that counts as empty if it is left out. -/
def sectionEntries (entries : List (Datum × Datum)) (name : String) : Outcome (List (Datum × Datum)) :=
  match (Datum.field entries name).orElse (.map []) with
  | .map options => .ok options
  | _ => .error (.sectionNotMapping name)

/-- Sets the options of a section whose names are texts, one after the other. -/
def setAll {α : Type} (set : α → String → Datum → α) (start : α) (options : List (Datum × Datum)) : α :=
  options.foldl (fun s option => match option.1 with
    | .text name => set s name option.2
    | _ => s) start

/-- The settings of a mapping with a mapping for every section.  Other sections and options are passed over. -/
def ofEntries (entries : List (Datum × Datum)) : Outcome Settings := do
  let format ← sectionEntries entries "format"
  let limits ← sectionEntries entries "safety"
  let look ← sectionEntries entries "preview"
  return {
    format := setAll Format.set {} format
    limits := setAll Limits.set {} limits
    look := setAll Look.set {} look }

/-- The settings of a document, which was read from `path`. -/
def ofDocument (path : String) (document : Datum) : Outcome Settings :=
  match document.orElse (.map []) with
  | .map entries => ofEntries entries
  | _ => .error (.configNotMapping path)

/-- A named change of settings. -/
structure Style where
  name : String
  format : List (String × Datum) := []
  look : List (String × Datum) := []

/-- The styles, in the order of their names. -/
def styles : List Style := [
  { name := "compact"
    format := [("group_separator", ""), ("product", ""), ("exponent_marker", "e"), ("precision", .int 10)]
    look := [("font_size", .int 35), ("padding", .int 50), ("image_width", .int 1200)] },
  { name := "default" },
  { name := "engineering"
    format := [("scientific_notation", "engineering"), ("exponent_product", "\\times ")] },
  { name := "eu"
    format := [("decimal_marker", "\x7b,\x7d"), ("group_separator", "\\, "), ("product", "\\cdot ")] }]

/-- The names of the styles. -/
def styleNames : List String := styles.map Style.name

/-- The settings with the options of a style set. -/
def withStyle (s : Settings) (style : Style) : Settings :=
  { s with
    format := style.format.foldl (fun f option => f.set option.1 option.2) s.format
    look := style.look.foldl (fun l option => l.set option.1 option.2) s.look }

/-- The settings with the style of a name. -/
def inStyle (s : Settings) (name : Datum) : Outcome Settings := do
  let key ← name.key
  match styles.find? fun style => key.isText style.name with
  | some style => return s.withStyle style
  | none => throw (.unknownStyle key.shown styleNames)

end Settings

end Formula
