import Formula.Catalog.Overrides
import Formula.Files
import Formula.Json
import Formula.Settings
import Formula.Yaml

/-!
# Documents in files

Settings, overrides of a catalog and payloads of atoms that come from files.  A file that is not there leaves settings
and catalog as they are without it.  Payloads are JSON if the name of the file says so, and YAML otherwise.
-/

namespace Formula

open Text

namespace Files

/-- The settings of a file. -/
def settings (f : Files) (p : Path) : Outcome Settings := do
  match ← f.read p with
  | none => return {}
  | some content => Settings.ofDocument p.text (← Yaml.read content)

/-- The settings that a value stands for: null, a mapping, or the path of a file. -/
def settingsOf (f : Files) (d : Datum) : Outcome Settings :=
  match d with
  | .null => .ok {}
  | .map entries => Settings.ofEntries entries
  | .text path => f.settings (Path.ofText path)
  | _ => .error .badConfig

/-- The catalog with the overrides of a file. -/
def catalog (f : Files) (p : Path) : Outcome Catalog := do
  match ← f.read p with
  | none => return .builtin
  | some content => Catalog.ofDocument p.text (← Yaml.read content)

/-- The list of atoms in a document: the document itself, or its entry `atoms`. -/
def atomList (path : String) (document : Datum) : Outcome Datum :=
  let payload := match document with
    | .map entries => (Datum.field? entries "atoms").getD document
    | _ => document
  match payload with
  | .list _ => .ok payload
  | _ => .error (.noAtomList path)

/-- The payload of atoms in a file. -/
def atoms (f : Files) (p : Path) : Outcome Datum := do
  match ← f.read p with
  | none => throw (.noSuchFile (quoted p.text))
  | some content =>
    let document ← if p.extension = ".json" then Json.read content else Yaml.read content
    atomList p.text document

end Files

end Formula
