import Formula.CommandLine.Arguments
import Formula.CommandLine.Help
import Formula.Convert
import Formula.Expr.Outline
import Formula.Files.Document
import Formula.Preview

/-!
# The command line

One run of the command: its words and the files that it can see give a report of all that it prints and writes.  Faults
of the input are part of the report; only a fault that no input should cause ends a run without one.
-/

namespace Formula.CommandLine

open Text

/-- What a run prints, writes and answers. -/
structure Report where
  /-- Zero after success, one if the input is at fault, two if the words of the command line are. -/
  code : Nat := 0
  output : String := ""
  errors : String := ""
  warnings : List String := []
  written : List (Path × Preview.Picture) := []

/-- The report of a run that the input put an end to. -/
def failure (message : String) (warnings : List String) : Report := { code := 1, errors := message ++ "\n", warnings }

/-- A fault of the input, as against a fault of the program. -/
def isInputFault (f : Fault) : Bool :=
  match f.kind with
  | .value | .type | .file | .markup => true
  | _ => false

/-- A fault that only spoils a preview. -/
def isPreviewFault (f : Fault) : Bool :=
  match f.kind with
  | .value | .drawing | .depth | .file => true
  | _ => false

/-- An input that has been read. -/
structure Input where
  settings : Settings
  tree : Expr
  warnings : List String

/-- Reads the input that the arguments name. -/
def Arguments.input (a : Arguments) (files : Files) : Outcome Input := do
  let settings ← match a.config with
    | some path => files.settings path
    | none => pure {}
  let settings ← settings.inStyle a.style
  let source ← match a.file with
    | some path => files.atoms path
    | none => pure (.text (a.expression.getD ""))
  let tree ← parseInput settings.limits .builtin source
  return ⟨settings, tree, ← tree.warnings⟩

/-- The LaTeX of an input. -/
def Input.latex (i : Input) : Outcome String := i.tree.latex i.settings.format .builtin

/-- A report with a preview of LaTeX, which is written to a path. -/
def Report.withPreview (r : Report) (files : Files) (look : Look) (latex : String) (path : Path) : Outcome Report :=
  let picture := do
    let picture ← Preview.draw look latex
    files.checkWrite path
    return picture
  match picture with
  | .ok picture => .ok { r with
      errors := r.errors ++ s!"Written → {path.text}" ++ "\n"
      written := r.written ++ [(path, picture)] }
  | .error f =>
    if isPreviewFault f then .ok { r with warnings := r.warnings ++ ["Preview rendering failed: " ++ f.message] }
    else .error f

/-- The report on an input that has been read: its outline or its LaTeX, and a preview if one is asked for. -/
def Arguments.reportOn (a : Arguments) (files : Files) (input : Input) : Outcome Report :=
  let warnings := if a.outline then [] else input.warnings
  match if a.outline then .ok (input.tree.outline 0) else input.latex with
  | .error f => if isInputFault f then .ok (failure ("Conversion failed: " ++ f.message) warnings) else .error f
  | .ok output =>
    let report : Report := { output := output ++ "\n", warnings }
    match a.preview with
    | none => .ok report
    | some path =>
      if a.outline then do
        let latex ← input.latex
        { report with warnings := input.warnings }.withPreview files input.settings.look latex path
      else report.withPreview files input.settings.look output path

/-- The report of a run with the given arguments. -/
def Arguments.report (a : Arguments) (files : Files) : Outcome Report := do
  if a.expression.isNone = a.file.isNone then
    return failure "Error: give either an expression or --file." []
  if let some path := a.file then
    if !(← files.hasPlace path) then return failure s!"Error: '{path.text}' not found." []
  match a.input files with
  | .error f => if isInputFault f then return failure ("Conversion failed: " ++ f.message) [] else throw f
  | .ok input => a.reportOn files input

/-- The report of a run with the given words. -/
def run (files : Files) (texts : List String) : Outcome Report :=
  match Arguments.ofTexts texts with
  | .ok a => a.report files
  | .error .help => .ok { output := help }
  | .error (.fault f) => .ok { code := 2, errors := usage ++ "mathtree: error: " ++ f.message ++ "\n" }

end Formula.CommandLine
