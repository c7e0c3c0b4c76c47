import Formula.Catalog

/-!
# Overrides of a catalog

A payload mapping adds entries to a catalog and replaces entries of it.  Its sections are `symbols`, `canonical`,
`precedence` (where null removes an operator), `operator_templates`, `function_templates` and `functions`.

A section may be written as a list of pairs.  Its values may be of any kind, except that a precedence has to be a number
and that the character of a symbol has to be a key.
-/

namespace Formula

namespace Catalog

/-- Element `index` of a list of entries: a pair, in any of the forms that have elements. -/
def pairOf (index : Nat) (d : Datum) : Outcome (Datum × Datum) :=
  match d.elements with
  | .ok [k, v] => k.key.map fun k => (k, v)
  | .ok items => .error (.shortEntry index items.length)
  | .error _ => .error (.badEntry index)

/-- The entries of the elements of a list, counted from `index`. -/
def pairsOf (index : Nat) : List Datum → Outcome (Table Datum)
  | [] => .ok []
  | d :: rest => do
    let pair ← pairOf index d
    let more ← pairsOf (index + 1) rest
    return pair :: more

/-- The entries of a section that is a table: a mapping or a list of pairs. -/
def tableEntries : Datum → Outcome (Table Datum)
  | .map entries => .ok entries
  | d => do pairsOf 0 (← d.elements)

/-- The table of precedences with an entry of the section set or removed. -/
def mergePrecedence (table : Table Int) (entry : Datum × Datum) : Outcome (Table Int) := do
  if entry.2.isNull then return table.remove entry.1 else return table.put entry.1 (← entry.2.toWhole)

/-- A section of the overrides, an empty mapping if it counts as left out. -/
def sectionOf (entries : List (Datum × Datum)) (name : String) : Datum :=
  (Datum.field entries name).orElse (.map [])

/-- The names that a section adds to the functions. -/
def functionNames (d : Datum) : Outcome (List Datum) := do (← d.elements).mapM Datum.key

/-- Refuses a character of a symbol that is no key. -/
def checkSymbols (c : Catalog) : Outcome Catalog := do
  c.symbols.forM fun e => discard e.2.key
  return c

/-- The catalog with the sections of a mapping. -/
def overrideWith (c : Catalog) (entries : List (Datum × Datum)) : Outcome Catalog := do
  let symbols := c.symbols.putAll (← tableEntries (sectionOf entries "symbols"))
  let names := c.names.putAll (← tableEntries (sectionOf entries "canonical"))
  let precedences ← match sectionOf entries "precedence" with
    | .map changes => changes.foldlM mergePrecedence c.precedences
    | _ => throw .noOperation
  let operatorTemplates := c.operatorTemplates.putAll (← tableEntries (sectionOf entries "operator_templates"))
  let templates := sectionOf entries "function_templates"
  let functionTemplates := c.functionTemplates.putAll (← tableEntries templates)
  let templateNames ← functionNames templates
  let added ← functionNames (sectionOf entries "functions")
  let functions := c.functions ++ templateNames ++ added
  checkSymbols { symbols, names, precedences, operatorTemplates, functionTemplates, functions }

/-- The catalog of the usual vocabulary with overrides, if there are any. -/
def ofOverrides (d : Datum) : Outcome Catalog :=
  if d.isVoid then .ok builtin
  else match d with
    | .map entries => builtin.overrideWith entries
    | _ => .error .noOperation

/-- The catalog of a document of overrides, which was read from `path`. -/
def ofDocument (path : String) (d : Datum) : Outcome Catalog :=
  if d.isVoid then .ok builtin
  else match d with
    | .map entries => builtin.overrideWith entries
    | _ => .error (.catalogNotMapping path)

end Catalog

end Formula
