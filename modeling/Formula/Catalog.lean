import Formula.Table
import Formula.Text.Part
import Formula.Catalog.Tables

/-!
# Catalogs

A catalog says what tokens mean: the canonical name of a token, the precedence of an operator, which names are
functions, and how operators, functions and symbols are written.  `Catalog.builtin` is the usual vocabulary.

Names, characters and templates ought to be texts, but a catalog may come from outside and hold other values; whoever
uses one of them checks it.  Lookups whose names end in `Of` take a payload value, which may be no key at all.
-/

namespace Formula

open Text

/-- The meaning and the notation of tokens. -/
structure Catalog where
  /-- Commands of plain symbols, with their characters. -/
  symbols : Table Datum
  /-- Tokens whose canonical name differs from their spelling. -/
  names : Table Datum
  /-- Operators by their canonical names. -/
  precedences : Table Int
  operatorTemplates : Table Datum
  functionTemplates : Table Datum
  functions : List Datum
deriving Inhabited

namespace Catalog

/-- A table of texts under texts. -/
def textTable (entries : List (String × String)) : Table Datum :=
  Table.ofTexts (entries.map fun e => (e.1, .text e.2))

/-- The usual vocabulary. -/
def builtin : Catalog where
  symbols := textTable builtinSymbols
  names := textTable builtinNames
  precedences := Table.ofTexts builtinPrecedences
  operatorTemplates := textTable builtinOperatorTemplates
  functionTemplates := textTable builtinFunctionTemplates
  functions := (commandFunctions ++ namedFunctions ++ builtinFunctionTemplates.map (·.1)).map .text

variable (c : Catalog)

/-! ### Names -/

/-- The name is one of a function. -/
def isFunction (name : Datum) : Bool := c.functions.any fun f => f.same name

/-- The name is one of a function. -/
def isFunctionOf (name : Datum) : Outcome Bool := name.key.map c.isFunction

/-- The command that names a function which is none of the built-in ones, without its closing brace. -/
def operatorNameHead : String := "\\operatorname\x7b"

/-- The name in a command `\operatorname{name}`. -/
def operatorName? (token : String) : Option String :=
  if beginsWith token operatorNameHead && endsWith token "\x7d" then
    some (String.ofList (token.toList.drop operatorNameHead.length).dropLast)
  else none

/-- The name of a function from its command. -/
def functionName? (token : String) : Option String :=
  match token.toList with
  | '\\' :: name =>
    if c.isFunction (.text (String.ofList name)) then some (String.ofList name) else none
  | _ => none

/-- The canonical name of a token without blanks around it. -/
def nameOfTrimmed (token : String) : Datum :=
  match c.names.find? token with
  | some name => name
  | none => match c.symbols.find? token with
    | some char => char
    | none => match operatorName? token with
      | some name => name
      | none => (c.functionName? token).getD token

/-- The canonical name of a token. -/
def canonicalName (token : String) : Datum := c.nameOfTrimmed (trim token)

/-- The canonical name of a token; a value that counts as left out is an empty token. -/
def canonicalNameOf (token : Datum) : Outcome Datum :=
  if token.isVoid then .ok (c.nameOfTrimmed "") else token.trimmed.map c.nameOfTrimmed

/-- The precedence of an operator, by its canonical name. -/
def precedence (name : Datum) : Option Int := c.precedences.find? name

/-- The precedence of an operator. -/
def precedenceOf (name : Datum) : Outcome (Option Int) := name.key.map c.precedence

/-! ### Symbols -/

/-- The command of a symbol, by its character: the first that the catalog lists; null if there is none. -/
def latexForSymbol (char : Datum) : Datum := ((List.find? (fun e => e.2.same char) c.symbols).map (·.1)).getD .null

/-- The command of a symbol. -/
def latexForSymbolOf (char : Datum) : Outcome Datum := char.key.map c.latexForSymbol

/-- The spelling of a symbol: its command, or the symbol itself if it has none. -/
def spelling (symbol : Datum) : Outcome Datum := do return (← c.latexForSymbolOf symbol).orElse symbol

/-- The character of the command of a symbol, null if it is none. -/
def symbolValue (command : Datum) : Datum := (c.symbols.find? command).getD .null

/-- The character of the command of a symbol. -/
def symbolValueOf (command : Datum) : Outcome Datum := command.key.map c.symbolValue

/-! ### Templates -/

/-- How a function without a template is written: by its own command, or else by its name, a long one upright. -/
def plainFunctionTemplate (name : Datum) : Outcome String :=
  if name.text?.any commandFunctions.contains then .ok ("\\" ++ name.shown ++ "%^%_ %")
  else match name.length? with
    | none => .error (.notSized name.kindName)
    | some 1 => .ok (name.shown ++ "%^%_%")
    | some _ => .ok (operatorNameHead ++ name.shown ++ "\x7d%^%_ %")

/-- How a function is written: by its template if it has one. -/
def functionTemplateOf (name : Datum) : Outcome Datum := do
  let name ← name.key
  match c.functionTemplates.find? name with
  | some template => return template
  | none => return .text (← plainFunctionTemplate name)

/-- How an operator is written: by its template, or else by its spelling between its operands. -/
def operatorTemplateOf (name : Datum) : Outcome Datum := do
  let name ← name.key
  match (c.operatorTemplates.find? name).getD .null with
  | .null => return .text ("%0 " ++ (← c.spelling name).shown ++ " %1")
  | template => return template

end Catalog

end Formula
