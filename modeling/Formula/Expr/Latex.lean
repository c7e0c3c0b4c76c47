import Formula.Catalog
import Formula.Expr
import Formula.Format.Number
import Formula.Format.Template
import Formula.Text.Reference

/-!
# Expressions as LaTeX

`Expr.latex` writes an expression as LaTeX.  Parentheses appear where the tree would otherwise be read differently: an
operand whose operator binds less tight than the one around it, a node of several parts that carries scripts, and an
argument that is more than a symbol or a number.

A node that cannot be written, because a label of it has the wrong kind, is written as nothing, and what stands beside
it stays (`guarded`).
-/

namespace Formula

open Number Text

namespace Expr

/-- Nothing in place of a node that cannot be written.  A number too large for the result is still a fault. -/
def guarded (written : Outcome String) : Outcome String :=
  match written with
  | .ok s => .ok s
  | .error fault => match fault.kind with
    | .value | .type | .operation | .entry => .ok ""
    | _ => .error fault

/-- The text in parentheses. -/
def parenthesized (s : String) : String := "(" ++ s ++ ")"

/-- The text in parentheses if the node around it carries scripts. -/
def parenthesizedIf (decorated : Bool) (s : String) : String := if decorated then parenthesized s else s

/-- A group between braces. -/
def braced (s : String) : String := "\x7b" ++ s ++ "\x7d"

/-! ### Fences -/

/-- How a delimiter is written. -/
def delimiterLatex : Datum → Outcome String
  | .text "\x7b" => .ok "\\\x7b"
  | .text "\x7d" => .ok "\\\x7d"
  | .text "." => .ok ""
  | .text s => .ok s
  | d => do throw (.notAppendable "str" (← d.key).kindName)

/-- The delimiters of a fence.  Those that are left out are parentheses. -/
def delimitersOf (glyphs : List Datum) : Outcome (Datum × Datum) :=
  match glyphs with
  | [] => .ok ("(", ")")
  | [left] => .ok (left, ")")
  | [left, right] => .ok (left, right)
  | _ => .error .wrongFence

/-- The delimiters of a fence, which may come as a text of two characters. -/
def fenceDelimiters (fence : Datum) : Outcome (Datum × Datum) := do delimitersOf (← fence.elements)

/-- A text in a fence. -/
def inFence (fence : Datum) (body : String) : Outcome String := do
  let (left, right) ← fenceDelimiters fence
  let left ← delimiterLatex left
  let right ← delimiterLatex right
  return Format.join [left, body, right]

/-! ### Questions about operands -/

/-- The text with the separators of digits taken out and a point for the decimal marker. -/
def plainDigitsOf (f : Format) (text : String) : Outcome String := do
  let text ← if f.groupSeparator.isVoid then pure text else match f.groupSeparator with
    | .text s => pure (replaceAll text s "")
    | d => throw (.notReplaceable d.kindName)
  match f.decimalMarker with
  | .text s => return replaceAll text s "."
  | d => throw (.notReplaceable d.kindName)

/-- A symbol or an unsigned number without scripts, which needs no parentheses anywhere. -/
def isSimple (f : Format) : Expr → Outcome Bool
  | missing => .ok false
  | foreign _ | tuple _ => .error .noOperation
  | symbol _ _ s t => .ok (s.isMissing && t.isMissing)
  | number value s t =>
    if s.isMissing && t.isMissing then do
      return Format.isPlain (← plainDigitsOf f (← f.number value))
    else .ok false
  | _ => .ok false

/-- The precedence of an operation without scripts, other than one written as a fraction. -/
def precedence (c : Catalog) : Expr → Outcome (Option Int)
  | binary op _ _ s t =>
    if op.isText "/" || !(s.isMissing && t.isMissing) then .ok none
    else (c.precedenceOf op).map fun p => some (p.getD 0)
  | _ => .ok none

/-- The operators whose right operand may not hold another operator of their precedence. -/
def isSubtractive (op : Datum) : Bool := op.isText "-" || op.isText "+-" || op.isText "-+"

/-- An operand, in parentheses if its own operator binds less tight than the one around it. -/
def operandLatex (own : Option Int) (around : Int) (right : Bool) (op : Datum) (text : String) : String :=
  match own with
  | none => text
  | some own => parenthesizedIf (own < around || (right && own == around && isSubtractive op)) text

/-- An operation without scripts, other than one written as a fraction. -/
def isPlainOperation : Expr → Bool
  | binary op _ _ s t => !op.isText "/" && s.isMissing && t.isMissing
  | _ => false

/-- The names of trigonometric functions and their inverses. -/
def trigonometric : List String :=
  ["", "ar", "arc"].flatMap fun head =>
    ["sin", "cos", "tan", "cot", "sec", "csc"].flatMap fun name => [head ++ name, head ++ name ++ "h"]

/-- Functions whose argument needs no fence if it is simple. -/
def looseFunctions : List String :=
  trigonometric ++ [
    "factorial", "factorial2", "ln", "log", "lb", "dagger", "dagger2", "prime", "prime2", "backprime", "backprime2",
    "maltese", "degree", "curl", "div", "$", "%", "_"]

/-- An argument that needs no fence behind a function of that kind. -/
def isBareArgument (f : Format) : Expr → Outcome Bool
  | symbol .. | fraction .. => .ok true
  | number value _ _ => do return !beginsWith (← f.number value) "-"
  | binary op _ _ _ _ => .ok (op.isText "/")
  | root _ index _ _ => .ok index.isMissing
  | _ => .ok false

/-! ### Leaves -/

/-- A number, in parentheses if it carries scripts and is more than digits. -/
def numberLatex (f : Format) (value : Datum) (decorated : Bool) : Outcome String := do
  let text ← f.number value
  return parenthesizedIf (decorated && (beginsWith text "-" || holds text "\\")) text

/-- Commands of the variants of symbols. -/
def variantCommands : List (String × String) := [
  ("normal", "\\mathrm"), ("double-struck", "\\mathbb"), ("bold", "\\mathbf"), ("script", "\\mathscr"),
  ("fraktur", "\\mathfrak"), ("sans-serif", "\\mathsf"), ("monospace", "\\mathtt")]

/-- The name of a symbol with its references to characters resolved.  A row of values that holds the start of a
reference, but not its first sign, stays as it is. -/
def resolvedName (name : Datum) : Outcome Datum := do
  if ← name.holdsText "&#" then
    match name with
    | .text s =>
      let digits := longestReference s.toList
      if maxIntDigits < digits then throw (.tooManyDigits digits) else return .text (resolveReferences s)
    | d => if ← d.holdsText "&" then throw (.notSearchable d.kindName) else return d
  else return name

/-- A symbol by its command or its character, in its variant. -/
def symbolLatex (c : Catalog) (name variant : Datum) : Outcome Datum := do
  let latex ← c.spelling (← resolvedName name)
  match ← (variant.orElse "").lookup variantCommands with
  | some command => return .text (command ++ braced latex.shown)
  | none => return latex

/-- The least magnitude of a part of a complex number. -/
def tolerance : Double := .ofDecimal false ⟨1, -14⟩

/-- The magnitude is too small to be written. -/
def isTiny : Datum → Outcome Bool
  | .bool b => .ok !b
  | .int n => .ok (n == 0)
  | .float x => .ok (x.abs.lt tolerance)
  | d => .error (.notNumber d.kindName)

/-- The number with a whole number added. -/
def plus (d : Datum) (n : Int) : Datum :=
  match d with
  | .bool b => .int (Datum.ofBool b + n)
  | .int m => .int (m + n)
  | .float x => .float (x.addInt n)
  | d => d

/-- A part of a complex number, or zero if it is too small. -/
def partOrZero (d : Datum) : Outcome Datum := do
  return if ← isTiny d then .float .zero else d

/-- The imaginary part of a complex number with its unit. -/
def imaginaryLatex (f : Format) (im : Datum) : Outcome Datum := do
  if im.isVoid then return ""
  else if ← isTiny (plus im (-1)) then return f.imaginaryUnit
  else if ← isTiny (plus im 1) then return .text (← Datum.appendTo "-" f.imaginaryUnit)
  else return .text (← Datum.appendTo (← f.number im) f.imaginaryUnit)

/-- A complex number with its scripts; a sum of two parts stands in parentheses if it is raised. -/
def complexLatex (f : Format) (re im : Datum) (raised : Bool) (scripts : Outcome String) : Outcome String := do
  let re ← partOrZero re
  let im ← partOrZero im
  let real ← if re.isVoid then pure "" else f.number re
  let imaginary : Datum ← imaginaryLatex f im
  if !real.isEmpty && !imaginary.isVoid then
    match imaginary with
    | Datum.text s =>
      let sum := if beginsWith s "-" then real ++ s else real ++ "+" ++ s
      return parenthesizedIf raised sum ++ (← scripts)
    | _ => throw .noOperation
  else if !real.isEmpty then return real ++ (← scripts)
  else Datum.append (imaginary.orElse "0") (← scripts)

/-! ### Nodes of several parts -/

/-- The scripts behind a node, of which those that are there are given. -/
def scriptsLatex (sup sub : Option (Outcome String)) : Outcome String := do
  let below ← match sub with
    | none => pure ""
    | some written => do pure ("_" ++ braced (← written))
  let above ← match sup with
    | none => pure ""
    | some written => do pure ("^" ++ braced (← written))
  return below ++ above

/-- A fraction with its scripts. -/
def fractionLatex (decorated : Bool) (numerator denominator scripts : Outcome String) : Outcome String := do
  let numerator ← numerator
  let denominator ← denominator
  return parenthesizedIf decorated ("\\frac" ++ braced numerator ++ braced denominator) ++ (← scripts)

/-- A root with its scripts, of which the index is given if it is there. -/
def rootLatex (radicand : Outcome String) (index : Option (Outcome String)) (scripts : Outcome String) :
    Outcome String := do
  let radicand ← radicand
  let index ← match index with
    | none => pure ""
    | some written => do pure ("[" ++ (← written) ++ "]")
  return "\\sqrt" ++ index ++ braced radicand ++ (← scripts)

/-- The sign between two factors: a dot where they would else be read as one number. -/
def productSign (f : Format) (left right : String) : Outcome String := do
  let sign ← match f.product with
    | .text s => pure s
    | _ => throw .noOperation
  let digitsMeet := (left.toList.getLast?.any isDigitLike) && (right.toList.head?.any isDigitLike)
  return if allBlank sign && digitsMeet then "\\cdot " else sign

/-- A template, which has to be a text. -/
def templateChars : Datum → Outcome (List Char)
  | .text s => .ok s.toList
  | d => .error (.notSearchable d.kindName)

/-- Two operands with their operator. -/
def operationLatex (f : Format) (c : Catalog) (op : Datum) (left right : String) : Outcome String := do
  if op.isText "*" then return Format.join [left, ← productSign f left right, right]
  else
    let template ← templateChars (← c.operatorTemplateOf op)
    return String.ofList (Format.fillOperator left.toList right.toList template)

/-- An operation with its scripts. -/
def binaryLatex (f : Format) (c : Catalog) (op : Datum) (left right : Expr) (decorated : Bool)
    (leftText rightText scripts : Outcome String) : Outcome String := do
  if op.isText "/" then fractionLatex decorated leftText rightText scripts
  else
    let around := (← c.precedenceOf op).getD 0
    let leftText ← leftText
    let leftText := operandLatex (← left.precedence c) around false op leftText
    let rightText ← rightText
    let rightText := operandLatex (← right.precedence c) around true op rightText
    let text ← operationLatex f c op leftText rightText
    return parenthesizedIf decorated text ++ (← scripts)

/-- Operators in front of an operand that are commands. -/
def signCommands : List (String × String) := [("+-", "\\pm "), ("-+", "\\mp ")]

/-- An operand with an operator in front and its scripts. -/
def unaryLatex (op : Datum) (operand : Expr) (decorated : Bool) (text scripts : Outcome String) : Outcome String := do
  let text ← text
  let text := parenthesizedIf operand.isPlainOperation text
  match ← op.key with
  | .text s =>
    return parenthesizedIf decorated (Format.join [(signCommands.lookup s).getD s, text]) ++ (← scripts)
  | d => throw (.notAppendable "str" d.kindName)

/-- A group with its scripts; what needs no parentheses has no fence. -/
def groupLatex (f : Format) (inner : Expr) (fence : Datum) (text scripts : Outcome String) : Outcome String := do
  let text ← text
  let text ← if ← inner.isSimple f then pure text else inFence fence text
  return text ++ (← scripts)

/-- The argument of a function in its fence, or without one where none is needed. -/
def argumentLatex (f : Format) (name template : Datum) (argument : Expr) (fence : Datum) (text : Outcome String) :
    Outcome String := do
  let text ← text
  match template with
  | .text template => if Format.enclosesArgument template then return text
  | _ => throw .noOperation
  match name with
  | .text name =>
    if looseFunctions.contains name then
      if ← isBareArgument f argument then return text else inFence fence text
    else inFence fence text
  | d => throw (.notSearchable d.kindName)

/-- The arguments of a function in its fence. -/
def argumentsLatex (fence : Datum) (texts : List (Outcome String)) : Outcome String := do
  inFence fence (", ".intercalate (← texts.mapM id))

/-- A function with its argument and its scripts, which stand at their places in the template or behind it. -/
def callLatex (template : Datum) (argument : Outcome String) (sup sub : Option (Outcome String)) :
    Outcome String := do
  let argument ← argument
  let above ← scriptsLatex sup none
  let below ← scriptsLatex none sub
  let template ← templateChars template
  let text := Format.fillFunction argument.toList above.toList below.toList false template
  return String.ofList text ++ (if holdsChars ['%', '_'] template then "" else below) ++
    (if holdsChars ['%', '^'] template then "" else above)

/-- A base with its exponent. -/
def powerLatex (f : Format) (base : Expr) (decorated : Bool) (baseText exponentText scripts : Outcome String) :
    Outcome String := do
  let baseText ← baseText
  let baseText := if ← base.isSimple f then baseText else parenthesized baseText
  let exponentText ← exponentText
  return parenthesizedIf decorated (baseText ++ "^" ++ braced exponentText) ++ (← scripts)

/-- The parts of a call of the power function: the base and the texts of the base and of the exponent. -/
def powerParts? (name : Datum) (argument : Expr) (texts : List (Outcome String)) :
    Option (Expr × Outcome String × Outcome String) :=
  match argument, texts with
  | tuple [base, _], [baseText, exponentText] => if name.isText "pow" then some (base, baseText, exponentText) else none
  | _, _ => none

/-- A script that is there. -/
def present (e : Expr) (text : Outcome String) : Option (Outcome String) := if e.isMissing then none else some text

mutual

/-- The expression as LaTeX. -/
def latex (f : Format) (c : Catalog) : Expr → Outcome String
  | missing | foreign _ | tuple _ => .ok ""
  | number value s t => guarded do
    let text ← numberLatex f value (!s.isMissing || !t.isMissing)
    return text ++ (← scriptsLatex (present s (latex f c s)) (present t (latex f c t)))
  | symbol name variant s t => guarded do
    let text ← symbolLatex c name variant
    text.append (← scriptsLatex (present s (latex f c s)) (present t (latex f c t)))
  | text content s t => guarded do
    return "\\text" ++ braced content.shown ++
      (← scriptsLatex (present s (latex f c s)) (present t (latex f c t)))
  | group inner fence s t =>
    guarded (groupLatex f inner fence (latex f c inner)
      (scriptsLatex (present s (latex f c s)) (present t (latex f c t))))
  | binary op left right s t =>
    guarded (binaryLatex f c op left right (!s.isMissing || !t.isMissing) (latex f c left) (latex f c right)
      (scriptsLatex (present s (latex f c s)) (present t (latex f c t))))
  | unary op operand s t =>
    guarded (unaryLatex op operand (!s.isMissing || !t.isMissing) (latex f c operand)
      (scriptsLatex (present s (latex f c s)) (present t (latex f c t))))
  | call name argument fence s t => guarded do
    let texts := match argument with
      | tuple items => latexEach f c items
      | _ => []
    match powerParts? name argument texts with
    | some (base, baseText, exponentText) =>
      powerLatex f base (!s.isMissing || !t.isMissing) baseText exponentText
        (scriptsLatex (present s (latex f c s)) (present t (latex f c t)))
    | none =>
      let template ← c.functionTemplateOf name
      let text := match argument with
        | tuple _ => argumentsLatex fence texts
        | _ => argumentLatex f name template argument fence (latex f c argument)
      callLatex template text (present s (latex f c s)) (present t (latex f c t))
  | fraction numerator denominator s t =>
    guarded (fractionLatex (!s.isMissing || !t.isMissing) (latex f c numerator) (latex f c denominator)
      (scriptsLatex (present s (latex f c s)) (present t (latex f c t))))
  | root radicand index s t =>
    guarded (rootLatex (latex f c radicand) (present index (latex f c index))
      (scriptsLatex (present s (latex f c s)) (present t (latex f c t))))
  | complex re im s t =>
    guarded (complexLatex f re im (!s.isMissing)
      (scriptsLatex (present s (latex f c s)) (present t (latex f c t))))
  | error placeholder _ s t => guarded do
    return "\\bbox[" ++ f.errorColor.shown ++ "]" ++ braced (placeholder.orElse "?").shown ++
      (← scriptsLatex (present s (latex f c s)) (present t (latex f c t)))

/-- Several expressions as LaTeX, each on its own. -/
def latexEach (f : Format) (c : Catalog) : List Expr → List (Outcome String)
  | [] => []
  | e :: rest => latex f c e :: latexEach f c rest

end

end Expr

end Formula
