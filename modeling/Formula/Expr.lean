import Formula.Datum

/-!
# Expressions

`Expr` is the tree of a formula.  Every node may carry a superscript and a subscript, and any place of a child may be
empty (`missing`).

Hosts build trees too, and nothing checks them: labels are payload values, which ought to be texts or numbers, and a
child may be a value that is no node (`foreign`) or several nodes at once (`tuple`), which only the argument of a call
ought to be.  A label may even be a node, which is then a value (`toDatum`).
-/

namespace Formula

/-- The tree of a formula. -/
inductive Expr where
  /-- An empty place. -/
  | missing
  /-- A value in the place of a node. -/
  | foreign (value : Datum)
  /-- Several expressions: the arguments of a call. -/
  | tuple (items : List Expr)
  /-- A number, or the text of one. -/
  | number (value : Datum) (sup sub : Expr)
  /-- A symbol, perhaps in a variant such as bold. -/
  | symbol (name variant : Datum) (sup sub : Expr)
  | text (content : Datum) (sup sub : Expr)
  /-- An expression between two delimiters. -/
  | group (inner : Expr) (fence : Datum) (sup sub : Expr)
  | binary (op : Datum) (left right : Expr) (sup sub : Expr)
  | unary (op : Datum) (operand : Expr) (sup sub : Expr)
  /-- A function applied to an argument. -/
  | call (name : Datum) (argument : Expr) (fence : Datum) (sup sub : Expr)
  | fraction (numerator denominator : Expr) (sup sub : Expr)
  | root (radicand index : Expr) (sup sub : Expr)
  /-- A complex number by its real and its imaginary part. -/
  | complex (re im : Datum) (sup sub : Expr)
  /-- A part of the input that has no meaning. -/
  | error (placeholder message : Datum) (sup sub : Expr)
deriving Inhabited, Repr

namespace Expr

/-- Parentheses, the usual fence. -/
def parentheses : Datum := .tuple [.text "(", .text ")"]

/-! ### Nodes without scripts -/

/-- A number without scripts. -/
def ofNumber (value : Datum) : Expr := number value missing missing

/-- A symbol without scripts. -/
def ofSymbol (name variant : Datum) : Expr := symbol name variant missing missing

/-- A text without scripts. -/
def ofText (content : Datum) : Expr := text content missing missing

/-- An expression between two delimiters. -/
def fenced (inner : Expr) (fence : Datum) : Expr := group inner fence missing missing

/-- Two expressions with an operator between them. -/
def between (op : Datum) (left right : Expr) : Expr := binary op left right missing missing

/-- An expression with an operator in front. -/
def before (op : Datum) (operand : Expr) : Expr := unary op operand missing missing

/-- A function applied to an argument, in parentheses. -/
def apply (name : Datum) (argument : Expr) : Expr := call name argument parentheses missing missing

/-- A fraction without scripts. -/
def quotient (numerator denominator : Expr) : Expr := fraction numerator denominator missing missing

/-- A square root. -/
def squareRoot (radicand : Expr) : Expr := root radicand missing missing missing

/-- A part of the input without a meaning. -/
def unreadable (placeholder message : Datum) : Expr := error placeholder message missing missing

/-! ### Parts -/

/-- The place is empty. -/
def isMissing : Expr → Bool
  | missing => true
  | _ => false

theorem eq_missing {e : Expr} (h : e.isMissing = true) : e = missing := by
  cases e <;> first | rfl | cases h

/-- The expression is a node. -/
def isNode : Expr → Bool
  | missing | foreign _ | tuple _ => false
  | _ => true

/-- The superscript. -/
def sup : Expr → Expr
  | missing | foreign _ | tuple _ => missing
  | number _ s _ | symbol _ _ s _ | text _ s _ | group _ _ s _ | binary _ _ _ s _ | unary _ _ s _ | call _ _ _ s _
  | fraction _ _ s _ | root _ _ s _ | complex _ _ s _ | error _ _ s _ => s

/-- The subscript. -/
def sub : Expr → Expr
  | missing | foreign _ | tuple _ => missing
  | number _ _ s | symbol _ _ _ s | text _ _ s | group _ _ _ s | binary _ _ _ _ s | unary _ _ _ s | call _ _ _ _ s
  | fraction _ _ _ s | root _ _ _ s | complex _ _ _ s | error _ _ _ s => s

/-- The node carries a superscript or a subscript. -/
def decorated (e : Expr) : Bool := !e.sup.isMissing || !e.sub.isMissing

/-- The node with other scripts. -/
def withScripts (e : Expr) (sup sub : Expr) : Expr :=
  match e with
  | missing | foreign _ | tuple _ => e
  | number value _ _ => number value sup sub
  | symbol name variant _ _ => symbol name variant sup sub
  | text content _ _ => text content sup sub
  | group inner fence _ _ => group inner fence sup sub
  | binary op left right _ _ => binary op left right sup sub
  | unary op operand _ _ => unary op operand sup sub
  | call name argument fence _ _ => call name argument fence sup sub
  | fraction numerator denominator _ _ => fraction numerator denominator sup sub
  | root radicand index _ _ => root radicand index sup sub
  | complex re im _ _ => complex re im sup sub
  | error placeholder message _ _ => error placeholder message sup sub

/-- The node holds scripts itself; other nodes are put into a group first. -/
def holdsScripts : Expr → Bool
  | number .. | symbol .. | group .. | call .. => true
  | _ => false

/-- Attaches scripts: to the node itself if it holds scripts and has the places free, else to a group around it. -/
def attach (e : Expr) (newSup newSub : Expr) : Expr :=
  if newSup.isMissing && newSub.isMissing then e
  else if e.holdsScripts && (newSup.isMissing || e.sup.isMissing) && (newSub.isMissing || e.sub.isMissing) then
    e.withScripts (if newSup.isMissing then e.sup else newSup) (if newSub.isMissing then e.sub else newSub)
  else group e parentheses newSup newSub

theorem isMissing_attach {e : Expr} (h : e.isMissing = false) (newSup newSub : Expr) :
    (e.attach newSup newSub).isMissing = false := by
  unfold attach
  split
  · exact h
  · split
    · cases e <;> first | rfl | cases h
    · rfl

/-- The product of two neighbours; an empty place leaves the other. -/
def juxtapose (left right : Expr) : Expr :=
  if left.isMissing then right
  else if right.isMissing then left
  else between "*" left right

/-- The name of the kind of a node. -/
def kindName : Expr → String
  | missing => ""
  | foreign value => value.kindName
  | tuple _ => "tuple"
  | number .. => "NumberLiteral"
  | symbol .. => "Symbol"
  | text .. => "Text"
  | group .. => "Group"
  | binary .. => "BinaryOp"
  | unary .. => "UnaryOp"
  | call .. => "FunctionCall"
  | fraction .. => "Fraction"
  | root .. => "Root"
  | complex .. => "Complex"
  | error .. => "ErrorNode"

/-! ### Nodes as values -/

/-- A node as a value: its kind, its scripts in front of its other fields. -/
def recordOf (kind : String) (sup sub : Datum) (fields : List (String × Datum)) : Datum :=
  .record kind (("sup", sup) :: ("sub", sub) :: fields)

mutual

/-- The expression as a value. -/
def toDatum : Expr → Datum
  | missing => .null
  | foreign value => value
  | tuple items => .tuple (toData items)
  | number value s t => recordOf "NumberLiteral" (toDatum s) (toDatum t) [("value", value)]
  | symbol name variant s t => recordOf "Symbol" (toDatum s) (toDatum t) [("name", name), ("variant", variant)]
  | text content s t => recordOf "Text" (toDatum s) (toDatum t) [("content", content)]
  | group inner fence s t =>
    recordOf "Group" (toDatum s) (toDatum t) [("inner", toDatum inner), ("fence", fence)]
  | binary op left right s t =>
    recordOf "BinaryOp" (toDatum s) (toDatum t) [("op", op), ("lhs", toDatum left), ("rhs", toDatum right)]
  | unary op operand s t =>
    recordOf "UnaryOp" (toDatum s) (toDatum t) [("op", op), ("operand", toDatum operand)]
  | call name argument fence s t =>
    recordOf "FunctionCall" (toDatum s) (toDatum t) [("name", name), ("arg", toDatum argument), ("fence", fence)]
  | fraction numerator denominator s t =>
    recordOf "Fraction" (toDatum s) (toDatum t)
      [("numerator", toDatum numerator), ("denominator", toDatum denominator)]
  | root radicand index s t =>
    recordOf "Root" (toDatum s) (toDatum t) [("radicand", toDatum radicand), ("index", toDatum index)]
  | complex re im s t => recordOf "Complex" (toDatum s) (toDatum t) [("re", re), ("im", im)]
  | error placeholder message s t =>
    recordOf "ErrorNode" (toDatum s) (toDatum t) [("placeholder", placeholder), ("message", message)]

/-- The expressions as values. -/
def toData : List Expr → List Datum
  | [] => []
  | e :: rest => toDatum e :: toData rest

end

end Expr

end Formula
