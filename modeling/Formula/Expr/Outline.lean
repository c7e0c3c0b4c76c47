import Formula.Expr

/-!
# Outlines of expressions

An outline shows a tree with one node per line: the kind of the node with its labels and, indented below it, its
children under their names.  Whatever of a node is a node or a row of values is a child; only the delimiters of a fence
are a label even if they are a row.
-/

namespace Formula

/-- Two blanks for every level of indentation. -/
def padding (indent : Int) : String := String.ofList (List.replicate (2 * indent).toNat ' ')

namespace Datum

/-- A field of a node in an outline, with the outline of its value. -/
structure Field where
  name : String
  value : Datum
  outline : String

namespace Field

/-- The field is a script. -/
def isScript (f : Field) : Bool := f.name == "sup" || f.name == "sub"

/-- The field has lines of its own. -/
def isChild (f : Field) : Bool :=
  match f.value with
  | record .. | tuple _ => f.name != "fence"
  | _ => false

/-- The field behind the kind of its node. -/
def label (f : Field) : String := f.name ++ "=" ++ f.value.literal

/-- The lines of the field at an indentation. -/
def lines (indent : Int) (f : Field) : List String := [padding indent ++ "  " ++ f.name ++ ":", f.outline]

end Field

/-- The outline of a node at an indentation: its labels, its children, and its scripts as far as they are there. -/
def describe (indent : Int) (kind : String) (fields : List Field) : String :=
  let own := fields.filter fun f => !f.isScript
  let scripts := fields.filter fun f => f.isScript && !f.value.isNull
  let labels := (own.filter fun f => !f.isChild).map Field.label
  let head := padding indent ++ kind ++ "(" ++ ", ".intercalate labels ++ ")"
  "\n".intercalate (head :: (own.filter Field.isChild ++ scripts).flatMap (Field.lines indent))

mutual

/-- The outline of a value at an indentation. -/
def outline (indent : Int) : Datum → String
  | null => padding indent ++ "(empty)"
  | tuple items => "\n".intercalate (outlines indent items)
  | record kind fields => describe indent kind (outlineFields (indent + 2) fields)
  | d => padding indent ++ d.literal

/-- The outlines of several values at an indentation. -/
def outlines (indent : Int) : List Datum → List String
  | [] => []
  | d :: rest => outline indent d :: outlines indent rest

/-- The fields of a node with the outlines of their values at an indentation. -/
def outlineFields (indent : Int) : List (String × Datum) → List Field
  | [] => []
  | (name, d) :: rest => ⟨name, d, outline indent d⟩ :: outlineFields indent rest

end

end Datum

/-- The outline of an expression at an indentation. -/
def Expr.outline (indent : Int) (e : Expr) : String := e.toDatum.outline indent

end Formula
