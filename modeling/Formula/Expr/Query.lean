import Formula.Catalog
import Formula.Expr

/-!
# Questions about expressions

The nodes of a tree in source order, with a list of pending work, so that deep trees take no stack; and what a single
node stands for: the spelling of a symbol, or the value of a number or of a named constant.
-/

namespace Formula

open Number Text

namespace Expr

/-! ### Walking -/

/-- The children of a node, its superscript and its subscript, as far as they are there. -/
def children (e : Expr) : List Expr :=
  let parts := match e with
    | group inner _ _ _ => [inner]
    | binary _ left right _ _ => [left, right]
    | unary _ operand _ _ => [operand]
    | call _ (tuple items) _ _ _ => items
    | call _ argument _ _ _ => [argument]
    | fraction numerator denominator _ _ => [numerator, denominator]
    | root radicand index _ _ => [radicand, index]
    | _ => []
  (parts ++ [e.sup, e.sub]).filter fun part => !part.isMissing

/-- Work for a walk: the total size of the pending expressions. -/
noncomputable def workSize : List Expr → Nat
  | [] => 0
  | e :: w => sizeOf e + workSize w

theorem workSize_append (v w : List Expr) : workSize (v ++ w) = workSize v + workSize w := by
  induction v with
  | nil => simp [workSize]
  | cons e v ih => simp [workSize, ih, Nat.add_assoc]

theorem workSize_cons (e : Expr) (w : List Expr) : workSize (e :: w) = sizeOf e + workSize w := rfl

theorem workSize_filter_le (p : Expr → Bool) : ∀ w : List Expr, workSize (w.filter p) ≤ workSize w
  | [] => Nat.le_refl _
  | e :: w => by
    have := workSize_filter_le p w
    by_cases h : p e <;> simp [h, workSize_cons] <;> omega

theorem workSize_lt_sizeOf : ∀ w : List Expr, workSize w < sizeOf w
  | [] => by simp [workSize]
  | e :: w => by
    have := workSize_lt_sizeOf w
    rw [workSize_cons, List.cons.sizeOf_spec]
    omega

/-- The children of a node are smaller than the node. -/
theorem workSize_children (e : Expr) (h : e.isNode) : workSize e.children < sizeOf e := by
  have filtered := workSize_filter_le (fun part => !part.isMissing)
  cases e with
  | missing | foreign _ | tuple _ => simp [isNode] at h
  | call name argument fence s t =>
    cases argument with
    | tuple items =>
      have bound := filtered (items ++ [s, t])
      have items_lt := workSize_lt_sizeOf items
      rw [workSize_append, workSize_cons, workSize_cons] at bound
      simp only [children, sup, sub, call.sizeOf_spec, tuple.sizeOf_spec] at *
      simp only [workSize] at *
      omega
    | _ =>
      refine Nat.lt_of_le_of_lt (filtered _) ?_
      simp [workSize, sup, sub]
      omega
  | _ =>
    refine Nat.lt_of_le_of_lt (filtered _) ?_
    simp [workSize, sup, sub]
    try omega

/-- The nodes of the pending expressions and of all below them, in order, behind those found before, which come in
reverse order. -/
def walkFrom (found : List Expr) : List Expr → Outcome (List Expr)
  | [] => .ok found.reverse
  | e :: work =>
    if _node : e.isNode then walkFrom (e :: found) (e.children ++ work) else .error .noOperation
termination_by work => workSize work
decreasing_by
  have := workSize_children e _node
  rw [workSize_append, workSize_cons]
  omega

/-- The nodes of a tree, each one before its children. -/
def walk (e : Expr) : Outcome (List Expr) := walkFrom [] (if e.isMissing then [] else [e])

/-- The node stands for a part of the input without a meaning. -/
def isError : Expr → Bool
  | error .. => true
  | _ => false

/-- The parts of the input without a meaning, in source order. -/
def errors (e : Expr) : Outcome (List Expr) := e.walk.map fun nodes => nodes.filter isError

/-! ### Single nodes -/

/-- The name of a symbol, which may also stand bare in the place of a node. -/
def symbolName? : Expr → Option Datum
  | foreign (.text s) => some (.text s)
  | symbol name _ _ _ => some name
  | _ => none

/-- The spelling of a symbol, if the node is one with a name. -/
def asSymbol (c : Catalog) (e : Expr) : Outcome (Option Datum) :=
  match e.symbolName? with
  | none => .ok none
  | some name => if name.isVoid then .ok none else (c.spelling name).map some

/-- The number nearest to π. -/
def pi : Double := .ofDecimal false ⟨3141592653589793, -15⟩

/-- The number nearest to 2π. -/
def tau : Double := .ofDecimal false ⟨6283185307179586, -15⟩

/-- The number nearest to e. -/
def euler : Double := .ofDecimal false ⟨2718281828459045, -15⟩

/-- The number nearest to the golden ratio. -/
def golden : Double := .ofDecimal false ⟨1618033988749895, -15⟩

/-- The constants by all their spellings. -/
def constants : List (String × Double) := [
  ("π", pi), ("pi", pi), ("\\pi", pi), ("τ", tau), ("tau", tau), ("\\tau", tau), ("e", euler), ("ℯ", euler),
  ("ⅇ", euler), ("\\exponentialE", euler), ("ϕ", golden), ("phi", golden), ("\\phi", golden)]

/-- The floating-point number of a ratio, if it is not too large. -/
def ratioToDouble (r : Rat) : Outcome Double :=
  match Double.ofRat r with
  | .infinite _ => .error .ratioToFloat
  | x => .ok x

/-- The value of a literal: a number, the text of one, or the text of a ratio.  Other texts have none. -/
def literalValue (value : Datum) : Outcome Double :=
  match value with
  | .text s =>
    if holds s "/" then
      match readRatio (trim s) with
      | .ok r => ratioToDouble r
      | .error _ => .ok .nan
    else .ok ((readDouble s).getD .nan)
  | _ => value.toDouble

/-- The value of a literal or a named constant, if the node is one. -/
def asNumber (c : Catalog) (e : Expr) : Outcome (Option Double) :=
  match e with
  | foreign (.bool _) => .ok none
  | foreign (.int n) => (Datum.wholeToDouble n).map some
  | foreign (.float x) => .ok (some x)
  | number value _ _ => (literalValue value).map some
  | _ => do
    match ← e.asSymbol c with
    | none => return none
    | some spelling =>
      match ← (e.symbolName?.getD .null).lookup constants with
      | some x => return some x
      | none => spelling.lookup constants

end Expr

end Formula
