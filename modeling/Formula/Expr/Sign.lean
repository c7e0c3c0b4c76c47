import Formula.Expr

/-!
# Signs, mixed numbers and inverse functions

Small readings of a node in its surroundings: a sign in front is folded into a number, a whole number in front of a
fraction is added to it, and the exponent minus one on the name of a function means its inverse.
-/

namespace Formula

open Number

namespace Expr

/-- The number with a sign in front, if the value is a number. -/
def signed? (sign : Datum) : Datum → Option Datum
  | .bool b => some (if sign.isText "+" then .bool b else .int (-Datum.ofBool b))
  | .int n => some (.int (if sign.isText "+" then n else -n))
  | .float x => some (.float (if sign.isText "+" then x else x.neg))
  | _ => none

/-- Folds a sign into the leftmost factor of a product, if that is a number, and nothing on the way has scripts. -/
def foldSign? (sign : Datum) : Expr → Option Expr
  | number value sup sub =>
    if sup.isMissing && sub.isMissing then (signed? sign value).map fun v => number v sup sub else none
  | binary op left right sup sub =>
    if op.isText "*" && sup.isMissing && sub.isMissing then
      (foldSign? sign left).map fun l => binary op l right sup sub
    else none
  | _ => none

/-- The expression with a sign in front, which is folded into a number if there is one to take it. -/
def withSign (sign : Datum) (operand : Expr) : Expr :=
  (foldSign? sign operand).getD (before sign operand)

/-- The second expression is the first one with a sign folded into it. -/
inductive TakesSign (sign : Datum) : Expr → Expr → Prop
  | number {v v' : Datum} : signed? sign v = some v' → TakesSign sign (ofNumber v) (ofNumber v')
  | product {l l' : Expr} (r : Expr) : TakesSign sign l l' → TakesSign sign (between "*" l r) (between "*" l' r)

theorem takesSign_of_foldSign? {sign : Datum} : ∀ {e e' : Expr}, foldSign? sign e = some e' → TakesSign sign e e'
  | number value sup sub, e', h => by
    rw [foldSign?] at h
    split at h
    · rename_i hbare
      rw [Bool.and_eq_true] at hbare
      obtain rfl := eq_missing hbare.1
      obtain rfl := eq_missing hbare.2
      obtain ⟨v, hv, rfl⟩ := Option.map_eq_some_iff.mp h
      exact .number hv
    · cases h
  | binary op l r sup sub, e', h => by
    rw [foldSign?] at h
    split at h
    · rename_i hbare
      rw [Bool.and_eq_true, Bool.and_eq_true] at hbare
      obtain rfl := Datum.eq_text_of_isText hbare.1.1
      obtain rfl := eq_missing hbare.1.2
      obtain rfl := eq_missing hbare.2
      obtain ⟨l', hl, rfl⟩ := Option.map_eq_some_iff.mp h
      exact .product r (takesSign_of_foldSign? hl)
    · cases h
  | missing, _, h | foreign _, _, h | tuple _, _, h | symbol .., _, h | text .., _, h | group .., _, h | unary .., _, h
  | call .., _, h | fraction .., _, h | root .., _, h | complex .., _, h | error .., _, h => by cases h

/-- A sign in front is folded into the expression, or it stays in front of it. -/
theorem withSign_cases (sign : Datum) (e : Expr) :
    TakesSign sign e (withSign sign e) ∨ withSign sign e = before sign e := by
  unfold withSign
  cases h : foldSign? sign e with
  | none => exact .inr rfl
  | some e' => exact .inl (takesSign_of_foldSign? h)

theorem isMissing_of_takesSign {sign : Datum} {e e' : Expr} (h : TakesSign sign e e') : e'.isMissing = false := by
  cases h <;> rfl

theorem isMissing_withSign (sign : Datum) (e : Expr) : (withSign sign e).isMissing = false := by
  obtain h | h := withSign_cases sign e
  · exact isMissing_of_takesSign h
  · rw [h]
    rfl

/-- The value is a whole number. -/
def isWhole (value : Datum) : Outcome Bool :=
  if value.isNumeric then value.toDouble.map Double.isInteger else .ok false

/-- The sum that a whole number and a fraction behind it stand for, if they do. -/
def mixedNumber (literal fraction : Expr) : Outcome (Option Expr) :=
  match literal with
  | missing | foreign _ | tuple _ => .error .noOperation
  | _ =>
    if literal.decorated then .ok none
    else match fraction, literal with
      | .fraction .., number value _ _ => do
        return if ← isWhole value then some (between "+" literal fraction) else none
      | .fraction .., _ => .error .noOperation
      | _, _ => .ok none

/-- The value of a literal is minus one.  A text that is no number has another value. -/
def valueIsMinusOne (value : Datum) : Outcome Bool :=
  match value.toDouble with
  | .ok x => .ok (x.eq (Double.ofInt (-1)))
  | .error (.unreadableNumber _) => .ok false
  | .error fault => .error fault

/-- The expression is minus one: a literal, or the literal one with a minus in front. -/
def isMinusOne : Expr → Outcome Bool
  | number value missing missing => valueIsMinusOne value
  | unary op (number value missing missing) missing missing => .ok (op.isText "-" && value.isOne)
  | _ => .ok false

/-- The functions whose inverses have names, with those names. -/
def inverses : List (String × String) := [
  ("sin", "arcsin"), ("cos", "arccos"), ("tan", "arctan"), ("cot", "arccot"), ("sec", "arcsec"), ("csc", "arccsc"),
  ("sinh", "arsinh"), ("cosh", "arcosh"), ("tanh", "artanh"), ("csch", "arcsch"), ("sech", "arsech"),
  ("coth", "arcoth")]

/-- The name of the inverse of a function, if the function has the exponent minus one. -/
def inverseName? (name : Datum) (sup : Expr) : Outcome (Option String) := do
  match ← name.lookup inverses with
  | none => return none
  | some inverse => return if ← sup.isMinusOne then some inverse else none

theorem inverseName?_eq_some {name : Datum} {sup : Expr} {inverse : String}
    (h : inverseName? name sup = .ok (some inverse)) :
    name.lookup inverses = .ok (some inverse) ∧ sup.isMinusOne = .ok true := by
  obtain ⟨found, hfound, h⟩ := Outcome.bind_eq_ok.mp h
  cases found with
  | none => cases h
  | some found =>
    obtain ⟨is, his, h⟩ := Outcome.bind_eq_ok.mp h
    cases is with
    | false => cases h
    | true =>
      cases h
      exact ⟨hfound, his⟩

/-- A call of a function with the exponent minus one as a call of the inverse function. -/
def applyInverse : Expr → Outcome Expr
  | call name argument fence sup sub => do
    match ← inverseName? name sup with
    | some inverse => return call inverse argument fence missing sub
    | none => return call name argument fence sup sub
  | symbol name variant sup sub => do
    match ← inverseName? name sup with
    | some _ => throw .noOperation
    | none => return symbol name variant sup sub
  | _ => .error .noOperation

/-- The second expression is the first one, or the call of the inverse function that the first one stands for. -/
inductive InvertsTo : Expr → Expr → Prop
  | unchanged {e : Expr} : e.isMissing = false → InvertsTo e e
  | inverse {name fence : Datum} {argument sup sub : Expr} {inverse : String} :
    name.lookup inverses = .ok (some inverse) → sup.isMinusOne = .ok true →
    InvertsTo (call name argument fence sup sub) (call inverse argument fence missing sub)

theorem invertsTo_of_applyInverse {e e' : Expr} (h : applyInverse e = .ok e') : InvertsTo e e' := by
  unfold applyInverse at h
  split at h
  · obtain ⟨_ | inverse, hfound, h⟩ := Outcome.bind_eq_ok.mp h
    · cases h
      exact .unchanged rfl
    · cases h
      obtain ⟨hlookup, hminus⟩ := inverseName?_eq_some hfound
      exact .inverse hlookup hminus
  · obtain ⟨_ | inverse, -, h⟩ := Outcome.bind_eq_ok.mp h
    · cases h
      exact .unchanged rfl
    · cases h
  · cases h

end Expr

end Formula
