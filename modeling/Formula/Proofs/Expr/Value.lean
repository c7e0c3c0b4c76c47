import Mathlib.Algebra.Field.Basic
import Mathlib.Algebra.Order.Ring.Rat
import Mathlib.Algebra.Ring.Subring.Defs
import Mathlib.Data.Rat.Cast.Defs
import Mathlib.Tactic.Ring
import Formula.Expr.Query
import Formula.Expr.Sign
import Formula.Proofs.Expr.Errors
import Formula.Proofs.Catalog.Operations
import Formula.Proofs.Number.WholeText
import Formula.Proofs.Reader.Climbing

/-!
# Values of arithmetic expressions

An arithmetic expression has a value in every field in which its symbols, its powers, its roots and its functions have a
meaning.  Parentheses and the way in which a quotient is written do not matter to it, nor does it matter where a sign is
kept.

A chain of sums, differences and products has the value of its tree, and this value is found by going through the chain
once from left to right, with the sum of the terms that are complete and the product of the factors of the last term.

In a commutative ring only sums, differences, products and signs have a meaning of their own.  There a sign in front of an
expression multiplies its value, whatever everything else in the expression stands for (`withSign_multiplies`).
-/

namespace Formula

open Number Expr

universe u

/-- Meanings of symbols, powers, roots and functions in a field. -/
structure Interpretation (K : Type u) where
  /-- The value of a symbol with its variant. -/
  symbol : Datum → Datum → K
  power : K → K → K
  root : K → K
  /-- The value of a named function. -/
  function : Datum → K → K

variable {K : Type u} [Field K]

/-! ### Values -/

/-- The value of a number in a field. -/
def valueOf (K : Type u) [Field K] : Datum → Option K
  | .int n => some n
  | .float x => x.toRat?.map fun q : Rat => (q : K)
  | _ => none

/-- An operation on values. -/
def operationValue (op : Datum) (x y : K) : Option K :=
  if op.isText "+" then some (x + y)
  else if op.isText "-" then some (x - y)
  else if op.isText "*" then some (x * y)
  else if op.isText "/" then some (x / y)
  else none

/-- A value with a sign in front. -/
def signValue (sign : Datum) (x : K) : Option K :=
  if sign.isText "+" then some x else if sign.isText "-" then some (-x) else none

namespace Interpretation

variable (I : Interpretation K)

/-- A value with a superscript; with a subscript there is none. -/
def raised (sup sub : Expr) (exponent base : Option K) : Option K :=
  if !sub.isMissing then none
  else if sup.isMissing then base
  else do return I.power (← base) (← exponent)

/-- A function of its arguments: a power of two, a named function of one. -/
def applied (name : Datum) : List (Option K) → Option K
  | [x] => do return I.function name (← x)
  | [x, y] => if name.isText "pow" then do return I.power (← x) (← y) else none
  | _ => none

end Interpretation

namespace Expr

mutual

/-- The value of an arithmetic expression. -/
def value (I : Interpretation K) : Expr → Option K
  | missing | foreign _ | tuple _ | text .. | complex .. | error .. => none
  | number v s t => I.raised s t (value I s) (valueOf K v)
  | symbol name variant s t => I.raised s t (value I s) (some (I.symbol name variant))
  | group inner _ s t => I.raised s t (value I s) (value I inner)
  | binary op left right s t =>
    I.raised s t (value I s) do operationValue op (← value I left) (← value I right)
  | unary op operand s t => I.raised s t (value I s) do signValue op (← value I operand)
  | call name argument _ s t =>
    let own := value I argument
    I.raised s t (value I s) (I.applied name (match argument with
      | tuple items => values I items
      | _ => [own]))
  | fraction numerator denominator s t =>
    I.raised s t (value I s) do return (← value I numerator) / (← value I denominator)
  | root radicand index s t =>
    if index.isMissing then I.raised s t (value I s) do return I.root (← value I radicand) else none

/-- The values of several expressions. -/
def values (I : Interpretation K) : List Expr → List (Option K)
  | [] => []
  | e :: rest => value I e :: values I rest

end

/-- The value of an expression, or zero if it has none. -/
def valueOr (I : Interpretation K) (e : Expr) : K := (value I e).getD 0

theorem valueOr_of_value {I : Interpretation K} {e : Expr} {x : K} (h : value I e = some x) : valueOr I e = x := by
  rw [valueOr, h, Option.getD_some]

end Expr

/-! ### Operations and signs on values -/

/-- The operation on values. -/
def Operation.on : Operation → K → K → K
  | sum, x, y => x + y
  | difference, x, y => x - y
  | product, x, y => x * y

theorem operationValue_name (o : Operation) (x y : K) : operationValue (.text o.name) x y = some (o.on x y) := by
  cases o <;> rfl

/-- The sign on values. -/
def Sign.on : Sign → K → K
  | plus, x => x
  | minus, x => -x

theorem signValue_name (s : Sign) (x : K) : signValue (.text s.name) x = some (s.on x) := by
  cases s <;> rfl

theorem Sign.on_mul (s : Sign) (x y : K) : s.on x * y = s.on (x * y) := by
  cases s with
  | plus => rfl
  | minus => exact neg_mul x y

theorem toRat?_neg (x : Double) : x.neg.toRat? = x.toRat?.map fun q => -q := by
  cases x with
  | finite negative m q => cases negative <;> simp [Double.neg, Double.toRat?]
  | _ => rfl

/-- A number keeps its value when it takes a sign. -/
theorem valueOf_signed {s : Sign} {d d' : Datum} {x : K} (h : signed? (.text s.name) d = some d')
    (hx : valueOf K d = some x) : valueOf K d' = some (s.on x) := by
  cases d with
  | int n =>
    cases s with
    | plus =>
      rw [← Option.some.inj h]
      exact hx
    | minus =>
      rw [← Option.some.inj h]
      show some ((-n : Int) : K) = _
      rw [Int.cast_neg, Option.some.inj hx]
      rfl
  | float y =>
    cases s with
    | plus =>
      rw [← Option.some.inj h]
      exact hx
    | minus =>
      rw [← Option.some.inj h]
      obtain ⟨q, hq, rfl⟩ := Option.map_eq_some_iff.mp hx
      show y.neg.toRat?.map (fun q : Rat => (q : K)) = _
      rw [toRat?_neg, hq]
      exact congrArg some (Rat.cast_neg q)
  | _ => cases hx

namespace Expr

variable {I : Interpretation K}

theorem isMissing_of_value {e : Expr} {x : K} (h : value I e = some x) : e.isMissing = false := by
  cases e <;> first | rfl | cases h

theorem value_between {o : Operation} {l r : Expr} {x y : K} (hl : value I l = some x) (hr : value I r = some y) :
    value I (between (.text o.name) l r) = some (o.on x y) := by
  show (do operationValue (.text o.name) (← value I l) (← value I r)) = _
  rw [hl, hr]
  exact operationValue_name o x y

theorem value_before {s : Sign} {e : Expr} {x : K} (h : value I e = some x) :
    value I (before (.text s.name) e) = some (s.on x) := by
  show (do signValue (.text s.name) (← value I e)) = _
  rw [h]
  exact signValue_name s x

/-- A sign that is folded into a product is one of its first factor. -/
theorem value_of_takesSign {s : Sign} {e e' : Expr} (h : TakesSign (.text s.name) e e') {x : K} (hx : value I e = some x) :
    value I e' = some (s.on x) := by
  induction h generalizing x with
  | number hv => exact valueOf_signed hv hx
  | @product l l' r _ ih =>
    change (do operationValue (.text Operation.product.name) (← value I l) (← value I r)) = some x at hx
    obtain ⟨y, hy, hx⟩ := Option.bind_eq_some_iff.mp hx
    obtain ⟨z, hz, hx⟩ := Option.bind_eq_some_iff.mp hx
    rw [operationValue_name] at hx
    rw [← Option.some.inj hx]
    refine (value_between (o := .product) (ih hy) hz).trans ?_
    exact congrArg some (s.on_mul y z)

/-- **A sign in front has its value wherever the reader keeps it.** -/
theorem value_withSign {s : Sign} {e : Expr} {x : K} (h : value I e = some x) :
    value I (withSign (.text s.name) e) = some (s.on x) := by
  obtain ht | ht := withSign_cases (.text s.name) e
  · exact value_of_takesSign ht h
  · rw [ht]
    exact value_before h

/-- **A node with scripts has the value of the node without them, raised.** -/
theorem value_withScripts {e : Expr} {x : K} (h : value I e = some x) (hsup : e.sup = missing) (hsub : e.sub = missing)
    (s t : Expr) : value I (e.withScripts s t) = I.raised s t (value I s) (some x) := by
  rw [← h]
  cases e with
  | missing | foreign | tuple | text | complex | error => cases h
  | root radicand index sup sub =>
    obtain rfl := hsup
    obtain rfl := hsub
    cases index <;> first | rfl | cases h
  | call name argument fence sup sub =>
    obtain rfl := hsup
    obtain rfl := hsub
    cases argument <;> rfl
  | _ =>
    obtain rfl := hsup
    obtain rfl := hsub
    rfl

theorem raised_of_value {sup : Expr} {y : K} (hsup : value I sup = some y) (x : K) :
    I.raised sup missing (value I sup) (some x) = some (I.power x y) := by
  have hthere := isMissing_of_value hsup
  unfold Interpretation.raised
  rw [hthere, hsup]
  rfl

/-- A superscript goes to a node that holds scripts, else to a group around the node. -/
theorem attach_super {e sup : Expr} (hthere : sup.isMissing = false) (hfree : e.sup = missing) (hsub : e.sub = missing) :
    e.attach sup missing = if e.holdsScripts then e.withScripts sup missing else group e parentheses sup missing := by
  unfold attach
  rw [hthere, hfree, hsub]
  simp [isMissing]

/-- **A superscript that is attached is the exponent of a power.** -/
theorem value_attach {e sup : Expr} {x y : K} (h : value I e = some x) (hsup : value I sup = some y)
    (hfree : e.sup = missing) (hsub : e.sub = missing) : value I (e.attach sup missing) = some (I.power x y) := by
  rw [attach_super (isMissing_of_value hsup) hfree hsub]
  split
  · rw [value_withScripts h hfree hsub, raised_of_value hsup]
  · show I.raised sup missing (value I sup) (value I e) = _
    rw [h, raised_of_value hsup]

end Expr

/-! ### Values and errors -/

namespace Expr

variable {I : Interpretation K}

theorem raised_eq_some {s t : Expr} {base : Option K} {x : K} (h : I.raised s t (value I s) base = some x) :
    t = missing ∧ (s.isMissing = false → ∃ y, value I s = some y) ∧ ∃ y, base = some y := by
  unfold Interpretation.raised at h
  cases ht : t.isMissing with
  | false => simp [ht] at h
  | true =>
    refine ⟨eq_missing ht, ?_⟩
    rw [ht, if_neg (by decide)] at h
    cases hs : s.isMissing with
    | true =>
      rw [hs, if_pos rfl] at h
      exact ⟨fun hne => (by cases hne), x, h⟩
    | false =>
      rw [hs, if_neg Bool.false_ne_true] at h
      obtain ⟨y, hy, h⟩ := Option.bind_eq_some_iff.mp h
      obtain ⟨z, hz, -⟩ := Option.bind_eq_some_iff.mp h
      exact ⟨fun _ => ⟨z, hz⟩, y, hy⟩

/-- The arguments of a function that has a value have values. -/
theorem value_of_applied {name : Datum} {items : List Expr} {x : K} (h : I.applied name (values I items) = some x) :
    ∀ e ∈ items, ∃ y, value I e = some y := by
  match items, h with
  | [], h => cases h
  | [a], h =>
    obtain ⟨y, hy, -⟩ := Option.bind_eq_some_iff.mp h
    intro e he
    rw [List.mem_singleton.mp he]
    exact ⟨y, hy⟩
  | [a, b], h =>
    rw [values, values, values, Interpretation.applied] at h
    split at h
    · obtain ⟨y, hy, h⟩ := Option.bind_eq_some_iff.mp h
      obtain ⟨z, hz, -⟩ := Option.bind_eq_some_iff.mp h
      intro e he
      simp only [List.mem_cons, List.not_mem_nil, or_false] at he
      rcases he with rfl | rfl
      · exact ⟨y, hy⟩
      · exact ⟨z, hz⟩
    · cases h
  | _ :: _ :: _ :: _, h => cases h

/-- **The children of an expression that has a value have values**, and it is a node without an error. -/
theorem value_of_children {e : Expr} {x : K} (h : value I e = some x) :
    e.isNode = true ∧ e.isError = false ∧ ∀ k ∈ e.children, ∃ y, value I k = some y := by
  -- the scripts are found in the same way for every kind of node
  have found : ∀ {s t : Expr} {base : Option K} {parts : List Expr}, I.raised s t (value I s) base = some x →
      (∀ y, base = some y → ∀ k ∈ parts, k.isMissing = false → ∃ z, value I k = some z) →
      ∀ k ∈ (parts ++ [s, t]).filter fun part => !part.isMissing, ∃ z, value I k = some z := by
    intro s t base parts h hparts k hk
    obtain ⟨rfl, hs, y, hy⟩ := raised_eq_some h
    obtain ⟨hk, hthere⟩ := List.mem_filter.mp hk
    rw [Bool.not_eq_true'] at hthere
    rcases List.mem_append.mp hk with hk | hk
    · exact hparts y hy k hk hthere
    · simp only [List.mem_cons, List.not_mem_nil, or_false] at hk
      rcases hk with rfl | rfl
      · exact hs hthere
      · cases hthere
  cases e with
  | missing | foreign | tuple | text | complex | error => cases h
  | number | symbol =>
    refine ⟨rfl, rfl, @found _ _ _ [] h fun _ _ k hk => ?_⟩
    cases hk
  | group inner =>
    refine ⟨rfl, rfl, found h fun y hy k hk _ => ?_⟩
    rw [List.mem_singleton.mp hk]
    exact ⟨y, hy⟩
  | binary op l r =>
    refine ⟨rfl, rfl, found h fun y hy k hk _ => ?_⟩
    obtain ⟨v, hv, hy⟩ := Option.bind_eq_some_iff.mp hy
    obtain ⟨w, hw, -⟩ := Option.bind_eq_some_iff.mp hy
    simp only [List.mem_cons, List.not_mem_nil, or_false] at hk
    rcases hk with rfl | rfl
    · exact ⟨v, hv⟩
    · exact ⟨w, hw⟩
  | unary op operand =>
    refine ⟨rfl, rfl, found h fun y hy k hk _ => ?_⟩
    obtain ⟨v, hv, -⟩ := Option.bind_eq_some_iff.mp hy
    rw [List.mem_singleton.mp hk]
    exact ⟨v, hv⟩
  | call name argument fence s t =>
    cases argument with
    | tuple items => exact ⟨rfl, rfl, found h fun y hy k hk _ => value_of_applied hy k hk⟩
    | _ =>
      refine ⟨rfl, rfl, found h fun y hy k hk _ => ?_⟩
      exact value_of_applied (show I.applied name (values I [_]) = some y from hy) k hk
  | fraction n d =>
    refine ⟨rfl, rfl, found h fun y hy k hk _ => ?_⟩
    obtain ⟨v, hv, hy⟩ := Option.bind_eq_some_iff.mp hy
    obtain ⟨w, hw, -⟩ := Option.bind_eq_some_iff.mp hy
    simp only [List.mem_cons, List.not_mem_nil, or_false] at hk
    rcases hk with rfl | rfl
    · exact ⟨v, hv⟩
    · exact ⟨w, hw⟩
  | root radicand index s t =>
    rw [value] at h
    split at h
    · rename_i hindex
      refine ⟨rfl, rfl, found h fun y hy k hk hthere => ?_⟩
      obtain ⟨v, hv, -⟩ := Option.bind_eq_some_iff.mp hy
      simp only [List.mem_cons, List.not_mem_nil, or_false] at hk
      rcases hk with rfl | rfl
      · exact ⟨v, hv⟩
      · rw [hindex] at hthere
        cases hthere
    · cases h

/-- **An expression that has a value holds no errors.** -/
theorem errors_of_value {e : Expr} {x : K} (h : value I e = some x) : e.errors = .ok [] :=
  errors_of_closed (P := fun e => ∃ x, value I e = some x) (fun _ ⟨_, h⟩ => value_of_children h) ⟨x, h⟩

end Expr

/-! ### Chains -/

/-- The operator is one of products. -/
def Link.isFactor (link : Link) : Bool := link.op.isText Operation.product.name

/-- What a link adds to a sum. -/
def Link.summand (val : Expr → K) (link : Link) : K :=
  if link.op.isText Operation.difference.name then -val link.operand else val link.operand

/-- The value of a chain of terms: `done` is the sum of the terms that are complete, and `term` the product of the
factors so far of the last one. -/
def climb (val : Expr → K) : K → K → List Link → K
  | done, term, [] => done + term
  | done, term, link :: links =>
    if link.isFactor then climb val done (term * val link.operand) links
    else climb val (done + term) (link.summand val) links

section

variable {val : Expr → K} {done term : K} {link : Link} {links : List Link}

theorem climb_factor (h : link.isFactor = true) :
    climb val done term (link :: links) = climb val done (term * val link.operand) links := by
  rw [climb, if_pos h]

theorem climb_summand (h : link.isFactor = false) :
    climb val done term (link :: links) = climb val (done + term) (link.summand val) links := by
  rw [climb, if_neg (by rw [h]; exact Bool.false_ne_true)]

/-- What is added in front of a chain is added to its value. -/
theorem climb_add (before : K) : ∀ (done term : K) (links : List Link),
    climb val (before + done) term links = before + climb val done term links
  | done, term, [] => add_assoc before done term
  | done, term, link :: links => by
    cases h : link.isFactor with
    | true => rw [climb_factor h, climb_factor h, climb_add]
    | false => rw [climb_summand h, climb_summand h, add_assoc, climb_add]

theorem climb_zero (done term : K) (links : List Link) : climb val done term links = done + climb val 0 term links := by
  rw [← climb_add, add_zero]

/-- Behind a chain the next term is added to its value. -/
theorem climb_append (h : link.isFactor = false) (after : List Link) : ∀ (done term : K) (before : List Link),
    climb val done term (before ++ link :: after) = climb val (climb val done term before) (link.summand val) after
  | done, term, [] => climb_summand h
  | done, term, k :: before => by
    rw [List.cons_append]
    cases hk : k.isFactor with
    | true => rw [climb_factor hk, climb_factor hk, climb_append h after]
    | false => rw [climb_summand hk, climb_summand hk, climb_append h after]

/-- A factor in front of a product is one of its value. -/
theorem climb_mul (factor : K) : ∀ {links : List Link} (term : K), (∀ link ∈ links, link.isFactor = true) →
    climb val 0 (factor * term) links = factor * climb val 0 term links
  | [], term, _ => by rw [climb, climb, zero_add, zero_add]
  | link :: links, term, h => by
    have hlink := h link List.mem_cons_self
    rw [climb_factor hlink, climb_factor hlink, mul_assoc, climb_mul factor _ fun k hk => h k (List.mem_cons_of_mem _ hk)]

theorem climb_neg (term : K) (h : ∀ link ∈ links, link.isFactor = true) :
    climb val 0 (-term) links = -climb val 0 term links := by
  rw [← neg_one_mul, climb_mul _ _ h, neg_one_mul]

/-- Two products with a factor between them. -/
theorem climb_product (h : link.isFactor = true) {after : List Link} (hafter : ∀ k ∈ after, k.isFactor = true) :
    ∀ {before : List Link} (term : K), (∀ k ∈ before, k.isFactor = true) →
    climb val 0 term (before ++ link :: after) = climb val 0 term before * climb val 0 (val link.operand) after
  | [], term, _ => by
    rw [List.nil_append, climb_factor h, climb_mul _ _ hafter, climb, zero_add]
  | k :: before, term, hbefore => by
    have hk := hbefore k List.mem_cons_self
    rw [List.cons_append, climb_factor hk, climb_factor hk,
      climb_product h hafter _ fun m hm => hbefore m (List.mem_cons_of_mem _ hm)]

end

/-- The link is an operation, and its operand has a value. -/
structure Link.IsOperation (I : Interpretation K) (o : Operation) (link : Link) : Prop where
  op : link.op = .text o.name
  precedence : link.precedence = o.precedence
  value : ∃ x, Expr.value I link.operand = some x

theorem Link.IsOperation.isFactor {I : Interpretation K} {o : Operation} {link : Link} (h : link.IsOperation I o) :
    link.isFactor = decide (o.precedence = 390) := by
  unfold Link.isFactor
  rw [h.op]
  cases o <;> rfl

theorem Link.IsOperation.isFactor_of_lt {I : Interpretation K} {link : Link} (h : ∃ o, link.IsOperation I o)
    (hlt : 275 < link.precedence) : link.isFactor = true := by
  obtain ⟨o, h⟩ := h
  rw [h.precedence] at hlt
  rw [h.isFactor]
  cases o with
  | sum | difference => exact absurd hlt (by decide)
  | product => rfl

/-- **Two chains with an operation between them** have the values that the operation takes: the operators of both bind at least
as tight as it does, and tighter behind a minus. -/
theorem climb_operation {I : Interpretation K} {o : Operation} {link : Link} {before after : List Link} {x y : K}
    (h : link.IsOperation I o) (hy : value I link.operand = some y)
    (hbefore : ∀ k ∈ before, (∃ p, k.IsOperation I p) ∧ o.precedence ≤ k.precedence)
    (hafter : ∀ k ∈ after, (∃ p, k.IsOperation I p) ∧ o.precedence ≤ k.precedence ∧
      (o = .difference → o.precedence < k.precedence)) :
    climb (valueOr I) 0 x (before ++ link :: after) =
      o.on (climb (valueOr I) 0 x before) (climb (valueOr I) 0 y after) := by
  -- only factors stand where the operation would else take a part of the chain
  have hfront : o = .product → ∀ k ∈ before, k.isFactor = true := by
    rintro rfl k hk
    exact Link.IsOperation.isFactor_of_lt (hbefore k hk).1 (Int.lt_of_lt_of_le (by decide) (hbefore k hk).2)
  have hback : o ≠ .sum → ∀ k ∈ after, k.isFactor = true := by
    intro hsum k hk
    obtain ⟨hoperation, hle, hlt⟩ := hafter k hk
    refine Link.IsOperation.isFactor_of_lt hoperation ?_
    cases o with
    | sum => exact absurd rfl hsum
    | difference => exact hlt rfl
    | product => exact Int.lt_of_lt_of_le (by decide) hle
  have hfactor := h.isFactor
  rw [← valueOr_of_value hy]
  cases o with
  | sum =>
    have hsummand : link.summand (valueOr I) = valueOr I link.operand := by
      unfold Link.summand
      rw [h.op]
      rfl
    rw [climb_append hfactor, hsummand, climb_zero (climb (valueOr I) 0 x before)]
    rfl
  | difference =>
    have hsummand : link.summand (valueOr I) = -valueOr I link.operand := by
      unfold Link.summand
      rw [h.op]
      rfl
    rw [climb_append hfactor, hsummand, climb_zero (climb (valueOr I) 0 x before), climb_neg _ (hback (by decide)),
      ← sub_eq_add_neg]
    rfl
  | product =>
    rw [climb_product hfactor (hback (by decide)) _ (hfront rfl)]
    rfl

/-- **A chain has the value of its tree.** -/
theorem Arranges.value {I : Interpretation K} {first e : Expr} {links : List Link} (h : Arranges first links e) {x : K}
    (hfirst : value I first = some x) (hlinks : ∀ link ∈ links, ∃ o, link.IsOperation I o) :
    value I e = some (climb (valueOr I) 0 x links) := by
  induction h generalizing x with
  | leaf e => rw [hfirst, climb, zero_add]
  | @node first before after link left right _ _ hbefore hafter ihleft ihright =>
    obtain ⟨o, hlink⟩ := hlinks link (by simp)
    obtain ⟨y, hy⟩ := hlink.value
    have hleft := ihleft hfirst fun k hk => hlinks k (List.mem_append_left _ hk)
    have hright := ihright hy fun k hk => hlinks k (List.mem_append_right _ (List.mem_cons_of_mem _ hk))
    have hfront : ∀ k ∈ before, (∃ p, k.IsOperation I p) ∧ o.precedence ≤ k.precedence := fun k hk =>
      ⟨hlinks k (List.mem_append_left _ hk), hlink.precedence ▸ hbefore k hk⟩
    have hback : ∀ k ∈ after, (∃ p, k.IsOperation I p) ∧ o.precedence < k.precedence := fun k hk =>
      ⟨hlinks k (List.mem_append_right _ (List.mem_cons_of_mem _ hk)), hlink.precedence ▸ hafter k hk⟩
    rw [hlink.op, value_between hleft hright,
      climb_operation hlink hy hfront fun k hk => ⟨(hback k hk).1, Int.le_of_lt (hback k hk).2, fun _ => (hback k hk).2⟩]

/-! ### Signs in a commutative ring -/

/-- The sign as a factor. -/
def Sign.unit : Sign → ℤ
  | plus => 1
  | minus => -1

/-- The exact value of a number, if it is finite. -/
def rationalOf? : Datum → Option ℚ
  | .float x => x.toRat?
  | v => v.whole?.map fun n => (n : ℚ)

/-- Meanings in a commutative ring.  Rational numbers, as far as they have a place in the ring, keep their arithmetic, and what
is neither a number nor an operation of the ring has any value, or none. -/
structure RingInterpretation (R : Type u) [CommRing R] where
  /-- The rational numbers that have values. -/
  rationals : Subring ℚ
  ofRational : rationals →+* R
  /-- The values of all other nodes. -/
  other : Expr → Option R

namespace RingInterpretation

variable {R : Type u} [CommRing R] (I : RingInterpretation R)

open Classical in
/-- The value of a rational number. -/
noncomputable def rational (q : ℚ) : Option R := if h : q ∈ I.rationals then some (I.ofRational ⟨q, h⟩) else none

/-- The operation of the ring that an operator stands for. -/
def operation? (op : Datum) : Option (R → R → R) :=
  if op.isText "+" then some (· + ·)
  else if op.isText "-" then some (· - ·)
  else if op.isText "*" then some (· * ·)
  else none

/-- The value of an expression, exact in numbers, groups, signs and the operations of the ring as long as they carry no
scripts.  All else has the value that the interpretation gives the node. -/
noncomputable def value (e : Expr) : Option R :=
  if e.decorated then I.other e
  else match e with
    | number v _ _ => if v.isNumeric then (rationalOf? v).bind I.rational else I.other e
    | group inner _ _ _ => value inner
    | unary op operand _ _ =>
      if op.isText "+" then value operand
      else if op.isText "-" then (value operand).map fun x => -x
      else I.other e
    | binary op left right _ _ =>
      match operation? op with
      | some f => do return f (← value left) (← value right)
      | none => I.other e
    | _ => I.other e

variable {I}

theorem rational_unit (s : Sign) (q : ℚ) : I.rational (s.unit * q) = (I.rational q).map fun x => (s.unit : R) * x := by
  cases s with
  | plus => simp [Sign.unit]
  | minus =>
    have hmem : -q ∈ I.rationals ↔ q ∈ I.rationals := neg_mem_iff
    by_cases hq : q ∈ I.rationals
    · have hneg : I.ofRational ⟨-q, hmem.mpr hq⟩ = -I.ofRational ⟨q, hq⟩ := map_neg I.ofRational ⟨q, hq⟩
      simp [Sign.unit, rational, hq, hneg]
    · simp [Sign.unit, rational, hq]

theorem value_ofNumber {v : Datum} (h : v.isNumeric = true) : I.value (ofNumber v) = (rationalOf? v).bind I.rational := by
  unfold value ofNumber
  simp [decorated, sup, sub, isMissing, h]

theorem value_between_product (l r : Expr) : I.value (between "*" l r) = do return (← I.value l) * (← I.value r) := by
  rw [value.eq_def]
  rfl

theorem value_before_sign (s : Sign) (e : Expr) :
    I.value (before (.text s.name) e) = (I.value e).map fun x => (s.unit : R) * x := by
  rw [value.eq_def]
  cases s with
  | plus =>
    show I.value e = _
    simp [Sign.unit]
  | minus =>
    show (I.value e).map (fun x => -x) = _
    simp [Sign.unit]

/-- What multiplies the first factor multiplies the product. -/
theorem value_foldl {first first' : Expr} {u : R} (h : I.value first' = (I.value first).map fun x => u * x)
    (factors : List Expr) : I.value (factors.foldl (between "*") first') =
      (I.value (factors.foldl (between "*") first)).map fun x => u * x := by
  induction factors generalizing first first' with
  | nil => exact h
  | cons f factors ih =>
    refine ih ?_
    rw [value_between_product, value_between_product, h]
    cases I.value first with
    | none => rfl
    | some x =>
      cases I.value f with
      | none => rfl
      | some y => exact congrArg some (mul_assoc u x y)

end RingInterpretation

namespace Expr

/-- A number with a sign in front is a number, and its value is multiplied. -/
theorem rationalOf?_signed {s : Sign} {v w : Datum} (h : signed? (.text s.name) v = some w) :
    v.isNumeric = true ∧ w.isNumeric = true ∧ rationalOf? w = (rationalOf? v).map fun q => (s.unit : ℚ) * q := by
  cases s with
  | plus =>
    have hsame : v.isNumeric = true ∧ v = w := by
      cases v with
      | bool | int | float => exact ⟨rfl, Option.some.inj h⟩
      | _ => cases h
    obtain ⟨hv, rfl⟩ := hsame
    exact ⟨hv, hv, by simp [Sign.unit]⟩
  | minus =>
    cases v with
    | bool b =>
      obtain rfl : Datum.int (-Datum.ofBool b) = w := Option.some.inj h
      exact ⟨rfl, rfl, by simp [rationalOf?, Datum.whole?, Sign.unit]⟩
    | int n =>
      obtain rfl : Datum.int (-n) = w := Option.some.inj h
      exact ⟨rfl, rfl, by simp [rationalOf?, Datum.whole?, Sign.unit]⟩
    | float x =>
      obtain rfl : Datum.float x.neg = w := Option.some.inj h
      exact ⟨rfl, rfl, by simp [rationalOf?, Sign.unit, toRat?_neg]⟩
    | _ => cases h

theorem signed?_of_isNumeric (sign : Datum) {v : Datum} (h : v.isNumeric = true) : ∃ w, signed? sign v = some w := by
  cases v with
  | bool | int | float => exact ⟨_, rfl⟩
  | _ => cases h

/-- A sign in front of a product goes to its first factor, or nowhere. -/
theorem foldSign?_foldl (sign : Datum) (first : Expr) (factors : List Expr) :
    foldSign? sign (factors.foldl (between "*") first) =
      (foldSign? sign first).map fun e => factors.foldl (between "*") e := by
  induction factors generalizing first with
  | nil => simp
  | cons f factors ih =>
    have hproduct : foldSign? sign (between "*" first f) = (foldSign? sign first).map fun l => between "*" l f := rfl
    rw [List.foldl_cons, ih, hproduct, Option.map_map]
    rfl

/-- A sign is folded only into the first factor of a product, which is a number. -/
theorem foldSign?_eq_some {sign : Datum} {e e' : Expr} (h : foldSign? sign e = some e') :
    ∃ (v w : Datum) (factors : List Expr), signed? sign v = some w ∧ e = factors.foldl (between "*") (ofNumber v) ∧
      e' = factors.foldl (between "*") (ofNumber w) := by
  have htakes := takesSign_of_foldSign? h
  clear h
  induction htakes with
  | @number v w hw => exact ⟨v, w, [], hw, rfl, rfl⟩
  | product r _ ih =>
    obtain ⟨v, w, factors, hw, rfl, rfl⟩ := ih
    refine ⟨v, w, factors ++ [r], hw, ?_, ?_⟩
    · rw [List.foldl_append]
      rfl
    · rw [List.foldl_append]
      rfl

end Expr

open RingInterpretation in
/-- **A sign in front of an expression multiplies its value** in every commutative ring.  If the expression is a product
without scripts, of one factor or more, whose first one is a number without scripts, then the sign is folded into that number
and nothing else is changed; otherwise it is kept in front. -/
theorem withSign_multiplies {R : Type u} [CommRing R] (I : RingInterpretation R) (s : Sign) (e : Expr) :
    I.value (withSign (.text s.name) e) = (I.value e).map (fun x => (s.unit : R) * x) ∧
      ((∃ (v w : Datum) (factors : List Expr), v.isNumeric = true ∧ w.isNumeric = true ∧
          e = factors.foldl (between "*") (ofNumber v) ∧
          withSign (.text s.name) e = factors.foldl (between "*") (ofNumber w)) ∨
        withSign (.text s.name) e = before (.text s.name) e ∧
          ∀ (v : Datum) (factors : List Expr), v.isNumeric = true → e ≠ factors.foldl (between "*") (ofNumber v)) := by
  unfold withSign
  cases hfold : foldSign? (.text s.name) e with
  | some e' =>
    obtain ⟨v, w, factors, hw, rfl, rfl⟩ := foldSign?_eq_some hfold
    obtain ⟨hv, hnumeric, hvalue⟩ := rationalOf?_signed hw
    have hnumber : I.value (ofNumber w) = (I.value (ofNumber v)).map fun x => (s.unit : R) * x := by
      rw [value_ofNumber hnumeric, value_ofNumber hv, hvalue]
      cases rationalOf? v with
      | none => rfl
      | some q => exact rational_unit s q
    exact ⟨value_foldl hnumber factors, .inl ⟨v, w, factors, hv, hnumeric, rfl, rfl⟩⟩
  | none =>
    refine ⟨value_before_sign s e, .inr ⟨rfl, ?_⟩⟩
    rintro v factors hv rfl
    obtain ⟨w, hw⟩ := signed?_of_isNumeric (.text s.name) hv
    have hnumber : foldSign? (.text s.name) (ofNumber v) = some (ofNumber w) := congrArg (Option.map ofNumber) hw
    rw [foldSign?_foldl, hnumber] at hfold
    cases hfold

end Formula
