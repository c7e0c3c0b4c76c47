import Mathlib.Algebra.BigOperators.Group.List.Basic
import Formula.Proofs.Expr.Compact
import Formula.Proofs.Expr.RoundTrip

/-!
# Products through their compact text

In the compact style the factors of a product touch, and what is written may be read as something else: a sign as that of
a sum, a fraction behind a number as part of a mixed number, a letter between two numbers as the mark of an exponent, and
parentheses behind the name of a function as its arguments.  These are the only four cases.  A product whose factors keep
apart (`keepsApart`) is written and read again with the value that it had, in every field and for all values of its
letters.
-/

namespace Formula

open Number Text Expr

universe u

/-! ### Values of products -/

section

variable {K : Type u} [Field K] {I : Interpretation K}

/-- The value of factors, each with a value. -/
def Factor.values (I : Interpretation K) (factors : List Factor) : K :=
  (factors.map fun f => valueOr I f.expr).prod

/-- All factors have a value. -/
def Factor.Valued (I : Interpretation K) (factors : List Factor) : Prop := ∀ f ∈ factors, ∃ x, value I f.expr = some x

theorem value_factors : ∀ {more : List Factor} {e : Expr} {x : K}, Factor.Valued I more → value I e = some x →
    value I (more.foldl (fun e g => between (.text "*") e g.expr) e) = some (x * Factor.values I more)
  | [], e, x, _, h => by
    rw [Factor.values, List.map_nil, List.prod_nil, mul_one]
    exact h
  | f :: more, e, x, hmore, h => by
    obtain ⟨y, hy⟩ := hmore f List.mem_cons_self
    have hstep := value_factors (fun g hg => hmore g (List.mem_cons_of_mem _ hg))
      (@value_between K _ I .product e f.expr x y h hy)
    refine hstep.trans (congrArg some ?_)
    rw [Factor.values, Factor.values, List.map_cons, List.prod_cons, valueOr_of_value hy]
    exact mul_assoc x y _

theorem value_product {f : Factor} {more : List Factor} (h : Factor.Valued I (f :: more)) :
    value I (f.product more) = some (Factor.values I (f :: more)) := by
  obtain ⟨x, hx⟩ := h f List.mem_cons_self
  rw [Factor.product, value_factors (fun g hg => h g (List.mem_cons_of_mem _ hg)) hx, Factor.values, Factor.values,
    List.map_cons, List.prod_cons, valueOr_of_value hx]

/-- The factors of the runs are those of the product. -/
theorem mem_runs : ∀ (f : Factor) (more : List Factor), (∀ g ∈ (f.runs more).1, g ∈ more) ∧
    ∀ run ∈ (f.runs more).2, ∀ g ∈ run.1 :: run.2, g ∈ more
  | f, [] => ⟨fun _ h => (by cases h), fun _ h => by cases h⟩
  | f, g :: more => by
    obtain ⟨hown, hothers⟩ := mem_runs g more
    have hrun : ∀ h ∈ g :: (g.runs more).1, h ∈ g :: more := fun h hh =>
      (List.mem_cons.mp hh).elim (fun heq => heq ▸ List.mem_cons_self) fun hh => List.mem_cons_of_mem _ (hown h hh)
    have hmore : ∀ run ∈ (g.runs more).2, ∀ h ∈ run.1 :: run.2, h ∈ g :: more := fun run hr h hh =>
      List.mem_cons_of_mem _ (hothers run hr h hh)
    rw [Factor.runs]
    split
    · refine ⟨fun _ h => (by cases h), fun run hr => ?_⟩
      rcases List.mem_cons.mp hr with rfl | hr
      · exact hrun
      · exact hmore run hr
    · exact ⟨hrun, hmore⟩

/-- The value of a product is that of its runs. -/
theorem values_runs : ∀ (f : Factor) (more : List Factor), Factor.values I (f :: more) =
    Factor.values I (f :: (f.runs more).1) * ((f.runs more).2.map fun run => Factor.values I (run.1 :: run.2)).prod
  | f, [] => by rw [Factor.runs, List.map_nil, List.prod_nil, mul_one]
  | f, g :: more => by
    have hmore := values_runs g more
    have hcons : ∀ factors, Factor.values I (f :: factors) = valueOr I f.expr * Factor.values I factors := fun factors => by
      rw [Factor.values, List.map_cons, List.prod_cons]
      rfl
    rw [hcons (g :: more), hmore, Factor.runs]
    split
    · rw [List.map_cons, List.prod_cons, hcons []]
      rw [show Factor.values I [] = 1 from rfl, mul_one]
    · rw [hcons (g :: _), mul_assoc]

/-- A chain of products has the product of its values. -/
theorem climb_factors {val : Expr → K} : ∀ {links : List Link} (x : K), (∀ link ∈ links, link.isFactor = true) →
    climb val 0 x links = x * (links.map fun link => val link.operand).prod
  | [], x, _ => by rw [climb, zero_add, List.map_nil, List.prod_nil, mul_one]
  | link :: links, x, h => by
    rw [climb_factor (h link List.mem_cons_self), climb_factors _ fun k hk => h k (List.mem_cons_of_mem _ hk), List.map_cons,
      List.prod_cons, mul_assoc]

/-- Signs in front of a value. -/
def signsOn (signs : List Sign) (x : K) : K := signs.foldr Sign.on x

theorem signsOn_mul (x y : K) : ∀ signs : List Sign, signsOn signs x * y = signsOn signs (x * y)
  | [] => rfl
  | s :: signs => (s.on_mul _ y).trans (congrArg s.on (signsOn_mul x y signs))

theorem value_signs {e : Expr} {x : K} (h : value I e = some x) : ∀ signs : List Sign,
    value I (signs.foldr (fun s e => withSign (.text s.name) e) e) = some (signsOn signs x)
  | [] => h
  | _ :: signs => value_withSign (value_signs h signs)

/-- The value of a product with its signs. -/
def FactorProduct.value (I : Interpretation K) (p : FactorProduct) : K :=
  signsOn p.signs (Factor.values I (p.first :: p.more))

/-- **The tree that a product is read as has the value of the product.** -/
theorem FactorProduct.value_of_arranges (p : FactorProduct) (h : Factor.Valued I (p.first :: p.more)) {e : Expr}
    (harranged : Arranges p.start p.links e) : Expr.value I e = some (p.value I) := by
  obtain ⟨hrun, hruns⟩ := mem_runs p.first p.more
  have hfirst : Factor.Valued I (p.first :: (p.first.runs p.more).1) := fun f hf =>
    h f ((List.mem_cons.mp hf).elim (fun heq => heq ▸ List.mem_cons_self) fun hf => List.mem_cons_of_mem _ (hrun f hf))
  have hothers : ∀ run ∈ (p.first.runs p.more).2,
      Expr.value I (run.1.product run.2) = some (Factor.values I (run.1 :: run.2)) := fun run hr =>
    value_product fun f hf => h f (List.mem_cons_of_mem _ (hruns run hr f hf))
  have hoperations : ∀ link ∈ p.links, link.IsOperation I .product := by
    intro link hl
    obtain ⟨run, hr, rfl⟩ := List.mem_map.mp hl
    exact ⟨rfl, rfl, _, hothers run hr⟩
  have hvalues : p.links.map (fun link => valueOr I link.operand) =
      (p.first.runs p.more).2.map fun run => Factor.values I (run.1 :: run.2) := by
    rw [links, List.map_map]
    exact List.map_congr_left fun run hr => valueOr_of_value (hothers run hr)
  rw [harranged.value (value_signs (value_product hfirst) p.signs) fun link hl => ⟨_, hoperations link hl⟩,
    climb_factors _ fun link hl => by rw [(hoperations link hl).isFactor]; rfl, hvalues, signsOn_mul, ← values_runs]
  rfl

end

/-! ### Factors that keep apart -/

/-- How a factor touches its neighbours: whether a sign stands in front, and its kind behind the signs. -/
structure Shape where
  signed : Bool
  kind : FactorKind
deriving DecidableEq

/-- A minus stands in front of the number. -/
def Datum.isNegative : Datum → Bool
  | .int n => decide (n < 0)
  | .float (.finite negative m _) => negative && m != 0
  | _ => false

namespace Expr

/-- A letter or a number without a sign: as a group it has no parentheses. -/
def isBare : Expr → Bool
  | symbol .. => true
  | number v _ _ => !v.isNegative
  | _ => false

/-- The expression as a factor.  A product that is one has parentheses. -/
def shape : Expr → Shape
  | number v _ _ => ⟨v.isNegative, .digits⟩
  | symbol (.text name) _ _ _ => ⟨false, .letter name⟩
  | unary _ e _ _ => ⟨true, (shape e).kind⟩
  | group e _ _ _ => if e.isBare then shape e else ⟨false, .fence⟩
  | fraction .. => ⟨false, .fraction⟩
  | _ => ⟨false, .fence⟩

/-- The factors of a product, one by one. -/
def factors : Expr → List Shape
  | binary _ l r _ _ => factors l ++ factors r
  | e => [shape e]

/-- No factor but the first has a sign. -/
def unsignedBehind (shapes : List Shape) : Bool := (shapes.drop 1).all fun s => !s.signed

/-- No factor is read as something else: none behind another has a sign, the first is not called with the second, and numbers
stay what they are. -/
def apart (shapes : List Shape) : Bool :=
  unsignedBehind shapes && !FactorKind.calls (shapes.map Shape.kind) && FactorKind.keeps (shapes.map Shape.kind)

theorem unsignedBehind_append {shapes : List Shape} (h : shapes ≠ []) (more : List Shape) :
    unsignedBehind (shapes ++ more) = (unsignedBehind shapes && more.all fun s => !s.signed) := by
  obtain ⟨s, behind, rfl⟩ := List.exists_cons_of_ne_nil h
  exact List.all_append

theorem unsignedBehind_of_all {shapes : List Shape} (h : (shapes.all fun s => !s.signed) = true) :
    unsignedBehind shapes = true :=
  List.all_eq_true.mpr fun s hs => List.all_eq_true.mp h s (List.mem_of_mem_drop hs)

/-- The factors of every product inside the expression keep apart. -/
def partsApart : Expr → Bool
  | binary _ l r _ _ => partsApart l && partsApart r
  | unary _ e _ _ | group e _ _ _ => apart e.factors && partsApart e
  | fraction n d _ _ => apart n.factors && partsApart n && (apart d.factors && partsApart d)
  | _ => true

/-- The factors of every product keep apart. -/
def keepsApart (e : Expr) : Bool := apart e.factors && e.partsApart

end Expr

/-- Products of whole numbers of at most ten digits, letters, and what is built from them with signs, fractions and
parentheses. -/
inductive ProductTerm : Expr → Prop
  | number {value : Datum} {n : Int} : value.IsWhole n → n.natAbs < tenTo 10 → ProductTerm (ofNumber value)
  | letter {d : Char} : d.isAlpha = true → ProductTerm (ofSymbol (.text d.toString) .null)
  | product {l r : Expr} : ProductTerm l → ProductTerm r → ProductTerm (between (.text "*") l r)
  | signed (s : Sign) {e : Expr} : ProductTerm e → ProductTerm (before (.text s.name) e)
  | fraction {n d : Expr} : ProductTerm n → ProductTerm d → ProductTerm (quotient n d)
  | group {e : Expr} : ProductTerm e → ProductTerm (fenced e parentheses)

/-! ### Products as they are written -/

/-- The factors of the product as they touch each other. -/
def FactorProduct.shapes (p : FactorProduct) : List Shape :=
  ⟨!p.signs.isEmpty, p.first.kind⟩ :: p.more.map fun f => ⟨false, f.kind⟩

theorem FactorProduct.kinds_shapes (p : FactorProduct) : p.shapes.map Shape.kind = p.kinds := by
  rw [shapes, List.map_cons, List.map_map, kinds, List.map_cons]
  rfl

theorem FactorProduct.shapes_append (p : FactorProduct) {q : FactorProduct} (hq : q.signs = []) :
    (p.append q).shapes = p.shapes ++ q.shapes := by
  obtain ⟨_, g, behind⟩ := q
  obtain rfl := hq
  rw [shapes, append, List.map_append, shapes, List.cons_append]
  rfl

/-- The expression is written as the product, and has its value. -/
structure Written (t : Expr) (p : FactorProduct) : Prop where
  latex : t.latex Format.compact .builtin = .ok p.text
  shapes : p.shapes = t.factors
  value : ∀ (K : Type u) [Field K] (I : Interpretation K),
    Factor.Valued I (p.first :: p.more) ∧ Expr.value I t = some (p.value I)

/-- **The text of a product whose factors keep apart is read as an expression of its value.** -/
theorem Written.phrase {t : Expr} {p : FactorProduct} (h : Written.{u} t p) (hapart : apart t.factors = true) :
    ∃ phrase : Phrase, t.latex Format.compact .builtin = .ok phrase.text ∧ SameValue.{u} t phrase.expr := by
  rw [← h.shapes, apart, p.kinds_shapes, Bool.and_eq_true, Bool.and_eq_true, Bool.not_eq_true'] at hapart
  obtain ⟨e, harranged, hreads⟩ := p.isExpression hapart.2 hapart.1.2
  refine ⟨⟨p.text, p.row, e, p.spells, p.unspaced, hreads⟩, h.latex, fun K _ I => ?_⟩
  obtain ⟨hvalued, hvalue⟩ := h.value K I
  exact ⟨_, hvalue, p.value_of_arranges hvalued harranged⟩

/-- A single factor has its own value. -/
theorem FactorProduct.value_single {K : Type u} [Field K] {I : Interpretation K} (signs : List Sign) {f : Factor} {x : K}
    (h : Expr.value I f.expr = some x) : (single signs f).value I = signsOn signs x := by
  rw [value, single, Factor.values, List.map_singleton, List.prod_singleton, valueOr_of_value h]

/-- An expression that is written as one factor with signs. -/
theorem Written.of_factor {t : Expr} (signs : List Sign) (f : Factor)
    (hlatex : t.latex Format.compact .builtin = .ok (FactorProduct.single signs f).text)
    (hshape : t.factors = [⟨!signs.isEmpty, f.kind⟩])
    (hvalue : ∀ (K : Type u) [Field K] (I : Interpretation K), ∃ x,
      Expr.value I f.expr = some x ∧ Expr.value I t = some (signsOn signs x)) :
    Written.{u} t (.single signs f) where
  latex := hlatex
  shapes := hshape.symm
  value K _ I := by
    obtain ⟨x, hx, ht⟩ := hvalue K I
    exact ⟨List.forall_mem_singleton.mpr ⟨x, hx⟩, by rw [FactorProduct.value_single signs hx]; exact ht⟩

/-! ### The nodes of a product -/

theorem isNegative_whole {value : Datum} {n : Int} (h : value.IsWhole n) (hlt : n.natAbs < tenTo 10) :
    value.isNegative = decide (n < 0) := by
  cases h with
  | int => rfl
  | minusZero => rfl
  | float =>
    by_cases hzero : n = 0
    · subst hzero
      rfl
    · have hpos : 0 < n.natAbs := Int.natAbs_pos.mpr hzero
      have hsig : Double.wholeSignificand n.natAbs ≠ 0 :=
        Nat.pos_iff_ne_zero.mp (Nat.mul_pos hpos (twoTo_pos _))
      have hfinite : Double.ofInt n = _ := Double.ofRatio_whole (decide (n < 0)) hpos (Nat.lt_trans hlt (by decide))
      rw [hfinite]
      show (decide (n < 0) && (Double.wholeSignificand n.natAbs != 0)) = _
      rw [bne_iff_ne.mpr hsig, Bool.and_true]

/-- **Whole numbers.** -/
theorem written_number {value : Datum} {n : Int} (h : value.IsWhole n) (hlt : n.natAbs < tenTo 10) :
    ∃ p, Written.{u} (ofNumber value) p := by
  have hlt' : n.natAbs < tenTo 14 := Nat.lt_trans hlt (by decide)
  have hlatex := latex_number (Format.number_compact h hlt) isSuperText_missing
  rw [String.append_empty] at hlatex
  refine ⟨_, .of_factor (if n < 0 then [.minus] else []) (.number n.natAbs hlt') (hlatex.trans ?_) ?_ fun K _ I => ?_⟩
  · unfold Format.signText
    split
    · rfl
    · exact congrArg Except.ok String.empty_append
  · show [(⟨value.isNegative, .digits⟩ : Shape)] = _
    rw [isNegative_whole h hlt]
    split
    · rename_i hneg
      rw [decide_eq_true hneg]
      rfl
    · rename_i hneg
      rw [decide_eq_false hneg]
      rfl
  · have hown : Expr.value I (ofNumber (.float (.ofInt n.natAbs))) = some (((n.natAbs : Int)) : K) :=
      valueOf_whole (.float (n.natAbs : Int)) (by rwa [Int.natAbs_natCast]) K
    refine ⟨_, hown, (valueOf_whole h hlt' K).trans (congrArg some ?_)⟩
    split
    · rename_i hneg
      show _ = -(((n.natAbs : Int)) : K)
      rw [Int.ofNat_natAbs_of_nonpos hneg.le, Int.cast_neg, neg_neg]
    · rename_i hneg
      rw [Int.natAbs_of_nonneg (not_lt.mp hneg)]
      rfl

/-- **Letters.** -/
theorem written_letter {d : Char} (hd : d.isAlpha = true) : ∃ p, Written.{u} (ofSymbol (.text d.toString) .null) p := by
  have hlatex := @latex_letter Format.compact d hd missing "" isSuperText_missing
  rw [String.append_empty] at hlatex
  exact ⟨_, .of_factor [] (.letter d hd) hlatex rfl fun K _ I => ⟨_, rfl, rfl⟩⟩

/-- Between the factors of a product stands no parenthesis. -/
theorem ProductTerm.operand {t : Expr} (h : ProductTerm t) : ∃ own, t.precedence .builtin = .ok own ∧
    ∀ right text, operandLatex own Operation.product.precedence right (.text "*") text = text := by
  cases h with
  | product => exact ⟨_, rfl, fun right text => by cases right <;> rfl⟩
  | _ => exact ⟨none, rfl, fun _ _ => rfl⟩

theorem ProductTerm.factors_ne_nil {t : Expr} (h : ProductTerm t) : t.factors ≠ [] := by
  induction h with
  | product _ _ ih _ => exact List.append_ne_nil_of_left_ne_nil ih _
  | _ => exact List.cons_ne_nil _ _

/-- A product is in parentheses where it is one factor, and any other node is a factor of its own. -/
theorem ProductTerm.isPlainOperation {t : Expr} (h : ProductTerm t) :
    (t.isPlainOperation = true ∧ t.shape = ⟨false, .fence⟩) ∨ (t.isPlainOperation = false ∧ t.factors = [t.shape]) := by
  cases h with
  | product => exact .inl ⟨rfl, rfl⟩
  | _ => exact .inr ⟨rfl, rfl⟩

theorem ProductTerm.isSimple {t : Expr} (h : ProductTerm t) : t.isSimple Format.compact = .ok t.isBare := by
  cases h with
  | number h hlt =>
    rw [Format.isSimple_number_compact h hlt]
    show _ = Except.ok (!Datum.isNegative _)
    rw [isNegative_whole h hlt, ← decide_not]
    exact congrArg Except.ok (decide_eq_decide.mpr Int.not_lt.symm)
  | _ => rfl

theorem ProductTerm.factors_of_isBare {t : Expr} (h : ProductTerm t) (hbare : t.isBare = true) : t.factors = [t.shape] := by
  cases h with
  | product => cases hbare
  | _ => rfl

section

variable {e l r : Expr} {p q : FactorProduct}

/-- **Products.** -/
theorem Written.product (hl : Written.{u} l p) (hr : Written.{u} r q) (hsl : ProductTerm l) (hsr : ProductTerm r)
    (hunsigned : q.signs = []) : Written.{u} (between (.text "*") l r) (p.append q) where
  latex := by
    obtain ⟨own, hown, hleft⟩ := hsl.operand
    obtain ⟨own', hown', hright⟩ := hsr.operand
    show guarded (binaryLatex Format.compact .builtin (.text "*") l r false (Expr.latex Format.compact .builtin l)
      (Expr.latex Format.compact .builtin r) (.ok "")) = _
    obtain ⟨sign, hsign, hjoin⟩ := p.join_products q hunsigned
    unfold binaryLatex
    rw [hl.latex, hr.latex, hown, hown']
    show guarded (do
      let sign ← productSign Format.compact (operandLatex own Operation.product.precedence false (.text "*") p.text)
        (operandLatex own' Operation.product.precedence true (.text "*") q.text)
      return Format.join [operandLatex own Operation.product.precedence false (.text "*") p.text, sign,
        operandLatex own' Operation.product.precedence true (.text "*") q.text] ++ "") = _
    rw [hleft, hright, hsign]
    show Except.ok (Format.join [p.text, sign, q.text] ++ "") = _
    rw [String.append_empty, hjoin]
  shapes := by rw [p.shapes_append hunsigned, hl.shapes, hr.shapes]; rfl
  value K _ I := by
    obtain ⟨hvalued, hleft⟩ := hl.value K I
    obtain ⟨hvalued', hright⟩ := hr.value K I
    have hboth : Factor.Valued I (p.first :: p.more ++ q.first :: q.more) := List.forall_mem_append.mpr ⟨hvalued, hvalued'⟩
    refine ⟨hboth, ?_⟩
    refine (@value_between K _ I .product l r _ _ hleft hright).trans (congrArg some ?_)
    show signsOn p.signs _ * signsOn q.signs _ = signsOn p.signs _
    rw [hunsigned]
    show signsOn p.signs _ * Factor.values I (q.first :: q.more) = _
    rw [signsOn_mul, Factor.values, Factor.values, Factor.values, ← List.prod_append, ← List.map_append]
    rfl

/-- **Fractions.** -/
theorem written_fraction {n d : Phrase} (hn : l.latex Format.compact .builtin = .ok n.text) (hl : SameValue.{u} l n.expr)
    (hd : r.latex Format.compact .builtin = .ok d.text) (hr : SameValue.{u} r d.expr) :
    ∃ p, Written.{u} (quotient l r) p := by
  have hlatex := latex_fraction hn hd isSuperText_missing
  rw [String.append_empty] at hlatex
  refine ⟨_, .of_factor [] (.fraction n d) hlatex rfl fun K _ I => ?_⟩
  obtain ⟨x, hx, hx'⟩ := hl K I
  obtain ⟨y, hy, hy'⟩ := hr K I
  have hvalue : ∀ {a b : Expr}, Expr.value I a = some x → Expr.value I b = some y →
      Expr.value I (quotient a b) = some (x / y) := by
    intro a b ha hb
    show (do return (← Expr.value I a) / (← Expr.value I b)) = _
    rw [ha, hb]
    rfl
  exact ⟨_, hvalue hx' hy', hvalue hx hy⟩

/-- **Groups**, which have parentheses around all but letters and unsigned numbers. -/
theorem Written.group (h : Written.{u} e p) (he : ProductTerm e) (hapart : apart e.factors = true) :
    ∃ p, Written.{u} (fenced e parentheses) p := by
  have hlatex := latex_group he.isSimple h.latex isSuperText_missing
  rw [String.append_empty] at hlatex
  have hshape : (fenced e parentheses).factors = [if e.isBare then e.shape else ⟨false, .fence⟩] := rfl
  cases hbare : e.isBare with
  | true =>
    rw [hbare] at hlatex hshape
    exact ⟨p, hlatex, by rw [h.shapes, he.factors_of_isBare hbare, hshape]; rfl, h.value⟩
  | false =>
    rw [hbare] at hlatex hshape
    obtain ⟨phrase, htext, hsame⟩ := h.phrase hapart
    obtain heq : p.text = phrase.text := Except.ok.inj (h.latex.symm.trans htext)
    rw [heq] at hlatex
    refine ⟨_, .of_factor [] (.fence phrase) hlatex hshape fun K _ I => ?_⟩
    obtain ⟨x, hx, hx'⟩ := hsame K I
    exact ⟨x, hx', hx⟩

/-- **Signs in front**, with parentheses around a product. -/
theorem Written.signed (h : Written.{u} e p) (he : ProductTerm e) (hapart : apart e.factors = true) (sign : Sign) :
    ∃ p, Written.{u} (before (.text sign.name) e) p := by
  have hlatex := latex_signed sign h.latex
  have hshape : (before (.text sign.name) e).factors = [⟨true, e.shape.kind⟩] := rfl
  rcases he.isPlainOperation with ⟨hplain, hfence⟩ | ⟨hplain, hfactors⟩
  · obtain ⟨phrase, htext, hsame⟩ := h.phrase hapart
    obtain heq : p.text = phrase.text := Except.ok.inj (h.latex.symm.trans htext)
    rw [hplain, heq] at hlatex
    rw [hfence] at hshape
    refine ⟨_, .of_factor [sign] (.fence phrase) hlatex hshape fun K _ I => ?_⟩
    obtain ⟨x, hx, hx'⟩ := hsame K I
    exact ⟨x, hx', value_before hx⟩
  · obtain ⟨signs, first, more⟩ := p
    have hown := h.shapes
    rw [hfactors] at hown
    obtain ⟨hfirst, hmore⟩ := List.cons.inj hown
    obtain rfl : more = [] := List.map_eq_nil_iff.mp hmore
    rw [hplain] at hlatex
    rw [← hfirst] at hshape
    refine ⟨_, .of_factor (sign :: signs) first hlatex hshape fun K _ I => ?_⟩
    obtain ⟨hvalued, hvalue⟩ := h.value K I
    obtain ⟨x, hx⟩ := hvalued first List.mem_cons_self
    refine ⟨x, hx, (value_before hvalue).trans ?_⟩
    show some (sign.on (FactorProduct.value I (.single signs first))) = _
    rw [FactorProduct.value_single signs hx]
    rfl

end

/-! ### Products are read again -/

/-- Every product whose parts keep apart and whose inner factors have no signs is written as a product of factors. -/
theorem ProductTerm.written {t : Expr} (h : ProductTerm t) (hunsigned : unsignedBehind t.factors = true)
    (hparts : t.partsApart = true) : ∃ p, Written.{u} t p := by
  -- a part keeps apart by itself
  have inside : ∀ {e : Expr}, (unsignedBehind e.factors = true → e.partsApart = true → ∃ p, Written.{u} e p) →
      (apart e.factors && e.partsApart) = true → ∃ p, Written.{u} e p ∧ apart e.factors = true := by
    intro e ih hboth
    obtain ⟨hapart, hparts⟩ := Bool.and_eq_true_iff.mp hboth
    have hunsigned := hapart
    rw [apart, Bool.and_eq_true, Bool.and_eq_true] at hunsigned
    obtain ⟨p, hp⟩ := ih hunsigned.1.1 hparts
    exact ⟨p, hp, hapart⟩
  induction h with
  | number h hlt => exact written_number h hlt
  | letter hd => exact written_letter hd
  | @product l r hl hr ihl ihr =>
    obtain ⟨hpl, hpr⟩ := Bool.and_eq_true_iff.mp hparts
    have hboth : unsignedBehind (l.factors ++ r.factors) = true := hunsigned
    rw [unsignedBehind_append hl.factors_ne_nil, Bool.and_eq_true] at hboth
    obtain ⟨p, hp⟩ := ihl hboth.1 hpl
    obtain ⟨q, hq⟩ := ihr (unsignedBehind_of_all hboth.2) hpr
    have hfirst := List.all_eq_true.mp hboth.2 ⟨!q.signs.isEmpty, q.first.kind⟩ (hq.shapes ▸ List.mem_cons_self)
    rw [Bool.not_not, List.isEmpty_iff] at hfirst
    exact ⟨_, hp.product hq hl hr hfirst⟩
  | signed s he ih =>
    obtain ⟨p, hp, hapart⟩ := inside ih hparts
    exact hp.signed he hapart s
  | fraction hn hd ihn ihd =>
    obtain ⟨hpn, hpd⟩ := Bool.and_eq_true_iff.mp hparts
    obtain ⟨p, hp, hapart⟩ := inside ihn hpn
    obtain ⟨q, hq, hapart'⟩ := inside ihd hpd
    obtain ⟨n, hn, hsame⟩ := hp.phrase hapart
    obtain ⟨d, hd, hsame'⟩ := hq.phrase hapart'
    exact written_fraction hn hsame hd hsame'
  | group he ih =>
    obtain ⟨p, hp, hapart⟩ := inside ih hparts
    exact hp.group he hapart

/-- **A product whose factors keep apart has the value that it had when its compact text is read again.**  What is read
holds no errors, and has the same value in every field, for all values of its letters. -/
theorem compact_product_reread {t : Expr} (h : ProductTerm t) (hapart : t.keepsApart = true) : ∃ settings text atoms e,
    Settings.inStyle {} (.text "compact") = .ok settings ∧ t.latex settings.format .builtin = .ok text ∧
    Source.atoms .builtin text = .ok atoms ∧ ofAtoms .builtin atoms = .ok e ∧ e.errors = .ok [] ∧
    ∀ (K : Type u) [Field K] (I : Interpretation K), ∃ x, value I t = some x ∧ value I e = some x := by
  obtain ⟨settings, hstyle, hformat⟩ := Format.inStyle_compact
  obtain ⟨hown, hparts⟩ := Bool.and_eq_true_iff.mp hapart
  have hunsigned := hown
  rw [apart, Bool.and_eq_true, Bool.and_eq_true] at hunsigned
  obtain ⟨p, hp⟩ := h.written hunsigned.1.1 hparts
  obtain ⟨phrase, hlatex, hsame⟩ := Written.phrase.{u} hp hown
  have herrors : phrase.expr.errors = .ok [] := by
    obtain ⟨x, -, hx⟩ := hsame (ULift Rat) ⟨fun _ _ => 0, fun _ _ => 0, fun _ => 0, fun _ _ => 0⟩
    exact errors_of_value hx
  exact ⟨settings, phrase.text, phrase.row, phrase.expr, hstyle, by rw [hformat]; exact hlatex, phrase.spells.atoms,
    by rw [ofAtoms_eq, phrase.isWhole.read], herrors, hsame⟩

/-- `-3x(ab)\frac{2}{y}`: a negative number in front, a group and a fraction side by side. -/
theorem compact_product_reread_mixed : ∃ t : Expr,
    t = between "*" (between "*" (between "*" (ofNumber (.int (-3))) (ofSymbol "x" .null))
      (fenced (between "*" (ofSymbol "a" .null) (ofSymbol "b" .null)) parentheses))
      (quotient (ofNumber (.int 2)) (ofSymbol "y" .null)) ∧
    ProductTerm t ∧ t.keepsApart = true ∧ ∃ settings text atoms e,
      Settings.inStyle {} (.text "compact") = .ok settings ∧ t.latex settings.format .builtin = .ok text ∧
      Source.atoms .builtin text = .ok atoms ∧ ofAtoms .builtin atoms = .ok e ∧ e.errors = .ok [] ∧
      ∀ (K : Type) [Field K] (I : Interpretation K), ∃ x, value I t = some x ∧ value I e = some x := by
  have letter : ∀ d : Char, d.isAlpha = true → ProductTerm (ofSymbol (.text d.toString) .null) := fun _ => .letter
  have hterm : ProductTerm (between (.text "*") (between (.text "*") (between (.text "*") (ofNumber (.int (-3)))
      (ofSymbol (.text 'x'.toString) .null)) (fenced (between (.text "*") (ofSymbol (.text 'a'.toString) .null)
      (ofSymbol (.text 'b'.toString) .null)) parentheses))
      (quotient (ofNumber (.int 2)) (ofSymbol (.text 'y'.toString) .null))) :=
    .product (.product (.product (.number (.int (-3)) (by decide)) (letter 'x' (by decide)))
      (.group (.product (letter 'a' (by decide)) (letter 'b' (by decide)))))
      (.fraction (.number (.int 2) (by decide)) (letter 'y' (by decide)))
  exact ⟨_, rfl, hterm, rfl, compact_product_reread hterm rfl⟩

/-! ### Products that do not keep apart -/

/-- The rational interpretation in which every letter is two, and functions give back their argument. -/
def twos : Interpretation ℚ := ⟨fun _ _ => 2, fun x _ => x, id, fun _ x => x⟩

/-- The product is written as the text, and the text is read as an expression of another value. -/
structure Captured (t : Expr) (text : String) (written read : ℚ) : Prop where
  term : ProductTerm t
  latex : ∃ settings, Settings.inStyle {} (.text "compact") = .ok settings ∧ t.latex settings.format .builtin = .ok text
  value_written : value twos t = some written
  value_read : ∃ atoms e, Source.atoms .builtin text = .ok atoms ∧ ofAtoms .builtin atoms = .ok e ∧ value twos e = some read
  ne : written ≠ read

/-- **Each of the four ways in which factors touch changes the value of a product**: two times a half becomes two and a half, a
negative factor is subtracted, a letter between two numbers marks an exponent, and parentheses behind `f` hold its
arguments. -/
theorem compact_products_captured :
    Captured (between "*" (ofNumber (.int 2)) (quotient (ofNumber (.int 1)) (ofNumber (.int 2))))
      "2\\frac\x7b1\x7d\x7b2\x7d" 1 (5 / 2) ∧
    Captured (between "*" (ofSymbol "x" .null) (ofNumber (.int (-3)))) "x-3" (-6) (-1) ∧
    Captured (between "*" (between "*" (ofNumber (.int 2)) (ofSymbol "e" .null)) (ofNumber (.int 3))) "2e3" 12 2000 ∧
    Captured (between "*" (ofSymbol "f" .null) (fenced (between "*" (ofSymbol "a" .null) (ofSymbol "b" .null)) parentheses))
      "f(ab)" 8 4 := by
  have letter : ∀ d : Char, d.isAlpha = true → ProductTerm (ofSymbol (.text d.toString) .null) := fun _ => .letter
  have number : ∀ n : Int, n.natAbs < tenTo 10 → ProductTerm (ofNumber (.int n)) := fun n => .number (.int n)
  have evaluated : ∀ {text : String} {x : ℚ},
      ((Source.atoms .builtin text).toOption.bind fun atoms => (ofAtoms .builtin atoms).toOption).bind (value twos) = some x →
      ∃ atoms e, Source.atoms .builtin text = .ok atoms ∧ ofAtoms .builtin atoms = .ok e ∧ value twos e = some x := by
    intro text x h
    obtain ⟨e, he, hx⟩ := Option.bind_eq_some_iff.mp h
    obtain ⟨atoms, hatoms, he⟩ := Option.bind_eq_some_iff.mp he
    exact ⟨atoms, e, Outcome.eq_ok_of_toOption hatoms, Outcome.eq_ok_of_toOption he, hx⟩
  refine ⟨⟨.product (number 2 (by decide)) (.fraction (number 1 (by decide)) (number 2 (by decide))), ⟨_, rfl, rfl⟩, ?_,
      evaluated ?_, ?_⟩,
    ⟨.product (letter 'x' (by decide)) (number (-3) (by decide)), ⟨_, rfl, rfl⟩, ?_, evaluated ?_, ?_⟩,
    ⟨.product (.product (number 2 (by decide)) (letter 'e' (by decide))) (number 3 (by decide)), ⟨_, rfl, rfl⟩, ?_,
      evaluated ?_, ?_⟩,
    ⟨.product (letter 'f' (by decide)) (.group (.product (letter 'a' (by decide)) (letter 'b' (by decide)))), ⟨_, rfl, rfl⟩,
      ?_, evaluated ?_, ?_⟩⟩ <;> decide +kernel

end Formula
