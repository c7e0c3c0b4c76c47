import Formula.Proofs.Expr.SymbolText

/-!
# Products of symbols

A product of symbols is written with a dot between any two of them, and most such texts are read as the product again.  The
exception is a nabla with a symbol behind it: with the dot it is the mark of a divergence, and what is read is the product of
`symbolFactors`, in which every nabla but a last one has become a call.
-/

namespace Formula

open Text Atom Expr

/-- What the product of the symbols is read as: a nabla takes the factor behind it as the argument of a divergence. -/
def symbolFactors : List Char → List Expr
  | [] => []
  | d :: ds =>
    match symbolFactors ds with
    | [] => [letterSymbol d]
    | e :: es => if d = '∇' then apply "div" e :: es else letterSymbol d :: e :: es

/-! ### The text and its row -/

/-- A symbol behind a factor that binds as tightly as a product stands without parentheses, and so does the factor. -/
theorem IsWrittenSymbol.latex_times {d : Char} {s : String} {a : Atom} (h : IsWrittenSymbol d s a) {e : Expr} {front : String}
    {own : Option Int} (he : e.latex {} .builtin = .ok front) (hown : e.precedence .builtin = .ok own)
    (htight : ∀ q, own = some q → Infix.product.precedence ≤ q) :
    (between "*" e (letterSymbol d)).latex {} .builtin = .ok (front ++ (Infix.product.sign ++ s)) := by
  have hproduct := latex_infix .product he h.latex hown rfl isSuperText_missing
  rw [operandLatex_of_le (fun q hq => ⟨htight q hq, fun hright => by cases hright⟩),
    operandLatex_of_le (fun q hq => by cases hq), String.append_empty] at hproduct
  exact hproduct

/-- The symbols are written as the text, which spells the row: a dot stands between any two of them. -/
inductive WritesSymbols : List Char → String → List Atom → Prop
  | single {d : Char} {s : String} {a : Atom} : IsWrittenSymbol d s a → WritesSymbols [d] s [a]
  | cons {d : Char} {ds : List Char} {s t : String} {a : Atom} {row : List Atom} : IsWrittenSymbol d s a →
    WritesSymbols ds t row → WritesSymbols (d :: ds) (s ++ (Infix.product.sign ++ t)) (a :: Infix.product.atom :: row)

theorem writesSymbols_of_forall {d : Char} {ds : List Char} (h : ∀ e ∈ d :: ds, IsSymbolCharacter e) :
    ∃ text row, WritesSymbols (d :: ds) text row := by
  induction ds generalizing d with
  | nil =>
    obtain ⟨s, a, ha⟩ := (h d List.mem_cons_self).written
    exact ⟨s, [a], .single ha⟩
  | cons e ds ih =>
    obtain ⟨s, a, ha⟩ := (h d List.mem_cons_self).written
    obtain ⟨text, row, hrow⟩ := ih fun f hf => h f (List.mem_cons_of_mem _ hf)
    exact ⟨_, _, .cons ha hrow⟩

namespace WritesSymbols

variable {cs : List Char} {text : String} {row : List Atom}

theorem spells (h : WritesSymbols cs text row) : Source.SpellsBefore .builtin text row := by
  induction h with
  | single ha => exact ha.spells
  | cons ha _ ih =>
    have hall := (ha.spells.append Infix.product.spells_sign ⟨_, _, rfl, by decide⟩).append_before ih
    rw [String.append_assoc] at hall
    exact hall

theorem unspaced_eq (h : WritesSymbols cs text row) : unspaced row = row := by
  refine unspaced_eq_self ?_
  induction h with
  | single ha =>
    intro b hb
    rw [List.mem_singleton.mp hb]
    exact ha.type
  | cons ha _ ih =>
    intro b hb
    rcases List.mem_cons.mp hb with rfl | hb
    · exact ha.type
    · rcases List.mem_cons.mp hb with rfl | hb
      · decide
      · exact ih b hb

theorem worded (h : WritesSymbols cs text row) : ∀ a ∈ row, a.Worded := by
  induction h with
  | single ha => exact ha.addend.worded
  | @cons _ _ _ _ a _ ha _ ih =>
    intro b hb
    rcases List.mem_cons.mp hb with rfl | hb
    · exact ha.addend.worded b (List.mem_singleton_self b)
    · rcases List.mem_cons.mp hb with rfl | hb
      · exact Infix.product.isPlain_atom.worded
      · exact ih b hb

/-- Behind a factor the other symbols are written with a dot in front of each. -/
theorem latex_behind (h : WritesSymbols cs text row) {e : Expr} {front : String} {own : Option Int}
    (he : e.latex {} .builtin = .ok front) (hown : e.precedence .builtin = .ok own)
    (htight : ∀ q, own = some q → Infix.product.precedence ≤ q) :
    ((cs.map letterSymbol).foldl (between "*") e).latex {} .builtin = .ok (front ++ (Infix.product.sign ++ text)) := by
  induction h generalizing e front own with
  | single ha => exact ha.latex_times he hown htight
  | cons ha _ ih =>
    have hall := ih (ha.latex_times he hown htight) rfl fun q hq => Int.le_of_eq (Option.some.inj hq)
    rw [String.append_assoc, String.append_assoc] at hall
    exact hall

/-- **The product is written as the text.** -/
theorem latex (h : WritesSymbols cs text row) : (joined "*" (cs.map letterSymbol)).latex {} .builtin = .ok text := by
  cases h with
  | single ha => exact ha.latex
  | cons ha hrow => exact hrow.latex_behind ha.latex rfl fun q hq => by cases hq

/-- The row is read as its factors, one behind the other. -/
theorem reads (h : WritesSymbols cs text row) : ∃ e es rest, symbolFactors cs = e :: es ∧
    Grammar.primary .builtin [] row = .ok ⟨rest, e⟩ ∧ Repeats Infix.product.operator [] [] es rest ∧ Border .builtin [] rest := by
  have hclosers : InParentheses [] := fun _ h => by cases h
  induction h with
  | @single d s a ha =>
    have hread := ha.addend.primary hclosers (.nil []) .nil
    exact ⟨_, [], [], rfl, hread, .nil, .nil []⟩
  | @cons d ds s t a row ha hrow ih =>
    obtain ⟨e, es, rest, hfactors, hread, hrest, hborder⟩ := ih
    have hdot : Border .builtin [] (Infix.product.atom :: row) := Infix.product.operator.border hclosers hrow.worded
    rw [symbolFactors, hfactors]
    by_cases hd : d = '∇'
    · rw [ha.nabla hd]
      refine ⟨apply "div" e, es, rest, if_pos hd, ?_, hrest, hborder⟩
      exact Grammar.primary_digraph rfl (by decide) (by decide) hclosers hread hborder.stops
    · refine ⟨letterSymbol d, e :: es, _, if_neg hd, ?_, .cons hread hrest, hdot⟩
      exact (ha.operand hd).isPrimary.read [] _ hclosers hdot

end WritesSymbols

/-! ### The factors that are read -/

/-- How many operators stand on the way down to the leftmost operand. -/
def leftDepth : Expr → Nat
  | binary _ left _ _ _ => leftDepth left + 1
  | _ => 0

theorem leftDepth_foldl (e : Expr) (es : List Expr) :
    leftDepth (es.foldl (between "*") e) = leftDepth e + es.length := by
  induction es generalizing e with
  | nil => rfl
  | cons f es ih =>
    rw [List.foldl_cons, ih, List.length_cons, show leftDepth (between "*" e f) = leftDepth e + 1 from rfl]
    omega

/-- Without a nabla in front of another symbol the factors are the symbols. -/
theorem symbolFactors_eq : ∀ {cs : List Char}, '∇' ∉ cs.dropLast → symbolFactors cs = cs.map letterSymbol
  | [], _ => rfl
  | [d], _ => rfl
  | d :: e :: ds, h => by
    rw [List.dropLast_cons_cons, List.mem_cons, not_or] at h
    rw [symbolFactors, symbolFactors_eq h.2, List.map_cons, List.map_cons]
    exact if_neg fun heq => h.1 heq.symm

theorem length_symbolFactors_cons (d : Char) {ds : List Char} (h : symbolFactors ds ≠ []) :
    (symbolFactors (d :: ds)).length = (symbolFactors ds).length + if d = '∇' then 0 else 1 := by
  obtain ⟨e, es, hfactors⟩ := List.exists_cons_of_ne_nil h
  rw [symbolFactors, hfactors]
  dsimp only
  split <;> rfl

theorem symbolFactors_ne_nil : ∀ {cs : List Char}, cs ≠ [] → symbolFactors cs ≠ []
  | [], h => absurd rfl h
  | [d], _ => List.cons_ne_nil _ _
  | d :: e :: ds, _ => by
    have hne := @symbolFactors_ne_nil (e :: ds) (List.cons_ne_nil _ _)
    have hlength := length_symbolFactors_cons d hne
    intro hnil
    rw [hnil, List.length_nil] at hlength
    exact hne (List.eq_nil_of_length_eq_zero (by omega))

theorem length_symbolFactors_le : ∀ cs : List Char, (symbolFactors cs).length ≤ cs.length
  | [] => Nat.le_refl 0
  | [_] => Nat.le_refl 1
  | d :: e :: ds => by
    have hle := length_symbolFactors_le (e :: ds)
    rw [length_symbolFactors_cons d (symbolFactors_ne_nil (List.cons_ne_nil _ _)), List.length_cons]
    split <;> omega

/-- A nabla in front of another symbol is no factor of its own. -/
theorem length_symbolFactors_lt : ∀ {cs : List Char}, '∇' ∈ cs.dropLast → (symbolFactors cs).length < cs.length
  | [], h => by cases h
  | [_], h => by cases h
  | d :: e :: ds, h => by
    rw [length_symbolFactors_cons d (symbolFactors_ne_nil (List.cons_ne_nil _ _)), List.length_cons]
    rw [List.dropLast_cons_cons, List.mem_cons] at h
    rcases h with rfl | h
    · have := length_symbolFactors_le (e :: ds)
      rw [if_pos rfl]
      omega
    · have := length_symbolFactors_lt h
      split <;> omega

theorem leftDepth_joined {es : List Expr} (h : ∀ e ∈ es.head?, leftDepth e = 0) : leftDepth (joined "*" es) + 1 = max es.length 1 := by
  cases es with
  | nil => rfl
  | cons e es =>
    rw [joined, leftDepth_foldl, h e rfl, List.length_cons]
    omega

/-- No factor is a product itself. -/
theorem leftDepth_symbolFactors (cs : List Char) : ∀ e ∈ symbolFactors cs, leftDepth e = 0 := by
  induction cs with
  | nil =>
    intro e he
    cases he
  | cons d ds ih =>
    rw [symbolFactors]
    cases hfactors : symbolFactors ds with
    | nil =>
      intro e he
      rw [List.mem_singleton.mp he]
      rfl
    | cons f es =>
      rw [hfactors] at ih
      dsimp only
      split
      · intro e he
        rcases List.mem_cons.mp he with rfl | he
        · rfl
        · exact ih e (List.mem_cons_of_mem _ he)
      · intro e he
        rcases List.mem_cons.mp he with rfl | he
        · rfl
        · exact ih e he

/-- **The product that is read is the product of the symbols where no nabla stands in front of another symbol.** -/
theorem joined_symbolFactors {cs : List Char} :
    joined "*" (symbolFactors cs) = joined "*" (cs.map letterSymbol) ↔ '∇' ∉ cs.dropLast := by
  constructor
  · intro heq hmem
    have hlt := length_symbolFactors_lt hmem
    have hread := leftDepth_joined fun e he => leftDepth_symbolFactors cs e (List.mem_of_mem_head? he)
    have hwritten : leftDepth (joined "*" (cs.map letterSymbol)) + 1 = max (cs.map letterSymbol).length 1 := by
      refine leftDepth_joined fun e he => ?_
      obtain ⟨d, -, rfl⟩ := List.mem_map.mp (List.mem_of_mem_head? he)
      rfl
    have htwo : 2 ≤ cs.length := by
      have := List.length_pos_of_mem hmem
      rw [List.length_dropLast] at this
      omega
    rw [heq, hwritten, List.length_map] at hread
    omega
  · intro h
    rw [symbolFactors_eq h]

/-! ### Reading products back -/

/-- **The text is read as the product of the factors.** -/
theorem WritesSymbols.isReadAs {cs : List Char} {text : String} {row : List Atom} (h : WritesSymbols cs text row) :
    IsReadAs text (joined "*" (symbolFactors cs)) := by
  obtain ⟨e, es, rest, hfactors, hread, hrest, -⟩ := h.reads
  refine ⟨row, h.spells.atoms, ?_⟩
  rw [ofAtoms_eq]
  refine Grammar.whole_expression ?_
  rw [h.unspaced_eq, hread, hfactors]
  exact hrest.expression rfl e

/-- **A product of symbols is read as the product of its factors**, which are the symbols if and only if no nabla stands in
front of another symbol. -/
theorem product_reread {cs : List Char} (hne : cs ≠ []) (hsymbols : ∀ d ∈ cs, IsSymbolCharacter d) :
    ∃ text, (joined "*" (cs.map letterSymbol)).latex {} .builtin = .ok text ∧ IsReadAs text (joined "*" (symbolFactors cs)) ∧
      (joined "*" (symbolFactors cs) = joined "*" (cs.map letterSymbol) ↔ '∇' ∉ cs.dropLast) := by
  obtain ⟨d, ds, rfl⟩ := List.exists_cons_of_ne_nil hne
  obtain ⟨text, row, hwrites⟩ := writesSymbols_of_forall hsymbols
  exact ⟨text, hwrites.latex, hwrites.isReadAs, joined_symbolFactors⟩

/-- A nabla behind the other symbols stays a factor. -/
theorem product_reread_nabla : ∃ text, (joined "*" (['α', 'x', '∇'].map letterSymbol)).latex {} .builtin = .ok text ∧
    IsReadAs text (joined "*" (['α', 'x', '∇'].map letterSymbol)) := by
  obtain ⟨text, hlatex, hread, hiff⟩ := @product_reread ['α', 'x', '∇'] (by decide) (by
    intro d hd
    simp only [List.mem_cons, List.not_mem_nil, or_false] at hd
    rcases hd with rfl | rfl | rfl
    · exact .inr (by decide +kernel)
    · exact .inl (by decide)
    · exact .inr (by decide +kernel))
  exact ⟨text, hlatex, (hiff.mpr (by decide)) ▸ hread⟩

/-- **A nabla in front of a symbol is read as the mark of its divergence.** -/
theorem product_nabla_reread : ∃ text, (joined "*" (['∇', 'x'].map letterSymbol)).latex {} .builtin = .ok text ∧
    IsReadAs text (apply "div" (letterSymbol 'x')) ∧ ¬ IsReadAs text (joined "*" (['∇', 'x'].map letterSymbol)) := by
  have hsymbols : ∀ d ∈ ['∇', 'x'], IsSymbolCharacter d := by
    intro d hd
    simp only [List.mem_cons, List.not_mem_nil, or_false] at hd
    rcases hd with rfl | rfl
    · exact .inr (by decide +kernel)
    · exact .inl (by decide)
  obtain ⟨text, row, hwrites⟩ := writesSymbols_of_forall hsymbols
  have hread : IsReadAs text (apply "div" (letterSymbol 'x')) := hwrites.isReadAs
  exact ⟨text, hwrites.latex, hread, fun h => by cases h.unique hread⟩

end Formula
