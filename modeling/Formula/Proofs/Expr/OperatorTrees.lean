import Formula.Proofs.Expr.LetterSymbols

/-!
# Trees of operators through their text

Symbols with any of the operators between them, in any order and to any depth, are written and read again.  An operand
whose operator binds as tightly as the one in front of it stands in parentheses only behind three of the operators; behind
the others the reader takes its first part for the operand of the operator in front (`graft`).  For sums and products the
tree that is read is the same up to regrouping, since they are associative.  For relations it is another one: the weight of
a tree, the number of symbols that stand behind relations, becomes less with every such operand (`weight_reread_lt`).
-/

namespace Formula

open Text Atom Expr

/-! ### Operator trees -/

/-- Symbols with operators between them; an operand may be in parentheses. -/
inductive OperatorTree where
  | symbol (e : Expr) (letter : IsLetterSymbol e)
  | fenced (t : OperatorTree)
  | operation (o : Infix) (l r : OperatorTree)

/-- The operator is a relation, and binds less tight than a sum. -/
def Infix.isRelation (o : Infix) : Bool := o.precedence < Infix.sum.precedence

/-- Only sums and products are neither relations nor subtractions of some kind. -/
theorem Infix.sum_or_product (o : Infix) (h : o.isRelation = false) (h' : isSubtractive (.text o.name) = false) :
    o = .sum ∨ o = .product := by
  revert h h'
  cases o <;> decide

namespace OperatorTree

/-- The tree as an expression. -/
def expr : OperatorTree → Expr
  | symbol e _ => e
  | fenced t => Expr.fenced t.expr parentheses
  | operation o l r => between (.text o.name) l.expr r.expr

/-- The tree is a symbol. -/
def isSymbol : OperatorTree → Bool
  | symbol .. => true
  | _ => false

/-- The precedence of the operator at the root. -/
def root? : OperatorTree → Option Int
  | operation o _ _ => some o.precedence
  | _ => none

/-- The tree without its parentheses. -/
def ungrouped : OperatorTree → OperatorTree
  | symbol e h => symbol e h
  | fenced t => t.ungrouped
  | operation o l r => operation o l.ungrouped r.ungrouped

/-! ### What is read of a tree -/

/-- The tree is written in parentheses as an operand of the operator. -/
def isLoose (o : Infix) (right : Bool) (t : OperatorTree) : Bool :=
  match t.root? with
  | none => false
  | some own => own < o.precedence || (right && own == o.precedence && isSubtractive (.text o.name))

/-- What is read of the operand `t` if `e` is read of it on its own. -/
def operand (o : Infix) (right : Bool) (t e : OperatorTree) : OperatorTree := if t.isLoose o right then fenced e else e

/-- The operator between two trees, where it takes no more of the right one than it binds more tightly than. -/
def graft (o : Infix) (l : OperatorTree) : OperatorTree → OperatorTree
  | operation p a b => if p.precedence = o.precedence then operation p (graft o l a) b else operation o l (operation p a b)
  | r => operation o l r

/-- What is read of the text of a tree. -/
def reread : OperatorTree → OperatorTree
  | symbol e h => symbol e h
  | fenced t => if t.isSymbol then t.reread else fenced t.reread
  | operation o l r => graft o (operand o false l l.reread) (operand o true r r.reread)

/-! ### Writing and reading -/

theorem precedence_expr (t : OperatorTree) : t.expr.precedence .builtin = .ok t.root? := by
  cases t with
  | symbol e h => cases h <;> rfl
  | fenced t => rfl
  | operation o l r =>
    show (if _ then _ else (Catalog.builtin.precedenceOf (.text o.name)).map fun p : Option Int => some (p.getD 0)) = _
    rw [o.isText_slash, o.precedenceOf_name]
    rfl

theorem isSimple_expr (t : OperatorTree) : t.expr.isSimple {} = .ok t.isSymbol := by
  cases t with
  | symbol e h => cases h <;> rfl
  | fenced t => rfl
  | operation o l r => rfl

theorem operandLatex_root? (o : Infix) (right : Bool) (t : OperatorTree) (text : String) :
    operandLatex t.root? o.precedence right (.text o.name) text = parenthesizedIf (t.isLoose o right) text := by
  unfold isLoose
  cases t.root? <;> rfl

/-- The text is read as a chain whose tree is `e`, and the precedences of its operators are as `P` says. -/
def IsTextOf (e : OperatorTree) (text : String) (P : Int → Prop) : Prop :=
  ∃ first links, IsOpenChain text first links ∧ first.isPlainOperation = false ∧ Arranges first links e.expr ∧
    ∀ link ∈ links, (∃ p : Infix, link.op = .text p.name ∧ link.precedence = p.precedence) ∧ P link.precedence

/-- The name of an operator says how tight it binds. -/
theorem precedence_of_name {o p : Infix} (h : o.name = p.name) : o.precedence = p.precedence := by
  have hprecedence := o.precedenceOf_name
  rw [h, p.precedenceOf_name] at hprecedence
  exact (Option.some.inj (Except.ok.inj hprecedence)).symm

/-- **Two chains with an operator between them** are the chain of the grafted tree.  The induction is on the tree of the right
one, of which the operators that bind as tightly as the one in between stand on the way down to the left. -/
theorem arranges_graft {o : Infix} {first start e : Expr} {before after : List Link} {link : Link} {l r : OperatorTree}
    (hl : Arranges first before l.expr) (hbefore : ∀ k ∈ before, o.precedence ≤ k.precedence)
    (hop : link.op = .text o.name) (hprecedence : link.precedence = o.precedence) (hstart : link.operand = start)
    (hplain : start.isPlainOperation = false) (hr : Arranges start after e) (he : r.expr = e)
    (hafter : ∀ k ∈ after, (∃ p : Infix, k.op = .text p.name ∧ k.precedence = p.precedence) ∧ o.precedence ≤ k.precedence) :
    Arranges first (before ++ link :: after) (graft o l r).expr := by
  have hfront : ∀ k ∈ before, link.precedence ≤ k.precedence := by rwa [hprecedence]
  induction hr generalizing r with
  | leaf e =>
    have hgraft : graft o l r = operation o l r := by
      cases r with
      | symbol | fenced => rfl
      | operation p a b =>
        rw [← he] at hplain
        have : (operation p a b).expr.isPlainOperation = true := by cases p <;> rfl
        rw [this] at hplain
        cases hplain
    rw [hgraft, expr, he, ← hop, ← hstart]
    exact .node hl (.leaf _) hfront fun k hk => by cases hk
  | @node e before' after' link' left right hleft hright hbefore' hafter' ihleft =>
    cases r with
    | symbol e h => cases h <;> cases he
    | fenced t => cases he
    | operation p a b =>
      injection he with hname ha hb
      subst ha hb
      obtain ⟨⟨p', hname', hprecedence'⟩, hle⟩ := hafter link' (by simp)
      have hp : link'.precedence = p.precedence := by
        rw [hname'] at hname
        rw [hprecedence', precedence_of_name (Datum.text.inj hname)]
      rw [graft]
      split
      · rename_i heq
        have hinner := ihleft hstart hplain rfl fun k hk => hafter k (List.mem_append_left _ hk)
        have hall : ∀ k ∈ before ++ link :: before', link'.precedence ≤ k.precedence := by
          intro k hk
          simp only [List.mem_append, List.mem_cons] at hk
          rcases hk with hk | rfl | hk
          · have := hbefore k hk
            omega
          · omega
          · exact hbefore' k hk
        rw [expr, hname, ← List.cons_append, ← List.append_assoc]
        exact .node hinner hright hall hafter'
      · rename_i hne
        rw [expr, ← hop]
        refine .node hl ?_ hfront fun k hk => ?_
        · rw [expr, hname, hstart]
          exact .node hleft hright hbefore' hafter'
        · simp only [List.mem_append, List.mem_cons] at hk
          rcases hk with hk | rfl | hk
          · have := hbefore' k hk
            omega
          · omega
          · have := hafter' k hk
            omega

namespace IsTextOf

variable {e l r : OperatorTree} {s s' : String} {P : Int → Prop}

theorem mono {Q : Int → Prop} (h : IsTextOf e s P) (himp : ∀ p, P p → Q p) : IsTextOf e s Q := by
  obtain ⟨first, links, hchain, hfirst, harranged, hlinks⟩ := h
  exact ⟨first, links, hchain, hfirst, harranged, fun link hl => ⟨(hlinks link hl).1, himp _ (hlinks link hl).2⟩⟩

theorem parenthesized (h : IsTextOf e s P) (Q : Int → Prop) : IsTextOf (fenced e) (parenthesized s) Q := by
  obtain ⟨first, links, hchain, -, harranged, -⟩ := h
  exact ⟨_, [], (hchain.parenthesized harranged).isPrimaryText.isChainText.isOpenChain, rfl, .leaf _, fun _ hl => by cases hl⟩

theorem append {o : Infix} (h : IsTextOf l s fun p => o.precedence ≤ p) (h' : IsTextOf r s' fun p => o.precedence ≤ p) :
    IsTextOf (graft o l r) (s ++ (o.sign ++ s')) fun p => o.precedence ≤ p := by
  obtain ⟨first, before, hchain, hfirst, harranged, hbefore⟩ := h
  obtain ⟨start, after, hchain', hstart, harranged', hafter⟩ := h'
  obtain ⟨row, hall⟩ := hchain.append_infix o hchain'
  refine ⟨first, _, hall, hfirst, ?_, fun k hk => ?_⟩
  · exact arranges_graft harranged (fun k hk => (hbefore k hk).2) rfl rfl rfl hstart harranged' rfl hafter
  · simp only [List.mem_append, List.mem_cons] at hk
    rcases hk with hk | rfl | hk
    · exact hbefore k hk
    · exact ⟨⟨o, rfl, rfl⟩, Int.le_refl _⟩
    · exact hafter k hk

/-- An operand of an operator is in parentheses, or its operators bind as tightly. -/
theorem operand {t : OperatorTree} (h : IsTextOf e s fun p => ∃ q, t.root? = some q ∧ q ≤ p) (o : Infix) (right : Bool) :
    IsTextOf (t.operand o right e) (parenthesizedIf (t.isLoose o right) s) fun p => o.precedence ≤ p := by
  unfold OperatorTree.operand parenthesizedIf
  by_cases hloose : t.isLoose o right = true
  · rw [if_pos hloose, if_pos hloose]
    exact h.parenthesized _
  · rw [if_neg hloose, if_neg hloose]
    refine h.mono fun p ⟨q, hq, hle⟩ => ?_
    simp only [isLoose, hq, Bool.or_eq_true, decide_eq_true_eq, not_or] at hloose
    exact Int.le_trans (Int.not_lt.mp hloose.1) hle

theorem isReadAs (h : IsTextOf e s P) : IsReadAs s e.expr := by
  obtain ⟨first, links, hchain, -, harranged, -⟩ := h
  exact hchain.isReadAs harranged

end IsTextOf

/-- **Every tree is written, and its text is read as `reread` says.** -/
theorem written (t : OperatorTree) : ∃ text, t.expr.latex {} .builtin = .ok text ∧
    IsTextOf t.reread text fun p => ∃ q, t.root? = some q ∧ q ≤ p := by
  induction t with
  | symbol e h =>
    obtain ⟨s, hlatex, hchain⟩ := h.isOpenChain
    exact ⟨s, hlatex, e, [], hchain, by cases h <;> rfl, .leaf e, fun _ hl => by cases hl⟩
  | fenced t ih =>
    obtain ⟨s, hlatex, htext⟩ := ih
    have hgroup := latex_group t.isSimple_expr hlatex isSuperText_missing
    rw [String.append_empty] at hgroup
    refine ⟨_, hgroup, ?_⟩
    rw [reread]
    cases hsymbol : t.isSymbol with
    | false => exact htext.parenthesized _
    | true =>
      cases t with
      | symbol e h => exact htext
      | fenced | operation => cases hsymbol
  | operation o l r ihl ihr =>
    obtain ⟨s, hlatex, htext⟩ := ihl
    obtain ⟨s', hlatex', htext'⟩ := ihr
    have hinfix := latex_infix o hlatex hlatex' l.precedence_expr r.precedence_expr isSuperText_missing
    rw [operandLatex_root?, operandLatex_root?, String.append_empty] at hinfix
    refine ⟨_, hinfix, ((htext.operand o false).append (htext'.operand o true)).mono fun p hp => ⟨_, rfl, hp⟩⟩

theorem root?_graft (o : Infix) (l r : OperatorTree) : (graft o l r).root? = some o.precedence := by
  cases r with
  | symbol | fenced => rfl
  | operation p a b =>
    rw [graft]
    split
    · rename_i heq
      exact congrArg some heq
    · rfl

theorem root?_reread (t : OperatorTree) : t.reread.root? = t.root? := by
  cases t with
  | symbol => rfl
  | fenced t =>
    rw [reread]
    cases t <;> rfl
  | operation o l r => exact root?_graft _ _ _

/-- An operand without parentheses that binds as tightly as the operator in front of it is the operand of no subtraction. -/
theorem root?_operand {o : Infix} {r : OperatorTree} (h : (operand o true r r.reread).root? = some o.precedence) :
    r.root? = some o.precedence ∧ isSubtractive (.text o.name) = false := by
  unfold operand at h
  split at h
  · cases h
  · rename_i hloose
    rw [root?_reread] at h
    refine ⟨h, ?_⟩
    simpa [isLoose, h] using hloose

/-! ### Regrouping -/

/-- The trees are the same up to the grouping of sums and of products. -/
inductive Regroups : OperatorTree → OperatorTree → Prop
  | refl (t : OperatorTree) : Regroups t t
  | symm {t u : OperatorTree} : Regroups t u → Regroups u t
  | trans {t u v : OperatorTree} : Regroups t u → Regroups u v → Regroups t v
  | operation (o : Infix) {l l' r r' : OperatorTree} : Regroups l l' → Regroups r r' →
    Regroups (operation o l r) (operation o l' r')
  | sum {o : Infix} (h : o.precedence = Infix.sum.precedence) (a b c : OperatorTree) :
    Regroups (operation .sum a (operation o b c)) (operation o (operation .sum a b) c)
  | product (a b c : OperatorTree) :
    Regroups (operation .product a (operation .product b c)) (operation .product (operation .product a b) c)

/-- No operand on the right of a relation is a relation that binds as tightly, unless it is in parentheses. -/
def isStraight : OperatorTree → Bool
  | symbol .. => true
  | fenced t => t.isStraight
  | operation o l r => l.isStraight && r.isStraight && !(o.isRelation && r.root? == some o.precedence)

theorem ungrouped_operand (o : Infix) (right : Bool) (t e : OperatorTree) : (operand o right t e).ungrouped = e.ungrouped := by
  unfold operand
  split <;> rfl

/-- Grafting regroups sums and products. -/
theorem regroups_graft {o : Infix} {l r : OperatorTree} (h : r.root? = some o.precedence → o = .sum ∨ o = .product) :
    Regroups (graft o l r).ungrouped (operation o l.ungrouped r.ungrouped) := by
  induction r with
  | symbol | fenced => exact .refl _
  | operation p a b ih =>
    rw [graft]
    split
    · rename_i heq
      have ho := h (congrArg some heq)
      have hleft := Regroups.operation p (ih fun _ => ho) (.refl b.ungrouped)
      refine hleft.trans ?_
      rcases ho with rfl | rfl
      · exact (Regroups.sum heq _ _ _).symm
      · obtain rfl : p = .product := by cases p <;> first | rfl | cases heq
        exact (Regroups.product _ _ _).symm
    · exact .refl _

/-- **A straight tree is read as itself up to regrouping.** -/
theorem regroups_reread {t : OperatorTree} (h : t.isStraight = true) : Regroups t.reread.ungrouped t.ungrouped := by
  induction t with
  | symbol => exact .refl _
  | fenced t ih =>
    rw [reread]
    split <;> exact ih h
  | operation o l r ihl ihr =>
    simp only [isStraight, Bool.and_eq_true, Bool.not_eq_true', Bool.and_eq_false_iff, beq_eq_false_iff_ne] at h
    obtain ⟨⟨hl, hr⟩, hrelation⟩ := h
    refine (regroups_graft fun hroot => ?_).trans ?_
    · obtain ⟨hroot, hsubtractive⟩ := root?_operand hroot
      exact o.sum_or_product (hrelation.resolve_right (not_not.mpr hroot)) hsubtractive
    · rw [ungrouped_operand, ungrouped_operand]
      exact .operation o (ihl hl) (ihr hr)

/-! ### The weight of a tree -/

/-- The number of symbols. -/
def size : OperatorTree → Nat
  | symbol .. => 1
  | fenced t => t.size
  | operation _ l r => l.size + r.size

/-- How many symbols stand behind relations, counted once for each of them. -/
def weight : OperatorTree → Nat
  | symbol .. => 0
  | fenced t => t.weight
  | operation o l r => l.weight + r.weight + if o.isRelation then r.size else 0

theorem size_pos (t : OperatorTree) : 0 < t.size := by
  induction t with
  | symbol => exact Nat.one_pos
  | fenced t ih => exact ih
  | operation o l r ihl ihr => exact Nat.add_pos_left ihl _

theorem size_ungrouped (t : OperatorTree) : t.ungrouped.size = t.size := by
  induction t with
  | symbol => rfl
  | fenced t ih => exact ih
  | operation o l r ihl ihr => simp only [ungrouped, size, ihl, ihr]

theorem weight_ungrouped (t : OperatorTree) : t.ungrouped.weight = t.weight := by
  induction t with
  | symbol => rfl
  | fenced t ih => exact ih
  | operation o l r ihl ihr => simp only [ungrouped, weight, size_ungrouped, ihl, ihr]

theorem Regroups.size {t u : OperatorTree} (h : Regroups t u) : t.size = u.size := by
  induction h with
  | refl => rfl
  | symm _ ih => exact ih.symm
  | trans _ _ ih ih' => exact ih.trans ih'
  | operation o _ _ ihl ihr => simp only [OperatorTree.size, ihl, ihr]
  | sum | product => simp only [OperatorTree.size, Nat.add_assoc]

/-- Regrouping moves no symbol behind a relation or in front of one. -/
theorem Regroups.weight {t u : OperatorTree} (h : Regroups t u) : t.weight = u.weight := by
  induction h with
  | refl => rfl
  | symm _ ih => exact ih.symm
  | trans _ _ ih ih' => exact ih.trans ih'
  | operation o _ hr ihl ihr => simp only [OperatorTree.weight, ihl, ihr, hr.size]
  | @sum o ho a b c =>
    have hrelation : o.isRelation = false := by simp [Infix.isRelation, ho]
    simp [OperatorTree.weight, hrelation, show Infix.sum.isRelation = false from rfl, Nat.add_assoc]
  | product => simp [OperatorTree.weight, show Infix.product.isRelation = false from rfl, Nat.add_assoc]

theorem size_graft (o : Infix) (l r : OperatorTree) : (graft o l r).size = l.size + r.size := by
  induction r with
  | symbol | fenced => rfl
  | operation p a b ih =>
    rw [graft]
    split
    · simp only [size, ih, Nat.add_assoc]
    · rfl

theorem isRelation_congr {o p : Infix} (h : p.precedence = o.precedence) : p.isRelation = o.isRelation := by
  simp only [Infix.isRelation, h]

/-- Grafting takes the rest of a relation from behind the relation in front. -/
theorem weight_graft (o : Infix) (l r : OperatorTree) : (graft o l r).weight ≤ (operation o l r).weight ∧
    (o.isRelation = true → r.root? = some o.precedence → (graft o l r).weight < (operation o l r).weight) := by
  induction r with
  | symbol | fenced => exact ⟨le_refl _, fun _ h => by cases h⟩
  | operation p a b ih =>
    rw [graft]
    split
    · rename_i heq
      have hle := ih.1
      have hpos := b.size_pos
      simp only [weight, size, isRelation_congr heq] at hle ⊢
      refine ⟨?_, fun hrelation _ => ?_⟩
      · split at hle <;> simp_all only [if_true] <;> omega
      · simp only [hrelation, if_true] at hle ⊢
        omega
    · rename_i hne
      exact ⟨le_refl _, fun _ h => absurd (Option.some.inj h) hne⟩

theorem size_operand (o : Infix) (right : Bool) (t e : OperatorTree) : (operand o right t e).size = e.size := by
  rw [← size_ungrouped, ungrouped_operand, size_ungrouped]

theorem weight_operand (o : Infix) (right : Bool) (t e : OperatorTree) : (operand o right t e).weight = e.weight := by
  rw [← weight_ungrouped, ungrouped_operand, weight_ungrouped]

theorem size_reread (t : OperatorTree) : t.reread.size = t.size := by
  induction t with
  | symbol => rfl
  | fenced t ih =>
    rw [reread]
    split <;> exact ih
  | operation o l r ihl ihr => rw [reread, size_graft, size_operand, size_operand, ihl, ihr, size]

/-- What is read of an operation weighs no more than the operation of what is read of its operands. -/
theorem weight_reread_operation (o : Infix) (l r : OperatorTree) :
    (operation o l r).reread.weight ≤ l.reread.weight + r.reread.weight + if o.isRelation then r.size else 0 := by
  have hle := (weight_graft o (operand o false l l.reread) (operand o true r r.reread)).1
  rwa [weight, weight_operand, weight_operand, size_operand, size_reread] at hle

theorem weight_reread_le (t : OperatorTree) : t.reread.weight ≤ t.weight := by
  induction t with
  | symbol => exact le_refl _
  | fenced t ih =>
    rw [reread]
    split <;> exact ih
  | operation o l r ihl ihr =>
    have := weight_reread_operation o l r
    rw [weight]
    omega

/-- **A tree that is not straight loses weight.** -/
theorem weight_reread_lt {t : OperatorTree} (h : t.isStraight = false) : t.reread.weight < t.weight := by
  induction t with
  | symbol => cases h
  | fenced t ih =>
    rw [reread]
    split <;> exact ih h
  | operation o l r ihl ihr =>
    have hle := weight_reread_operation o l r
    have hlel := weight_reread_le l
    have hler := weight_reread_le r
    simp only [isStraight, Bool.and_eq_false_iff, Bool.not_eq_false', Bool.and_eq_true, beq_iff_eq] at h
    rcases h with (hl | hr) | ⟨hrelation, hroot⟩
    · have := ihl hl
      rw [weight]
      omega
    · have := ihr hr
      rw [weight]
      omega
    · have hstraight : (operand o true r r.reread).root? = some o.precedence := by
        have hsubtractive : isSubtractive (.text o.name) = false := by cases o <;> first | rfl | cases hrelation
        have hloose : r.isLoose o true = false := by simp [isLoose, hroot, hsubtractive]
        rw [operand, hloose, if_neg Bool.false_ne_true, root?_reread, hroot]
      have hlt := (weight_graft o (operand o false l l.reread) (operand o true r r.reread)).2 hrelation hstraight
      rw [weight, weight_operand, weight_operand, size_operand, size_reread] at hlt
      rw [reread, weight]
      omega

/-! ### Reading trees back -/

/-- **A tree of operators is read as a tree of the same operators**, which is the same up to parentheses and the grouping of
sums and products if and only if no operand on the right of a relation is a relation of the same precedence. -/
theorem operator_tree_reread (t : OperatorTree) : ∃ text, t.expr.latex {} .builtin = .ok text ∧
    IsReadAs text t.reread.expr ∧ (Regroups t.reread.ungrouped t.ungrouped ↔ t.isStraight = true) := by
  obtain ⟨text, hlatex, htext⟩ := t.written
  refine ⟨text, hlatex, htext.isReadAs, fun h => ?_, regroups_reread⟩
  by_contra hstraight
  have hlt := weight_reread_lt (Bool.eq_false_iff.mpr hstraight)
  have heq := h.weight
  rw [weight_ungrouped, weight_ungrouped] at heq
  omega

/-- **Of two equations the reader takes the first one for the left side of the second**, also if it was written for an equation
on the right side of the first. -/
theorem equation_reread : ∃ a b c : OperatorTree, a.expr = letterSymbol 'a' ∧ b.expr = letterSymbol 'b' ∧
    c.expr = letterSymbol 'c' ∧ (operation .equal a (operation .equal b c)).expr.latex {} .builtin = .ok "a=b=c" ∧
    IsReadAs "a=b=c" (operation .equal (operation .equal a b) c).expr ∧
    ¬ Regroups (operation .equal (operation .equal a b) c) (operation .equal a (operation .equal b c)) := by
  let a := symbol (letterSymbol 'a') (.plain (by decide +kernel))
  let b := symbol (letterSymbol 'b') (.plain (by decide +kernel))
  let c := symbol (letterSymbol 'c') (.plain (by decide +kernel))
  obtain ⟨text, hlatex, htext⟩ := written (operation .equal a (operation .equal b c))
  obtain rfl : text = "a=b=c" := Except.ok.inj (hlatex.symm.trans rfl)
  exact ⟨a, b, c, rfl, rfl, rfl, hlatex, htext.isReadAs, fun h => absurd h.weight (by decide)⟩

end OperatorTree

end Formula
