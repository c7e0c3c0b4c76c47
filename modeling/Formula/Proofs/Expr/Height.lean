import Formula.Expr.OfAtoms
import Formula.Proofs.Settling

/-!
# The height of an expression

The height counts the nodes on the longest path down from the root, scripts being children like all others.  Nothing that
the reader does with an expression adds more than one node on top of it.
-/

namespace Formula

open Outcome

namespace Expr

mutual

/-- The number of nodes on the longest path from the root to a leaf.  Several expressions are not a node of their own. -/
def height : Expr → Nat
  | missing | foreign _ => 0
  | tuple items => heights items
  | number _ s t | symbol _ _ s t | text _ s t | complex _ _ s t | error _ _ s t => max s.height t.height + 1
  | group e _ s t | unary _ e s t | call _ e _ s t => max e.height (max s.height t.height) + 1
  | binary _ l r s t | fraction l r s t | root l r s t => max (max l.height r.height) (max s.height t.height) + 1

/-- The greatest height of the expressions. -/
def heights : List Expr → Nat
  | [] => 0
  | e :: rest => max e.height (heights rest)

end

/-! ### Node by node -/

section

variable (e l r s t : Expr) (d d' : Datum)

@[simp] theorem height_missing : missing.height = 0 := rfl

@[simp] theorem height_foreign : (foreign d).height = 0 := rfl

@[simp] theorem height_tuple (items : List Expr) : (tuple items).height = heights items := rfl

@[simp] theorem heights_nil : heights [] = 0 := rfl

@[simp] theorem heights_cons (items : List Expr) : heights (e :: items) = max e.height (heights items) := rfl

@[simp] theorem height_number : (number d s t).height = max s.height t.height + 1 := rfl

@[simp] theorem height_symbol : (symbol d d' s t).height = max s.height t.height + 1 := rfl

@[simp] theorem height_text : (text d s t).height = max s.height t.height + 1 := rfl

@[simp] theorem height_complex : (complex d d' s t).height = max s.height t.height + 1 := rfl

@[simp] theorem height_error : (error d d' s t).height = max s.height t.height + 1 := rfl

@[simp] theorem height_group : (group e d s t).height = max e.height (max s.height t.height) + 1 := rfl

@[simp] theorem height_unary : (unary d e s t).height = max e.height (max s.height t.height) + 1 := rfl

@[simp] theorem height_call : (call d e d' s t).height = max e.height (max s.height t.height) + 1 := rfl

@[simp] theorem height_binary :
    (binary d l r s t).height = max (max l.height r.height) (max s.height t.height) + 1 := rfl

@[simp] theorem height_fraction :
    (fraction l r s t).height = max (max l.height r.height) (max s.height t.height) + 1 := rfl

@[simp] theorem height_root : (root l r s t).height = max (max l.height r.height) (max s.height t.height) + 1 := rfl

end

variable {e l r s t : Expr} {n : Nat}

theorem height_of_isMissing (h : e.isMissing = true) : e.height = 0 := by
  cases e with
  | missing => rfl
  | _ => cases h

/-! ### Nodes without scripts -/

theorem height_ofNumber (value : Datum) : (ofNumber value).height = 1 := by simp [ofNumber]

theorem height_unreadable (placeholder message : Datum) : (unreadable placeholder message).height = 1 := by
  simp [unreadable]

theorem height_fenced (e : Expr) (fence : Datum) : (fenced e fence).height = e.height + 1 := by simp [fenced]

theorem height_before (op : Datum) (e : Expr) : (before op e).height = e.height + 1 := by simp [before]

theorem height_apply (name : Datum) (e : Expr) : (apply name e).height = e.height + 1 := by simp [apply]

theorem height_between (op : Datum) (l r : Expr) : (between op l r).height = max l.height r.height + 1 := by
  simp [between]

theorem height_quotient (l r : Expr) : (quotient l r).height = max l.height r.height + 1 := by simp [quotient]

theorem height_squareRoot (e : Expr) : (squareRoot e).height = e.height + 1 := by simp [squareRoot]

/-! ### Several expressions -/

theorem heights_le : ∀ {items : List Expr}, (∀ e ∈ items, e.height ≤ n) → heights items ≤ n
  | [], _ => Nat.zero_le _
  | e :: rest, h => by
    rw [heights_cons]
    exact Nat.max_le.mpr ⟨h e List.mem_cons_self, heights_le fun e he => h e (List.mem_cons_of_mem _ he)⟩

theorem height_le_heights : ∀ {items : List Expr}, e ∈ items → e.height ≤ heights items
  | e' :: rest, h => by
    rw [heights_cons]
    rcases List.mem_cons.mp h with rfl | h
    · exact Nat.le_max_left _ _
    · exact Nat.le_trans (height_le_heights h) (Nat.le_max_right _ _)

theorem height_argumentsOf (items : List Expr) : (argumentsOf items).height ≤ heights items := by
  unfold argumentsOf
  split
  · exact height_le_heights List.mem_cons_self
  · rw [height_tuple]
    exact heights_le fun e he => height_le_heights (List.mem_filter.mp he).1

/-! ### Scripts -/

theorem height_sup (e : Expr) : e.sup.height ≤ e.height := by
  cases e with
  | missing | foreign | tuple => exact Nat.zero_le _
  | number | symbol | text | complex | error => exact Nat.le_succ_of_le (Nat.le_max_left _ _)
  | group | unary | call | binary | fraction | root =>
    exact Nat.le_succ_of_le (Nat.le_trans (Nat.le_max_left _ _) (Nat.le_max_right _ _))

theorem height_sub (e : Expr) : e.sub.height ≤ e.height := by
  cases e with
  | missing | foreign | tuple => exact Nat.zero_le _
  | number | symbol | text | complex | error => exact Nat.le_succ_of_le (Nat.le_max_right _ _)
  | group | unary | call | binary | fraction | root =>
    exact Nat.le_succ_of_le (Nat.le_trans (Nat.le_max_right _ _) (Nat.le_max_right _ _))

theorem height_withScripts (e s t : Expr) : (e.withScripts s t).height ≤ max e.height (max s.height t.height + 1) := by
  have inner : ∀ children scripts : Nat,
      max children (max s.height t.height) + 1 ≤ max (max children scripts + 1) (max s.height t.height + 1) := by omega
  cases e with
  | missing | foreign | tuple => exact Nat.le_max_left _ _
  | number | symbol | text | complex | error => exact Nat.le_max_right _ _
  | group | unary | call | binary | fraction | root => exact inner _ _

/-- Scripts are put on the node, or on a group around it. -/
theorem height_attach (hs : s.height ≤ n) (ht : t.height ≤ n) : (e.attach s t).height ≤ max e.height n + 1 := by
  unfold attach
  split
  · omega
  · split
    · have h := e.height_withScripts (if s.isMissing then e.sup else s) (if t.isMissing then e.sub else t)
      have hsup : (if s.isMissing then e.sup else s).height ≤ max e.height n := by
        have := e.height_sup
        split <;> omega
      have hsub : (if t.isMissing then e.sub else t).height ≤ max e.height n := by
        have := e.height_sub
        split <;> omega
      omega
    · rw [height_group]
      omega

/-- A node that holds scripts and has none yet takes them without a group. -/
theorem height_attach_free (hholds : e.holdsScripts = true) (hfree : e.decorated = false) (hs : s.height ≤ n)
    (ht : t.height ≤ n) : (e.attach s t).height ≤ max e.height (n + 1) := by
  have hplaces : e.sup.isMissing = true ∧ e.sub.isMissing = true := by simpa [decorated] using hfree
  unfold attach
  split
  · exact Nat.le_max_left _ _
  · rw [if_pos (by simp [hholds, hplaces])]
    have h := e.height_withScripts (if s.isMissing then e.sup else s) (if t.isMissing then e.sub else t)
    have hsup : (if s.isMissing then e.sup else s).height ≤ n := by
      split
      · rw [height_of_isMissing hplaces.1]
        exact Nat.zero_le _
      · exact hs
    have hsub : (if t.isMissing then e.sub else t).height ≤ n := by
      split
      · rw [height_of_isMissing hplaces.2]
        exact Nat.zero_le _
      · exact ht
    omega

/-! ### What the reader makes of an expression -/

theorem height_juxtapose (l r : Expr) : (juxtapose l r).height ≤ max l.height r.height + 1 := by
  unfold juxtapose
  split
  · omega
  · split
    · omega
    · exact Nat.le_of_eq (height_between _ l r)

/-- A sign is folded into a number in its place. -/
theorem height_of_takesSign {sign : Datum} {e e' : Expr} (h : TakesSign sign e e') : e'.height = e.height := by
  induction h with
  | number _ => rw [height_ofNumber, height_ofNumber]
  | product r _ ih => rw [height_between, height_between, ih]

theorem height_withSign (sign : Datum) (e : Expr) : (withSign sign e).height ≤ e.height + 1 := by
  obtain h | h := withSign_cases sign e
  · rw [height_of_takesSign h]
    exact Nat.le_succ _
  · exact Nat.le_of_eq ((congrArg height h).trans (height_before sign e))

theorem height_applyInverse {e' : Expr} (h : applyInverse e = .ok e') : e'.height ≤ e.height := by
  cases invertsTo_of_applyInverse h with
  | unchanged _ => exact Nat.le_refl _
  | inverse _ _ =>
    rw [height_call, height_call, height_missing]
    omega

/-- A fence is a node of its own, which holds scripts. -/
theorem height_delimited {left right : Datum} {e' : Expr} (h : delimited left right e = .ok e') :
    e'.height = e.height + 1 ∧ e'.holdsScripts = true ∧ e'.decorated = false := by
  obtain ⟨name, -, rfl⟩ | rfl := delimited_eq_ok h
  · exact ⟨height_apply _ e, rfl, rfl⟩
  · exact ⟨height_fenced e _, rfl, rfl⟩

/-! ### Nodes without parts -/

/-- A node without parts and scripts. -/
inductive IsLeaf : Expr → Prop
  | number (value : Datum) : IsLeaf (ofNumber value)
  | symbol (name variant : Datum) : IsLeaf (ofSymbol name variant)
  | text (content : Datum) : IsLeaf (ofText content)
  | unreadable (placeholder message : Datum) : IsLeaf (unreadable placeholder message)

theorem IsLeaf.height (h : e.IsLeaf) : e.height = 1 := by
  cases h <;> rfl

theorem number_of_literalOf {chars : List Char} (h : literalOf chars = .ok e) : ∃ value, e = ofNumber value := by
  obtain ⟨x, -, h⟩ := bind_eq_ok.mp h
  cases h
  exact ⟨_, rfl⟩

theorem height_literalOf {chars : List Char} (h : literalOf chars = .ok e) : e.height = 1 := by
  obtain ⟨value, rfl⟩ := number_of_literalOf h
  exact height_ofNumber value

end Expr

namespace Atom

open Expr

variable {a : Atom} {e : Expr}

theorem isLeaf_symbol {c : Catalog} (h : a.symbol c = .ok e) : e.IsLeaf := by
  obtain ⟨name, -, h⟩ := bind_eq_ok.mp h
  cases name with
  | text name =>
    dsimp only at h
    split at h
    all_goals
      obtain ⟨name', -, h⟩ := bind_eq_ok.mp h
      obtain ⟨variant, -, h⟩ := bind_eq_ok.mp h
      cases h
      exact .symbol name' variant
  | _ => cases h

theorem isLeaf_inFont (h : a.inFont = .ok e) : e.IsLeaf := by
  obtain ⟨content, -, h⟩ := bind_eq_ok.mp h
  obtain ⟨is, -, h⟩ := bind_eq_ok.mp h
  split at h
  · cases h
    exact .text _
  · obtain ⟨variant, -, h⟩ := bind_eq_ok.mp h
    cases h
    exact .symbol _ variant

theorem isLeaf_asText (h : a.asText = .ok e) : e.IsLeaf := by
  unfold asText at h
  split at h
  · obtain ⟨content, -, h⟩ := bind_eq_ok.mp h
    cases h
    exact .text _
  · cases h
    exact .text _

theorem isLeaf_unexpected (h : a.unexpected = .ok e) : e.IsLeaf := by
  obtain ⟨text, -, h⟩ := bind_eq_ok.mp h
  cases h
  exact .unreadable _ _

end Atom

end Formula
