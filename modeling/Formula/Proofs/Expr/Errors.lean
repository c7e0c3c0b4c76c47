import Formula.Expr.Query

/-!
# Walks within a set

The walk along a tree stays within every set of nodes that contains the children of its members.  So a tree holds no errors
if its root belongs to such a set without errors.
-/

namespace Formula.Expr

/-- The children of a node are its parts and its scripts, as far as they are there, and other scripts change no part. -/
theorem children_withScripts {e : Expr} (h : e.isNode = true) : ∃ parts : List Expr,
    e.children = (parts ++ [e.sup, e.sub]).filter (fun part => !part.isMissing) ∧
      ∀ s t, (e.withScripts s t).children = (parts ++ [s, t]).filter fun part => !part.isMissing := by
  cases e with
  | missing | foreign | tuple => cases h
  | call name argument => cases argument <;> exact ⟨_, rfl, fun _ _ => rfl⟩
  | _ => exact ⟨_, rfl, fun _ _ => rfl⟩

section

variable {e : Expr} (h : e.isNode = true) (s t : Expr)
include h

/-- Other scripts change no other child. -/
theorem mem_children_withScripts {s t k : Expr} (hk : k ∈ (e.withScripts s t).children) : k = s ∨ k = t ∨ k ∈ e.children := by
  obtain ⟨parts, hchildren, hscripted⟩ := children_withScripts h
  rw [hscripted] at hk
  obtain ⟨hmem, hthere⟩ := List.mem_filter.mp hk
  simp only [List.mem_append, List.mem_cons, List.not_mem_nil, or_false] at hmem
  rcases hmem with hmem | rfl | rfl
  · refine .inr (.inr ?_)
    rw [hchildren]
    exact List.mem_filter.mpr ⟨List.mem_append_left _ hmem, hthere⟩
  · exact .inl rfl
  · exact .inr (.inl rfl)

theorem isNode_withScripts : (e.withScripts s t).isNode = true := by
  cases e <;> first | rfl | cases h

theorem sup_withScripts : (e.withScripts s t).sup = s := by
  cases e <;> first | rfl | cases h

theorem sub_withScripts : (e.withScripts s t).sub = t := by
  cases e <;> first | rfl | cases h

end

variable {P : Expr → Prop}

/-- The walk stays within the set. -/
theorem walkFrom_of_closed (hP : ∀ e, P e → e.isNode = true ∧ ∀ k ∈ e.children, P k) :
    ∀ (n : Nat) (found work : List Expr), workSize work ≤ n → (∀ e ∈ work, P e) →
      ∃ nodes, walkFrom found work = .ok (found.reverse ++ nodes) ∧ ∀ e ∈ nodes, P e
  | _, found, [], _, _ => by
    refine ⟨[], ?_, fun _ h => by cases h⟩
    rw [walkFrom, List.append_nil]
  | n, found, e :: work, hn, h => by
    have he := h e List.mem_cons_self
    obtain ⟨hnode, hchildren⟩ := hP e he
    have hsize := workSize_children e hnode
    rw [workSize_cons] at hn
    obtain ⟨n, rfl⟩ : ∃ m, n = m + 1 := ⟨n - 1, by omega⟩
    obtain ⟨nodes, hwalk, hnodes⟩ := walkFrom_of_closed hP n (e :: found) (e.children ++ work)
      (by rw [workSize_append]; omega) fun k hk => by
        rcases List.mem_append.mp hk with hk | hk
        · exact hchildren k hk
        · exact h k (List.mem_cons_of_mem _ hk)
    refine ⟨e :: nodes, ?_, fun k hk => ?_⟩
    · rw [walkFrom, dif_pos hnode, hwalk, List.reverse_cons, List.append_assoc, List.singleton_append]
    · rcases List.mem_cons.mp hk with rfl | hk
      · exact he
      · exact hnodes k hk

/-- A tree in the set is walked along, and all its nodes are in the set. -/
theorem walk_of_closed (hP : ∀ e, P e → e.isNode = true ∧ ∀ k ∈ e.children, P k) {e : Expr}
    (h : e.isMissing = true ∨ P e) : ∃ nodes, e.walk = .ok nodes ∧ ∀ k ∈ nodes, P k := by
  unfold walk
  split
  · exact walkFrom_of_closed hP 0 [] [] (Nat.le_refl _) fun _ h => by cases h
  · rename_i hmissing
    refine walkFrom_of_closed hP (workSize [e]) [] [e] (Nat.le_refl _) fun k hk => ?_
    rw [List.mem_singleton.mp hk]
    exact h.resolve_left hmissing

/-- **A tree in a set without errors holds none.** -/
theorem errors_of_closed (hP : ∀ e, P e → e.isNode = true ∧ e.isError = false ∧ ∀ k ∈ e.children, P k) {e : Expr}
    (h : P e) : e.errors = .ok [] := by
  obtain ⟨nodes, hwalk, hnodes⟩ := walk_of_closed (fun e he => ⟨(hP e he).1, (hP e he).2.2⟩) (.inr h)
  unfold errors
  rw [hwalk]
  refine congrArg Except.ok (List.filter_eq_nil_iff.mpr fun k hk => ?_)
  rw [(hP k (hnodes k hk)).2.1]
  exact Bool.false_ne_true

/-- No node of the tree is an error. -/
inductive Faultless : Expr → Prop
  | node {e : Expr} : e.isNode = true → e.isError = false → (∀ k ∈ e.children, Faultless k) → Faultless e

namespace Faultless

variable {e l r : Expr}

theorem isNode (h : Faultless e) : e.isNode = true := by
  cases h
  assumption

theorem isMissing (h : Faultless e) : e.isMissing = false := by
  have hnode := h.isNode
  cases e <;> first | rfl | cases hnode

theorem errors (h : Faultless e) : e.errors = .ok [] :=
  errors_of_closed (fun e he => by
    cases he with
    | node hnode herror hchildren => exact ⟨hnode, herror, hchildren⟩) h

theorem number (value : Datum) : Faultless (ofNumber value) := .node rfl rfl fun _ hk => by cases hk

theorem symbol (name variant : Datum) : Faultless (ofSymbol name variant) := .node rfl rfl fun _ hk => by cases hk

/-- A node is no error and holds none if it has none in its parts and its scripts. -/
theorem of_parts {parts : List Expr} {s t : Expr} (hnode : e.isNode = true) (herror : e.isError = false)
    (hchildren : e.children = (parts ++ [s, t]).filter fun part => !part.isMissing) (h : ∀ k ∈ parts, k.isMissing = false → Faultless k)
    (hs : s.isMissing = false → Faultless s) (ht : t.isMissing = false → Faultless t) : Faultless e := by
  refine .node hnode herror fun k hk => ?_
  rw [hchildren] at hk
  obtain ⟨hmem, hthere⟩ := List.mem_filter.mp hk
  rw [Bool.not_eq_true'] at hthere
  simp only [List.mem_append, List.mem_cons, List.not_mem_nil, or_false] at hmem
  rcases hmem with hmem | rfl | rfl
  · exact h k hmem hthere
  · exact hs hthere
  · exact ht hthere

theorem missing {P : Prop} (h : Expr.missing.isMissing = false) : P := by cases h

theorem one (h : Faultless e) : ∀ k ∈ [e], k.isMissing = false → Faultless k :=
  List.forall_mem_singleton.mpr fun _ => h

theorem two (hl : Faultless l) (hr : Faultless r) : ∀ k ∈ [l, r], k.isMissing = false → Faultless k :=
  List.forall_mem_cons.mpr ⟨fun _ => hl, one hr⟩

theorem fenced (h : Faultless e) : Faultless (fenced e parentheses) := of_parts rfl rfl rfl (one h) missing missing

theorem before (h : Faultless e) (op : Datum) : Faultless (before op e) := of_parts rfl rfl rfl (one h) missing missing

theorem between (hl : Faultless l) (hr : Faultless r) (op : Datum) : Faultless (between op l r) :=
  of_parts rfl rfl rfl (two hl hr) missing missing

theorem quotient (hl : Faultless l) (hr : Faultless r) : Faultless (quotient l r) :=
  of_parts rfl rfl rfl (two hl hr) missing missing

theorem squareRoot (h : Faultless e) : Faultless (squareRoot e) :=
  @of_parts _ [e, Expr.missing] _ _ rfl rfl rfl (List.forall_mem_cons.mpr ⟨fun _ => h, List.forall_mem_singleton.mpr missing⟩)
    missing missing

theorem apply (h : Faultless e) (name : Datum) : Faultless (apply name e) := by
  refine @of_parts _ [e] _ _ rfl rfl ?_ (one h) missing missing
  have hnode := h.isNode
  cases e <;> first | rfl | cases hnode

/-- The power of a base, by the name of the function. -/
theorem power (hl : Faultless l) (hr : Faultless r) : Faultless (Expr.apply "pow" (tuple [l, r])) :=
  of_parts rfl rfl rfl (two hl hr) missing missing

/-- Other scripts put no error into a node if they hold none. -/
theorem withScripts (h : Faultless e) {s t : Expr} (hs : s.isMissing = false → Faultless s)
    (ht : t.isMissing = false → Faultless t) : Faultless (e.withScripts s t) := by
  obtain ⟨parts, hchildren, hscripted⟩ := children_withScripts h.isNode
  cases h with
  | node hnode herror hfaultless =>
    refine of_parts ?_ ?_ (hscripted s t) (fun k hk hthere => hfaultless k ?_) hs ht
    · cases e <;> first | rfl | cases hnode
    · cases e <;> first | rfl | cases herror
    · rw [hchildren]
      exact List.mem_filter.mpr ⟨List.mem_append_left _ hk, by rw [hthere]; rfl⟩

end Faultless

end Formula.Expr
