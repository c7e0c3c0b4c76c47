import Formula.Expr.OfAtoms
import Formula.Proofs.Expr.Errors
import Formula.Proofs.Settling

/-!
# The errors of a tree as a list

The walk along a tree of nodes lists them in pre-order (`walk_eq_preorder`).  `errorsIn` lists the error nodes alone by the
structure of the tree, the ones of the scripts of a node behind those of its parts, and is what is left of the walk without the
other nodes (`errors_eq`).  What the reader does to an expression leaves the list as it is or adds to its end, but for scripts
that are attached in front of others.
-/

namespace Formula.Expr

mutual

/-- The nodes in pre-order: a node, then those of its parts, then those of its superscript, then those of its subscript. -/
def preorder : Expr → List Expr
  | missing | foreign _ => []
  | tuple items => preorderEach items
  | number value s t => number value s t :: (preorder s ++ preorder t)
  | symbol name variant s t => symbol name variant s t :: (preorder s ++ preorder t)
  | text content s t => text content s t :: (preorder s ++ preorder t)
  | group e fence s t => group e fence s t :: (preorder e ++ (preorder s ++ preorder t))
  | binary op l r s t => binary op l r s t :: (preorder l ++ (preorder r ++ (preorder s ++ preorder t)))
  | unary op e s t => unary op e s t :: (preorder e ++ (preorder s ++ preorder t))
  | call name e fence s t => call name e fence s t :: (preorder e ++ (preorder s ++ preorder t))
  | fraction l r s t => fraction l r s t :: (preorder l ++ (preorder r ++ (preorder s ++ preorder t)))
  | root l r s t => root l r s t :: (preorder l ++ (preorder r ++ (preorder s ++ preorder t)))
  | complex re im s t => complex re im s t :: (preorder s ++ preorder t)
  | error placeholder message s t => error placeholder message s t :: (preorder s ++ preorder t)

/-- The nodes of several expressions in pre-order. -/
def preorderEach : List Expr → List Expr
  | [] => []
  | e :: items => preorder e ++ preorderEach items

end

mutual

/-- The error nodes, those of the scripts of a node behind those of its parts. -/
def errorsIn : Expr → List Expr
  | missing | foreign _ => []
  | tuple items => errorsInEach items
  | number _ s t | symbol _ _ s t | text _ s t | complex _ _ s t => errorsIn s ++ errorsIn t
  | group e _ s t | unary _ e s t | call _ e _ s t => errorsIn e ++ (errorsIn s ++ errorsIn t)
  | binary _ l r s t | fraction l r s t | root l r s t => errorsIn l ++ (errorsIn r ++ (errorsIn s ++ errorsIn t))
  | error placeholder message s t => error placeholder message s t :: (errorsIn s ++ errorsIn t)

/-- The error nodes of several expressions. -/
def errorsInEach : List Expr → List Expr
  | [] => []
  | e :: items => errorsIn e ++ errorsInEach items

end

/-! ### The walk -/

theorem preorderEach_eq : ∀ items : List Expr, preorderEach items = items.flatMap preorder
  | [] => rfl
  | e :: items => by rw [preorderEach, preorderEach_eq items, List.flatMap_cons]

theorem errorsInEach_eq : ∀ items : List Expr, errorsInEach items = items.flatMap errorsIn
  | [] => rfl
  | e :: items => by rw [errorsInEach, errorsInEach_eq items, List.flatMap_cons]

/-- Empty places add nothing. -/
theorem flatMap_there {f : Expr → List Expr} (hf : f missing = []) : ∀ parts : List Expr,
    (parts.filter fun part => !part.isMissing).flatMap f = parts.flatMap f
  | [] => rfl
  | e :: parts => by
    rw [List.filter_cons, List.flatMap_cons, ← flatMap_there hf parts]
    split
    · rw [List.flatMap_cons]
    · next h =>
      have hmissing : e.isMissing = true := by simpa using h
      rw [eq_missing hmissing, hf]
      rfl

/-- Empty places hold no errors. -/
theorem errorsIn_there (parts : List Expr) :
    (parts.filter fun part => !part.isMissing).flatMap errorsIn = parts.flatMap errorsIn := flatMap_there (by rw [errorsIn]) parts

/-- The children of a node are its parts and its scripts, as far as they are there, and both lists go along all of them. -/
theorem exists_parts {e : Expr} (h : e.isNode = true) : ∃ parts : List Expr,
    e.children = (parts ++ [e.sup, e.sub]).filter (fun part => !part.isMissing) ∧
      preorder e = e :: (parts.flatMap preorder ++ (preorder e.sup ++ preorder e.sub)) ∧
      errorsIn e = (if e.isError then [e] else []) ++ (parts.flatMap errorsIn ++ (errorsIn e.sup ++ errorsIn e.sub)) := by
  cases e with
  | missing | foreign | tuple => cases h
  | number | symbol | text | complex | error =>
    exact ⟨[], rfl, by simp [preorder, sup, sub], by simp [errorsIn, isError, sup, sub]⟩
  | group inner | unary _ inner =>
    exact ⟨[inner], rfl, by simp [preorder, sup, sub], by simp [errorsIn, isError, sup, sub]⟩
  | binary _ l r | fraction l r | root l r =>
    exact ⟨[l, r], rfl, by simp [preorder, sup, sub], by simp [errorsIn, isError, sup, sub]⟩
  | call name argument fence s t =>
    by_cases hitems : ∃ items, argument = tuple items
    · obtain ⟨items, rfl⟩ := hitems
      exact ⟨items, rfl, by simp [preorder, sup, sub, preorderEach_eq], by simp [errorsIn, isError, sup, sub, errorsInEach_eq]⟩
    · refine ⟨[argument], ?_, by simp [preorder, sup, sub], by simp [errorsIn, isError, sup, sub]⟩
      cases argument <;> first | rfl | exact absurd ⟨_, rfl⟩ hitems

/-- In pre-order a node stands in front of what its children list. -/
theorem preorder_children {e : Expr} (h : e.isNode = true) : preorder e = e :: e.children.flatMap preorder := by
  obtain ⟨parts, hparts, hnodes, -⟩ := exists_parts h
  rw [hnodes, hparts, flatMap_there (by rw [preorder]), List.flatMap_append]
  simp

theorem errorsIn_children {e : Expr} (h : e.isNode = true) :
    errorsIn e = (if e.isError then [e] else []) ++ e.children.flatMap errorsIn := by
  obtain ⟨parts, hparts, -, herrors⟩ := exists_parts h
  rw [herrors, hparts, errorsIn_there, List.flatMap_append]
  simp

/-- All places of the tree are empty or hold nodes. -/
inductive Walkable : Expr → Prop
  | missing : Walkable missing
  | node {e : Expr} : e.isNode = true → (∀ k ∈ e.children, Walkable k) → Walkable e

/-- The errors of a tree of nodes are those of its nodes that are errors, in the same order. -/
theorem filter_preorder {e : Expr} (h : e.Walkable) : (preorder e).filter isError = errorsIn e := by
  induction h with
  | missing => rfl
  | node hnode _ ih =>
    rw [preorder_children hnode, errorsIn_children hnode, List.filter_cons, List.filter_flatMap, List.flatMap_def,
      List.map_congr_left ih, ← List.flatMap_def]
    split
    · rfl
    · rfl

/-- A walk lists the nodes of the pending expressions, one after another, behind those that it found before. -/
theorem walkFrom_preorder : ∀ (n : Nat) (found work : List Expr), workSize work ≤ n →
    (∀ e ∈ work, e.isMissing = false ∧ e.Walkable) → walkFrom found work = .ok (found.reverse ++ work.flatMap preorder)
  | _, found, [], _, _ => by rw [walkFrom, List.flatMap_nil, List.append_nil]
  | n, found, e :: work, hn, h => by
    obtain ⟨hthere, he⟩ := h e List.mem_cons_self
    cases he with
    | missing => cases hthere
    | node hnode hchildren =>
      have hsize := workSize_children e hnode
      rw [workSize_cons] at hn
      obtain ⟨n, rfl⟩ : ∃ m, n = m + 1 := ⟨n - 1, by omega⟩
      have ih := walkFrom_preorder n (e :: found) (e.children ++ work) (by rw [workSize_append]; omega) fun k hk => by
        rcases List.mem_append.mp hk with hk | hk
        · refine ⟨?_, hchildren k hk⟩
          have := (List.mem_filter.mp hk).2
          simpa using this
        · exact h k (List.mem_cons_of_mem _ hk)
      rw [walkFrom, dif_pos hnode, ih, List.flatMap_append, List.flatMap_cons, preorder_children hnode, List.reverse_cons]
      simp only [List.append_assoc, List.cons_append, List.nil_append]

/-- **The walk along a tree of nodes lists them in pre-order.** -/
theorem walk_eq_preorder {e : Expr} (h : e.Walkable) : e.walk = .ok (preorder e) := by
  unfold walk
  split
  · next hmissing =>
    rw [eq_missing hmissing]
    exact walkFrom_preorder 0 [] [] (Nat.le_refl _) (by simp)
  · next hthere =>
    have := walkFrom_preorder (workSize [e]) [] [e] (Nat.le_refl _) (by simpa using ⟨by simpa using hthere, h⟩)
    simpa using this

/-- **The errors of a tree of nodes**, in the order of the walk. -/
theorem errors_eq {e : Expr} (h : e.Walkable) : e.errors = .ok (errorsIn e) := by
  unfold errors
  rw [walk_eq_preorder h]
  exact congrArg Except.ok (filter_preorder h)

/-! ### What the reader makes of an expression -/

open Outcome

variable {e e' l r s t : Expr}

theorem errorsIn_of_isMissing (h : e.isMissing = true) : errorsIn e = [] := by
  rw [eq_missing h, errorsIn]

@[simp] theorem errorsIn_missing : errorsIn missing = [] := by rw [errorsIn]

@[simp] theorem errorsIn_ofNumber (value : Datum) : errorsIn (ofNumber value) = [] := by simp [ofNumber, errorsIn]

@[simp] theorem errorsIn_ofSymbol (name variant : Datum) : errorsIn (ofSymbol name variant) = [] := by
  simp [ofSymbol, errorsIn]

@[simp] theorem errorsIn_ofText (content : Datum) : errorsIn (ofText content) = [] := by simp [ofText, errorsIn]

@[simp] theorem errorsIn_unreadable (placeholder message : Datum) :
    errorsIn (unreadable placeholder message) = [unreadable placeholder message] := by simp [unreadable, errorsIn]

@[simp] theorem errorsIn_fenced (e : Expr) (fence : Datum) : errorsIn (fenced e fence) = errorsIn e := by
  simp [fenced, errorsIn]

@[simp] theorem errorsIn_before (op : Datum) (e : Expr) : errorsIn (before op e) = errorsIn e := by simp [before, errorsIn]

@[simp] theorem errorsIn_apply (name : Datum) (e : Expr) : errorsIn (apply name e) = errorsIn e := by simp [apply, errorsIn]

@[simp] theorem errorsIn_between (op : Datum) (l r : Expr) : errorsIn (between op l r) = errorsIn l ++ errorsIn r := by
  simp [between, errorsIn]

@[simp] theorem errorsIn_juxtapose (l r : Expr) : errorsIn (juxtapose l r) = errorsIn l ++ errorsIn r := by
  unfold juxtapose
  split
  · next h => rw [errorsIn_of_isMissing h, List.nil_append]
  · split
    · next h => rw [errorsIn_of_isMissing h, List.append_nil]
    · exact errorsIn_between _ l r

theorem errorsIn_argumentsOf (items : List Expr) : errorsIn (argumentsOf items) = items.flatMap errorsIn := by
  unfold argumentsOf
  split
  · rw [List.flatMap_singleton]
  · rw [errorsIn, errorsInEach_eq, errorsIn_there]

theorem errorsIn_of_takesSign {sign : Datum} {e e' : Expr} (h : TakesSign sign e e') : errorsIn e' = errorsIn e := by
  induction h with
  | number _ => rw [errorsIn_ofNumber, errorsIn_ofNumber]
  | product r _ ih => rw [errorsIn_between, errorsIn_between, ih]

@[simp] theorem errorsIn_withSign (sign : Datum) (e : Expr) : errorsIn (withSign sign e) = errorsIn e := by
  obtain h | h := withSign_cases sign e
  · exact errorsIn_of_takesSign h
  · rw [h, errorsIn_before]

theorem errorsIn_of_isMinusOne (h : e.isMinusOne = .ok true) : errorsIn e = [] := by
  unfold isMinusOne at h
  split at h
  · simp [errorsIn]
  · simp [errorsIn]
  · cases h

/-- The superscript that makes a function its inverse holds no errors. -/
theorem errorsIn_applyInverse (h : applyInverse e = .ok e') : errorsIn e' = errorsIn e := by
  cases invertsTo_of_applyInverse h with
  | unchanged _ => rfl
  | inverse _ hminus => rw [errorsIn, errorsIn_missing, errorsIn, errorsIn_of_isMinusOne hminus]

/-! ### Scripts -/

/-- No error is in the scripts of the node itself. -/
def BareOfErrors (e : Expr) : Prop := errorsIn e.sup = [] ∧ errorsIn e.sub = []

theorem bareOfErrors_of_missing (hs : e.sup = missing) (ht : e.sub = missing) : e.BareOfErrors := by
  rw [BareOfErrors, hs, ht]
  exact ⟨errorsIn_missing, errorsIn_missing⟩

/-- The errors of a node that holds scripts are those of its part and those of its scripts. -/
theorem errorsIn_withScripts (h : e.holdsScripts = true) :
    ∃ inner, errorsIn e = inner ++ (errorsIn e.sup ++ errorsIn e.sub) ∧
      ∀ s t, errorsIn (e.withScripts s t) = inner ++ (errorsIn s ++ errorsIn t) := by
  cases e with
  | number | symbol => exact ⟨[], by simp [errorsIn, sup, sub], fun s t => by simp [withScripts, errorsIn]⟩
  | group inner => exact ⟨errorsIn inner, by simp [errorsIn, sup, sub], fun s t => by simp [withScripts, errorsIn]⟩
  | call _ inner => exact ⟨errorsIn inner, by simp [errorsIn, sup, sub], fun s t => by simp [withScripts, errorsIn]⟩
  | _ => cases h

/-- Scripts that are attached to a node without errors in its scripts come behind. -/
theorem errorsIn_attach (h : e.BareOfErrors) : errorsIn (e.attach s t) = errorsIn e ++ (errorsIn s ++ errorsIn t) := by
  have place : ∀ {new old : Expr}, errorsIn old = [] → errorsIn (if new.isMissing = true then old else new) = errorsIn new := by
    intro new old hold
    split
    · next hnew => rw [hold, errorsIn_of_isMissing hnew]
    · rfl
  unfold attach
  split
  · next hnone =>
    rw [Bool.and_eq_true] at hnone
    rw [errorsIn_of_isMissing hnone.1, errorsIn_of_isMissing hnone.2, List.append_nil, List.append_nil]
  · split
    · next hplaces =>
      simp only [Bool.and_eq_true] at hplaces
      obtain ⟨inner, herrors, hscripted⟩ := errorsIn_withScripts hplaces.1.1
      rw [hscripted, place h.1, place h.2, herrors, h.1, h.2, List.append_nil, List.append_nil]
    · rw [errorsIn]

/-- Scripts without errors change nothing, wherever they are attached. -/
theorem errorsIn_attach_of_none (hs : errorsIn s = []) (ht : errorsIn t = []) : errorsIn (e.attach s t) = errorsIn e := by
  have place : ∀ {new old : Expr}, errorsIn new = [] → new.isMissing = true ∨ old.isMissing = true →
      errorsIn (if new.isMissing = true then old else new) = errorsIn old := by
    intro new old hnew h
    split
    · rfl
    · next hthere => rw [hnew, errorsIn_of_isMissing (h.resolve_left hthere)]
  unfold attach
  split
  · rfl
  · split
    · next hplaces =>
      simp only [Bool.and_eq_true, Bool.or_eq_true] at hplaces
      obtain ⟨inner, herrors, hscripted⟩ := errorsIn_withScripts hplaces.1.1
      rw [hscripted, place hs hplaces.1.2, place ht hplaces.2, herrors]
    · rw [errorsIn, hs, ht, List.append_nil, List.append_nil]

/-- Attached scripts make no symbol, and change the name of none. -/
theorem callName?_attach (h : callName? (e.attach s t) = .ok true) : callName? e = .ok true := by
  unfold attach at h
  split at h
  · exact h
  · split at h
    · cases e with
      | symbol => exact h
      | _ => cases h
    · cases h

end Formula.Expr
