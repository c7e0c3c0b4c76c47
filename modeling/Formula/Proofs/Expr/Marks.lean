import Formula.Proofs.Expr.Errors
import Formula.Proofs.Expr.Height

/-!
# Marked nodes

A node does not tell what it was read from: parentheses around a fraction that carry a square, and the group that holds
the square of a bare fraction, are one and the same tree.  A mark on the fence of a node sets the one apart from the other.
Nothing that the reader does with expressions looks at their fences, so it does the same with marked ones: there is one
lemma for every such function, which takes the marks off what it gives (`unmarked`).

`OpensFewer` bounds the marked nodes on the paths from the root of a tree down.  Scripts count like all other children.
-/

namespace Formula

open Outcome

namespace Expr

/-! ### Marks -/

/-- The fence is marked. -/
def isMarkedFence : Datum → Bool
  | .tuple [_] => true
  | _ => false

/-- The fence without its mark. -/
def plainFence : Datum → Datum
  | .tuple [fence] => fence
  | fence => fence

/-- The node with a mark, if it has a fence. -/
def marked : Expr → Expr
  | group inner fence s t => group inner (.tuple [fence]) s t
  | call name argument fence s t => call name argument (.tuple [fence]) s t
  | e => e

/-- The node is marked. -/
def isMarked : Expr → Bool
  | group _ fence _ _ | call _ _ fence _ _ => isMarkedFence fence
  | _ => false

mutual

/-- The tree without marks. -/
def unmarked : Expr → Expr
  | missing => missing
  | foreign value => foreign value
  | tuple items => tuple (unmarkedAll items)
  | number value s t => number value s.unmarked t.unmarked
  | symbol name variant s t => symbol name variant s.unmarked t.unmarked
  | text content s t => text content s.unmarked t.unmarked
  | group inner fence s t => group inner.unmarked (plainFence fence) s.unmarked t.unmarked
  | binary op l r s t => binary op l.unmarked r.unmarked s.unmarked t.unmarked
  | unary op e s t => unary op e.unmarked s.unmarked t.unmarked
  | call name e fence s t => call name e.unmarked (plainFence fence) s.unmarked t.unmarked
  | fraction l r s t => fraction l.unmarked r.unmarked s.unmarked t.unmarked
  | root l r s t => root l.unmarked r.unmarked s.unmarked t.unmarked
  | complex re im s t => complex re im s.unmarked t.unmarked
  | error placeholder message s t => error placeholder message s.unmarked t.unmarked

/-- The trees without marks. -/
def unmarkedAll : List Expr → List Expr
  | [] => []
  | e :: rest => e.unmarked :: unmarkedAll rest

end

/-- A path from the root of a tree down, scripts being children like all others.  Several expressions are not a node of
their own. -/
inductive Path : Expr → List Expr → Prop
  | root {e : Expr} : e.isNode = true → Path e [e]
  | down {e k : Expr} {path : List Expr} : k ∈ e.children → Path k path → Path e (e :: path)
  | part {items : List Expr} {k : Expr} {path : List Expr} : k ∈ items → Path k path → Path (tuple items) path

/-- On every path there are fewer than `n` marked nodes. -/
def OpensFewer (n : Nat) (e : Expr) : Prop := ∀ path, e.Path path → path.countP isMarked < n

variable {e l r s t : Expr} {n : Nat}

/-! ### Taking the marks off -/

@[simp] theorem isMissing_unmarked (e : Expr) : e.unmarked.isMissing = e.isMissing := by
  cases e <;> rfl

@[simp] theorem holdsScripts_unmarked (e : Expr) : e.unmarked.holdsScripts = e.holdsScripts := by
  cases e <;> rfl

@[simp] theorem sup_unmarked (e : Expr) : e.unmarked.sup = e.sup.unmarked := by
  cases e <;> rfl

@[simp] theorem sub_unmarked (e : Expr) : e.unmarked.sub = e.sub.unmarked := by
  cases e <;> rfl

theorem unmarked_eq_missing (h : e.unmarked = missing) : e = missing := by
  cases e with
  | missing => rfl
  | _ => cases h

theorem unmarkedAll_eq_map : ∀ items : List Expr, unmarkedAll items = items.map unmarked
  | [] => rfl
  | e :: rest => by rw [unmarkedAll, List.map_cons, unmarkedAll_eq_map rest]

theorem unmarked_withScripts (e s t : Expr) : (e.withScripts s t).unmarked = e.unmarked.withScripts s.unmarked t.unmarked := by
  cases e <;> rfl

theorem unmarked_attach (e s t : Expr) : (e.attach s t).unmarked = e.unmarked.attach s.unmarked t.unmarked := by
  have choice : ∀ {b : Bool} {e e' : Expr}, (if b then e else e').unmarked = if b then e.unmarked else e'.unmarked := by
    intro b e e'
    cases b <;> rfl
  unfold attach
  simp only [isMissing_unmarked, holdsScripts_unmarked, sup_unmarked, sub_unmarked, choice, unmarked_withScripts]
  rfl

theorem unmarked_juxtapose (l r : Expr) : (juxtapose l r).unmarked = juxtapose l.unmarked r.unmarked := by
  unfold juxtapose
  rw [isMissing_unmarked, isMissing_unmarked]
  split
  · rfl
  · split
    · rfl
    · rfl

theorem unmarked_foldSign? (sign : Datum) : ∀ e : Expr, (foldSign? sign e).map unmarked = foldSign? sign e.unmarked
  | number value s t => by
    simp only [unmarked, foldSign?, isMissing_unmarked]
    by_cases h : (s.isMissing && t.isMissing) = true
    · simp [h, Function.comp_def, unmarked]
    · simp [h]
  | binary op l r s t => by
    simp only [unmarked, foldSign?, isMissing_unmarked, ← unmarked_foldSign? sign l]
    by_cases h : (op.isText "*" && s.isMissing && t.isMissing) = true
    · simp [h, Function.comp_def, unmarked]
    · simp [h]
  | missing | foreign _ | tuple _ | symbol .. | text .. | group .. | unary .. | call .. | fraction .. | root ..
  | complex .. | error .. => rfl

theorem unmarked_withSign (sign : Datum) (e : Expr) : (withSign sign e).unmarked = withSign sign e.unmarked := by
  unfold withSign
  rw [← unmarked_foldSign?]
  cases foldSign? sign e with
  | none => rfl
  | some e' => rfl

theorem isMinusOne_unmarked (e : Expr) : e.unmarked.isMinusOne = e.isMinusOne := by
  cases e with
  | number value s t => cases s <;> first | rfl | (cases t <;> rfl)
  | unary op e s t =>
    cases e with
    | number value s' t' =>
      cases s' <;> first | rfl | (cases t' <;> first | rfl | (cases s <;> first | rfl | (cases t <;> rfl)))
    | _ => rfl
  | _ => rfl

theorem unmarked_applyInverse (name fence : Datum) (e s t : Expr) :
    (applyInverse (call name e fence s t)).map unmarked = applyInverse (call name e fence s t).unmarked := by
  unfold applyInverse inverseName?
  simp only [unmarked, isMinusOne_unmarked]
  cases name.lookup inverses with
  | error fault => rfl
  | ok found =>
    cases found with
    | none => rfl
    | some inverse =>
      cases s.isMinusOne with
      | error fault => simp [bind, Except.bind, Except.map]
      | ok is => cases is <;> simp [bind, Except.bind, Except.map, pure, Except.pure, unmarked]

theorem callName?_unmarked (e : Expr) : callName? e.unmarked = callName? e := by
  cases e <;> rfl

/-- Whether a number and a fraction are a mixed number hangs on the number alone. -/
theorem mixedNumber_unmarked (value : Datum) (e : Expr) :
    (mixedNumber (ofNumber value) e.unmarked).map Option.isSome = (mixedNumber (ofNumber value) e).map Option.isSome := by
  cases e with
  | fraction l r s t =>
    unfold mixedNumber ofNumber
    simp only [unmarked]
    cases isWhole value with
    | error fault => rfl
    | ok is => cases is <;> rfl
  | _ => rfl

theorem unmarked_argumentsOf (items : List Expr) : (argumentsOf items).unmarked = argumentsOf (items.map unmarked) := by
  have many : ∀ items : List Expr, (tuple (items.filter fun e => !e.isMissing)).unmarked =
      tuple ((items.map unmarked).filter fun e => !e.isMissing) := by
    intro items
    rw [unmarked, unmarkedAll_eq_map, List.filter_map]
    congr 3
    funext e
    simp
  cases items with
  | nil => rfl
  | cons e rest =>
    cases rest with
    | nil => rfl
    | cons e' rest => exact many (e :: e' :: rest)

theorem unmarked_delimited (left right : Datum) (e : Expr) :
    (delimited left right e).map unmarked = delimited left right e.unmarked := by
  unfold delimited
  cases Atom.delimiterFunction? left right with
  | error fault => rfl
  | ok found => cases found <;> rfl

/-- A mark on a fence comes off again. -/
theorem unmarked_marked_delimited (left right : Datum) (e : Expr) :
    ((delimited left right e).map marked).map unmarked = delimited left right e.unmarked := by
  unfold delimited
  cases Atom.delimiterFunction? left right with
  | error fault => rfl
  | ok found => cases found <;> rfl

/-! ### Nodes without parts -/

theorem IsLeaf.unmarked_eq (h : e.IsLeaf) : e.unmarked = e := by
  cases h <;> rfl

/-- Without parts there is nothing to take a mark off. -/
theorem map_unmarked_of_leaf {r : Outcome Expr} (h : ∀ e, r = .ok e → e.IsLeaf) : r.map unmarked = r := by
  cases r with
  | ok e => exact congrArg Except.ok (h e rfl).unmarked_eq
  | error fault => rfl

/-! ### Marks on paths -/

theorem opensFewer_missing (n : Nat) : OpensFewer n missing := by
  intro path hpath
  cases hpath with
  | root h => cases h
  | down h _ => cases h

theorem OpensFewer.mono {m : Nat} (h : OpensFewer n e) (hn : n ≤ m) : OpensFewer m e :=
  fun path hpath => Nat.lt_of_lt_of_le (h path hpath) hn

theorem opensFewer_tuple {items : List Expr} : OpensFewer n (tuple items) ↔ ∀ e ∈ items, OpensFewer n e := by
  constructor
  · intro h e he path hpath
    exact h path (.part he hpath)
  · intro h path hpath
    cases hpath with
    | root h => cases h
    | down h _ => cases h
    | part he hpath => exact h _ he path hpath

/-- The marks on the paths are those below the root and the one on it. -/
theorem opensFewer_iff (hnode : e.isNode = true) : OpensFewer n e ↔ (if e.isMarked then 1 else 0) < n ∧
    ∀ k ∈ e.children, OpensFewer (n - if e.isMarked then 1 else 0) k := by
  constructor
  · intro h
    refine ⟨?_, fun k hk path hpath => ?_⟩
    · simpa [List.countP_cons] using h [e] (.root hnode)
    · have hdown := h (e :: path) (.down hk hpath)
      rw [List.countP_cons] at hdown
      omega
  · intro h path hpath
    cases hpath with
    | root _ => simpa [List.countP_cons] using h.1
    | down hk hpath =>
      have hdown := h.2 _ hk _ hpath
      rw [List.countP_cons]
      omega
    | part _ _ => cases hnode

/-- Without a mark on the root it is the children that count. -/
theorem opensFewer_of_children (hnode : e.isNode = true) (hm : e.isMarked = false) (hn : 0 < n)
    (h : ∀ k ∈ e.children, OpensFewer n k) : OpensFewer n e := by
  rw [opensFewer_iff hnode, hm]
  exact ⟨hn, h⟩

/-- The root may carry a mark if its children leave room for it. -/
theorem opensFewer_succ (hnode : e.isNode = true) (hn : 0 < n) (h : ∀ k ∈ e.children, OpensFewer n k) :
    OpensFewer (n + 1) e := by
  rw [opensFewer_iff hnode]
  refine ⟨by split <;> omega, fun k hk => (h k hk).mono ?_⟩
  split <;> omega

/-- On every path there are fewer than `n` marked nodes, and in the scripts one less than that. -/
structure Shallow (n : Nat) (e : Expr) : Prop where
  tree : OpensFewer n e
  sup : OpensFewer (n - 1) e.sup
  sub : OpensFewer (n - 1) e.sub

theorem shallow_missing (n : Nat) : Shallow n missing :=
  ⟨opensFewer_missing n, opensFewer_missing _, opensFewer_missing _⟩

/-- Nodes without scripts and marks are as shallow as their parts. -/
theorem shallow_of_parts (parts : List Expr) (hnode : e.isNode = true) (hm : e.isMarked = false) (hs : e.sup = missing)
    (ht : e.sub = missing) (hparts : e.children = parts.filter fun k => !k.isMissing) (hn : 0 < n)
    (h : ∀ k ∈ parts, OpensFewer n k) : Shallow n e where
  tree := by
    refine opensFewer_of_children hnode hm hn fun k hk => ?_
    rw [hparts] at hk
    exact h k (List.mem_filter.mp hk).1
  sup := hs ▸ opensFewer_missing _
  sub := ht ▸ opensFewer_missing _

theorem IsLeaf.shallow (h : e.IsLeaf) (hn : 0 < n) : Shallow n e := by
  cases h
  all_goals exact shallow_of_parts [] rfl rfl rfl rfl rfl hn (by simp)

theorem shallow_between (op : Datum) (hl : OpensFewer n l) (hr : OpensFewer n r) (hn : 0 < n) : Shallow n (between op l r) :=
  shallow_of_parts [l, r, missing, missing] rfl rfl rfl rfl rfl hn (by simp [hl, hr, opensFewer_missing])

theorem shallow_before (op : Datum) (he : OpensFewer n e) (hn : 0 < n) : Shallow n (before op e) :=
  shallow_of_parts [e, missing, missing] rfl rfl rfl rfl rfl hn (by simp [he, opensFewer_missing])

theorem shallow_quotient (hl : OpensFewer n l) (hr : OpensFewer n r) (hn : 0 < n) : Shallow n (quotient l r) :=
  shallow_of_parts [l, r, missing, missing] rfl rfl rfl rfl rfl hn (by simp [hl, hr, opensFewer_missing])

theorem shallow_squareRoot (he : OpensFewer n e) (hn : 0 < n) : Shallow n (squareRoot e) :=
  shallow_of_parts [e, missing, missing, missing] rfl rfl rfl rfl rfl hn (by simp [he, opensFewer_missing])

/-- The children of a call are its arguments and its scripts. -/
theorem opensFewer_of_mem_call {name fence : Datum} {k : Expr} (he : OpensFewer n e) (hs : OpensFewer n s)
    (ht : OpensFewer n t) (hk : k ∈ (call name e fence s t).children) : OpensFewer n k := by
  have scripts : k ∈ [s, t] → OpensFewer n k := by
    simp only [List.mem_cons, List.not_mem_nil, or_false]
    rintro (rfl | rfl)
    · exact hs
    · exact ht
  cases e with
  | tuple items =>
    rcases List.mem_append.mp (List.mem_filter.mp hk).1 with hk | hk
    · exact opensFewer_tuple.mp he k hk
    · exact scripts hk
  | _ =>
    rcases List.mem_cons.mp (List.mem_filter.mp hk).1 with rfl | hk
    · exact he
    · exact scripts hk

theorem shallow_apply (name : Datum) (he : OpensFewer n e) (hn : 0 < n) : Shallow n (apply name e) where
  tree := opensFewer_of_children rfl rfl hn fun _ =>
    opensFewer_of_mem_call he (opensFewer_missing n) (opensFewer_missing n)
  sup := opensFewer_missing _
  sub := opensFewer_missing _

theorem opensFewer_argumentsOf {items : List Expr} (h : ∀ e ∈ items, OpensFewer n e) : OpensFewer n (argumentsOf items) := by
  unfold argumentsOf
  split
  · exact h _ List.mem_cons_self
  · exact opensFewer_tuple.mpr fun e he => h e (List.mem_filter.mp he).1

/-! ### What the reader makes of an expression -/

theorem isMarked_withScripts (e s t : Expr) : (e.withScripts s t).isMarked = e.isMarked := by
  cases e <;> rfl

theorem isNode_of_holdsScripts (h : e.holdsScripts = true) : e.isNode = true := by
  cases e <;> first | rfl | cases h

/-- Scripts that leave room for a mark keep the tree shallow. -/
theorem Shallow.attach (h : Shallow n e) (hs : OpensFewer (n - 1) s) (ht : OpensFewer (n - 1) t) (hn : 0 < n) :
    Shallow n (e.attach s t) := by
  unfold Expr.attach
  split
  · exact h
  split
  · rename_i hplaces
    simp only [Bool.and_eq_true] at hplaces
    have hnode := isNode_of_holdsScripts hplaces.1.1
    have hs' : OpensFewer (n - 1) (if s.isMissing then e.sup else s) := by
      split
      · exact h.sup
      · exact hs
    have ht' : OpensFewer (n - 1) (if t.isMissing then e.sub else t) := by
      split
      · exact h.sub
      · exact ht
    obtain ⟨hmark, hchildren⟩ := (opensFewer_iff hnode).mp h.tree
    refine ⟨(opensFewer_iff (isNode_withScripts hnode _ _)).mpr ?_, ?_, ?_⟩
    · rw [isMarked_withScripts]
      refine ⟨hmark, fun k hk => ?_⟩
      rcases mem_children_withScripts hnode hk with rfl | rfl | hk
      · exact hs'.mono (by split <;> omega)
      · exact ht'.mono (by split <;> omega)
      · exact hchildren k hk
    · rw [sup_withScripts hnode]
      exact hs'
    · rw [sub_withScripts hnode]
      exact ht'
  · refine ⟨opensFewer_of_children rfl rfl hn fun k hk => ?_, hs, ht⟩
    have hk := (List.mem_filter.mp hk).1
    simp only [List.mem_cons, List.mem_append, List.not_mem_nil, or_false] at hk
    rcases hk with rfl | rfl | rfl
    · exact h.tree
    · exact hs.mono (Nat.sub_le n 1)
    · exact ht.mono (Nat.sub_le n 1)

theorem isMarked_attach (h : e.isMarked = false) (s t : Expr) : (e.attach s t).isMarked = false := by
  unfold Expr.attach
  split
  · exact h
  split
  · rw [isMarked_withScripts, h]
  · rfl

theorem shallow_juxtapose (hl : Shallow n l) (hr : Shallow n r) (hn : 0 < n) : Shallow n (juxtapose l r) := by
  unfold juxtapose
  split
  · exact hr
  split
  · exact hl
  · exact shallow_between _ hl.tree hr.tree hn

theorem shallow_of_takesSign {sign : Datum} {e e' : Expr} (h : TakesSign sign e e') (he : OpensFewer n e) (hn : 0 < n) :
    Shallow n e' := by
  induction h with
  | @number v v' _ => exact (IsLeaf.number v').shallow hn
  | @product l l' r _ ih =>
    obtain ⟨-, hchildren⟩ := (opensFewer_iff rfl).mp he
    have part : ∀ k ∈ [l, r], OpensFewer n k := by
      intro k hk
      by_cases hm : k.isMissing = true
      · rw [eq_missing hm]
        exact opensFewer_missing n
      · refine hchildren k (List.mem_filter.mpr ⟨List.mem_append_left _ hk, ?_⟩)
        simpa using hm
    exact shallow_between _ (ih (part l (by simp))).tree (part r (by simp)) hn

theorem shallow_withSign (sign : Datum) (he : OpensFewer n e) (hn : 0 < n) : Shallow n (withSign sign e) := by
  obtain h | h := withSign_cases sign e
  · exact shallow_of_takesSign h he hn
  · rw [h]
    exact shallow_before sign he hn

/-- The argument of a function, whose name may have an exponent that is taken from it. -/
theorem shallow_applyInverse {name fence : Datum} {e' : Expr} (h : applyInverse (call name e fence s t) = .ok e')
    (hm : isMarkedFence fence = false) (he : OpensFewer n e) (hs : OpensFewer (n - 1) s) (ht : OpensFewer (n - 1) t)
    (hn : 0 < n) : Shallow n e' := by
  have applied : ∀ (name : Datum) {s : Expr}, OpensFewer (n - 1) s → Shallow n (call name e fence s t) := by
    intro name s hs
    refine ⟨opensFewer_of_children rfl hm hn fun _ => ?_, hs, ht⟩
    exact opensFewer_of_mem_call he (hs.mono (Nat.sub_le n 1)) (ht.mono (Nat.sub_le n 1))
  cases invertsTo_of_applyInverse h with
  | unchanged _ => exact applied name hs
  | inverse _ _ => exact applied _ (opensFewer_missing _)

/-- A fence is no mark by itself, and leaves room for one. -/
theorem shallow_delimited {left right : Datum} {e' : Expr} (h : delimited left right e = .ok e') (he : OpensFewer n e)
    (hn : 0 < n) : Shallow n e' ∧ Shallow (n + 1) e'.marked := by
  have hmissing := opensFewer_missing n
  obtain ⟨name, -, rfl⟩ | rfl := delimited_eq_ok h
  · refine ⟨shallow_apply _ he hn, ⟨opensFewer_succ rfl hn fun k => ?_, hmissing, hmissing⟩⟩
    exact opensFewer_of_mem_call he hmissing hmissing
  · have hchildren : ∀ fence k, k ∈ (fenced e fence).children → OpensFewer n k := by
      intro fence k hk
      have hk := (List.mem_filter.mp hk).1
      simp only [fenced, List.mem_cons, List.mem_append, List.not_mem_nil, or_false] at hk
      rcases hk with rfl | rfl | rfl
      · exact he
      · exact hmissing
      · exact hmissing
    exact ⟨⟨opensFewer_of_children rfl rfl hn (hchildren _), opensFewer_missing _, opensFewer_missing _⟩,
      ⟨opensFewer_succ rfl hn (hchildren (.tuple [.tuple [left, right]])), hmissing, hmissing⟩⟩

end Expr

end Formula
