import Mathlib.Algebra.GroupWithZero.Nat
import Mathlib.Order.Lattice
import Formula.Proofs.Expr.ErrorList
import Formula.Proofs.Reader.Pieces

/-!
# Walks with a list of pending work

Atoms are counted, their levels are measured and trees are walked along with a list of pending work, so that deep nesting
takes no stack.  Each of these walks has the answer of a plain recursion along the structure: the number of atoms at all
levels, the greatest level of an atom, and the nodes of a tree in pre-order.

What a walk has found is joined with the answers for all that is pending, in whatever order the work is done.
-/

namespace Formula

namespace Atom

variable {a : Atom} {D level fences : Nat}

/-! ### The recursive definitions -/

mutual

/-- The number of atoms at all levels: the atom itself and those of its sequences. -/
def total : Atom → Nat
  | ⟨_, _, _, superscript, subscript, body, numerator, denominator, index, _, _, _, _⟩ =>
    1 + (fieldTotal superscript + fieldTotal subscript + fieldTotal body + fieldTotal numerator + fieldTotal denominator +
      fieldTotal index)

/-- The number of atoms in a sequence that may be left out. -/
def fieldTotal : Option (List Atom) → Nat
  | none => 0
  | some atoms => listTotal atoms

/-- The number of atoms in a sequence, at all levels. -/
def listTotal : List Atom → Nat
  | [] => 0
  | a :: rest => a.total + listTotal rest

end

mutual

/-- The greatest level in the sequences of an atom, which start at the level. -/
def deepestInside (level : Nat) : Atom → Nat
  | ⟨_, _, _, superscript, subscript, body, numerator, denominator, index, _, _, _, _⟩ =>
    max (fieldDeepest level superscript) (max (fieldDeepest level subscript) (max (fieldDeepest level body)
      (max (fieldDeepest level numerator) (max (fieldDeepest level denominator) (fieldDeepest level index)))))

/-- The greatest level in a sequence that may be left out. -/
def fieldDeepest (level : Nat) : Option (List Atom) → Nat
  | none => 0
  | some atoms => deepest level 0 atoms

/-- The greatest level in a sequence at a level, with so many fences open in front of it.  An atom stands deeper than its
sequence by the fences that are open behind the atom, and its own sequences start one level below it. -/
def deepest (level fences : Nat) : List Atom → Nat
  | [] => 0
  | a :: rest =>
    max (level + fencesAfter fences a) (max (deepestInside (level + fencesAfter fences a + 1) a)
      (deepest level (fencesAfter fences a) rest))

end

/-! ### Counting -/

/-- Fields without atoms add nothing to a sum. -/
theorem sum_fields {g : Option (List Atom) → Nat} (hnone : g none = 0) (hnil : g (some []) = 0)
    (fs : List (Option (List Atom))) : (fs.map g).sum = ((fs.filterMap fun field =>
      match field with
      | some (b :: rest) => some (b :: rest)
      | _ => none).map fun s => g (some s)).sum := by
  induction fs with
  | nil => rfl
  | cons f fs ih =>
    rcases f with _ | _ | ⟨b, rest⟩
    · simpa [hnone] using ih
    · simpa [hnil] using ih
    · simpa using ih

theorem total_eq_nested (a : Atom) : a.total = 1 + (a.nested.map listTotal).sum := by
  have hfields : a.total = 1 + (a.fields.map fieldTotal).sum := by
    cases a
    simp only [fields, List.map_cons, List.map_nil, List.sum_cons, List.sum_nil, total]
    omega
  rw [hfields, sum_fields rfl rfl]
  rfl

theorem listTotal_eq_nestedIn (atoms : List Atom) :
    listTotal atoms = atoms.length + ((nestedIn atoms).map listTotal).sum := by
  induction atoms with
  | nil => rfl
  | cons a rest hrest =>
    have ha := total_eq_nested a
    unfold nestedIn at hrest ⊢
    rw [listTotal, List.flatMap_cons, List.map_append, List.sum_append, List.length_cons]
    omega

/-- The count of the pending work comes on top of what was counted. -/
theorem countFrom_eq (counted : Nat) (work : List (List Atom)) : countFrom counted work = counted + (work.map listTotal).sum := by
  induction counted, work using countFrom.induct with
  | case1 counted => simp [countFrom]
  | case2 counted atoms work ih =>
    have hatoms := listTotal_eq_nestedIn atoms
    rw [List.map_append, List.sum_append] at ih
    rw [countFrom, List.map_cons, List.sum_cons]
    omega

/-- **The count is the number of atoms at all levels.** -/
theorem count_eq_listTotal (atoms : List Atom) : count atoms = listTotal atoms := by
  rw [count, countFrom_eq]
  simp

/-! ### Levels -/

theorem deepestInside_le_iff : deepestInside level a ≤ D ↔ ∀ s ∈ a.nested, deepest level 0 s ≤ D := by
  have hfields : deepestInside level a ≤ D ↔ ∀ field ∈ a.fields, fieldDeepest level field ≤ D := by
    cases a
    simp [fields, deepestInside]
  rw [hfields]
  constructor
  · intro h s hs
    obtain ⟨field, hfield, heq⟩ := List.mem_filterMap.mp hs
    split at heq
    · cases heq
      exact h _ hfield
    · cases heq
  · intro h field hfield
    rcases field with _ | _ | ⟨b, rest⟩
    · exact Nat.zero_le D
    · exact Nat.zero_le D
    · exact h _ (List.mem_filterMap.mpr ⟨_, hfield, rfl⟩)

theorem deepest_le_iff : ∀ (fences : Nat) (atoms : List Atom), deepest level fences atoms ≤ D ↔
    flatDepth level fences atoms ≤ D ∧ ∀ s ∈ nestedLevels level fences atoms, deepest s.2 0 s.1 ≤ D
  | _, [] => by simp [deepest, flatDepth, nestedLevels]
  | fences, a :: rest => by
    rw [deepest, flatDepth, nestedLevels, Nat.max_le, Nat.max_le, Nat.max_le, deepestInside_le_iff, deepest_le_iff _ rest,
      List.forall_mem_append, List.forall_mem_map]
    constructor
    · rintro ⟨hplace, hinside, hflat, hrest⟩
      exact ⟨⟨hplace, hflat⟩, hinside, hrest⟩
    · rintro ⟨⟨hplace, hflat⟩, hinside, hrest⟩
      exact ⟨hplace, hinside, hflat, hrest⟩

/-- The walk keeps to a depth if what it has found and all that is pending does so. -/
theorem depthFrom_le_iff (found : Nat) (work : List (List Atom × Nat)) :
    depthFrom found work ≤ D ↔ found ≤ D ∧ ∀ s ∈ work, deepest s.2 0 s.1 ≤ D := by
  induction found, work using depthFrom.induct with
  | case1 found => simp [depthFrom]
  | case2 found atoms depth work ih =>
    rw [depthFrom, ih, Nat.max_le, List.forall_mem_append, List.forall_mem_cons, deepest_le_iff]
    constructor
    · rintro ⟨⟨hfound, hflat⟩, hnested, hwork⟩
      exact ⟨hfound, ⟨hflat, hnested⟩, hwork⟩
    · rintro ⟨hfound, ⟨hflat, hnested⟩, hwork⟩
      exact ⟨⟨hfound, hflat⟩, hnested, hwork⟩

/-- **The depth of nesting is the greatest level of an atom.** -/
theorem nestingDepth_eq_deepest (atoms : List Atom) : nestingDepth atoms = deepest 1 0 atoms := by
  refine eq_of_forall_ge_iff fun D => ?_
  rw [nestingDepth, depthFrom_le_iff]
  simp

end Atom

open Atom Expr

/-- **The walks with a list of pending work have the answers of the plain recursions**: of a sequence of atoms they give the
number of atoms at all levels and the greatest level of an atom, and of a tree the nodes in pre-order. -/
theorem traversals_recursive (atoms : List Atom) {e : Expr} (h : e.Walkable) :
    count atoms = listTotal atoms ∧ nestingDepth atoms = deepest 1 0 atoms ∧ e.walk = .ok (preorder e) :=
  ⟨count_eq_listTotal atoms, nestingDepth_eq_deepest atoms, walk_eq_preorder h⟩

/-- A fence that closes nothing, one that stays open, and a letter in it with such a fence in its superscript. -/
def levelRow : List Atom :=
  [{ type := .closing, value := ")" }, { type := .opening, value := "(" },
    { type := .ordinary, value := "x",
      superscript := some [{ type := .opening, value := "(" }, { type := .ordinary, value := "2" }] }]

/-- A call of two arguments, the second one left out, with both scripts. -/
def scriptedCall : Expr :=
  call "f" (tuple [between "+" (ofSymbol "x" .null) (ofNumber (.int 2)), missing]) parentheses (ofSymbol "n" .null)
    (ofSymbol "k" .null)

theorem traversals_recursive_scripts :
    scriptedCall.Walkable ∧ count levelRow = listTotal levelRow ∧ nestingDepth levelRow = deepest 1 0 levelRow ∧
      scriptedCall.walk = .ok (preorder scriptedCall) ∧ listTotal levelRow = 5 ∧ deepest 1 0 levelRow = 4 ∧
      (preorder scriptedCall).map kindName = ["FunctionCall", "BinaryOp", "Symbol", "NumberLiteral", "Symbol", "Symbol"] := by
  have leaf : ∀ e : Expr, e.isNode = true → e.children = [] → e.Walkable := by
    intro e hnode hchildren
    refine .node hnode fun k hk => ?_
    rw [hchildren] at hk
    cases hk
  have hsum : (between "+" (ofSymbol "x" .null) (ofNumber (.int 2))).Walkable := by
    refine .node rfl fun k hk => ?_
    have hk : k ∈ [ofSymbol "x" .null, ofNumber (.int 2)] := hk
    simp only [List.mem_cons, List.not_mem_nil, or_false] at hk
    rcases hk with rfl | rfl
    · exact leaf _ rfl rfl
    · exact leaf _ rfl rfl
  have hcall : scriptedCall.Walkable := by
    refine .node rfl fun k hk => ?_
    have hk : k ∈ [between "+" (ofSymbol "x" .null) (ofNumber (.int 2)), ofSymbol "n" .null, ofSymbol "k" .null] := hk
    simp only [List.mem_cons, List.not_mem_nil, or_false] at hk
    rcases hk with rfl | rfl | rfl
    · exact hsum
    · exact leaf _ rfl rfl
    · exact leaf _ rfl rfl
  obtain ⟨hcount, hdepth, hwalk⟩ := traversals_recursive levelRow hcall
  exact ⟨hcall, hcount, hdepth, hwalk, rfl, rfl, rfl⟩

end Formula
