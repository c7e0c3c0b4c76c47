import Mathlib.Algebra.GroupWithZero.Nat
import Formula.Convert
import Formula.Proofs.Reader.Total
import Formula.Proofs.Reader.TreeHeight
import Formula.Proofs.Traversals

/-!
# How the limits of the input bound the trees

The limits count atoms and levels of nesting, and neither is the height of a tree: in a long row every operator, and
every neighbour that multiplies, is a level of its own.  So the depth of nesting bounds the height only together with the
length of the rows, by one more than their atoms for every level, and the number of atoms bounds it by two for each.
-/

namespace Formula

open Atom Expr Outcome

namespace Atom

variable {atoms row t : List Atom} {a : Atom} {w : Nat}

/-! ### Atoms against height -/

mutual

theorem innerReach_le_weight : ∀ a : Atom, a.innerReach + 2 ≤ 2 * a.weight
  | ⟨_, _, _, f1, f2, f3, f4, f5, f6, _, _, _, _⟩ => by
    have h1 := fieldReach_le_fieldSize f1
    have h2 := fieldReach_le_fieldSize f2
    have h3 := fieldReach_le_fieldSize f3
    have h4 := fieldReach_le_fieldSize f4
    have h5 := fieldReach_le_fieldSize f5
    have h6 := fieldReach_le_fieldSize f6
    rw [innerReach]
    simp only [weight]
    omega

theorem fieldReach_le_fieldSize : ∀ field : Option (List Atom), fieldReach field ≤ 2 * fieldSize field
  | none => Nat.zero_le _
  | some atoms => by
    have h := rowReach_le_listSize atoms
    rw [fieldReach, fieldSize]
    split <;> omega

theorem rowReach_le_listSize : ∀ atoms : List Atom, rowReach atoms + 2 * (unspaced atoms).length ≤ 2 * listSize atoms
  | [] => Nat.le_refl _
  | a :: rest => by
    have ha := innerReach_le_weight a
    have hrest := rowReach_le_listSize rest
    rw [rowReach, listSize]
    by_cases h : a.type = .spacing
    · rw [if_pos h, unspaced_cons_of_spacing h]
      omega
    · rw [if_neg h, unspaced_cons_of_ne h, List.length_cons, size_of_ne_spacing h]
      omega

end

/-- Every atom is good for two levels of a tree. -/
theorem reach_le_listSize (atoms : List Atom) : reach atoms ≤ 2 * listSize atoms := fieldReach_le_fieldSize (some atoms)

/-! ### The count of the atoms -/

theorem mem_nested {field : Option (List Atom)} (hf : field ∈ a.fields) (h : field.getD [] ≠ []) :
    field.getD [] ∈ a.nested := by
  obtain _ | _ | ⟨b, rest⟩ := field
  · exact absurd rfl h
  · exact absurd rfl h
  · exact List.mem_filterMap.mpr ⟨some (b :: rest), hf, rfl⟩

mutual

theorem size_le_total : ∀ a : Atom, a.size ≤ a.total
  | ⟨_, _, _, f1, f2, f3, f4, f5, f6, _, _, _, _⟩ => by
    have h1 := fieldSize_le_fieldTotal f1
    have h2 := fieldSize_le_fieldTotal f2
    have h3 := fieldSize_le_fieldTotal f3
    have h4 := fieldSize_le_fieldTotal f4
    have h5 := fieldSize_le_fieldTotal f5
    have h6 := fieldSize_le_fieldTotal f6
    rw [size, total]
    split <;> omega

theorem fieldSize_le_fieldTotal : ∀ field : Option (List Atom), fieldSize field ≤ fieldTotal field
  | none => Nat.le_refl _
  | some atoms => listSize_le_listTotal atoms

theorem listSize_le_listTotal : ∀ atoms : List Atom, listSize atoms ≤ listTotal atoms
  | [] => Nat.le_refl _
  | a :: rest => Nat.add_le_add (size_le_total a) (listSize_le_listTotal rest)

end

/-- What matters to a reader is counted. -/
theorem listSize_le_count (atoms : List Atom) : listSize atoms ≤ count atoms := by
  rw [count_eq_listTotal]
  exact listSize_le_listTotal atoms

/-! ### The depth of nesting against height -/

/-- No row of the formula has more atoms besides spaces, nested rows included. -/
def NoWider (w : Nat) (atoms : List Atom) : Prop := ∀ row, Part atoms row → row.length ≤ w

/-- The rows of a nested sequence are rows of the formula. -/
theorem Part.of_nested {field : Option (List Atom)} (ha : a ∈ unspaced atoms) (hf : field ∈ a.fields)
    (h : Part (field.getD []) row) : Part atoms row := by
  induction h with
  | whole => exact .nested .whole ha hf
  | run _ hs ih => exact .run ih hs
  | nested _ hb hf' ih => exact .nested ih hb hf'

theorem le_flatDepth {depth fences : Nat} (h : atoms ≠ []) : depth ≤ flatDepth depth fences atoms := by
  cases atoms with
  | nil => exact absurd rfl h
  | cons a rest =>
    rw [flatDepth]
    exact Nat.le_trans (Nat.le_add_right _ _) (Nat.le_max_left _ _)

/-- A nested sequence starts below the level of its atom. -/
theorem mem_nestedLevels (depth : Nat) : ∀ (fences : Nat) {atoms : List Atom}, a ∈ atoms → t ∈ a.nested →
    ∃ level, depth < level ∧ (t, level) ∈ nestedLevels depth fences atoms
  | fences, b :: rest, ha, ht => by
    rw [nestedLevels]
    rcases List.mem_cons.mp ha with rfl | ha
    · exact ⟨depth + fencesAfter fences a + 1, by omega, List.mem_append_left _ (List.mem_map_of_mem ht)⟩
    · obtain ⟨level, hlt, hmem⟩ := mem_nestedLevels depth (fencesAfter fences b) ha ht
      exact ⟨level, hlt, List.mem_append_right _ hmem⟩

/-- From its level down to the deepest one, a sequence reaches one more than its width for every level. -/
theorem reach_le_depthFrom (deepest : Nat) (work : List (List Atom × Nat)) : deepest ≤ depthFrom deepest work ∧
    ∀ s level, (s, level) ∈ work → s ≠ [] → NoWider w s →
      level ≤ depthFrom deepest work ∧ reach s ≤ (w + 1) * (depthFrom deepest work + 1 - level) := by
  induction deepest, work using depthFrom.induct with
  | case1 deepest => simp [depthFrom]
  | case2 deepest atoms depth work ih =>
    obtain ⟨hdeepest, ih⟩ := ih
    rw [depthFrom]
    generalize depthFrom (max deepest (flatDepth depth 0 atoms)) (nestedLevels depth 0 atoms ++ work) = d at hdeepest ih
    refine ⟨Nat.le_trans (Nat.le_max_left _ _) hdeepest, fun s level hmem hs hw => ?_⟩
    rcases List.mem_cons.mp hmem with heq | hmem
    · cases heq
      have hlevel : depth ≤ d := Nat.le_trans (le_flatDepth hs) (Nat.le_trans (Nat.le_max_right _ _) hdeepest)
      refine ⟨hlevel, ?_⟩
      -- What is nested starts at least one level below.
      have hinner : ∀ a ∈ unspaced atoms, a.innerReach ≤ (w + 1) * (d - depth) := by
        refine fun a ha => innerReach_le_iff.mpr fun field hf => ?_
        rw [← fieldReach_getD]
        by_cases hnil : field.getD [] = []
        · rw [hnil]
          exact Nat.zero_le _
        · obtain ⟨level, hlt, hnested⟩ := mem_nestedLevels depth 0 (mem_of_mem_unspaced ha) (mem_nested hf hnil)
          have hreach := (ih _ level (List.mem_append_left _ hnested) hnil fun row hrow => hw row (hrow.of_nested ha hf)).2
          exact Nat.le_trans hreach (Nat.mul_le_mul_left _ (by omega))
      have hreach := reach_le (hw _ .whole) hinner
      rw [show d + 1 - depth = (d - depth) + 1 by omega, Nat.mul_succ]
      omega
    · exact ih s level (List.mem_append_right _ hmem) hs hw

/-- Every level of nesting is good for one more level of a tree than the rows are wide. -/
theorem reach_le_nestingDepth (hw : NoWider w atoms) : reach atoms ≤ (w + 1) * nestingDepth atoms := by
  by_cases hnil : atoms = []
  · rw [reach_nil (by rw [hnil]; rfl)]
    exact Nat.zero_le _
  · exact ((reach_le_depthFrom 0 [(atoms, 1)]).2 atoms 1 (List.mem_singleton.mpr rfl) hnil hw).2

end Atom

/-! ### What is accepted -/

/-- A tree is no higher than its row may reach. -/
theorem ofAtoms_height {c : Catalog} {atoms : List Atom} {e : Expr} (h : ofAtoms c atoms = .ok e) :
    e.height ≤ reach atoms := (Low.all c _).whole h

theorem renamed_eq_ok {α : Type} {fault : Fault} {r : Outcome α} {v : α} (h : renamed fault r = .ok v) : r = .ok v := by
  unfold renamed at h
  split at h
  · cases h
  · exact h

/-- What passes is neither too much nor too deep. -/
theorem Limits.of_checkAtoms {l : Limits} {atoms : List Atom} (h : l.checkAtoms atoms = .ok ()) :
    l.maxAtoms.isBelow (count atoms) = .ok false ∧ l.maxDepth.isBelow (nestingDepth atoms) = .ok false := by
  unfold Limits.checkAtoms at h
  obtain ⟨more, hmore, h⟩ := bind_eq_ok.mp h
  cases more with
  | true => cases h
  | false =>
    obtain ⟨deeper, hdeeper, h⟩ := bind_eq_ok.mp h
    cases deeper with
    | true => cases h
    | false => exact ⟨hmore, hdeeper⟩

theorem readAtoms_eq_ok {c : Catalog} {atoms : List Atom} {e : Expr} (h : readAtoms c atoms = .ok e) :
    ofAtoms c atoms = .ok e := by
  unfold readAtoms at h
  split at h
  · cases h
  · exact h

/-- An accepted source has atoms within the limits, and the tree is read from them. -/
theorem parseLatex_eq_ok {l : Limits} {c : Catalog} {source : String} {e : Expr}
    (h : parseLatex l c (.text source) = .ok e) :
    ∃ atoms, readSource c source = .ok atoms ∧ l.checkAtoms atoms = .ok () ∧ ofAtoms c atoms = .ok e := by
  unfold parseLatex at h
  obtain ⟨-, -, h⟩ := bind_eq_ok.mp h
  obtain ⟨atoms, hatoms, h⟩ := bind_eq_ok.mp h
  obtain ⟨⟨⟩, hcheck, h⟩ := bind_eq_ok.mp h
  exact ⟨atoms, renamed_eq_ok hatoms, hcheck, readAtoms_eq_ok (renamed_eq_ok h)⟩

namespace Atom

variable {atoms : List Atom}

theorem count_flat (h : nestedIn atoms = []) : count atoms = atoms.length := by
  rw [count, countFrom, h, List.nil_append, countFrom, Nat.zero_add]

theorem nestingDepth_flat (h : nestedIn atoms = []) : nestingDepth atoms = flatDepth 1 0 atoms := by
  have hlevels : nestedLevels 1 0 atoms = [] := by
    rw [← List.map_eq_nil_iff, nestedLevels_fst, h]
  rw [nestingDepth, depthFrom, hlevels, List.nil_append, depthFrom, Nat.zero_max]

end Atom

/-- The number of the atoms of a source, their depth and the height of their tree, if nothing is nested. -/
def flatMeasures (c : Catalog) (source : String) : Option (Nat × Nat × Nat) := do
  let atoms ← (readSource c source).toOption
  let e ← (readAtoms c atoms).toOption
  if (nestedIn atoms).isEmpty then some (atoms.length, flatDepth 1 0 atoms, e.height) else none

theorem parseLatex_flat {l : Limits} {c : Catalog} {source : String} {n d k : Nat}
    (hsource : (l.checkSource source).toOption = some ())
    (h : flatMeasures c source = some (n, d, k)) (hn : l.maxAtoms.isBelow n = .ok false)
    (hd : l.maxDepth.isBelow d = .ok false) : ∃ e, parseLatex l c (.text source) = .ok e ∧ e.height = k := by
  unfold flatMeasures at h
  obtain ⟨atoms, hatoms, h⟩ := Option.bind_eq_some_iff.mp h
  obtain ⟨e, he, h⟩ := Option.bind_eq_some_iff.mp h
  split at h
  · rename_i hflat
    have hflat := List.isEmpty_iff.mp hflat
    cases h
    have hcheck : l.checkAtoms atoms = .ok () := by
      unfold Limits.checkAtoms
      rw [count_flat hflat, nestingDepth_flat hflat]
      dsimp only
      rw [hn, hd]
      rfl
    refine ⟨e, ?_, rfl⟩
    unfold parseLatex
    dsimp only
    rw [Outcome.eq_ok_of_toOption hsource, Outcome.eq_ok_of_toOption hatoms]
    show (l.checkAtoms atoms >>= fun _ => renamed .parseRecursion (readAtoms c atoms)) = _
    rw [hcheck, Outcome.eq_ok_of_toOption he]
    rfl
  · cases h

end Formula
