import Formula.Proofs.Expr.Height
import Formula.Proofs.Reader.Progress

/-!
# How high the trees of formulas are

Every atom that is read puts at most one node on top of what was read before it, and what is nested in an atom stands
below it; an atom that is an operand may give one node more, the group that holds its scripts.  So a row of `n` atoms
gives a tree that is at most `n + 1` higher than the trees of what is nested in it: this is `Atom.reach`.

`Low` says so of every function of the reader.  The height still to come is bounded by the number of atoms that are left,
hence the bounds are on the sum of both (`StaysBelow`).  Both the number of atoms and the depth of nesting then bound the
height, the depth together with the length of the rows.
-/

namespace Formula

open Atom Expr Outcome

/-! ### How high a row may reach -/

namespace Atom

mutual

/-- The greatest height of a tree of what is nested in an atom. -/
def innerReach : Atom → Nat
  | ⟨_, _, _, superscript, subscript, body, numerator, denominator, index, _, _, _, _⟩ =>
    max (max (max (fieldReach superscript) (fieldReach subscript)) (max (fieldReach body) (fieldReach numerator)))
      (max (fieldReach denominator) (fieldReach index))

/-- The greatest height of a tree of a nested sequence. -/
def fieldReach : Option (List Atom) → Nat
  | none => 0
  | some atoms => if (unspaced atoms).length = 0 then 0 else (unspaced atoms).length + 1 + rowReach atoms

/-- The greatest height of a tree of what is nested in the atoms of a sequence. -/
def rowReach : List Atom → Nat
  | [] => 0
  | a :: rest => if a.type = .spacing then rowReach rest else max a.innerReach (rowReach rest)

end

/-- The greatest height of a tree of a sequence. -/
def reach (atoms : List Atom) : Nat := fieldReach (some atoms)

variable {atoms row s : List Atom} {n N : Nat}

theorem fieldReach_getD (field : Option (List Atom)) : reach (field.getD []) = fieldReach field := by
  cases field with
  | none => rfl
  | some atoms => rfl

theorem fieldReach_le {a : Atom} {field : Option (List Atom)} (h : field ∈ a.fields) : fieldReach field ≤ a.innerReach := by
  obtain ⟨type, value, latex, f1, f2, f3, f4, f5, f6, delim, left, right, font⟩ := a
  simp only [fields, List.mem_cons, List.not_mem_nil, or_false] at h
  rw [innerReach]
  rcases h with rfl | rfl | rfl | rfl | rfl | rfl <;> omega

theorem innerReach_le_iff {a : Atom} : a.innerReach ≤ N ↔ ∀ field ∈ a.fields, fieldReach field ≤ N := by
  refine ⟨fun h field hf => Nat.le_trans (fieldReach_le hf) h, fun h => ?_⟩
  obtain ⟨type, value, latex, f1, f2, f3, f4, f5, f6, delim, left, right, font⟩ := a
  simp only [fields, List.forall_mem_cons, List.not_mem_nil, false_imp_iff, implies_true, and_true] at h
  rw [innerReach]
  omega

theorem rowReach_le_iff : ∀ {atoms : List Atom} {N : Nat}, rowReach atoms ≤ N ↔ ∀ a ∈ unspaced atoms, a.innerReach ≤ N
  | [], N => by simp [rowReach, unspaced]
  | a :: rest, N => by
    have ih := @rowReach_le_iff rest N
    unfold unspaced at ih ⊢
    rw [rowReach]
    by_cases h : a.type = .spacing
    · simp [h, ih]
    · simp [h, ih, Nat.max_le]

/-- A row reaches no higher than its length above what is nested in it. -/
theorem reach_le (hn : (unspaced atoms).length ≤ n) (hN : ∀ a ∈ unspaced atoms, a.innerReach ≤ N) :
    reach atoms ≤ n + 1 + N := by
  have := rowReach_le_iff.mpr hN
  rw [reach, fieldReach]
  split <;> omega

theorem reach_eq (h : unspaced atoms ≠ []) : reach atoms = (unspaced atoms).length + 1 + rowReach atoms := by
  rw [reach, fieldReach, if_neg (by rwa [List.length_eq_zero_iff])]

theorem reach_nil (h : unspaced atoms = []) : reach atoms = 0 := by
  rw [reach, fieldReach, h]
  rfl

/-- A part reaches no higher than the whole. -/
theorem reach_mono (h : s <:+: atoms) : reach s ≤ reach atoms := by
  by_cases hs : unspaced s = []
  · rw [reach_nil hs]
    exact Nat.zero_le _
  · have hparts := infix_unspaced h
    have hne : unspaced atoms ≠ [] := fun hnil => hs (List.infix_nil.mp (hnil ▸ hparts))
    rw [reach_eq hne]
    exact reach_le hparts.length_le fun a ha => rowReach_le_iff.mp (Nat.le_refl _) a (hparts.subset ha)

end Atom

/-! ### What is to be kept -/

/-- The tree stays below the bound, even if every atom behind it puts a node on top. -/
def StaysBelow (bound : Nat) (read : Reading) : Prop := read.expr.height + read.rest.length ≤ bound

/-- What is nested in the atoms of the row reaches up to `N` at most, and a tree of one of them stays below the bound. -/
structure Fits (N bound : Nat) (row : List Atom) : Prop where
  inner : ∀ a ∈ row, a.innerReach ≤ N
  length : N + 1 + row.length ≤ bound

/-- With scripts that reach up to `N`, the expression stays below the bound in front of the row. -/
def Scriptable (N bound : Nat) (row : List Atom) (e : Expr) : Prop :=
  ∀ s t : Expr, s.height ≤ N → t.height ≤ N → StaysBelow bound ⟨row, e.attach s t⟩

section

variable {N bound : Nat} {row s : List Atom} {e : Expr} {read : Reading}

theorem Fits.suffix (h : Fits N bound row) (hs : s <:+ row) : Fits N bound s := by
  have := hs.length_le
  have := h.length
  exact ⟨fun a ha => h.inner a (hs.subset ha), by omega⟩

/-- Behind an atom the bound is one less. -/
theorem Fits.tail {a : Atom} (h : Fits N bound (a :: row)) :
    ∃ bound', bound = bound' + 1 ∧ a.innerReach ≤ N ∧ Fits N bound' row := by
  have hlength := h.length
  rw [List.length_cons] at hlength
  exact ⟨bound - 1, by omega, h.inner a List.mem_cons_self,
    ⟨fun b hb => h.inner b (List.mem_cons_of_mem _ hb), by omega⟩⟩

theorem Fits.mono {more : Nat} (h : Fits N bound row) (hb : bound ≤ more) : Fits N more row :=
  ⟨h.inner, Nat.le_trans h.length hb⟩

theorem StaysBelow.mono {more : Nat} (h : StaysBelow bound read) (hb : bound ≤ more) : StaysBelow more read := Nat.le_trans h hb

/-- An expression that is not high stays below the bound. -/
theorem Fits.below (h : Fits N bound row) (he : e.height ≤ N + 1) : StaysBelow bound ⟨row, e⟩ :=
  Nat.le_trans (Nat.add_le_add_right he row.length) h.length

/-- Any expression takes scripts if there is room for one more node. -/
theorem Scriptable.of_below (hfits : Fits N bound row) (h : StaysBelow bound ⟨row, e⟩) : Scriptable N (bound + 1) row e := by
  intro s t hs ht
  have hattach := @height_attach e s t N hs ht
  have := hfits.length
  unfold StaysBelow at h ⊢
  dsimp only at h ⊢
  omega

/-- An expression that holds scripts itself takes them without more room. -/
theorem Scriptable.of_free (hfits : Fits N bound row) (h : StaysBelow bound ⟨row, e⟩) (hholds : e.holdsScripts = true)
    (hfree : e.decorated = false) : Scriptable N bound row e := by
  intro s t hs ht
  have hattach := height_attach_free hholds hfree hs ht
  have := hfits.length
  unfold StaysBelow at h ⊢
  dsimp only at h ⊢
  omega

theorem Scriptable.below (h : Scriptable N bound row e) : StaysBelow bound ⟨row, e⟩ :=
  h missing missing (Nat.zero_le _) (Nat.zero_le _)

end

/-- How high the functions of the reader build with the fuel. -/
structure Low (c : Catalog) (fuel : Nat) : Prop where
  whole : ∀ {atoms e}, Expr.ofSequence c fuel atoms = .ok e → e.height ≤ reach atoms
  nested : ∀ {field e}, ofNested c fuel field = .ok e → e.height ≤ fieldReach field
  parts : ∀ {N parts items}, ofParts c fuel parts = .ok items → (∀ part ∈ parts, reach part ≤ N) → heights items ≤ N
  atom : ∀ {N bound a rest e}, ofAtom c fuel a = .ok e → Fits N bound (a :: rest) → Scriptable N bound rest e
  attached : ∀ {N bound row a e e'}, attachScripts c fuel a e = .ok e' → a.innerReach ≤ N → Scriptable N bound row e →
    StaysBelow bound ⟨row, e'⟩
  scripts : ∀ {N bound own e atoms read}, readScripts c fuel own e atoms = .ok read → Fits N bound atoms →
    StaysBelow bound ⟨atoms, e⟩ → (∀ a ∈ own, a.innerReach ≤ N ∧ Scriptable N bound atoms e) → StaysBelow bound read
  marks : ∀ {N bound e atoms read}, readPostfix c fuel e atoms = .ok read → Fits N bound atoms →
    StaysBelow bound ⟨atoms, e⟩ → StaysBelow bound read
  marked : ∀ {N bound a rest read}, readMarked c fuel a rest = .ok read → Fits N bound (a :: rest) → StaysBelow bound read
  symbol : ∀ {N bound a rest read}, readSymbol c fuel a rest = .ok read → Fits N bound (a :: rest) → StaysBelow bound read
  mixed : ∀ {N bound literal numeral read}, readMixed c fuel literal numeral = .ok (some read) →
    literal.height = 1 → Fits N bound numeral.rest → StaysBelow (bound + 1) read
  number : ∀ {N bound a rest read}, readNumber c fuel a rest = .ok read → Fits N bound (a :: rest) → StaysBelow bound read
  function : ∀ {N bound closers a rest read}, readFunction c fuel closers a rest = .ok read →
    Fits N bound (a :: rest) → StaysBelow bound read
  closing : ∀ {N bound left closer inner atoms read}, readClosing c fuel left closer inner atoms = .ok read →
    Fits N bound atoms → StaysBelow bound ⟨atoms, inner⟩ → StaysBelow (bound + 1) read
  fence : ∀ {N bound closers a rest read}, readFence c fuel closers a rest = .ok read → Fits N bound (a :: rest) →
    StaysBelow bound read
  operand : ∀ {N bound closers a rest read}, readOperand c fuel closers a rest = .ok read → Fits N bound (a :: rest) →
    StaysBelow bound read
  application : ∀ {N bound e atoms read}, readCall c fuel e atoms = .ok (some read) → Fits N bound atoms →
    StaysBelow (bound + 1) ⟨atoms, e⟩ → StaysBelow (bound + 1) read
  neighbours : ∀ {N bound closers e atoms read}, readNeighbours c fuel closers e atoms = .ok read → Fits N bound atoms →
    StaysBelow (bound + 1) ⟨atoms, e⟩ → StaysBelow (bound + 1) read
  primary : ∀ {N bound closers atoms read}, readPrimary c fuel closers atoms = .ok read → Fits N bound atoms →
    StaysBelow bound read
  expression : ∀ {N bound closers least left atoms read}, readExpression c fuel closers least left atoms = .ok read →
    Fits N bound atoms → StaysBelow bound ⟨atoms, left⟩ → StaysBelow bound read
  tighter : ∀ {N bound closers precedence right atoms read},
    readTighter c fuel closers precedence right atoms = .ok read → Fits N bound atoms → StaysBelow bound ⟨atoms, right⟩ →
      StaysBelow bound read
  stray : ∀ {N bound closers e atoms read}, readStray c fuel closers e atoms = .ok read → Fits N bound atoms →
    StaysBelow bound ⟨atoms, e⟩ → (e.isMissing = false → N + 1 + atoms.length < bound) → StaysBelow bound read
  sequence : ∀ {N bound closers atoms read}, readSequence c fuel closers atoms = .ok read → Fits N bound atoms →
    StaysBelow bound read

section

variable {c : Catalog} {fuel : Nat}

theorem readSequence_empty {closers : List Closer} {read : Reading} :
    ∀ {fuel : Nat}, readSequence c fuel closers [] = .ok read → read = ⟨[], missing⟩
  | 0, h | 1, h => by cases h
  | fuel + 2, h => by
    simp only [readSequence, readPrimary, readExpression, readStray, bind, Except.bind] at h
    cases h
    rfl

/-- Spaces alone have no expression. -/
theorem ofSequence_spaces {atoms : List Atom} {e : Expr} (hnil : unspaced atoms = [])
    (h : Expr.ofSequence c fuel atoms = .ok e) : e = missing := by
  cases fuel with
  | zero => cases h
  | succ fuel =>
    obtain ⟨read, hread, rfl⟩ := of_ofSequence h
    rw [hnil] at hread
    rw [readSequence_empty hread]

/-- An expression is read on behind its left operand, or nothing is read. -/
theorem readExpression_stays_or_shorter {closers : List Closer} {least : Int} {left : Expr} {atoms : List Atom}
    {read : Reading} (h : readExpression c fuel closers least left atoms = .ok read) :
    read = ⟨atoms, left⟩ ∨ read.rest.length < atoms.length := by
  cases fuel with
  | zero => cases h
  | succ fuel =>
    have hforward := Forward.all c fuel
    cases expressionStep_of_readExpression h with
    | none => exact .inl rfl
    | operator _ _ _ hfirst hright h =>
      have hs := (hforward.tighter hright).rest.trans (hforward.primary hfirst).continues.rest
      exact .inr (Nat.lt_succ_of_le ((hforward.expression h).rest.trans hs).length_le)

variable {N bound : Nat} {closers : List Closer} {a : Atom} {rest atoms : List Atom} {e e' : Expr} {read : Reading}
  (ih : Low c fuel)
include ih

theorem low_whole (h : Expr.ofSequence c (fuel + 1) atoms = .ok e) : e.height ≤ reach atoms := by
  by_cases hnil : unspaced atoms = []
  · rw [ofSequence_spaces hnil h]
    exact Nat.zero_le _
  · obtain ⟨read, hread, rfl⟩ := of_ofSequence h
    have hfits : Fits (rowReach atoms) (reach atoms) (unspaced atoms) :=
      ⟨rowReach_le_iff.mp (Nat.le_refl _), by rw [reach_eq hnil]; omega⟩
    exact Nat.le_trans (Nat.le_add_right _ _) (ih.sequence hread hfits)

theorem low_nested {field : Option (List Atom)} (h : ofNested c (fuel + 1) field = .ok e) : e.height ≤ fieldReach field := by
  cases nestedStep_of_ofNested h with
  | none | nil => exact Nat.zero_le _
  | whole h => exact ih.whole h

theorem low_parts {parts : List (List Atom)} {items : List Expr} (h : ofParts c (fuel + 1) parts = .ok items)
    (hN : ∀ part ∈ parts, reach part ≤ N) : heights items ≤ N := by
  cases partsStep_of_ofParts h with
  | nil => exact Nat.zero_le _
  | cons he hmore =>
    rw [heights_cons]
    exact Nat.max_le.mpr ⟨Nat.le_trans (ih.nested he) (hN _ List.mem_cons_self),
      ih.parts hmore fun p hp => hN p (List.mem_cons_of_mem _ hp)⟩

theorem low_atom (h : ofAtom c (fuel + 1) a = .ok e) (hfits : Fits N bound (a :: rest)) : Scriptable N bound rest e := by
  obtain ⟨bound, rfl, ha, hrest⟩ := hfits.tail
  have field : ∀ {f : Option (List Atom)} {e' : Expr}, f ∈ a.fields → Expr.ofSequence c fuel (f.getD []) = .ok e' →
      e'.height ≤ N := fun hf he => Nat.le_trans (ih.whole he) (by
    rw [fieldReach_getD]
    exact Nat.le_trans (fieldReach_le hf) ha)
  -- What is one node on top of nested sequences leaves room for a group.
  have grouped : ∀ {e' : Expr}, e'.height ≤ N + 1 → Scriptable N (bound + 1) rest e' := fun he =>
    .of_below hrest (hrest.below he)
  cases atomStep_of_ofAtom h with
  | fraction _ hn hd =>
    have := field (by simp [fields]) hn
    have := field (by simp [fields]) hd
    exact grouped (by rw [height_quotient]; omega)
  | squareRoot _ hr _ _ =>
    have := field (by simp [fields]) hr
    exact grouped (by rw [height_squareRoot]; omega)
  | root _ hr hi hfound =>
    have := field (by simp [fields]) hr
    have := field (by simp [fields]) hi
    -- The call is two nodes above the index, but needs no group.
    have hpos : 1 ≤ N := by
      by_cases hnil : unspaced (a.index.getD []) = []
      · rw [ofSequence_spaces hnil hi] at hfound
        cases hfound
      · have := reach_eq hnil
        have := Nat.le_trans (@fieldReach_le a a.index (by simp [fields])) ha
        rw [fieldReach_getD] at *
        omega
    refine .of_free (hrest.mono (Nat.le_succ _)) ?_ rfl rfl
    have hlength := hrest.length
    unfold StaysBelow
    simp only [height_apply, height_tuple, heights_cons, heights_nil, height_quotient, height_ofNumber]
    omega
  | font _ h => exact grouped (by rw [(isLeaf_inFont h).height]; omega)
  | text _ h => exact grouped (by rw [(isLeaf_asText h).height]; omega)
  | symbol _ h => exact grouped (by rw [(isLeaf_symbol h).height]; omega)
  | other _ => exact grouped (Nat.zero_le _)

theorem low_attached {row : List Atom} (h : attachScripts c (fuel + 1) a e = .ok e') (ha : a.innerReach ≤ N)
    (he : Scriptable N bound row e) : StaysBelow bound ⟨row, e'⟩ := by
  obtain ⟨sup, sub, hsup, hsub, rfl⟩ := of_attachScripts h
  exact he sup sub (Nat.le_trans (ih.nested hsup) (Nat.le_trans (fieldReach_le (by simp [fields])) ha))
    (Nat.le_trans (ih.nested hsub) (Nat.le_trans (fieldReach_le (by simp [fields])) ha))

theorem low_scripts {own : Option Atom} (h : readScripts c (fuel + 1) own e atoms = .ok read) (hfits : Fits N bound atoms)
    (he : StaysBelow bound ⟨atoms, e⟩) (hown : ∀ a ∈ own, a.innerReach ≤ N ∧ Scriptable N bound atoms e) :
    StaysBelow bound read := by
  obtain ⟨e', hscripts, hread⟩ := of_readScripts h
  have he' : StaysBelow bound ⟨atoms, e'⟩ := by
    rcases hscripts with ⟨rfl, -⟩ | ⟨a, rfl, he'⟩
    · exact he
    · exact ih.attached he' (hown a rfl).1 (hown a rfl).2
  rcases hread with rfl | ⟨a, rest, rfl, -, h⟩
  · exact he'
  · -- A placeholder that is read leaves room for a group.
    obtain ⟨bound, rfl, ha, hrest⟩ := hfits.tail
    have he' : StaysBelow bound ⟨rest, e'⟩ := Nat.le_of_succ_le_succ he'
    refine ih.scripts h (hrest.mono (Nat.le_succ _)) (he'.mono (Nat.le_succ _)) ?_
    rintro _ ⟨⟩
    exact ⟨ha, .of_below hrest he'⟩

/-- Scripts and marks behind an expression that leaves room for the scripts. -/
theorem low_behind (h : ReadsBehind c fuel (some a) e atoms read) (hfits : Fits N bound atoms) (ha : a.innerReach ≤ N)
    (he : Scriptable N bound atoms e) : StaysBelow bound read := by
  obtain ⟨scripted, hscripts, hmarks⟩ := h
  refine ih.marks hmarks (hfits.suffix ((Forward.all c fuel).scripts hscripts).rest) (ih.scripts hscripts hfits he.below ?_)
  rintro _ ⟨⟩
  exact ⟨ha, he⟩

theorem low_marks (h : readPostfix c (fuel + 1) e atoms = .ok read) (hfits : Fits N bound atoms)
    (he : StaysBelow bound ⟨atoms, e⟩) : StaysBelow bound read := by
  -- A mark is one node, which holds scripts itself.
  have on : ∀ {b : Atom} {name : String} {s : List Atom}, b :: s <:+ atoms → ReadsBehind c fuel (some b) (apply name e) s read →
      StaysBelow bound read := by
    intro b name s hs h
    obtain ⟨bound', rfl, hb, hrest⟩ := (hfits.suffix hs).tail
    have hfits : Fits N (bound' + 1) s := hrest.mono (Nat.le_succ _)
    have hmark : StaysBelow (bound' + 1) ⟨s, apply name e⟩ := by
      have := hs.length_le
      unfold StaysBelow at he ⊢
      simp only [height_apply, List.length_cons] at this he ⊢
      omega
    exact low_behind ih h hfits hb (.of_free hfits hmark rfl rfl)
  cases marksStep_of_readPostfix h with
  | none => exact he
  | digraph _ h => exact on (List.suffix_cons _ _) h
  | mark _ h => exact on List.suffix_rfl h

theorem low_marked (h : readMarked c (fuel + 1) a rest = .ok read) (hfits : Fits N bound (a :: rest)) :
    StaysBelow bound read := by
  obtain ⟨e, he, h⟩ := of_readMarked h
  exact low_behind ih h (hfits.suffix (List.suffix_cons a rest)) (hfits.inner a List.mem_cons_self) (ih.atom he hfits)

theorem low_symbol (h : readSymbol c (fuel + 1) a rest = .ok read) (hfits : Fits N bound (a :: rest)) :
    StaysBelow bound read := by
  cases symbolStep_of_readSymbol h with
  | operator _ => exact hfits.below (Nat.zero_le _)
  | symbol _ _ h => exact ih.marked h hfits
  | unexpected _ _ hu =>
    exact (hfits.suffix (List.suffix_cons a rest)).below (by rw [(isLeaf_unexpected hu).height]; omega)

theorem low_mixed {literal : Expr} {numeral : NumeralReading} (h : readMixed c (fuel + 1) literal numeral = .ok (some read))
    (hliteral : literal.height = 1) (hfits : Fits N bound numeral.rest) : StaysBelow (bound + 1) read := by
  obtain ⟨following, rest, fraction, behind, hrest, -, -, hfraction, hbehind, rfl⟩ := of_readMixed h
  rw [hrest] at hfits
  have hbelow := low_behind ih hbehind (hfits.suffix (List.suffix_cons following rest))
    (hfits.inner following List.mem_cons_self) (ih.atom hfraction hfits)
  have hlength := (forward_behind (Forward.all c fuel) hbehind).rest.length_le
  have := hfits.length
  unfold StaysBelow at hbelow ⊢
  simp only [height_between, hliteral, List.length_cons] at this hbelow ⊢
  omega

theorem low_number (h : readNumber c (fuel + 1) a rest = .ok read) (hfits : Fits N bound (a :: rest)) :
    StaysBelow bound read := by
  cases numberStep_of_readNumber h with
  | symbol h => exact ih.marked h hfits
  | mixed _ _ hsuffix hliteral h =>
    obtain ⟨bound, rfl, -, hrest⟩ := (hfits.suffix hsuffix).tail
    exact ih.mixed h (height_literalOf hliteral) hrest
  | plain _ _ hsuffix hliteral h =>
    obtain ⟨bound, rfl, hinner, hrest⟩ := (hfits.suffix hsuffix).tail
    have hbelow := hrest.below (by rw [height_literalOf hliteral]; exact Nat.le_add_left 1 N)
    exact low_behind ih h (hrest.mono (Nat.le_succ _)) hinner (.of_below hrest hbelow)

theorem low_function (h : readFunction c (fuel + 1) closers a rest = .ok read) (hfits : Fits N bound (a :: rest)) :
    StaysBelow bound read := by
  obtain ⟨bound, rfl, ha, hrest⟩ := hfits.tail
  have scripted : ∀ {name : Datum} {head : Reading}, readScripts c fuel (some a) (apply name missing) rest = .ok head →
      StaysBelow bound head := by
    intro name head hhead
    have hname : StaysBelow bound ⟨rest, apply name missing⟩ := hrest.below (by simp [height_apply])
    refine ih.scripts hhead hrest hname ?_
    rintro _ ⟨⟩
    exact ⟨ha, .of_free hrest hname rfl rfl⟩
  cases functionStep_of_readFunction h with
  | call _ hhead hargument heq he =>
    have hbelow := scripted hhead
    have harg := ih.primary hargument (hrest.suffix ((Forward.all c fuel).scripts hhead).rest)
    have hlength := ((Forward.all c fuel).primary hargument).continues.rest.length_le
    have happlied := height_applyInverse he
    unfold StaysBelow at hbelow harg ⊢
    rw [heq] at hbelow
    simp only [height_call] at hbelow happlied ⊢
    omega
  | @product _ head argument _ hhead hargument =>
    have hbelow := scripted hhead
    have harg := ih.primary hargument (hrest.suffix ((Forward.all c fuel).scripts hhead).rest)
    have hlength := ((Forward.all c fuel).primary hargument).continues.rest.length_le
    have hboth := height_juxtapose head.expr argument.expr
    unfold StaysBelow at hbelow harg ⊢
    dsimp only at hbelow harg ⊢
    omega

theorem low_closing {left : Datum} {closer : Closer} {inner : Expr}
    (h : readClosing c (fuel + 1) left closer inner atoms = .ok read) (hfits : Fits N bound atoms)
    (hinner : StaysBelow bound ⟨atoms, inner⟩) : StaysBelow (bound + 1) read := by
  have on : ∀ {own : Option Atom} {right : Datum} {e : Expr} {s : List Atom}, s <:+ atoms → (∀ b ∈ own, b.innerReach ≤ N) →
      delimited left right inner = .ok e → readScripts c fuel own e s = .ok read → StaysBelow (bound + 1) read := by
    intro own right e s hs hown he h
    obtain ⟨hheight, hholds, hfree⟩ := height_delimited he
    have hfits : Fits N (bound + 1) s := (hfits.suffix hs).mono (Nat.le_succ _)
    have hfence : StaysBelow (bound + 1) ⟨s, e⟩ := by
      have := hs.length_le
      unfold StaysBelow at hinner ⊢
      dsimp only at hinner ⊢
      omega
    exact ih.scripts h hfits hfence fun b hb => ⟨hown b hb, .of_free hfits hfence hholds hfree⟩
  cases closingStep_of_readClosing h with
  | unclosed he h _ => exact on List.suffix_rfl (fun b hb => by cases hb) he h
  | @closed a rest _ _ _ _ he h =>
    refine on (List.suffix_cons a rest) ?_ he h
    rintro _ ⟨⟩
    exact hfits.inner a List.mem_cons_self

theorem low_fence (h : readFence c (fuel + 1) closers a rest = .ok read) (hfits : Fits N bound (a :: rest)) :
    StaysBelow bound read := by
  have hforward := Forward.all c fuel
  cases fenceStep_of_readFence h with
  | @fenced _ _ _ e _ _ hinner he h =>
    obtain ⟨bound, rfl, ha, hrest⟩ := hfits.tail
    have hbody := Nat.le_trans (ih.nested hinner) (Nat.le_trans (@fieldReach_le a a.body (by simp [fields])) ha)
    have hfence := @Fits.below _ _ _ e hrest (by rw [(height_delimited he).1]; omega)
    exact low_behind ih h (hrest.mono (Nat.le_succ _)) ha (.of_below hrest hfence)
  | symbol _ _ h => exact ih.symbol h hfits
  | opened _ hinner hclosed h =>
    obtain ⟨bound, rfl, -, hrest⟩ := hfits.tail
    have hs := (hforward.sequence hinner).1.rest
    have hbelow := ih.closing hclosed (hrest.suffix hs) (ih.sequence hinner hrest)
    exact ih.marks h ((hrest.suffix ((hforward.closing hclosed).1.trans hs)).mono (Nat.le_succ _)) hbelow

theorem low_operand (h : readOperand c (fuel + 1) closers a rest = .ok read) (hfits : Fits N bound (a :: rest)) :
    StaysBelow bound read := by
  -- An operator in front is one node above what stands behind it.
  have on : ∀ {s : List Atom} {read' : Reading} {e : Expr}, s <:+ rest → readPrimary c fuel closers s = .ok read' →
      e.height ≤ read'.expr.height + 1 → StaysBelow bound ⟨read'.rest, e⟩ := by
    intro s read' e hs h' he
    obtain ⟨bound, rfl, -, hrest⟩ := hfits.tail
    have hread := ih.primary h' (hrest.suffix hs)
    unfold StaysBelow at hread ⊢
    dsimp only at hread ⊢
    omega
  cases operandStep_of_readOperand h with
  | digraph _ hread => exact on (List.suffix_cons _ _) hread (Nat.le_of_eq (height_apply _ _))
  | sign _ hread => exact on List.suffix_rfl hread (height_withSign _ _)
  | placeholder _ h =>
    obtain ⟨bound, rfl, ha, hrest⟩ := hfits.tail
    have hbelow := @Fits.below _ _ _ (unreadable "" "sub/superscript without a base") hrest (by rw [height_unreadable]; omega)
    refine ih.scripts h (hrest.mono (Nat.le_succ _)) (hbelow.mono (Nat.le_succ _)) ?_
    rintro _ ⟨⟩
    exact ⟨ha, .of_below hrest hbelow⟩
  | number _ h => exact ih.number h hfits
  | marked _ h => exact ih.marked h hfits
  | fence _ h => exact ih.fence h hfits
  | function _ _ h => exact ih.function h hfits
  | symbol _ _ _ h => exact ih.symbol h hfits

theorem low_application (h : readCall c (fuel + 1) e atoms = .ok (some read)) (hfits : Fits N bound atoms)
    (he : StaysBelow (bound + 1) ⟨atoms, e⟩) : StaysBelow (bound + 1) read := by
  obtain ⟨name, variant, s, t, inner, last, rest, rows, items, rfl, -, hfound, hrows, hitems, hbehind⟩ := of_readCall h
  obtain ⟨hparts, -⟩ := splitAtCommas_parts hrows
  -- The arguments reach no higher than the atoms that they take, or than the body that they stand in.
  obtain ⟨hs, hlt, hlast, M, hM, hbound⟩ : rest <:+ atoms ∧ rest.length < atoms.length ∧ last ∈ atoms ∧
      ∃ M, (∀ part ∈ rows, reach part ≤ M) ∧ M + 1 + rest.length ≤ bound := by
    have hlength := hfits.length
    rcases callArguments?_eq hfound with ⟨rfl, rfl⟩ | ⟨a, rfl⟩
    · have hlast := hfits.inner last List.mem_cons_self
      refine ⟨List.suffix_cons last rest, Nat.lt_succ_self _, List.mem_cons_self, N, fun part hp => ?_, by
        rw [List.length_cons] at hlength; omega⟩
      refine Nat.le_trans (reach_mono (hparts part hp)) (Nat.le_trans ?_ hlast)
      rw [List.reverse_nil, List.nil_append, fieldReach_getD]
      exact fieldReach_le (by simp [fields])
    · refine ⟨⟨a :: (inner ++ [last]), by simp⟩, by simp only [List.length_cons, List.length_append]; omega, by simp,
        inner.length + 1 + N, fun part hp => ?_, by simp only [List.length_cons, List.length_append] at hlength; omega⟩
      have hpart : part <:+: inner := hparts part hp
      have hmem : ∀ b ∈ unspaced part, b ∈ a :: (inner ++ last :: rest) := fun b hb => by
        have := hpart.subset (List.mem_filter.mp hb).1
        simp [this]
      exact reach_le (Nat.le_trans (List.length_filter_le _ _) hpart.length_le) fun b hb => hfits.inner b (hmem b hb)
  have hargs := Nat.le_trans (height_argumentsOf items) (ih.parts hitems hM)
  have hfits' := hfits.suffix hs
  have hcall : StaysBelow bound ⟨rest, call name (argumentsOf items) parentheses s t⟩ := by
    unfold StaysBelow at he ⊢
    simp only [height_symbol, height_call] at he ⊢
    omega
  exact low_behind ih hbehind (hfits'.mono (Nat.le_succ _)) (hfits.inner last hlast) (.of_below hfits' hcall)

theorem low_neighbours (h : readNeighbours c (fuel + 1) closers e atoms = .ok read) (hfits : Fits N bound atoms)
    (he : StaysBelow (bound + 1) ⟨atoms, e⟩) : StaysBelow (bound + 1) read := by
  have hforward := Forward.all c fuel
  cases neighboursStep_of_readNeighbours h with
  | none => exact he
  | @call a rest _ _ _ hcall h =>
    have hs := (hforward.application hcall).1
    exact ih.neighbours h (hfits.suffix (hs.trans (List.suffix_cons a rest))) (ih.application hcall hfits he)
  | stopped _ hoperand hstopped =>
    obtain rfl := (hforward.operand hoperand).eq_of_stopped hstopped
    exact he
  | @product a rest operand _ _ hoperand hfound h =>
    have hread := ih.operand hoperand hfits
    rcases hforward.operand hoperand with ⟨hs, -⟩ | ⟨rfl, -⟩
    · have hlength := hs.length_le
      refine ih.neighbours h (hfits.suffix (hs.trans (List.suffix_cons a rest))) ?_
      unfold StaysBelow at he hread ⊢
      simp only [height_between, List.length_cons] at he hread ⊢
      omega
    · cases hfound

theorem low_primary (h : readPrimary c (fuel + 1) closers atoms = .ok read) (hfits : Fits N bound atoms) :
    StaysBelow bound read := by
  cases primaryStep_of_readPrimary h with
  | nil => exact hfits.below (Nat.zero_le _)
  | closed _ => exact hfits.below (Nat.zero_le _)
  | none _ hoperand _ => exact ih.operand hoperand hfits
  | operand _ hoperand hfound h =>
    have hread := ih.operand hoperand hfits
    rcases (Forward.all c fuel).operand hoperand with ⟨hs, -⟩ | ⟨rfl, -⟩
    · obtain ⟨bound, rfl, -, hrest⟩ := hfits.tail
      exact ih.neighbours h (hrest.suffix hs) hread
    · cases hfound

theorem low_expression {least : Int} {left : Expr} (h : readExpression c (fuel + 1) closers least left atoms = .ok read)
    (hfits : Fits N bound atoms) (hleft : StaysBelow bound ⟨atoms, left⟩) : StaysBelow bound read := by
  cases expressionStep_of_readExpression h with
  | none => exact hleft
  | operator _ _ _ hfirst hright h =>
    -- The operator itself makes room for the node above both operands.
    obtain ⟨bound, rfl, -, hrest⟩ := hfits.tail
    have hs := ((Forward.all c fuel).primary hfirst).continues.rest
    have hbelow := ih.tighter hright (hrest.suffix hs) (ih.primary hfirst hrest)
    have hs' := ((Forward.all c fuel).tighter hright).rest.trans hs
    refine ih.expression h ((hrest.suffix hs').mono (Nat.le_succ _)) ?_
    have hlength := hs'.length_le
    unfold StaysBelow at hleft hbelow ⊢
    simp only [height_between, List.length_cons] at hleft hbelow ⊢
    omega

theorem low_tighter {precedence : Int} {right : Expr}
    (h : readTighter c (fuel + 1) closers precedence right atoms = .ok read) (hfits : Fits N bound atoms)
    (hright : StaysBelow bound ⟨atoms, right⟩) : StaysBelow bound read := by
  cases tighterStep_of_readTighter h with
  | none => exact hright
  | tighter _ _ hoperand h =>
    exact ih.tighter h (hfits.suffix ((Forward.all c fuel).expression hoperand).rest) (ih.expression hoperand hfits hright)

/-- A round of the loop behind an expression is as high as a primary. -/
theorem low_round (h : strayStep c fuel closers a rest = .ok read) (hfits : Fits N bound (a :: rest)) :
    StaysBelow bound read := by
  cases roundStep_of_strayStep h with
  | primary hprimary _ h =>
    have hs := ((Forward.all c fuel).primary hprimary).continues.rest
    exact ih.expression h (hfits.suffix hs) (ih.primary hprimary hfits)
  | unexpected _ _ hu h =>
    have hrest := hfits.suffix (List.suffix_cons a rest)
    exact ih.expression h hrest (hrest.below (by rw [(isLeaf_unexpected hu).height]; omega))

theorem low_stray (h : readStray c (fuel + 1) closers e atoms = .ok read) (hfits : Fits N bound atoms)
    (he : StaysBelow bound ⟨atoms, e⟩) (hroom : e.isMissing = false → N + 1 + atoms.length < bound) :
    StaysBelow bound read := by
  cases loopStep_of_readStray h with
  | nil => exact he
  | closed _ => exact he
  | @round a rest round _ _ hround h =>
    obtain ⟨hs, -⟩ := forward_round (Forward.all c fuel) hround
    have hlength := hs.length_le
    have hfit := hfits.length
    rw [List.length_cons] at hfit hroom
    refine ih.stray h (hfits.suffix (hs.trans (List.suffix_cons a rest))) ?_ fun _ => by omega
    cases hm : e.isMissing with
    | true =>
      have hbelow := low_round ih hround hfits
      unfold juxtapose
      rwa [if_pos hm]
    | false =>
      -- The product is a node of its own, for which the expression has left room.
      obtain ⟨bound, rfl⟩ : ∃ b, bound = b + 1 := ⟨bound - 1, by omega⟩
      have hbelow : StaysBelow bound round :=
        low_round ih hround ⟨hfits.inner, by have := hroom hm; rw [List.length_cons]; omega⟩
      have hboth := height_juxtapose e round.expr
      unfold StaysBelow at he hbelow ⊢
      simp only [List.length_cons] at he hbelow ⊢
      omega

theorem low_sequence (h : readSequence c (fuel + 1) closers atoms = .ok read) (hfits : Fits N bound atoms) :
    StaysBelow bound read := by
  have hforward := Forward.all c fuel
  obtain ⟨first, behind, hfirst, hbehind, h⟩ := of_readSequence h
  have hprimary := hforward.primary hfirst
  have hs := hprimary.continues.rest
  have hs' := (hforward.expression hbehind).rest.trans hs
  refine ih.stray h (hfits.suffix hs') (ih.expression hbehind (hfits.suffix hs) (ih.primary hfirst hfits)) fun hm => ?_
  -- An expression that is there has taken an atom.
  have hlt : behind.rest.length < atoms.length := by
    rcases hprimary with ⟨a, rest, rfl, hrest, -⟩ | ⟨rfl, -⟩
    · exact Nat.lt_succ_of_le ((hforward.expression hbehind).rest.trans hrest).length_le
    · rcases readExpression_stays_or_shorter hbehind with rfl | hlt
      · cases hm
      · exact hlt
  have := hfits.length
  omega

end

/-- One more unit of fuel keeps all functions low. -/
theorem Low.succ {c : Catalog} {fuel : Nat} (ih : Low c fuel) : Low c (fuel + 1) where
  whole := low_whole ih
  nested := low_nested ih
  parts := low_parts ih
  atom := low_atom ih
  attached := low_attached ih
  scripts := low_scripts ih
  marks := low_marks ih
  marked := low_marked ih
  symbol := low_symbol ih
  mixed := low_mixed ih
  number := low_number ih
  function := low_function ih
  closing := low_closing ih
  fence := low_fence ih
  operand := low_operand ih
  application := low_application ih
  neighbours := low_neighbours ih
  primary := low_primary ih
  expression := low_expression ih
  tighter := low_tighter ih
  stray := low_stray ih
  sequence := low_sequence ih

/-- Without fuel nothing is read. -/
theorem Low.zero (c : Catalog) : Low c 0 := by
  constructor <;> nofun

theorem Low.all (c : Catalog) : ∀ fuel, Low c fuel
  | 0 => .zero c
  | fuel + 1 => (Low.all c fuel).succ

end Formula
