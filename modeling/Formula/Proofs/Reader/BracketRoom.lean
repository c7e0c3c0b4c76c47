import Formula.Proofs.Reader.Carrying
import Formula.Proofs.Reader.HeightLimits

/-!
# Room for brackets

The count of the limits and the reader decide for themselves when a bracket is closed: to the count any closing atom
closes one, to the reader only one with the right glyph.  The two agree where brackets nest, that is, where every closing
atom that stands inside of a bracket closes the innermost one (`bracketsNest`).

`BracketPlace` is a place of such a row with the fences that the reader has open there.  The brackets among them are some of
those that nest, since the reader may leave a bracket before it is closed, and those are no more than the count has open.
The levels that the count has left for the rest of the row are room for that many brackets more.
-/

namespace Formula

open Atom Expr Outcome

namespace Atom

variable {a : Atom} {row rest s : List Atom} {D level fences : Nat}

/-! ### What the count keeps to -/

/-- The walk keeps to a depth if it does so with every single sequence that is pending. -/
theorem depthFrom_le_iff_each (found : Nat) (work : List (List Atom × Nat)) :
    depthFrom found work ≤ D ↔ found ≤ D ∧ ∀ s ∈ work, depthFrom 0 [s] ≤ D := by
  simp [depthFrom_le_iff]

/-- With so many fences open in front of it, the row keeps to the depth, and so does what is nested in it. -/
structure KeepsTo (D level fences : Nat) (row : List Atom) : Prop where
  flat : flatDepth level fences row ≤ D
  nested : ∀ s ∈ nestedLevels level fences row, depthFrom 0 [s] ≤ D

theorem keepsTo_iff : depthFrom 0 [(row, level)] ≤ D ↔ KeepsTo D level 0 row := by
  rw [depthFrom, depthFrom_le_iff_each, List.append_nil, Nat.zero_max]
  exact ⟨fun h => ⟨h.1, h.2⟩, fun h => ⟨h.flat, h.nested⟩⟩

theorem keepsTo_nil (D level fences : Nat) : KeepsTo D level fences [] := ⟨Nat.zero_le D, by simp [nestedLevels]⟩

theorem keepsTo_cons : KeepsTo D level fences (a :: rest) ↔ level + fencesAfter fences a ≤ D ∧
    (∀ s ∈ a.nested, KeepsTo D (level + fencesAfter fences a + 1) 0 s) ∧ KeepsTo D level (fencesAfter fences a) rest := by
  have hnested : (∀ s ∈ nestedLevels level fences (a :: rest), depthFrom 0 [s] ≤ D) ↔
      (∀ s ∈ a.nested, KeepsTo D (level + fencesAfter fences a + 1) 0 s) ∧
        ∀ s ∈ nestedLevels level (fencesAfter fences a) rest, depthFrom 0 [s] ≤ D := by
    simp only [nestedLevels, List.forall_mem_append, List.forall_mem_map, keepsTo_iff]
  constructor
  · intro h
    obtain ⟨hlevel, hflat⟩ := Nat.max_le.mp h.flat
    obtain ⟨hhere, hbehind⟩ := hnested.mp h.nested
    exact ⟨hlevel, hhere, hflat, hbehind⟩
  · intro h
    exact ⟨Nat.max_le.mpr ⟨h.1, h.2.2.flat⟩, hnested.mpr ⟨h.2.1, h.2.2.nested⟩⟩

/-- A sequence that is not empty stands at a level of the depth. -/
theorem KeepsTo.level_le (h : KeepsTo D level fences row) (hne : row ≠ []) : level ≤ D :=
  Nat.le_trans (le_flatDepth hne) h.flat

/-- Spaces open and close nothing. -/
theorem KeepsTo.unspaced : ∀ {row : List Atom} {fences : Nat}, KeepsTo D level fences row →
    KeepsTo D level fences (unspaced row)
  | [], _, h => h
  | a :: rest, fences, h => by
    obtain ⟨hlevel, hnested, hrest⟩ := keepsTo_cons.mp h
    have hrest := hrest.unspaced
    by_cases hs : a.type = .spacing
    · have hafter : fencesAfter fences a = fences := by simp [fencesAfter, hs]
      rw [hafter] at hrest
      rwa [unspaced_cons_of_spacing hs]
    · rw [unspaced_cons_of_ne hs]
      exact keepsTo_cons.mpr ⟨hlevel, hnested, hrest⟩

theorem KeepsTo.front {t : List Atom} : ∀ {s : List Atom} {fences : Nat}, KeepsTo D level fences (s ++ t) →
    KeepsTo D level fences s
  | [], fences, _ => keepsTo_nil D level fences
  | a :: s, fences, h => by
    obtain ⟨hlevel, hnested, hrest⟩ := keepsTo_cons.mp h
    exact keepsTo_cons.mpr ⟨hlevel, hnested, hrest.front⟩

/-- A part of the row keeps to the depth, with as many fences open in front of it as there are. -/
theorem KeepsTo.part : ∀ {row : List Atom} {fences : Nat}, KeepsTo D level fences row → s <:+: row →
    ∃ fences, KeepsTo D level fences s
  | [], fences, h, hs => ⟨fences, by rwa [List.infix_nil.mp hs]⟩
  | a :: rest, fences, h, hs => by
    rcases List.infix_cons_iff.mp hs with ⟨t, ht⟩ | hs
    · exact ⟨fences, KeepsTo.front (ht ▸ h)⟩
    · exact (keepsTo_cons.mp h).2.2.part hs

/-- A row is split at its first atom, if that closes the bracket, or behind it. -/
theorem of_splitAtCloser {depth : Nat} {inner behind : List Atom} {last : Atom}
    (h : splitAtCloser depth (a :: rest) = some (inner, last, behind)) :
    ((a.type = .closing ∧ depth = 0) ∧ inner = [] ∧ last = a ∧ behind = rest) ∨
      (¬(a.type = .closing ∧ depth = 0) ∧
        ∃ more, inner = a :: more ∧ splitAtCloser (fencesAfter depth a) rest = some (more, last, behind)) := by
  rw [splitAtCloser] at h
  split at h
  · rename_i hcloses
    cases h
    exact .inl ⟨hcloses, rfl, rfl, rfl⟩
  · rename_i hinside
    have hafter : (if a.type = .opening then depth + 1 else if a.type = .closing then depth - 1 else depth) =
        fencesAfter depth a := by
      unfold fencesAfter
      cases a.type <;> rfl
    rw [hafter] at h
    obtain ⟨⟨more, last, behind⟩, hcut, heq⟩ := Option.map_eq_some_iff.mp h
    cases heq
    exact .inr ⟨hinside, more, rfl, hcut⟩

/-- What stands in a bracket, with `fences` fences open in front of it, starts on the level of the bracket. -/
theorem KeepsTo.split : ∀ {row : List Atom} {depth : Nat} {inner behind : List Atom} {last : Atom},
    KeepsTo D level (fences + 1 + depth) row → splitAtCloser depth row = some (inner, last, behind) →
      KeepsTo D (level + fences + 1) depth inner ∧ KeepsTo D level (fences + 1) (last :: behind)
  | [], _, _, _, _, _, hcut => by cases hcut
  | a :: rest, depth, inner, behind, last, h, hcut => by
    obtain ⟨⟨-, rfl⟩, rfl, rfl, rfl⟩ | ⟨hinside, more, rfl, hmore⟩ := of_splitAtCloser hcut
    · exact ⟨keepsTo_nil D _ _, h⟩
    · have hafter : fencesAfter (fences + 1 + depth) a = fences + 1 + fencesAfter depth a := by
        unfold fencesAfter
        cases ht : a.type with
        | closing =>
          have hpos : depth ≠ 0 := fun h => hinside ⟨ht, h⟩
          dsimp only
          omega
        | _ => rfl
      obtain ⟨hlevel, hnested, hrest⟩ := keepsTo_cons.mp h
      rw [hafter] at hlevel hnested hrest
      have hshift : level + (fences + 1 + fencesAfter depth a) = level + fences + 1 + fencesAfter depth a := by omega
      rw [hshift] at hlevel hnested
      obtain ⟨hinner, hlast⟩ := KeepsTo.split hrest hmore
      exact ⟨keepsTo_cons.mpr ⟨hlevel, hnested, hinner⟩, hlast⟩

/-! ### Brackets that nest -/

/-- The brackets of the row nest, those of the stack among them, the innermost first: a closing atom inside of a bracket
closes the innermost one, and is no half of a digraph. -/
def bracketsNest : List Closer → List Atom → Bool
  | _, [] => true
  | stack, a :: rest =>
    match a.type, stack with
    | .opening, _ => a.opened?.any fun k => bracketsNest (k :: stack) rest
    | .closing, k :: outer => a.shuts k && !a.isHalf && bracketsNest outer rest
    | _, _ => bracketsNest stack rest

/-- What an atom does to the brackets that are open. -/
inductive NestStep (a : Atom) : List Closer → List Closer → Prop
  | opens {stack : List Closer} {k : Closer} : a.type = .opening → a.opened? = some k → NestStep a stack (k :: stack)
  | shuts {outer : List Closer} {k : Closer} : a.type = .closing → a.shuts k = true → a.isHalf = false →
    NestStep a (k :: outer) outer
  | stray : a.type = .closing → NestStep a [] []
  | other {stack : List Closer} : a.type ≠ .opening → a.type ≠ .closing → NestStep a stack stack

variable {stack next : List Closer} {k : Closer}

theorem bracketsNest_cons : bracketsNest stack (a :: rest) = true ↔
    ∃ next, NestStep a stack next ∧ bracketsNest next rest = true := by
  constructor
  · intro h
    unfold bracketsNest at h
    by_cases ho : a.type = .opening
    · simp only [ho, Option.any_eq_true] at h
      obtain ⟨k, hk, h⟩ := h
      exact ⟨_, .opens ho hk, h⟩
    by_cases hc : a.type = .closing
    · cases stack with
      | nil =>
        simp only [hc] at h
        exact ⟨_, .stray hc, h⟩
      | cons k outer =>
        simp only [hc, Bool.and_eq_true, Bool.not_eq_true'] at h
        exact ⟨_, .shuts hc h.1.1 h.1.2, h.2⟩
    · split at h
      · exact absurd ‹_› ho
      · exact absurd ‹_› hc
      · exact ⟨_, .other ho hc, h⟩
  · rintro ⟨next, hstep, h⟩
    unfold bracketsNest
    cases hstep with
    | opens ht hk => simp [ht, hk, h]
    | shuts ht hs hh => simp [ht, hs, hh, h]
    | stray ht => simp [ht, h]
    | other ho hc =>
      split
      · exact absurd ‹_› ho
      · exact absurd ‹_› hc
      · exact h

/-- The count closes no more than there is. -/
theorem NestStep.length_le (h : NestStep a stack next) (hs : stack.length ≤ fences) :
    next.length ≤ fencesAfter fences a := by
  cases h with
  | opens ht _ =>
    simp only [fencesAfter, ht, List.length_cons]
    omega
  | shuts ht _ _ =>
    simp only [fencesAfter, ht, List.length_cons] at hs ⊢
    omega
  | stray ht => exact Nat.zero_le _
  | other ho hc =>
    unfold fencesAfter
    split
    · exact absurd ‹_› ho
    · exact absurd ‹_› hc
    · exact hs

theorem bracketsNest_front {t : List Atom} : ∀ {s : List Atom} {stack : List Closer}, bracketsNest stack (s ++ t) = true →
    bracketsNest stack s = true
  | [], _, _ => rfl
  | a :: s, _, h => by
    obtain ⟨next, hstep, h⟩ := bracketsNest_cons.mp h
    exact bracketsNest_cons.mpr ⟨next, hstep, bracketsNest_front h⟩

/-- The brackets further out may be left out of the stack. -/
theorem bracketsNest_inner {more : List Closer} : ∀ {row : List Atom} {stack : List Closer},
    bracketsNest (stack ++ more) row = true → bracketsNest stack row = true
  | [], _, _ => rfl
  | a :: rest, stack, h => by
    obtain ⟨next, hstep, hrest⟩ := bracketsNest_cons.mp h
    generalize hall : stack ++ more = all at hstep
    refine bracketsNest_cons.mpr ?_
    cases hstep with
    | @opens _ k ho hk =>
      subst hall
      exact ⟨k :: stack, .opens ho hk, bracketsNest_inner hrest⟩
    | @shuts outer k hc hshuts hhalf =>
      cases stack with
      | nil => exact ⟨[], .stray hc, @bracketsNest_inner _ _ [] hrest⟩
      | cons k' stack =>
        obtain ⟨rfl, rfl⟩ := List.cons.inj hall
        exact ⟨stack, .shuts hc hshuts hhalf, bracketsNest_inner hrest⟩
    | stray hc =>
      obtain ⟨rfl, rfl⟩ := List.append_eq_nil_iff.mp hall
      exact ⟨[], .stray hc, hrest⟩
    | other ho hc =>
      subst hall
      exact ⟨stack, .other ho hc, bracketsNest_inner hrest⟩

/-- In a part of a row the brackets nest as they do in the row. -/
theorem bracketsNest_infix : ∀ {row : List Atom} {stack : List Closer}, bracketsNest stack row = true → s <:+: row →
    bracketsNest [] s = true
  | [], _, _, hs => by rw [List.infix_nil.mp hs]; rfl
  | a :: rest, _, h, hs => by
    rcases List.infix_cons_iff.mp hs with ⟨t, ht⟩ | hs
    · exact bracketsNest_front (@bracketsNest_inner _ _ [] (ht ▸ h))
    · obtain ⟨next, -, h⟩ := bracketsNest_cons.mp h
      exact bracketsNest_infix h hs

/-- Behind what stands in a bracket the brackets around it are open. -/
theorem bracketsNest_split {outer : List Closer} : ∀ {row : List Atom} {stack : List Closer} {inner behind : List Atom}
    {last : Atom}, bracketsNest (stack ++ k :: outer) row = true →
    splitAtCloser stack.length row = some (inner, last, behind) → bracketsNest outer behind = true
  | [], _, _, _, _, _, hcut => by cases hcut
  | a :: rest, stack, inner, behind, last, h, hcut => by
    obtain ⟨next, hstep, h⟩ := bracketsNest_cons.mp h
    generalize hall : stack ++ k :: outer = all at hstep
    obtain ⟨⟨hc, hzero⟩, rfl, rfl, rfl⟩ | ⟨hinside, part, rfl, hpart⟩ := of_splitAtCloser hcut
    · obtain rfl := List.eq_nil_of_length_eq_zero hzero
      cases hstep with
      | shuts _ _ _ =>
        cases hall
        exact h
      | opens ho _ =>
        rw [hc] at ho
        cases ho
      | stray _ => cases hall
      | other _ hc' => exact absurd hc hc'
    · -- The bracket that is looked for stays on the stack.
      have on : ∀ more : List Closer, next = more ++ k :: outer → fencesAfter stack.length a = more.length →
          bracketsNest outer behind = true := by
        rintro more rfl hafter
        rw [hafter] at hpart
        exact bracketsNest_split h hpart
      cases hstep with
      | @opens _ k' ho _ => exact on (k' :: stack) (by rw [← hall]; rfl) (by simp [fencesAfter, ho])
      | shuts hc _ _ =>
        cases stack with
        | nil => exact absurd ⟨hc, rfl⟩ hinside
        | cons k' more =>
          obtain ⟨-, rfl⟩ := List.cons.inj hall
          exact on more rfl (by simp [fencesAfter, hc])
      | stray _ => cases stack <;> cases hall
      | other ho hc => exact on stack hall.symm (by simp [fencesAfter])

end Atom

/-! ### Places of a row -/

/-- The brackets among the open fences, the innermost first. -/
def bracketsAmong (closers : List Closer) : List Closer := closers.reverse.filter (·.type == .closing)

/-- The number of brackets that the fence is. -/
def Atom.Closer.brackets (k : Closer) : Nat := if k.type = .closing then 1 else 0

/-- A row of the formula: the formula itself, or a sequence nested in an atom of a row. -/
inductive RowOf (formula : List Atom) : List Atom → Prop
  | whole : RowOf formula (unspaced formula)
  | nested {row : List Atom} {a : Atom} {field : Option (List Atom)} : RowOf formula row → a ∈ row → field ∈ a.fields →
    RowOf formula (unspaced (field.getD []))

/-- In every row of the formula, nested ones included, the brackets nest. -/
def NestsBrackets (formula : List Atom) : Prop := ∀ row, RowOf formula row → bracketsNest [] row = true

/-- A place of a row of the formula with room for `r` more brackets, one in another: so many levels of the depth that the
rest of the row keeps to are left above the level of the row and the brackets that are open. -/
structure BracketPlace (formula : List Atom) (closers : List Closer) (r : Nat) (row : List Atom) : Prop where
  part : Part formula row
  room : ∃ D level fences stack, (bracketsAmong closers).Sublist stack ∧ bracketsNest stack row = true ∧
    stack.length ≤ fences ∧ KeepsTo D level fences row ∧ D ≤ level + (bracketsAmong closers).length + r

/-- A sequence with room for fewer than `r` brackets, one in another. -/
def RoomBelow (formula : List Atom) (r : Nat) (s : List Atom) : Prop :=
  s = [] ∨ ∃ r', r = r' + 1 ∧ BracketPlace formula [] r' (unspaced s)

/-- An atom in whose sequences there is room for fewer than `r` brackets, one in another. -/
def HoldsBelow (formula : List Atom) (r : Nat) (a : Atom) : Prop := ∀ field ∈ a.fields, RoomBelow formula r (field.getD [])

section

variable {formula row rest : List Atom} {closers : List Closer} {k : Closer} {a : Atom} {r : Nat}

/-- Every part of the formula is a part of one of its rows. -/
theorem Atom.Part.infix_row (h : Part formula row) : ∃ whole, RowOf formula whole ∧ row <:+: whole := by
  induction h with
  | whole => exact ⟨_, .whole, List.infix_refl _⟩
  | run _ hs ih =>
    obtain ⟨whole, hwhole, hrow⟩ := ih
    exact ⟨whole, hwhole, hs.trans hrow⟩
  | nested _ ha hfield ih =>
    obtain ⟨whole, hwhole, hrow⟩ := ih
    exact ⟨_, .nested hwhole (hrow.subset ha) hfield, List.infix_refl _⟩

theorem NestsBrackets.part (H : NestsBrackets formula) (h : Part formula row) : bracketsNest [] row = true := by
  obtain ⟨whole, hwhole, hrow⟩ := h.infix_row
  exact bracketsNest_infix (H whole hwhole) hrow

theorem bracketsAmong_append (closers : List Closer) (k : Closer) :
    bracketsAmong (closers ++ [k]) = if k.type = .closing then k :: bracketsAmong closers else bracketsAmong closers := by
  unfold bracketsAmong
  rw [List.reverse_append, List.reverse_singleton, List.singleton_append, List.filter_cons]
  simp only [beq_iff_eq]

theorem mem_of_mem_bracketsAmong (h : k ∈ bracketsAmong closers) : k ∈ closers :=
  List.mem_reverse.mp (List.mem_filter.mp h).1

/-- The place behind an atom, if brackets that are open there are enough for those of the reader. -/
theorem BracketPlace.behind (H : NestsBrackets formula) (hpart : Part formula (a :: rest)) {D level fences : Nat}
    {next : List Closer} (hkeeps : KeepsTo D level fences (a :: rest)) (hlength : next.length ≤ fencesAfter fences a)
    (hsub : (bracketsAmong closers).Sublist next) (hnest : bracketsNest next rest = true)
    (hroom : D ≤ level + (bracketsAmong closers).length + r) : BracketPlace formula closers r rest ∧ HoldsBelow formula r a := by
  obtain ⟨hlevel, hnested, hrest⟩ := keepsTo_cons.mp hkeeps
  refine ⟨⟨hpart.run (List.suffix_cons a rest).isInfix, D, level, _, next, hsub, hnest, hlength, hrest, hroom⟩, ?_⟩
  intro field hfield
  by_cases hnil : field.getD [] = []
  · exact .inl hnil
  · have hinner := hpart.nested List.mem_cons_self hfield
    have hkeeps := hnested _ (mem_nested hfield hnil)
    have hdeeper := hkeeps.level_le hnil
    have hbrackets := hsub.length_le
    refine .inr ⟨r - 1, by omega, hinner, D, _, 0, [], List.Sublist.slnil, H.part hinner, Nat.le_refl 0, hkeeps.unspaced, ?_⟩
    show D ≤ level + fencesAfter fences a + 1 + 0 + (r - 1)
    omega

/-- An atom that closes none of the open fences is passed by. -/
theorem BracketPlace.tail (H : NestsBrackets formula) (h : BracketPlace formula closers r (a :: rest))
    (hstays : a.type = .closing → a.closesAny closers = .ok false ∨ a.isHalf = true) :
    BracketPlace formula closers r rest ∧ HoldsBelow formula r a := by
  obtain ⟨D, level, fences, stack, hsub, hnest, hlength, hkeeps, hroom⟩ := h.room
  obtain ⟨next, hstep, hnest⟩ := bracketsNest_cons.mp hnest
  refine BracketPlace.behind H h.part hkeeps (hstep.length_le hlength) ?_ hnest hroom
  cases hstep with
  | opens _ _ => exact hsub.cons _
  | stray _ => exact hsub
  | other _ _ => exact hsub
  | @shuts _ k ht hshuts hhalf =>
    rcases List.sublist_cons_iff.mp hsub with hsub | ⟨more, hmore, -⟩
    · exact hsub
    · have hk : k ∈ closers := mem_of_mem_bracketsAmong (hmore ▸ List.mem_cons_self)
      rcases hstays ht with hclosed | his
      · exact absurd hshuts (not_shuts_of_closesAny hclosed k hk)
      · rw [hhalf] at his
        cases his

/-- A fence that is opened takes the room of its brackets. -/
theorem BracketPlace.push (H : NestsBrackets formula) (h : BracketPlace formula closers r (a :: rest)) {left : Datum}
    (hopener : a.opener? = .ok (some (left, k))) :
    ∃ r', r = r' + k.brackets ∧ BracketPlace formula (closers ++ [k]) r' rest := by
  obtain ⟨ht, hk⟩ | ⟨ht, hk⟩ := type_of_opener? hopener
  · obtain ⟨D, level, fences, stack, hsub, hnest, hlength, hkeeps, hroom⟩ := h.room
    obtain ⟨next, hstep, hnest⟩ := bracketsNest_cons.mp hnest
    have hbrackets : bracketsAmong (closers ++ [k]) = k :: bracketsAmong closers := by
      rw [bracketsAmong_append, if_pos hk]
    have hlevel := (keepsTo_cons.mp hkeeps).1
    rw [show fencesAfter fences a = fences + 1 by simp [fencesAfter, ht]] at hlevel
    have := hsub.length_le
    refine ⟨r - 1, by rw [Closer.brackets, if_pos hk]; omega, ?_⟩
    refine (BracketPlace.behind H h.part hkeeps (hstep.length_le hlength) ?_ hnest ?_).1
    · rw [hbrackets]
      cases hstep with
      | opens _ hopened =>
        cases hopened.symm.trans (opened?_eq.mpr ⟨left, hopener⟩)
        exact hsub.cons_cons _
      | shuts hc _ _ => rw [ht] at hc; cases hc
      | stray hc => rw [ht] at hc; cases hc
      | other ho _ => exact absurd ht ho
    · rw [hbrackets, List.length_cons]
      omega
  · have hloose : k.type ≠ .closing := by
      rw [hk]
      intro hc
      rw [hc] at ht
      exact absurd ht (by decide)
    obtain ⟨hplace, -⟩ := h.tail H fun hc => absurd (hk.trans hc) hloose
    have hbrackets : bracketsAmong (closers ++ [k]) = bracketsAmong closers := by
      rw [bracketsAmong_append, if_neg hloose]
    exact ⟨r, by rw [Closer.brackets, if_neg hloose, Nat.add_zero], hplace.part, by rw [hbrackets]; exact hplace.room⟩

/-- A fence that is left as it is gives its room back. -/
theorem BracketPlace.leave (h : BracketPlace formula (closers ++ [k]) r row) : BracketPlace formula closers (r + k.brackets) row := by
  obtain ⟨D, level, fences, stack, hsub, hnest, hlength, hkeeps, hroom⟩ := h.room
  rw [bracketsAmong_append] at hsub hroom
  unfold Closer.brackets
  split at hsub
  · rename_i hk
    rw [if_pos hk, List.length_cons] at hroom
    exact ⟨h.part, D, level, fences, stack, (List.sublist_cons_self _ _).trans hsub, hnest, hlength, hkeeps, by
      rw [if_pos hk]; omega⟩
  · rename_i hk
    rw [if_neg hk] at hroom
    exact ⟨h.part, D, level, fences, stack, hsub, hnest, hlength, hkeeps, by rw [if_neg hk]; exact hroom⟩

/-- So does a fence that is closed. -/
theorem BracketPlace.pop (H : NestsBrackets formula) (h : BracketPlace formula (closers ++ [k]) r (a :: rest))
    (hcloses : a.closes k = .ok true) :
    BracketPlace formula closers (r + k.brackets) rest ∧ HoldsBelow formula (r + k.brackets) a := by
  have hshuts := shuts_iff.mpr hcloses
  have ht := type_of_shuts hshuts
  by_cases hk : k.type = .closing
  · obtain ⟨D, level, fences, stack, hsub, hnest, hlength, hkeeps, hroom⟩ := h.room
    obtain ⟨next, hstep, hnest⟩ := bracketsNest_cons.mp hnest
    rw [bracketsAmong_append, if_pos hk] at hsub hroom
    refine BracketPlace.behind H h.part hkeeps (hstep.length_le hlength) ?_ hnest ?_
    · cases hstep with
      | shuts _ _ _ => exact hsub.tail
      | stray _ => cases hsub
      | opens ho _ => rw [ht, hk] at ho; cases ho
      | other _ hc => exact absurd (ht.trans hk) hc
    · rw [List.length_cons] at hroom
      rw [Closer.brackets, if_pos hk]
      omega
  · exact h.leave.tail H fun hc => absurd (ht.symm.trans hc) hk

/-- A numeral is passed by. -/
theorem BracketPlace.numeral (H : NestsBrackets formula) {numeral : NumeralReading} : ∀ {row : List Atom} {state : NumeralState}
    {chars : List Char} {last : Option Atom}, scanNumeralFrom state chars last row = .ok numeral →
    BracketPlace formula closers r row → (∀ b ∈ last, HoldsBelow formula r b) →
      BracketPlace formula closers r numeral.rest ∧ ∀ b ∈ numeral.last, HoldsBelow formula r b
  | [], state, chars, last, h, hplace, hlast => by
    rw [scanNumeralFrom] at h
    cases h
    exact ⟨hplace, hlast⟩
  | a :: rest, state, chars, last, h, hplace, hlast => by
    rw [scanNumeralFrom] at h
    obtain ⟨found, hstep, h⟩ := bind_eq_ok.mp h
    cases found with
    | none =>
      cases h
      exact ⟨hplace, hlast⟩
    | some step =>
      have htype := (of_numeralStep hstep).1
      obtain ⟨hrest, ha⟩ := hplace.tail H fun hc => by rw [hc] at htype; exact absurd htype (by decide)
      have hlast : ∀ b ∈ some a, HoldsBelow formula r b := by
        rintro _ ⟨⟩
        exact ha
      dsimp only at h
      split at h
      · cases h
        exact ⟨hrest, hlast⟩
      · exact BracketPlace.numeral H h hrest hlast

/-- A part of a row has the room of the row, if no fence is open in front of it. -/
theorem BracketPlace.run (H : NestsBrackets formula) {s : List Atom} (h : BracketPlace formula [] r row) (hs : s <:+: row) :
    BracketPlace formula [] r s := by
  obtain ⟨D, level, fences, stack, -, -, -, hkeeps, hroom⟩ := h.room
  obtain ⟨fences, hkeeps⟩ := hkeeps.part hs
  have hpart := h.part.run hs
  exact ⟨hpart, D, level, fences, [], List.Sublist.slnil, H.part hpart, Nat.zero_le fences, hkeeps, hroom⟩

/-- Arguments of a call have room for fewer brackets than the place in front of them, where one may be around them. -/
theorem BracketPlace.call (H : NestsBrackets formula) {inner : List Atom} {last : Atom} {parts : List (List Atom)}
    (h : BracketPlace formula closers r row) (hcall : callArguments? row = .ok (some (inner, last, rest)))
    (hparts : splitAtCommas 0 [] inner = .ok parts) :
    BracketPlace formula closers r rest ∧ HoldsBelow formula r last ∧ (∀ part ∈ parts, RoomBelow formula r part) ∧
      (row.head?.any (·.type == .opening) = true → 0 < r) := by
  obtain ⟨hruns, -⟩ := splitAtCommas_parts hparts
  cases row with
  | nil => cases hcall
  | cons a tail =>
    rw [callArguments?] at hcall
    split at hcall
    · rename_i ht
      split at hcall
      · cases hcall
        obtain ⟨hrest, hlast⟩ := h.tail H fun hc => by rw [ht] at hc; cases hc
        refine ⟨hrest, hlast, fun part hp => ?_, fun ho => by simp [ht] at ho⟩
        have hpart : part <:+: last.body.getD [] := hruns part hp
        rcases hlast last.body (by simp [fields]) with hnil | ⟨r', rfl, hbody⟩
        · rw [hnil] at hpart
          exact .inl (List.infix_nil.mp hpart)
        · exact .inr ⟨r', rfl, hbody.run H (infix_unspaced hpart)⟩
      · cases hcall
    · rename_i ht
      obtain ⟨text, -, hcall⟩ := bind_eq_ok.mp hcall
      split at hcall
      · have hsplit := Except.ok.inj hcall
        obtain ⟨D, level, fences, stack, hsub, hnest, hlength, hkeeps, hroom⟩ := h.room
        obtain ⟨next, hstep, hnest⟩ := bracketsNest_cons.mp hnest
        have hafter : fencesAfter fences a = fences + 1 := by simp [fencesAfter, ht]
        have hbrackets := hsub.length_le
        obtain ⟨hlevel, -, htail⟩ := keepsTo_cons.mp hkeeps
        rw [hafter] at hlevel htail
        obtain ⟨hinner, hlast⟩ := @KeepsTo.split _ _ fences _ _ _ _ _ htail hsplit
        have hbehind : bracketsNest stack rest = true := by
          cases hstep with
          | opens _ _ => exact @bracketsNest_split _ _ _ [] _ _ _ hnest hsplit
          | shuts hc _ _ => rw [ht] at hc; cases hc
          | stray hc => rw [ht] at hc; cases hc
          | other ho _ => exact absurd ht ho
        have heq := splitAtCloser_eq hsplit
        have hpart : Part formula (last :: rest) := h.part.run ⟨a :: inner, [], by rw [heq]; simp⟩
        have hclosing : fencesAfter (fences + 1) last = fences := by
          simp [fencesAfter, type_of_splitAtCloser hsplit]
        obtain ⟨hrest, hlast⟩ := BracketPlace.behind H hpart hlast (by rwa [hclosing]) hsub hbehind hroom
        have hinner : BracketPlace formula [] (r - 1) inner := by
          have hpart : Part formula inner := h.part.run ⟨[a], last :: rest, by rw [heq]; simp⟩
          refine ⟨hpart, D, level + fences + 1, 0, [], List.Sublist.slnil, H.part hpart, Nat.le_refl 0, hinner, ?_⟩
          show D ≤ level + fences + 1 + 0 + (r - 1)
          omega
        refine ⟨hrest, hlast, fun part hp => .inr ⟨r - 1, by omega, ?_⟩, fun _ => by omega⟩
        have hinside : part <:+: inner := hruns part hp
        have hspaces := infix_unspaced hinside
        rw [hinner.part.unspaced_eq] at hspaces
        exact hinner.run H hspaces
      · cases hcall
    · cases hcall

end

end Formula
