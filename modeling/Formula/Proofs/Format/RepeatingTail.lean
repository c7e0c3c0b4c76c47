import Formula.Proofs.Format.RepeatedZeros

/-!
# The tail that repeats

`findRepeat` tries the places from the front on, and at each place the periods from the shortest on.  So what it finds is
canonical: the block that repeats is no repetition of a shorter one, since the digits would have the shorter period, and the
digit in front of the tail is not the last one of the block, since the tail would begin there.
-/

namespace Formula

open Number

variable {digits : List Char} {offset period : Nat}

/-- The digits from a place in the first half on repeat at least twice, with a period of at most 17 places. -/
structure TailRepeats (digits : List Char) (offset period : Nat) : Prop where
  pos : 1 ≤ period
  short : period ≤ 17
  early : 2 * offset ≤ digits.length
  twice : offset + 2 * period ≤ digits.length
  again : ∀ i, offset ≤ i → i + period < digits.length → digits[i + period]? = digits[i]?

/-! ### Periods -/

theorem hasPeriod_iff : hasPeriod digits period = true ↔ ∀ i, i + period < digits.length → digits[i + period]? = digits[i]? := by
  refine ⟨fun h i hi => getElem?_of_hasPeriod h hi, fun h => ?_⟩
  refine List.isPrefixOf_iff_prefix.mpr (List.prefix_iff_getElem?.mpr fun i hi => ?_)
  rw [List.length_drop] at hi
  rw [← h i (by omega), ← List.getElem?_eq_getElem, List.getElem?_drop, Nat.add_comm]

/-- What repeats is a tail with a period that the search tries. -/
theorem tailRepeats_iff : TailRepeats digits offset period ↔ offset < digits.length / 2 + 1 ∧
    (∃ i < min maxPeriod ((digits.drop offset).length / 2), i + 1 = period) ∧ hasPeriod (digits.drop offset) period = true := by
  have hmax : maxPeriod = 17 := rfl
  rw [List.length_drop]
  constructor
  · intro h
    have hpos := h.pos
    have hshort := h.short
    have hearly := h.early
    have htwice := h.twice
    refine ⟨by omega, ⟨period - 1, by omega, Nat.sub_add_cancel hpos⟩, hasPeriod_iff.mpr fun i hi => ?_⟩
    rw [List.length_drop] at hi
    rw [List.getElem?_drop, List.getElem?_drop, ← Nat.add_assoc]
    exact h.again (offset + i) (Nat.le_add_right _ _) (by omega)
  · rintro ⟨hearly, ⟨i, hi, rfl⟩, hperiod⟩
    refine ⟨by omega, by omega, by omega, by omega, fun j hj hlt => ?_⟩
    have hagain := hasPeriod_iff.mp hperiod (j - offset) (by rw [List.length_drop]; omega)
    rw [List.getElem?_drop, List.getElem?_drop, ← Nat.add_assoc, Nat.add_sub_cancel' hj] at hagain
    exact hagain

/-- Digits that begin what a block repeats have the length of the block as a period. -/
theorem hasPeriod_of_prefix {block : List Char} (hle : block.length ≤ digits.length) (h : digits <+: block ++ digits) :
    hasPeriod digits block.length = true := by
  obtain ⟨rest, rfl⟩ := List.prefix_of_prefix_length_le (List.prefix_append block digits) h hle
  rw [hasPeriod, List.drop_left]
  exact List.isPrefixOf_iff_prefix.mpr ((List.prefix_append_right_inj block).mp h)

/-- Digits whose first period is written in blocks have the length of a block as a period. -/
theorem hasPeriod_of_blocks {block : List Char} {n : Nat} (h : hasPeriod digits period = true) (hpos : 0 < period)
    (hle : period ≤ digits.length) (hblock : digits.take period = blocks block n) : hasPeriod digits block.length = true := by
  have hlength : period = n * block.length := by
    rw [← length_blocks, ← hblock, List.length_take, Nat.min_eq_left hle]
  have hshort : block.length ≤ period := hlength ▸ Nat.le_mul_of_pos_left _ (Nat.pos_of_mul_pos_right (hlength ▸ hpos))
  refine hasPeriod_of_prefix (hshort.trans hle) ?_
  -- Both the digits and the block in front of them begin the block repeated often enough.
  have hn : 0 < n := Nat.pos_of_mul_pos_right (hlength ▸ hpos)
  have hmany : digits <+: blocks block (n * digits.length) := by
    have hwhole := prefix_blocks (prefix_of_hasPeriod h) digits.length
    rw [hblock, blocks_blocks] at hwhole
    refine List.prefix_of_prefix_length_le hwhole (List.prefix_append _ _) ?_
    rw [length_blocks, Nat.mul_right_comm, ← hlength]
    exact Nat.le_mul_of_pos_left _ hpos
  refine List.prefix_of_prefix_length_le (hmany.trans ?_) ((List.prefix_append_right_inj block).mpr hmany) ?_
  · rw [← blocks_succ, blocks_succ']
    exact List.prefix_append _ _
  · rw [List.length_append]
    exact Nat.le_add_left _ _

/-! ### The search -/

/-- In a row of numbers the smaller ones stand in front. -/
theorem mem_front_of_lt {n i j : Nat} {front behind : List Nat} (h : List.range n = front ++ j :: behind) (hi : i < j) :
    i ∈ front := by
  have hmem : i ∈ front ++ j :: behind := by
    have hj : j ∈ List.range n := h ▸ List.mem_append_right _ List.mem_cons_self
    exact h ▸ List.mem_range.mpr (hi.trans (List.mem_range.mp hj))
  have hsorted := List.pairwise_append.mp (h ▸ List.pairwise_lt_range (n := n))
  rcases List.mem_append.mp hmem with hfront | hbehind
  · exact hfront
  · rcases List.mem_cons.mp hbehind with rfl | hbehind
    · exact absurd hi (Nat.lt_irrefl i)
    · exact absurd ((List.pairwise_cons.mp hsorted.2.1).1 i hbehind) (Nat.lt_asymm hi)

theorem shortestPeriod?_eq_none_iff : shortestPeriod? digits = none ↔
    ∀ period, (∃ i < min maxPeriod (digits.length / 2), i + 1 = period) → hasPeriod digits period = false := by
  rw [shortestPeriod?, List.find?_eq_none]
  simp only [List.mem_map, List.mem_range, Bool.not_eq_true]

/-- Nothing is found just if nothing repeats. -/
theorem findRepeat_eq_none_iff : findRepeat digits = none ↔ ∀ offset period, ¬ TailRepeats digits offset period := by
  rw [findRepeat, List.findSome?_eq_none_iff]
  simp only [List.mem_range, Option.map_eq_none_iff, shortestPeriod?_eq_none_iff, tailRepeats_iff, not_and, Bool.not_eq_true]
  exact ⟨fun h offset period ho hp => h offset ho period hp, fun h offset ho period hp => h offset period ho hp⟩

/-- What is found repeats, and of all that repeats it begins first and has the shortest period there. -/
theorem findRepeat_first (h : findRepeat digits = some (offset, period)) : TailRepeats digits offset period ∧
    ∀ place length, TailRepeats digits place length → offset < place ∨ offset = place ∧ period ≤ length := by
  obtain ⟨front, found, behind, hplaces, hfound, hfront⟩ := List.findSome?_eq_some_iff.mp h
  obtain ⟨shortest, hshortest, heq⟩ := Option.map_eq_some_iff.mp hfound
  cases heq
  rw [shortestPeriod?, List.find?_map, Option.map_eq_some_iff] at hshortest
  obtain ⟨i, hi, rfl⟩ := hshortest
  obtain ⟨hperiod, hmem, hless⟩ := List.find?_range_eq_some.mp hi
  have hplace : offset ∈ List.range (digits.length / 2 + 1) := hplaces ▸ List.mem_append_right _ List.mem_cons_self
  refine ⟨tailRepeats_iff.mpr ⟨List.mem_range.mp hplace, ⟨i, List.mem_range.mp hmem, rfl⟩, hperiod⟩, fun place length hrepeats => ?_⟩
  obtain ⟨-, hlength, hagain⟩ := tailRepeats_iff.mp hrepeats
  rcases Nat.lt_trichotomy offset place with hlt | rfl | hgt
  · exact .inl hlt
  · obtain ⟨j, -, rfl⟩ := hlength
    refine .inr ⟨rfl, Nat.succ_le_succ (Nat.le_of_not_lt fun hj => ?_)⟩
    exact absurd (hless j hj) (by rw [Function.comp_apply, hagain]; decide)
  · have hnone := Option.map_eq_none_iff.mp (hfront place (mem_front_of_lt hplaces hgt))
    exact absurd (shortestPeriod?_eq_none_iff.mp hnone length hlength) (by rw [hagain]; decide)

/-- **What is found is the canonical tail that repeats.**  For all digits: what is found repeats; its block is no repetition
of a shorter one; in front of it stands no digit that the block would have there.  If nothing is found, nothing repeats. -/
theorem findRepeat_canonical (digits : List Char) :
    (∀ offset period, findRepeat digits = some (offset, period) → TailRepeats digits offset period ∧
      (∀ (block : List Char) (n : Nat), block.length < period → (digits.drop offset).take period ≠ blocks block n) ∧
      (0 < offset → digits[offset - 1]? ≠ digits[offset - 1 + period]?)) ∧
    (findRepeat digits = none ↔ ¬ ∃ offset period, TailRepeats digits offset period) := by
  refine ⟨fun offset period h => ?_, ?_⟩
  · obtain ⟨hrepeats, hfirst⟩ := findRepeat_first h
    have hpos := hrepeats.pos
    have hshort := hrepeats.short
    have hearly := hrepeats.early
    have htwice := hrepeats.twice
    have hperiod := (tailRepeats_iff.mp hrepeats).2.2
    refine ⟨hrepeats, fun block n hless hblock => ?_, fun hoffset hsame => ?_⟩
    · -- The tail repeats already with the period of the shorter block.
      have hshorter := hasPeriod_of_blocks hperiod hpos (by rw [List.length_drop]; omega) hblock
      have hne : 0 < block.length := by
        have hlength := congrArg List.length hblock
        rw [length_blocks, List.length_take, List.length_drop] at hlength
        exact Nat.pos_of_mul_pos_left (a := n) (by omega)
      have hblocks : TailRepeats digits offset block.length :=
        tailRepeats_iff.mpr ⟨by omega, ⟨block.length - 1, by rw [List.length_drop, maxPeriod]; omega, by omega⟩, hshorter⟩
      have := hfirst _ _ hblocks
      omega
    · -- The tail that begins one digit earlier repeats as well.
      have hlonger : TailRepeats digits (offset - 1) period := by
        refine ⟨hpos, hshort, by omega, by omega, fun i hi hlt => ?_⟩
        rcases Nat.eq_or_lt_of_le hi with rfl | hi
        · exact hsame.symm
        · exact hrepeats.again i (by omega) hlt
      have := hfirst _ _ hlonger
      omega
  · rw [findRepeat_eq_none_iff]
    exact ⟨fun h ⟨offset, period, hrepeats⟩ => h offset period hrepeats, fun h offset period hrepeats => h ⟨offset, period, hrepeats⟩⟩

/-- Behind one digit the six digits of a seventh repeat. -/
theorem findRepeat_canonical_seventh : findRepeat "1142857142857".toList = some (1, 6) ∧
    TailRepeats "1142857142857".toList 1 6 ∧
    (∀ (block : List Char) (n : Nat), block.length < 6 → ("1142857142857".toList.drop 1).take 6 ≠ blocks block n) ∧
    (0 < 1 → "1142857142857".toList[1 - 1]? ≠ "1142857142857".toList[1 - 1 + 6]?) :=
  ⟨by decide, (findRepeat_canonical _).1 1 6 (by decide)⟩

end Formula
