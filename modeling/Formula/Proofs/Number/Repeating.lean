import Formula.Format.Repeat
import Formula.Number.Writing
import Formula.Proofs.Number.HalfUp

/-!
# Digits that repeat

A block of digits that repeats without end behind the point has the value `repeated`: shifted by one block it is the block
and itself again.  The digits that `findRepeat` finds a block in are the first of these, so the value lies between them
and the next number of as many digits.
-/

namespace Formula.Number

/-! ### Values of digits -/

theorem digitsToNat_append (cs ds : List Char) : digitsToNat (cs ++ ds) = digitsToNat cs * tenTo ds.length + digitsToNat ds := by
  have shift : ∀ (ds : List Char) (n : Nat),
      ds.foldl (fun n c => 10 * n + (c.toNat - 48)) n = n * tenTo ds.length + digitsToNat ds := by
    intro ds
    induction ds with
    | nil => exact fun n => (Nat.mul_one n).symm
    | cons d ds ih =>
      intro n
      have hd : digitsToNat (d :: ds) = (10 * 0 + (d.toNat - 48)) * tenTo ds.length + digitsToNat ds := ih _
      rw [List.foldl_cons, ih, hd, List.length_cons, tenTo_succ]
      ring
  rw [digitsToNat, List.foldl_append, shift ds]
  rfl

theorem digitsToNat_zeros (k : Nat) : digitsToNat (zeroChars k) = 0 := by
  induction k with
  | zero => rfl
  | succ k ih =>
    have hsplit : zeroChars (k + 1) = zeroChars k ++ ['0'] := List.replicate_succ'
    rw [hsplit, digitsToNat_append, ih]
    rfl

theorem digitsToNat_lt {ds : List Char} (h : ∀ d ∈ ds, d.isDigit = true) : digitsToNat ds < tenTo ds.length := by
  induction ds using List.reverseRecOn with
  | nil => exact Nat.one_pos
  | append_singleton ds d ih =>
    have hlast := toNat_of_isDigit (h d (by simp))
    have hrest := ih fun e he => h e (List.mem_append_left _ he)
    have hd : digitsToNat [d] = d.toNat - 48 := Nat.zero_add _
    rw [digitsToNat_append, hd, List.length_append, tenTo_add]
    show digitsToNat ds * 10 + (d.toNat - 48) < tenTo ds.length * 10
    omega

/-! ### The value of a repeated block -/

/-- The number `0.BBB…` of a block `B`. -/
def repeated (block : List Char) : Rat := digitsToNat block / (10 ^ block.length - 1)

variable {block : List Char}

theorem one_lt_tenTo (hne : block ≠ []) : (1 : Rat) < 10 ^ block.length :=
  one_lt_pow₀ (by norm_num) (Nat.pos_iff_ne_zero.mp (List.length_pos_iff.mpr hne))

/-- Shifted by one block, the number is the block and the number again. -/
theorem repeated_shift (hne : block ≠ []) : repeated block * 10 ^ block.length = digitsToNat block + repeated block := by
  have hlt := one_lt_tenTo hne
  have hden : (10 : Rat) ^ block.length - 1 ≠ 0 := by linarith
  unfold repeated
  field_simp
  ring

theorem repeated_bounds (hne : block ≠ []) (h : ∀ d ∈ block, d.isDigit = true) :
    0 ≤ repeated block ∧ repeated block ≤ 1 := by
  have hlt := one_lt_tenTo hne
  have hden : (0 : Rat) < 10 ^ block.length - 1 := by linarith
  have hblock : (digitsToNat block : Rat) + 1 ≤ 10 ^ block.length := by
    rw [← tenTo_cast]
    exact_mod_cast digitsToNat_lt h
  unfold repeated
  exact ⟨by positivity, (div_le_one hden).mpr (by linarith)⟩

/-- The first digits of the number, and what is behind them. -/
theorem repeated_prefix (hne : block ≠ []) (h : ∀ d ∈ block, d.isDigit = true) {digits : List Char}
    (hfirst : digits <+: block ++ digits) :
    (digitsToNat digits : Rat) ≤ repeated block * 10 ^ digits.length ∧
      repeated block * 10 ^ digits.length ≤ digitsToNat digits + 1 := by
  -- The induction takes one block off the digits, and ends within a block.
  obtain ⟨n, hn⟩ : ∃ n, digits.length ≤ n := ⟨_, Nat.le_refl _⟩
  induction n generalizing digits with
  | zero =>
    obtain rfl := List.length_eq_zero_iff.mp (Nat.le_zero.mp hn)
    obtain ⟨hlow, hhigh⟩ := repeated_bounds hne h
    have hnil : digitsToNat [] = 0 := rfl
    simp only [hnil, List.length_nil, pow_zero, mul_one, Nat.cast_zero, zero_add]
    exact ⟨hlow, hhigh⟩
  | succ n ih =>
    rcases Nat.le_total digits.length block.length with hshort | hlong
    · obtain ⟨behind, hsplit⟩ := List.prefix_of_prefix_length_le hfirst (List.prefix_append _ _) hshort
      obtain ⟨hlow, hhigh⟩ := repeated_bounds hne h
      have hshift := repeated_shift hne
      have hbehind : (digitsToNat behind : Rat) + 1 ≤ 10 ^ behind.length := by
        rw [← tenTo_cast]
        exact_mod_cast digitsToNat_lt fun d hd => h d (hsplit ▸ List.mem_append_right _ hd)
      have hvalue : (digitsToNat block : Rat) = digitsToNat digits * 10 ^ behind.length + digitsToNat behind := by
        rw [← hsplit, digitsToNat_append, ← tenTo_cast]
        push_cast
        rfl
      have hlength : (10 : Rat) ^ block.length = 10 ^ digits.length * 10 ^ behind.length := by
        rw [← hsplit, List.length_append, pow_add]
      rw [hvalue, hlength, ← mul_assoc] at hshift
      have hpos : (0 : Rat) < 10 ^ behind.length := by positivity
      have hnonneg : (0 : Rat) ≤ digitsToNat behind := Nat.cast_nonneg _
      constructor
      · refine le_of_mul_le_mul_right ?_ hpos
        linarith
      · refine le_of_mul_le_mul_right ?_ hpos
        linarith
    · obtain ⟨rest, rfl⟩ := List.prefix_of_prefix_length_le (List.prefix_append _ _) hfirst hlong
      have hrest : rest <+: block ++ rest := (List.prefix_append_right_inj block).mp hfirst
      have hpos := List.length_pos_iff.mpr hne
      obtain ⟨hlow, hhigh⟩ := ih hrest (by rw [List.length_append] at hn; omega)
      have hshift := repeated_shift hne
      have hvalue : (digitsToNat (block ++ rest) : Rat) = digitsToNat block * 10 ^ rest.length + digitsToNat rest := by
        rw [digitsToNat_append, ← tenTo_cast]
        push_cast
        rfl
      have hproduct : repeated block * 10 ^ (block ++ rest).length =
          digitsToNat block * 10 ^ rest.length + repeated block * 10 ^ rest.length := by
        rw [List.length_append, pow_add, ← mul_assoc, hshift]
        ring
      rw [hvalue, hproduct]
      exact ⟨by linarith, by linarith⟩

/-- In front of a value stand the digits that begin what the block repeats, up to a number of places. -/
def GoesOn (block : List Char) (places : Nat) (value : Rat) : Prop :=
  ∀ digits, digits <+: block ++ digits → digits.length ≤ places →
    (digitsToNat digits : Rat) ≤ value * 10 ^ digits.length ∧ value * 10 ^ digits.length ≤ digitsToNat digits + 1

theorem goesOn_repeated (hne : block ≠ []) (h : ∀ d ∈ block, d.isDigit = true) (places : Nat) :
    GoesOn block places (repeated block) := fun _ hfirst _ => repeated_prefix hne h hfirst

/-- The block one time after the other. -/
def blocks (block : List Char) (n : Nat) : List Char := (List.replicate n block).flatten

theorem length_blocks (block : List Char) (n : Nat) : (blocks block n).length = n * block.length := by
  rw [blocks, List.length_flatten, List.map_replicate, List.sum_replicate]
  rfl

theorem blocks_succ (block : List Char) (n : Nat) : blocks block (n + 1) = block ++ blocks block n := by
  rw [blocks, List.replicate_succ, List.flatten_cons]
  rfl

theorem blocks_succ' (block : List Char) (n : Nat) : blocks block (n + 1) = blocks block n ++ block := by
  rw [blocks, List.replicate_succ', List.flatten_append, List.flatten_singleton]
  rfl

/-- Blocks of blocks. -/
theorem blocks_blocks (block : List Char) (m n : Nat) : blocks (blocks block m) n = blocks block (m * n) := by
  induction n with
  | zero => rfl
  | succ n ih => 
    rw [blocks_succ', ih, Nat.mul_succ]
    simp only [blocks, ← List.flatten_append, List.replicate_append_replicate]

theorem isDigit_of_mem_blocks (h : ∀ d ∈ block, d.isDigit = true) {n : Nat} : ∀ d ∈ blocks block n, d.isDigit = true := by
  intro d hd
  obtain ⟨copy, hcopy, hd⟩ := List.mem_flatten.mp hd
  exact h d (List.eq_of_mem_replicate hcopy ▸ hd)

theorem prefix_blocks {digits : List Char} (hfirst : digits <+: block ++ digits) (n : Nat) :
    digits <+: blocks block n ++ digits := by
  induction n with
  | zero => exact List.prefix_rfl
  | succ n ih =>
    rw [blocks_succ, List.append_assoc]
    exact hfirst.trans ((List.prefix_append_right_inj block).mpr ih)

/-- The value of the block written a number of times. -/
theorem goesOn_blocks (h : ∀ d ∈ block, d.isDigit = true) {n places : Nat} (hplaces : places ≤ (blocks block n).length) :
    GoesOn block places (digitsToNat (blocks block n) / 10 ^ (blocks block n).length) := by
  intro digits hfirst hlength
  obtain ⟨behind, hsplit⟩ := List.prefix_of_prefix_length_le (prefix_blocks hfirst n) (List.prefix_append _ _)
    (Nat.le_trans hlength hplaces)
  have hall : ∀ d ∈ behind, d.isDigit = true :=
    fun d hd => isDigit_of_mem_blocks h d (hsplit ▸ List.mem_append_right _ hd)
  have hbehind : (digitsToNat behind : Rat) ≤ 10 ^ behind.length := by
    rw [← tenTo_cast]
    exact_mod_cast (digitsToNat_lt hall).le
  have hpos : (0 : Rat) < 10 ^ behind.length := by positivity
  have hnonneg : (0 : Rat) ≤ digitsToNat behind := Nat.cast_nonneg _
  have hvalue : (digitsToNat (blocks block n) : Rat) / 10 ^ (blocks block n).length * 10 ^ digits.length =
      digitsToNat digits + digitsToNat behind / 10 ^ behind.length := by
    rw [← hsplit, digitsToNat_append, List.length_append, pow_add, ← tenTo_cast behind.length]
    have htens : (0 : Rat) < tenTo behind.length := Nat.cast_pos.mpr (tenTo_pos _)
    push_cast
    field_simp
  rw [hvalue]
  have hfraction : (digitsToNat behind : Rat) / 10 ^ behind.length ≤ 1 := (div_le_one hpos).mpr hbehind
  have hfraction' : (0 : Rat) ≤ digitsToNat behind / 10 ^ behind.length := by positivity
  exact ⟨by linarith, by linarith⟩

end Formula.Number

namespace Formula

open Number

/-! ### The block that is found -/

/-- Digits with a period begin what their first block repeats. -/
theorem prefix_of_hasPeriod {digits : List Char} {period : Nat} (h : hasPeriod digits period = true) :
    digits <+: digits.take period ++ digits := by
  have hdrop : digits.drop period <+: digits := List.isPrefixOf_iff_prefix.mp h
  have hsplit : digits.take period ++ digits.drop period <+: digits.take period ++ digits :=
    (List.prefix_append_right_inj _).mpr hdrop
  rwa [List.take_append_drop] at hsplit

/-- What `findRepeat` finds: a tail with at least two blocks, each of at least one digit. -/
theorem findRepeat_spec {digits : List Char} {offset period : Nat} (h : findRepeat digits = some (offset, period)) :
    0 < period ∧ offset + 2 * period ≤ digits.length ∧ hasPeriod (digits.drop offset) period = true := by
  obtain ⟨place, hplace, hfound⟩ := List.exists_of_findSome?_eq_some h
  obtain ⟨found, hshortest, heq⟩ := Option.map_eq_some_iff.mp hfound
  cases heq
  have hperiod := List.find?_some hshortest
  have hmem := List.mem_of_find?_eq_some hshortest
  obtain ⟨i, hi, rfl⟩ := List.mem_map.mp hmem
  have hplace := List.mem_range.mp hplace
  have hi := List.mem_range.mp hi
  rw [List.length_drop] at hi
  exact ⟨Nat.succ_pos i, by omega, hperiod⟩

end Formula
