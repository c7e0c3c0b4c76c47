import Formula.Proofs.Format.Composed

/-!
# Braces of written texts

A brace behind a backslash is a sign; any other brace opens or closes a group.  `BracesBalance` says of a text that its
groups are all closed, and that none is closed which is not open.

For texts that are put together one needs more.  A text is sealed if it closes the groups that it opens and does not end in
a backslash: what stands behind it is then read as it is on its own.  This is kept in writing, and a sealed template that is
filled with sealed texts is a sealed text again.
-/

namespace Formula

open Number Text Outcome

namespace Format

/-! ### Balance -/

/-- How often the brace stands among the characters behind no backslash; `escaped` tells of a backslash in front. -/
def bareBraces (brace : Char) (escaped : Bool) : List Char → Nat
  | [] => 0
  | c :: rest => (if c = brace ∧ !escaped then 1 else 0) + bareBraces brace (c = '\\') rest

/-- No part of the text from its start closes more groups than it opens, and the whole text closes all that it opens. -/
structure BracesBalance (text : String) : Prop where
  start : ∀ cs, cs <+: text.toList → bareBraces '\x7d' false cs ≤ bareBraces '\x7b' false cs
  whole : bareBraces '\x7b' false text.toList = bareBraces '\x7d' false text.toList

/-- The state behind a character: whether it is a backslash, and the number of open groups.  A group that is not open
cannot be closed. -/
def braceStep (state : Bool × Nat) (c : Char) : Option (Bool × Nat) :=
  if c = '\x7b' ∧ !state.1 then some (false, state.2 + 1)
  else if c = '\x7d' ∧ !state.1 then if state.2 = 0 then none else some (false, state.2 - 1)
  else some (c = '\\', state.2)

/-- The text closes the groups that it opens, no others, and does not end in a backslash. -/
def IsSealed (text : String) : Prop := text.toList.foldlM braceStep (false, 0) = some (false, 0)

instance (text : String) : Decidable (IsSealed text) := inferInstanceAs (Decidable (_ = _))

/-- If the outcome is a text, that text is sealed. -/
abbrev YieldsSealed (written : Outcome String) : Prop := written.Within (fun _ => True) IsSealed

/-- A step with more groups open. -/
theorem braceStep_add {state next : Bool × Nat} {c : Char} (h : braceStep state c = some next) (k : Nat) :
    braceStep (state.1, state.2 + k) c = some (next.1, next.2 + k) := by
  unfold braceStep at h ⊢
  dsimp only
  split
  · rename_i hopen
    rw [if_pos hopen] at h
    cases h
    exact congrArg (fun n => some (false, n)) (by omega)
  · rename_i hopen
    rw [if_neg hopen] at h
    split
    · rename_i hclose
      rw [if_pos hclose] at h
      split at h
      · cases h
      · cases h
        rw [if_neg (by omega)]
        exact congrArg (fun n => some (false, n)) (by omega)
    · rename_i hclose
      rw [if_neg hclose] at h
      cases h
      rfl

theorem braceSteps_add : ∀ {cs : List Char} {state next : Bool × Nat}, cs.foldlM braceStep state = some next →
    ∀ k, cs.foldlM braceStep (state.1, state.2 + k) = some (next.1, next.2 + k)
  | [], _, _, h, _ => by
    cases h
    rfl
  | c :: cs, state, next, h, k => by
    rw [List.foldlM_cons] at h ⊢
    obtain ⟨between, hstep, hrest⟩ := Option.bind_eq_some_iff.mp h
    rw [braceStep_add hstep k]
    exact braceSteps_add hrest k

/-- A sealed text leaves as many groups open as there were. -/
theorem IsSealed.steps {text : String} (h : IsSealed text) (level : Nat) :
    text.toList.foldlM braceStep (false, level) = some (false, level) := by
  have := braceSteps_add h level
  rwa [Nat.zero_add] at this

/-- The open groups behind a part of a text are those that it has opened and not closed. -/
theorem bareBraces_steps : ∀ {cs : List Char} {state next : Bool × Nat}, cs.foldlM braceStep state = some next →
    state.2 + bareBraces '\x7b' state.1 cs = bareBraces '\x7d' state.1 cs + next.2
  | [], _, _, h => by
    cases h
    exact Nat.add_comm _ _
  | c :: cs, (escaped, level), next, h => by
    rw [List.foldlM_cons] at h
    obtain ⟨between, hstep, hrest⟩ := Option.bind_eq_some_iff.mp h
    have ih := bareBraces_steps hrest
    unfold bareBraces
    unfold braceStep at hstep
    dsimp only at hstep ih ⊢
    split at hstep
    · rename_i hopen
      obtain rfl := Option.some.inj hstep
      rw [if_pos hopen, if_neg fun h => absurd (hopen.1.symm.trans h.1) (by decide), hopen.1]
      rw [show decide (('\x7b' : Char) = '\\') = false from rfl]
      dsimp only at ih
      omega
    · rename_i hopen
      rw [if_neg hopen]
      split at hstep
      · rename_i hclose
        rw [if_pos hclose, hclose.1]
        rw [show decide (('\x7d' : Char) = '\\') = false from rfl]
        split at hstep
        · cases hstep
        · obtain rfl := Option.some.inj hstep
          dsimp only at ih
          omega
      · rename_i hclose
        rw [if_neg hclose]
        obtain rfl := Option.some.inj hstep
        dsimp only at ih
        omega

/-- The braces of a sealed text balance. -/
theorem IsSealed.bracesBalance {text : String} (h : IsSealed text) : BracesBalance text := by
  refine ⟨fun cs hcs => ?_, ?_⟩
  · obtain ⟨rest, hrest⟩ := hcs
    unfold IsSealed at h
    rw [← hrest, List.foldlM_append] at h
    obtain ⟨between, hsteps, -⟩ := Option.bind_eq_some_iff.mp h
    have := bareBraces_steps hsteps
    dsimp only at this
    omega
  · have := bareBraces_steps h
    dsimp only at this
    omega

theorem braceStep_fst {state next : Bool × Nat} {c : Char} (h : braceStep state c = some next) :
    next.1 = decide (c = '\\') := by
  unfold braceStep at h
  split at h
  · rename_i hopen
    obtain rfl := Option.some.inj h
    rw [hopen.1]
    rfl
  · split at h
    · rename_i hclose
      split at h
      · cases h
      · obtain rfl := Option.some.inj h
        rw [hclose.1]
        rfl
    · obtain rfl := Option.some.inj h
      rfl

/-- Characters that close no more groups than there are open take the state to another. -/
theorem exists_braceSteps : ∀ {cs : List Char} {state : Bool × Nat},
    (∀ part, part <+: cs → bareBraces '\x7d' state.1 part ≤ state.2 + bareBraces '\x7b' state.1 part) →
    ∃ next, cs.foldlM braceStep state = some next
  | [], state, _ => ⟨state, rfl⟩
  | c :: cs, (escaped, level), h => by
    have hstart : ∀ part, part <+: cs → bareBraces '\x7d' escaped (c :: part) ≤ level + bareBraces '\x7b' escaped (c :: part) :=
      fun part hpart => h _ (List.cons_prefix_cons.mpr ⟨rfl, hpart⟩)
    obtain ⟨between, hstep⟩ : ∃ between, braceStep (escaped, level) c = some between := by
      have hfirst := hstart [] List.nil_prefix
      unfold braceStep
      dsimp only
      split
      · exact ⟨_, rfl⟩
      next hopen =>
        split
        next hclose =>
          simp only [bareBraces, if_pos hclose, if_neg hopen] at hfirst
          rw [if_neg (by omega)]
          exact ⟨_, rfl⟩
        · exact ⟨_, rfl⟩
    -- The character takes both sides from the count in front of it to the count behind it.
    have hcount := @bareBraces_steps [c] (escaped, level) between (by rw [List.foldlM_cons, hstep]; rfl)
    have hescaped := braceStep_fst hstep
    obtain ⟨next, hnext⟩ := @exists_braceSteps cs between fun part hpart => by
      have := hstart part hpart
      simp only [bareBraces, Nat.add_zero] at hcount this
      rw [hescaped]
      omega
    exact ⟨next, by rw [List.foldlM_cons, hstep]; exact hnext⟩

/-- The state behind a text tells of the backslash at its end. -/
theorem braceSteps_fst {cs : List Char} {level : Nat} {next : Bool × Nat}
    (h : cs.foldlM braceStep (false, level) = some next) : next.1 = decide (cs.getLast? = some '\\') := by
  rcases List.eq_nil_or_concat cs with rfl | ⟨front, last, rfl⟩
  · cases h
    rfl
  · rw [List.concat_eq_append, List.foldlM_append] at h
    obtain ⟨between, -, hlast⟩ := Option.bind_eq_some_iff.mp h
    rw [List.foldlM_cons] at hlast
    obtain ⟨_, hstep, hnext⟩ := Option.bind_eq_some_iff.mp hlast
    cases hnext
    rw [braceStep_fst hstep, List.concat_eq_append, List.getLast?_concat]
    simp only [Option.some.injEq]

/-- A text is sealed if and only if its braces balance and it does not end in a backslash. -/
theorem isSealed_iff_bracesBalance {text : String} :
    IsSealed text ↔ BracesBalance text ∧ text.toList.getLast? ≠ some '\\' := by
  refine ⟨fun h => ⟨h.bracesBalance, ?_⟩, fun ⟨hbalance, hlast⟩ => ?_⟩
  · exact of_decide_eq_false (braceSteps_fst h).symm
  · obtain ⟨⟨escaped, level⟩, hsteps⟩ := @exists_braceSteps text.toList (false, 0) fun part hpart =>
      (hbalance.start part hpart).trans (Nat.le_add_left _ _)
    obtain rfl : escaped = false := (braceSteps_fst hsteps).trans (decide_eq_false hlast)
    have hcount := bareBraces_steps hsteps
    have hwhole := hbalance.whole
    dsimp only at hcount
    obtain rfl : level = 0 := by omega
    exact hsteps

/-! ### Joining -/

theorem isSealed_iff {cs : List Char} :
    IsSealed (String.ofList cs) ↔ cs.foldlM braceStep (false, 0) = some (false, 0) := by
  rw [IsSealed, String.toList_ofList]

theorem isSealed_empty : IsSealed "" := rfl

theorem IsSealed.append {s t : String} (hs : IsSealed s) (ht : IsSealed t) : IsSealed (s ++ t) := by
  rw [IsSealed, String.toList_append, List.foldlM_append, hs]
  exact ht

/-- Characters that are neither braces nor backslashes. -/
theorem isSealed_of_plain {cs : List Char} (h : ∀ c ∈ cs, c ≠ '\x7b' ∧ c ≠ '\x7d' ∧ c ≠ '\\') :
    IsSealed (String.ofList cs) := by
  rw [isSealed_iff]
  induction cs with
  | nil => rfl
  | cons c cs ih =>
    obtain ⟨hopen, hclose, hslash⟩ := h c List.mem_cons_self
    have hstep : braceStep (false, 0) c = some (false, 0) := by simp [braceStep, hopen, hclose, hslash]
    rw [List.foldlM_cons, hstep]
    exact ih fun d hd => h d (List.mem_cons_of_mem c hd)

/-- A sealed text in braces. -/
theorem IsSealed.braced {s : String} (h : IsSealed s) : IsSealed ("\x7b" ++ s ++ "\x7d") := by
  rw [IsSealed, String.toList_append, String.toList_append, List.append_assoc, List.foldlM_append]
  show List.foldlM braceStep (false, 1) (s.toList ++ "\x7d".toList) = _
  rw [List.foldlM_append, h.steps 1]
  rfl

/-! ### Templates -/

/-- Behind a first character that stays, the rest of a text may be exchanged. -/
theorem braceSteps_cons_congr {c : Char} {cs ds : List Char} (state : Bool × Nat)
    (h : ∀ level, cs.foldlM braceStep (decide (c = '\\'), level) = ds.foldlM braceStep (decide (c = '\\'), level)) :
    (c :: cs).foldlM braceStep state = (c :: ds).foldlM braceStep state := by
  rw [List.foldlM_cons, List.foldlM_cons]
  cases hstep : braceStep state c with
  | none => rfl
  | some next =>
    obtain ⟨escaped, level⟩ := next
    obtain rfl : escaped = _ := braceStep_fst hstep
    exact h level

section Templates

variable {argument sup sub : String} (ha : IsSealed argument) (hs : IsSealed sup) (ht : IsSealed sub)

include ha hs ht

/-- Sealed texts in the places of a template of a function leave its braces as they are. -/
theorem braceSteps_fillFunction (escaped : Bool) (template : List Char) : ∀ level,
    (fillFunction argument.toList sup.toList sub.toList escaped template).foldlM braceStep (escaped, level) =
      template.foldlM braceStep (escaped, level) := by
  have place : ∀ {text : String}, IsSealed text → ∀ (cs : List Char) (level : Nat),
      (text.toList ++ cs).foldlM braceStep (false, level) = cs.foldlM braceStep (false, level) := by
    intro text h cs level
    rw [List.foldlM_append, h.steps]
    rfl
  fun_induction fillFunction argument.toList sup.toList sub.toList escaped template with
  | case1 => exact fun _ => rfl
  | case2 rest ih =>
    intro level
    rw [place hs, ih]
    rfl
  | case3 rest ih =>
    intro level
    rw [place ht, ih]
    rfl
  | case4 rest _ _ ih =>
    intro level
    rw [place ha, ih]
    rfl
  | case5 escaped c rest _ _ _ ih => exact fun level => braceSteps_cons_congr (escaped, level) ih

/-- A sealed template of a function is filled as a sealed text. -/
theorem isSealed_fillFunction {template : String} (h : IsSealed template) :
    IsSealed (String.ofList (fillFunction argument.toList sup.toList sub.toList false template.toList)) := by
  rw [isSealed_iff, braceSteps_fillFunction ha hs ht]
  exact h

end Templates

/-- No place of the template of an operator stands behind a backslash; `escaped` tells of one in front. -/
def hasOpenPlaces (escaped : Bool) : List Char → Bool
  | [] => true
  | c :: rest => !(escaped && c == '%') && hasOpenPlaces (c == '\\') rest

/-- Sealed texts in the places of a template of an operator leave its braces as they are. -/
theorem braceSteps_fillOperator {left right : String} (hl : IsSealed left) (hr : IsSealed right) (template : List Char) :
    ∀ (escaped : Bool) (level : Nat), hasOpenPlaces escaped template = true →
      (fillOperator left.toList right.toList template).foldlM braceStep (escaped, level) =
        template.foldlM braceStep (escaped, level) := by
  have place : ∀ {text : String}, IsSealed text → ∀ (digit : Char) (rest : List Char) (escaped : Bool) (level : Nat),
      hasOpenPlaces escaped ('%' :: digit :: rest) = true → digit = '0' ∨ digit = '1' →
      (∀ escaped level, hasOpenPlaces escaped rest = true →
        (fillOperator left.toList right.toList rest).foldlM braceStep (escaped, level) = rest.foldlM braceStep (escaped, level)) →
      (text.toList ++ fillOperator left.toList right.toList rest).foldlM braceStep (escaped, level) =
        ('%' :: digit :: rest).foldlM braceStep (escaped, level) := by
    intro text h digit rest escaped level hplaces hdigit ih
    cases escaped with
    | true => cases hplaces
    | false =>
      rw [List.foldlM_append, h.steps]
      rcases hdigit with rfl | rfl
      · exact ih false level hplaces
      · exact ih false level hplaces
  fun_induction fillOperator left.toList right.toList template with
  | case1 rest ih => exact fun escaped level h => place hl '0' rest escaped level h (.inl rfl) ih
  | case2 rest ih => exact fun escaped level h => place hr '1' rest escaped level h (.inr rfl) ih
  | case3 c rest _ _ ih =>
    intro escaped level h
    exact braceSteps_cons_congr (escaped, level) fun level => ih _ level (Bool.and_eq_true_iff.mp h).2
  | case4 => exact fun _ _ _ => rfl

/-- A sealed template of an operator is filled as a sealed text. -/
theorem isSealed_fillOperator {left right template : String} (hl : IsSealed left) (hr : IsSealed right)
    (h : IsSealed template) (hplaces : hasOpenPlaces false template.toList = true) :
    IsSealed (String.ofList (fillOperator left.toList right.toList template.toList)) := by
  rw [isSealed_iff, braceSteps_fillOperator hl hr _ _ _ hplaces]
  exact h

/-! ### Writing -/

/-- To be sealed is kept in writing. -/
theorem keptInWriting_isSealed : KeptInWriting IsSealed where
  append := IsSealed.append
  braced := IsSealed.braced
  digits cs h := by
    refine isSealed_of_plain fun d hd => ?_
    have hdigit := h d hd
    refine ⟨?_, ?_, ?_⟩ <;>
      · rintro rfl
        exact absurd hdigit (by decide)
  fixed := by decide

end Format

end Formula
