import Mathlib.Data.List.Basic
import Formula.Proofs.Preview.Rewriting

/-!
# Commands that are replaced with their arguments

A rule replaces `\bbox[`, `\operatorname{` or `\text{` only if it finds the end of the argument, and what a rule takes out
may bring parts of such a command together.  A text is ready (`IsReady`) if neither can happen: behind no backslash of it
does a beginning of one of these commands stand in front of the end of the text or of another backslash, and an argument
that is opened is closed in the text, with no brace in it.  Ready texts in a row are a ready text, and `drawable` leaves
none of the three commands in a ready text.
-/

namespace Formula.Preview

/-! ### Texts that are ready -/

/-- A command with the bracket that opens its argument, without the backslash, and the bracket that closes the argument. -/
structure Opening where
  start : List Char
  closing : Char
deriving DecidableEq

/-- The commands that are replaced with their arguments. -/
def openings : List Opening :=
  [⟨"bbox[".toList, ']'⟩, ⟨"operatorname\x7b".toList, '\x7d'⟩, ⟨"text\x7b".toList, '\x7d'⟩]

/-- Up to the first character that is another, or up to its end, neither the end of the characters nor a backslash
interrupts the beginning of a command. -/
def uninterrupted : List Char → List Char → Bool
  | [], _ => true
  | _ :: _, [] => false
  | x :: start, c :: rest => c != '\\' && (x != c || uninterrupted start rest)

/-- The first of the closing bracket and of the braces is the closing bracket. -/
def closesWith (closing : Char) : List Char → Bool
  | [] => false
  | c :: rest => c == closing || (c != '\x7b' && c != '\x7d' && closesWith closing rest)

/-- Behind a backslash no command of these is interrupted, and if one stands there, it is in the list and its argument is
closed. -/
def IsReadyBehind (left : List Opening) (rest : List Char) : Prop :=
  ∀ o ∈ openings, uninterrupted o.start rest = true ∧
    ∀ more ∈ o.start.isPrefixOf? rest, o ∈ left ∧ closesWith o.closing more = true

instance (left : List Opening) : DecidablePred (IsReadyBehind left) := fun rest =>
  inferInstanceAs (Decidable (∀ o ∈ openings, uninterrupted o.start rest = true ∧
    ∀ more ∈ o.start.isPrefixOf? rest, o ∈ left ∧ closesWith o.closing more = true))

/-- The text is ready to be rewritten. -/
def IsReady (text : String) : Prop := BehindSlashes (IsReadyBehind openings) text.toList

instance : DecidablePred IsReady := fun text =>
  inferInstanceAs (Decidable (BehindSlashes (IsReadyBehind openings) text.toList))

/-! ### What stands in front of the same -/

section

variable {left left' : List Opening} {start rest out more s t : List Char} {closing : Char}

/-- A beginning of a command is found in the one text as in the other, if the two agree up to the first backslash as far as
the command goes. -/
theorem uninterrupted_agree {R : List Char → List Char → Prop}
    (hR : ∀ {c rest out}, c ≠ '\\' → R (c :: rest) out → ∃ out', out = c :: out' ∧ (c ∈ start → R rest out'))
    (h : uninterrupted start rest = true) (hrest : R rest out) : uninterrupted start out = true ∧
      ∀ more', out = start ++ more' → ∃ more, rest = start ++ more ∧ R more more' := by
  induction start generalizing rest out with
  | nil =>
    refine ⟨rfl, ?_⟩
    rintro _ rfl
    exact ⟨rest, rfl, hrest⟩
  | cons x start ih =>
    cases rest with
    | nil => cases h
    | cons c rest =>
      rw [uninterrupted, Bool.and_eq_true, bne_iff_ne, Bool.or_eq_true, bne_iff_ne] at h
      obtain ⟨hc, hx⟩ := h
      obtain ⟨out, rfl, hagree⟩ := hR hc hrest
      by_cases hxc : x = c
      · subst hxc
        have hR' : ∀ {c rest out}, c ≠ '\\' → R (c :: rest) out → ∃ out', out = c :: out' ∧ (c ∈ start → R rest out') := by
          intro c rest out hc hrest
          obtain ⟨out', heq, hmem⟩ := hR hc hrest
          exact ⟨out', heq, fun h => hmem (List.mem_cons_of_mem x h)⟩
        obtain ⟨hrest, hfound⟩ := ih hR' (hx.resolve_left fun hne => hne rfl) (hagree List.mem_cons_self)
        refine ⟨?_, fun more' heq => ?_⟩
        · rw [uninterrupted, hrest, Bool.or_true, Bool.and_true, bne_iff_ne]
          exact hc
        · obtain ⟨more, rfl, hmore⟩ := hfound more' (List.cons_eq_cons.mp heq).2
          exact ⟨more, rfl, hmore⟩
      · refine ⟨?_, fun more' heq => ?_⟩
        · rw [uninterrupted, bne_iff_ne.mpr hc, bne_iff_ne.mpr hxc]
          rfl
        · exact absurd (List.cons_eq_cons.mp heq).1.symm hxc

/-- A text is as ready as another with which it agrees. -/
theorem IsReadyBehind.agree {R : List Char → List Char → Prop} (h : IsReadyBehind left rest)
    (hR : ∀ o ∈ openings, ∀ {c rest out}, c ≠ '\\' → R (c :: rest) out → ∃ out', out = c :: out' ∧ (c ∈ o.start → R rest out'))
    (hrest : R rest out)
    (hclosed : ∀ o ∈ left, ∀ more more', rest = o.start ++ more → R more more' → closesWith o.closing more = true →
      o ∈ left' ∧ closesWith o.closing more' = true) : IsReadyBehind left' out := by
  intro o ho
  obtain ⟨hclear, hopened⟩ := h o ho
  obtain ⟨hout, hfound⟩ := uninterrupted_agree (hR o ho) hclear hrest
  refine ⟨hout, fun more' hmore' => ?_⟩
  obtain ⟨more, rfl, hmore⟩ := hfound more' (List.isPrefixOf?_eq_some_iff_append_eq.mp hmore').symm
  obtain ⟨hmem, hcloses⟩ := hopened more (List.isPrefixOf?_eq_some_iff_append_eq.mpr rfl)
  exact hclosed o hmem more more' rfl hmore hcloses

theorem closesWith_append : ∀ {s : List Char}, closesWith closing s = true → closesWith closing (s ++ t) = true
  | [], h => by cases h
  | c :: s, h => by
    rw [closesWith, Bool.or_eq_true, Bool.and_eq_true] at h
    rw [List.cons_append, closesWith, Bool.or_eq_true, Bool.and_eq_true]
    exact h.imp_right fun ⟨hc, hs⟩ => ⟨hc, closesWith_append hs⟩

theorem IsReadyBehind.append (h : IsReadyBehind left rest) (t : List Char) : IsReadyBehind left (rest ++ t) := by
  refine h.agree (R := fun s s' => s' = s ++ t) (fun o _ c s s' _ heq => ⟨s ++ t, heq, fun _ => rfl⟩) rfl ?_
  rintro o ho more _ rfl rfl hcloses
  exact ⟨ho, closesWith_append hcloses⟩

/-- Ready texts in a row. -/
theorem IsReady.append {s t : String} (hs : IsReady s) (ht : IsReady t) : IsReady (s ++ t) := by
  unfold IsReady
  rw [String.toList_append]
  exact BehindSlashes.append (fun _ h => h.append _) ht hs

/-- The characters begin with another one than the commands, and than a backslash. -/
def startsApart (cs : List Char) : Bool := cs.head?.any fun c => c != '\\' && openings.all fun o => o.start.head?.any (· != c)

theorem isReadyBehind_of_startsApart (h : startsApart s = true) : IsReadyBehind left (s ++ t) := by
  cases s with
  | nil => cases h
  | cons c s =>
    rw [startsApart, List.head?_cons, Option.any_some, Bool.and_eq_true, List.all_eq_true] at h
    obtain ⟨hc, hall⟩ := h
    intro o ho
    have hapart := hall o ho
    cases hstart : o.start with
    | nil =>
      rw [hstart] at hapart
      cases hapart
    | cons x start =>
      rw [hstart, List.head?_cons, Option.any_some] at hapart
      refine ⟨?_, fun more hmore => ?_⟩
      · rw [List.cons_append, uninterrupted, hc, hapart]
        rfl
      · have heq := List.isPrefixOf?_eq_some_iff_append_eq.mp hmore
        exact absurd (List.cons_eq_cons.mp heq).1 (bne_iff_ne.mp hapart)

/-- A text without backslashes is ready. -/
theorem behindSlashes_of_notMem {Q : List Char → Prop} : ∀ {cs : List Char}, '\\' ∉ cs → BehindSlashes Q cs
  | [], _ => trivial
  | _ :: _, h => ⟨fun hc => absurd hc (List.ne_of_not_mem_cons h).symm, behindSlashes_of_notMem (List.not_mem_of_not_mem_cons h)⟩

theorem closesWith_exchange (s t : List Char) : ∀ front : List Char,
    closesWith closing (front ++ '\x7d' :: s) = closesWith closing (front ++ '\x7d' :: t)
  | [] => by simp only [List.nil_append, closesWith, bne_self_eq_false, Bool.and_false, Bool.false_and]
  | c :: front => by
    rw [List.cons_append, List.cons_append, closesWith, closesWith, closesWith_exchange s t front]

theorem notMem_start : ∀ o ∈ openings, '\x7d' ∉ o.start := by decide

/-- What stands behind a closing brace does not matter. -/
theorem IsReadyBehind.exchange {front : List Char} (h : IsReadyBehind left (front ++ '\x7d' :: s)) (t : List Char) :
    IsReadyBehind left (front ++ '\x7d' :: t) := by
  refine h.agree (R := fun r r' => ∃ front, r = front ++ '\x7d' :: s ∧ r' = front ++ '\x7d' :: t) ?_ ⟨front, rfl, rfl⟩ ?_
  · rintro o ho c r r' _ ⟨front, hr, rfl⟩
    cases front with
    | nil =>
      obtain ⟨rfl, rfl⟩ := List.cons_eq_cons.mp hr
      exact ⟨t, rfl, fun hmem => absurd hmem (notMem_start o ho)⟩
    | cons d front =>
      obtain ⟨rfl, rfl⟩ := List.cons_eq_cons.mp hr
      exact ⟨_, rfl, fun _ => ⟨front, rfl, rfl⟩⟩
  · rintro o ho _ _ - ⟨front, rfl, rfl⟩ hcloses
    exact ⟨ho, closesWith_exchange s t front ▸ hcloses⟩

end

/-! ### Arguments that stay closed -/

/-- No brace is among the characters. -/
def IsBraceless (cs : List Char) : Prop := ∀ c ∈ cs, c ≠ '\x7b' ∧ c ≠ '\x7d'

instance : DecidablePred IsBraceless := fun cs => List.decidableBAll (fun c => c ≠ '\x7b' ∧ c ≠ '\x7d') cs

section

variable {cs rest : List Char}

theorem closesWith_braceless : ∀ {cs : List Char}, IsBraceless cs → closesWith '\x7d' (cs ++ rest) = closesWith '\x7d' rest
  | [], _ => rfl
  | c :: cs, h => by
    obtain ⟨⟨hopen, hclose⟩, hcs⟩ := List.forall_mem_cons.mp h
    rw [List.cons_append, closesWith, closesWith_braceless hcs, beq_eq_false_iff_ne.mpr hclose, bne_iff_ne.mpr hopen,
      bne_iff_ne.mpr hclose]
    rfl

/-- An argument with its closing bracket behind it. -/
theorem braceless_of_closesWith {closing : Char} : ∀ {cs : List Char}, closing ∉ cs →
    closesWith closing (cs ++ closing :: rest) = true → IsBraceless cs
  | [], _, _ => nofun
  | c :: cs, hclosing, h => by
    rw [List.cons_append, closesWith, beq_eq_false_iff_ne.mpr (List.ne_of_not_mem_cons hclosing).symm, Bool.false_or,
      Bool.and_eq_true, Bool.and_eq_true, bne_iff_ne, bne_iff_ne] at h
    obtain ⟨hc, h⟩ := h
    exact List.forall_mem_cons.mpr ⟨hc, braceless_of_closesWith (List.not_mem_of_not_mem_cons hclosing) h⟩

theorem mem_of_closesWith {closing : Char} : ∀ {cs : List Char}, closesWith closing cs = true → closing ∈ cs
  | [], h => by cases h
  | c :: cs, h => by
    rw [closesWith, Bool.or_eq_true, beq_iff_eq, Bool.and_eq_true] at h
    rcases h with rfl | ⟨-, h⟩
    · exact List.mem_cons_self
    · exact List.mem_cons_of_mem c (mem_of_closesWith h)

/-- A text whose first brace opens a group does not close one first. -/
theorem closesWith_of_opening : ∀ {cs : List Char}, closesWith '\x7b' cs = true → closesWith '\x7d' (cs ++ rest) = false
  | [], h => by cases h
  | c :: cs, h => by
    rw [closesWith, Bool.or_eq_true, beq_iff_eq, Bool.and_eq_true, Bool.and_eq_true, bne_iff_ne, bne_iff_ne] at h
    rcases h with rfl | ⟨⟨hopen, hclose⟩, h⟩
    · rfl
    · rw [List.cons_append, closesWith, closesWith_of_opening h, beq_eq_false_iff_ne.mpr hclose, Bool.and_false]
      rfl

/-- The characters in front of the first brace, if it is a closing one. -/
theorem head?_takeWhile_of_closesWith : ∀ {cs : List Char}, closesWith '\x7d' cs = true →
    (cs.drop (cs.takeWhile fun c => c ≠ '\x7b' ∧ c ≠ '\x7d').length).head? = some '\x7d'
  | [], h => by cases h
  | c :: cs, h => by
    rw [closesWith, Bool.or_eq_true, beq_iff_eq, Bool.and_eq_true, Bool.and_eq_true, bne_iff_ne, bne_iff_ne] at h
    rcases h with rfl | ⟨hc, h⟩
    · rfl
    · have htake : (c :: cs).takeWhile (fun c => c ≠ '\x7b' ∧ c ≠ '\x7d') =
          c :: cs.takeWhile fun c => c ≠ '\x7b' ∧ c ≠ '\x7d' := List.takeWhile_cons_of_pos (decide_eq_true hc)
      rw [htake]
      exact head?_takeWhile_of_closesWith h

end

/-- Braceless characters in front of a closing brace have none of the commands whose argument stands in braces. -/
theorem IsReadyBehind.braceless {left left' : List Opening} {front s : List Char} (h : IsReadyBehind left (front ++ '\x7d' :: s))
    (hfront : IsBraceless front) (hleft : ∀ o ∈ left, '\x7b' ∈ o.start) (t : List Char) :
    IsReadyBehind left' (front ++ '\x7d' :: t) := by
  intro o ho
  obtain ⟨hout, hopened⟩ := h.exchange t o ho
  refine ⟨hout, fun more hmore => ?_⟩
  have heq := List.isPrefixOf?_eq_some_iff_append_eq.mp hmore
  obtain ⟨hmem, -⟩ := hopened more hmore
  rcases List.append_eq_append_iff.mp heq with ⟨u, rfl, -⟩ | ⟨u, hstart, hrest⟩
  · exact absurd rfl (hfront _ (List.mem_append_left u (hleft o hmem))).1
  · cases u with
    | nil =>
      have hbrace := hleft o hmem
      rw [hstart, List.append_nil] at hbrace
      exact absurd rfl (hfront _ hbrace).1
    | cons c u =>
      obtain rfl := (List.cons_eq_cons.mp hrest).1
      exact absurd (hstart ▸ List.mem_append_right front List.mem_cons_self) (notMem_start o ho)

namespace Rule

/-- The command is one that the rule replaces with its argument. -/
def Handles (o : Opening) : Rule → Prop
  | dropped opening closing => opening.toList = '\\' :: o.start ∧ closing = o.closing
  | renamed opening _ _ => opening.toList = '\\' :: o.start ∧ o.closing = '\x7d'
  | _ => False

instance (o : Opening) : DecidablePred (Handles o)
  | dropped .. | renamed .. => inferInstanceAs (Decidable (_ ∧ _))
  | parts .. | commands .. => isFalse id

/-- The rule takes no brace away, but with arguments of commands that are ready, and with braces that open a group. -/
def KeepsGroups : Rule → Prop
  | parts ps replacement | commands ps replacement => (∀ p ∈ ps, IsBraceless p.toList) ∧ IsBraceless replacement.toList
  | dropped opening closing => ∃ o ∈ openings, opening.toList = '\\' :: o.start ∧ closing = o.closing ∧
    IsBraceless (closing :: o.start)
  | renamed opening _ _ => closesWith '\x7b' opening.toList = true

instance : DecidablePred KeepsGroups
  | parts .. | commands .. => inferInstanceAs (Decidable (_ ∧ _))
  | dropped .. => inferInstanceAs (Decidable (∃ _ ∈ _, _))
  | renamed .. => inferInstanceAs (Decidable (_ = _))

variable {r : Rule} {o : Opening} {left left' : List Opening} {cs out rest more written replacement : List Char}

/-- A command with its argument is an occurrence of the rule that handles it. -/
theorem occurrence_of_handles (hr : r.Handles o) (hclosed : closesWith o.closing more = true) :
    r.occurrence ('\\' :: (o.start ++ more)) ≠ none := by
  have hfront : ∀ {opening : String}, opening.toList = '\\' :: o.start →
      opening.toList.isPrefixOf ('\\' :: (o.start ++ more)) = true ∧
        ('\\' :: (o.start ++ more)).drop opening.length = more ∧
          ('\\' :: (o.start ++ more)).length = opening.length + more.length := by
    intro opening heq
    have hcs : '\\' :: (o.start ++ more) = opening.toList ++ more := by rw [heq, List.cons_append]
    rw [hcs, List.length_append, String.length_toList]
    exact ⟨List.isPrefixOf_iff_prefix.mpr ⟨more, rfl⟩, List.drop_left, rfl⟩
  cases r with
  | dropped opening closing =>
    obtain ⟨heq, rfl⟩ := hr
    obtain ⟨hmatch, hdrop, hlength⟩ := hfront heq
    have hshorter : (more.takeWhile (· ≠ o.closing)).length < more.length := by
      refine lt_of_le_of_ne (List.takeWhile_prefix _).length_le fun hall => ?_
      have hmem := mem_of_closesWith hclosed
      rw [← (List.takeWhile_prefix (· ≠ o.closing)).eq_of_length hall] at hmem
      simpa using List.mem_takeWhile_imp hmem
    unfold occurrence
    simp only [hmatch, hdrop, hlength, if_true, if_pos (Nat.add_lt_add_left hshorter _)]
    exact nofun
  | renamed opening before after =>
    obtain ⟨heq, hbrace⟩ := hr
    obtain ⟨hmatch, hdrop, -⟩ := hfront heq
    have hhead : (('\\' :: (o.start ++ more)).drop
        (opening.length + (more.takeWhile fun c => c ≠ '\x7b' ∧ c ≠ '\x7d').length)).head? = some '\x7d' := by
      rw [← List.drop_drop, hdrop]
      exact head?_takeWhile_of_closesWith (hbrace ▸ hclosed)
    unfold occurrence
    simp only [hmatch, hdrop, if_true, if_pos hhead]
    exact nofun
  | _ => cases hr

/-- A group that is closed stays closed. -/
theorem Rewritten.closes (h : r.Rewritten cs out) (hr : r.KeepsGroups) (hready : BehindSlashes (IsReadyBehind left) cs)
    (hcs : closesWith '\x7d' cs = true) : closesWith '\x7d' out = true := by
  induction h with
  | nil => cases hcs
  | @keep c rest out _ _ ih =>
    rw [closesWith, Bool.or_eq_true, Bool.and_eq_true] at hcs ⊢
    exact hcs.imp_right fun ⟨hc, hrest⟩ => ⟨hc, ih hready.2 hrest⟩
  | @replace written replacement more out hoccurs _ ih =>
    have hmore := ih hready.of_append
    cases hoccurs with
    | part hp =>
      rw [closesWith_braceless (hr.1 _ hp)] at hcs
      rw [closesWith_braceless hr.2]
      exact hmore hcs
    | command hp _ =>
      rw [closesWith_braceless (hr.1 _ hp)] at hcs
      rw [closesWith_braceless hr.2]
      exact hmore hcs
    | @dropped opening closing argument _ hargument =>
      obtain ⟨o, ho, heq, rfl, hbraceless⟩ := hr
      obtain ⟨hclosing, hstart⟩ := List.forall_mem_cons.mp hbraceless
      have hsplit : opening.toList ++ argument ++ [o.closing] ++ more = '\\' :: (o.start ++ (argument ++ o.closing :: more)) := by
        rw [heq]
        simp only [List.append_assoc, List.cons_append, List.nil_append]
      rw [hsplit] at hready hcs
      obtain ⟨-, hclosed⟩ := (hready.1 rfl o ho).2 _ (List.isPrefixOf?_eq_some_iff_append_eq.mpr rfl)
      have hfront : IsBraceless ('\\' :: o.start) := List.forall_mem_cons.mpr ⟨by decide, hstart⟩
      have hlast : IsBraceless [o.closing] := List.forall_mem_cons.mpr ⟨hclosing, nofun⟩
      rw [← List.cons_append, closesWith_braceless hfront, closesWith_braceless (braceless_of_closesWith hargument hclosed),
        ← List.singleton_append, closesWith_braceless hlast] at hcs
      exact hmore hcs
    | renamed _ =>
      rw [List.append_assoc, List.append_assoc, closesWith_of_opening hr] at hcs
      cases hcs

/-- What the rule puts in place of occurrences has no command that is replaced with its argument, however it goes on. -/
def PutsNoOpening (left : List Opening) : Rule → Prop
  | parts _ replacement | commands _ replacement => BehindSlashes (fun rest => startsApart rest = true) replacement.toList
  | dropped .. => True
  | renamed _ before after => BehindSlashes (fun rest => startsApart rest = true) before.toList ∧
    after.toList.head? = some '\x7d' ∧ BehindSlashes (fun rest => startsApart rest = true) after.toList ∧
    ∀ o ∈ left, '\x7b' ∈ o.start

instance (left : List Opening) : DecidablePred (PutsNoOpening left)
  | parts .. | commands .. => inferInstanceAs (Decidable (BehindSlashes _ _))
  | dropped .. => isTrue trivial
  | renamed .. => inferInstanceAs (Decidable (_ ∧ _))

/-- The rule replaces the commands that are no longer left, and leaves a ready text ready. -/
structure Prepares (left left' : List Opening) (r : Rule) : Prop where
  slash : r.StartsWithSlash
  groups : r.KeepsGroups
  puts : r.PutsNoOpening left
  handles : ∀ o ∈ left, r.Handles o ∨ (o ∈ left' ∧ o.closing = '\x7d')

instance (left left' : List Opening) (r : Rule) : Decidable (r.Prepares left left') :=
  decidable_of_iff (r.StartsWithSlash ∧ r.KeepsGroups ∧ r.PutsNoOpening left ∧
    ∀ o ∈ left, r.Handles o ∨ (o ∈ left' ∧ o.closing = '\x7d'))
    ⟨fun ⟨hslash, hgroups, hputs, hhandles⟩ => ⟨hslash, hgroups, hputs, hhandles⟩,
      fun h => ⟨h.slash, h.groups, h.puts, h.handles⟩⟩

/-- One rule makes a ready text of a ready text, in which the commands that it handles are not left. -/
theorem Rewritten.ready (h : r.Rewritten cs out) (hr : r.Prepares left left')
    (hcs : BehindSlashes (IsReadyBehind left) cs) : BehindSlashes (IsReadyBehind left') out := by
  refine h.behindSlashes (fun {rest out} hready hnone hrest => ?_) (fun {_ _ more out} hready hoccurs _ hout => ?_) hcs
  · -- A backslash that stays: what stands behind it agrees with what stood there before.
    obtain ⟨hbehind, hrests⟩ := hready
    refine (hbehind rfl).agree (R := r.Rewritten) (fun o _ c rest out hc hcons => ?_) hrest fun o ho more more' heq hmore hclosed => ?_
    · obtain ⟨out', heq, hout⟩ := hcons.of_cons hr.slash hc
      exact ⟨out', heq, fun _ => hout⟩
    · subst heq
      rcases hr.handles o ho with hhandles | ⟨ho', hclosing⟩
      · exact absurd hnone (occurrence_of_handles hhandles hclosed)
      · rw [hclosing] at hclosed ⊢
        exact ⟨ho', hmore.closes hr.groups hrests.of_append hclosed⟩
  · have hputs := hr.puts
    cases hoccurs with
    | part _ | command _ _ => exact BehindSlashes.append (fun _ h => isReadyBehind_of_startsApart h) hout hputs
    | dropped _ => exact hout
    | @renamed opening before after argument _ hargument =>
      obtain ⟨hbefore, hafter, hrest, hleft⟩ := hputs
      obtain ⟨t, ht⟩ := List.head?_eq_some_iff.mp hafter
      have hready : BehindSlashes (IsReadyBehind left) (argument ++ '\x7d' :: more) := by
        rw [List.append_assoc, List.append_assoc] at hready
        exact hready.of_append
      have hbehind : BehindSlashes (IsReadyBehind left') ('\x7d' :: (t ++ out)) := by
        rw [← List.cons_append, ← ht]
        exact BehindSlashes.append (fun _ h => isReadyBehind_of_startsApart h) hout hrest
      rw [ht, List.append_assoc, List.append_assoc, List.cons_append]
      refine BehindSlashes.append (fun _ h => isReadyBehind_of_startsApart h) ?_ hbefore
      refine BehindSlashes.exchange hbehind (fun front hfront h => h.braceless (fun c hc => ?_) hleft _) hready
      exact hargument c (hfront.mem hc)

end Rule

/-! ### All rules -/

/-- The rules, one after the other, replace all of the commands. -/
def Prepared (left : List Opening) : List Rule → Prop
  | [] => left = []
  | r :: rs => r.Prepares left (left.filter fun o => !decide (r.Handles o)) ∧
    Prepared (left.filter fun o => !decide (r.Handles o)) rs

instance decidablePrepared : (left : List Opening) → (rs : List Rule) → Decidable (Prepared left rs)
  | left, [] => inferInstanceAs (Decidable (left = []))
  | left, r :: rs =>
    have := decidablePrepared (left.filter fun o => !decide (r.Handles o)) rs
    inferInstanceAs (Decidable (_ ∧ _))

theorem prepared_rules : Prepared openings rules := by decide

theorem ready_of_prepared : ∀ {rs : List Rule} {left : List Opening} {cs : List Char}, Prepared left rs →
    BehindSlashes (IsReadyBehind left) cs → BehindSlashes (IsReadyBehind []) (rs.foldl (fun cs r => r.apply 0 cs) cs)
  | [], _, _, hleft, hcs => hleft ▸ hcs
  | r :: rs, left, cs, ⟨hr, hrs⟩, hcs => by
    rw [List.foldl_cons]
    exact ready_of_prepared hrs ((Rule.rewritten hr.slash cs).ready hr hcs)

/-- **A ready text is left without commands that are replaced with their arguments.** -/
theorem IsReady.drawable {latex : String} (h : IsReady latex) :
    ∀ o ∈ openings, ¬ '\\' :: o.start <:+: (drawable latex).toList := by
  rintro o ho ⟨before, behind, heq⟩
  have hready := ready_of_prepared prepared_rules h
  have hdrawable : (Preview.drawable latex).toList = rules.foldl (fun cs r => r.apply 0 cs) latex.toList := by
    rw [Preview.drawable, String.toList_ofList]
  rw [← hdrawable, ← heq, List.append_assoc] at hready
  obtain ⟨hmem, -⟩ := (hready.of_split o ho).2 behind (List.isPrefixOf?_eq_some_iff_append_eq.mpr rfl)
  cases hmem

end Formula.Preview
