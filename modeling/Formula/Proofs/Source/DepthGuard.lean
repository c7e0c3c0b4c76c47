import Formula.Convert
import Formula.Proofs.Source.Nesting

/-!
# The guard on the depth of sources

`Limits.checkSource` counts braces and fences along the characters of a source, with one counter and before anything is
scanned.  The reader of sources sees tokens, and knows what each of them ends.  The two agree where the characters show
what the tokens are, `showsGroups`, and where every closing token closes something, `closesGroups`: then no more groups
are open in the reader than the guard counts.

The way goes over a count along the tokens, `tokenDepth`.  It is no less than the account of the reader, since a token
that closes takes at least one group off the stack; and the count along the characters is no less, since a comment or an
argument that is kept as it is written only adds to it.
-/

namespace Formula

open Text Token Format

namespace Source

/-! ### The count along the tokens -/

/-- The token opens a group or a fence. -/
def opensGroup (token : Token) : Bool := token = .char '\x7b' ∨ token = .command "left"

/-- The token closes a group or a fence. -/
def shutsGroup (token : Token) : Bool := token = .char '\x7d' ∨ token = .command "right"

/-- The deepest nesting of groups and fences as the tokens alone tell. -/
def tokenDepth (depth deepest : Nat) : List Token → Nat
  | [] => deepest
  | token :: rest =>
    if opensGroup token then tokenDepth (depth + 1) (max deepest (depth + 1)) rest
    else if shutsGroup token then tokenDepth (depth - 1) deepest rest
    else tokenDepth depth deepest rest

/-- Inside of groups and fences every token that closes does close one of them. -/
def closesGroups : List Frame → List Token → Bool
  | _, [] => true
  | w, token :: rest =>
    (!shutsGroup token || openGroups w == 0 || openGroups (meet w token) < openGroups w) &&
      closesGroups (meet w token) rest

theorem openGroups_append (v w : List Frame) : openGroups (v ++ w) = openGroups v + openGroups w := List.countP_append

theorem eq_left_of_text {token : Token} (h : token.text = "\\left") (hbare : isBare token = true) :
    token = .command "left" := by
  cases token with
  | char d =>
    have hchars := congrArg String.toList h
    rw [Token.text, Char.toString_eq_singleton, String.toList_singleton] at hchars
    exact absurd hchars (by simp)
  | command name =>
    have hname : "\\" ++ name = "\\" ++ "left" := h
    rw [String.append_right_inj] at hname
    rw [hname]
  | verbatim name content => cases hbare
  | assign => exact absurd h (by decide)

theorem openGroups_awaited (token : Token) : openGroups (awaited token) ≤ if opensGroup token then 1 else 0 := by
  cases hbare : isBare token with
  | false =>
    cases token with
    | verbatim name content => exact Nat.zero_le _
    | _ => cases hbare
  | true =>
    have hawaited : awaited token = (
        if ignored.contains token.text then []
        else if spaces.contains token.text then []
        else if fractions.contains token.text then [.argument, .argument]
        else if token.text = "\\sqrt" then [.root]
        else if token.text = "\\left" then [.delimiter, .fence]
        else if sizes.contains token.text then [.delimiter]
        else if (fonts.lookup token.text).isSome then [.argument]
        else []) := by
      cases token with
      | verbatim name content => cases hbare
      | _ => rfl
    rw [hawaited]
    iterate 4
      split
      · exact Nat.zero_le _
    split
    next hleft =>
      rw [eq_left_of_text hleft hbare]
      decide
    · iterate 2
        split
        · exact Nat.zero_le _
      exact Nat.zero_le _

theorem openGroups_meetArgument (w : List Frame) (token : Token) :
    openGroups (meetArgument w token) ≤ openGroups w + if opensGroup token then 1 else 0 := by
  unfold meetArgument
  split
  next hopen =>
    subst hopen
    exact Nat.le_of_eq (openGroups_brace w)
  next =>
    have := openGroups_awaited token
    rw [openGroups_append]
    omega

theorem openGroups_meetInside (w : List Frame) (token : Token) :
    openGroups (meetInside w token) ≤ openGroups w + if opensGroup token then 1 else 0 := by
  unfold meetInside
  split
  · exact Nat.le_add_right _ _
  · split
    · exact Nat.le_add_right _ _
    · exact openGroups_meetArgument w token

/-- A token adds at most the group that it opens. -/
theorem openGroups_meet : ∀ (w : List Frame) (token : Token),
    openGroups (meet w token) ≤ openGroups w + if opensGroup token then 1 else 0
  | [], token => by
    rw [meet]
    split
    · exact Nat.zero_le _
    · exact openGroups_meetInside [] token
  | .argument :: w, token => openGroups_meetArgument w token
  | .delimiter :: w, token => Nat.le_add_right _ _
  | .root :: w, token => by
    rw [meet]
    split
    · exact Nat.le_add_right _ _
    · exact openGroups_meetArgument w token
  | .brace :: w, token => by
    have ih := openGroups_meet w token
    have hinside := openGroups_meetInside (.brace :: w) token
    rw [openGroups_brace] at hinside ⊢
    rw [meet]
    split
    · omega
    · split
      · omega
      · exact hinside
  | .bracket :: w, token => by
    have ih := openGroups_meet w token
    have hinside := openGroups_meetInside (.bracket :: w) token
    rw [openGroups_bracket] at hinside ⊢
    rw [meet]
    split
    · omega
    · split
      · exact ih
      · exact hinside
  | .fence :: w, token => by
    have hinside := openGroups_meetInside (.fence :: w) token
    rw [openGroups_fence] at hinside ⊢
    rw [meet]
    split
    · rw [openGroups_delimiter]
      omega
    · exact hinside

theorem le_tokenDepth : ∀ (tokens : List Token) (depth deepest : Nat), deepest ≤ tokenDepth depth deepest tokens
  | [], _, _ => Nat.le_refl _
  | token :: rest, depth, deepest => by
    rw [tokenDepth]
    split
    · exact Nat.le_trans (Nat.le_max_left _ _) (le_tokenDepth rest _ _)
    · split
      · exact le_tokenDepth rest _ _
      · exact le_tokenDepth rest _ _

/-- The count along the tokens covers the account. -/
theorem deepest_le_tokenDepth : ∀ {tokens : List Token} {w : List Frame} {depth deepest' : Nat},
    closesGroups w tokens = true → openGroups w ≤ depth → openGroups w ≤ deepest' →
    deepest w tokens ≤ tokenDepth depth deepest' tokens
  | [], _, _, _, _, _, h => h
  | token :: rest, w, depth, deepest', hcloses, hdepth, hdeepest => by
    simp only [closesGroups, Bool.and_eq_true, Bool.or_eq_true, Bool.not_eq_true', beq_iff_eq, decide_eq_true_eq]
      at hcloses
    obtain ⟨hclose, hrest⟩ := hcloses
    have hmeet := openGroups_meet w token
    have hle := fun depth deepest => le_tokenDepth rest depth deepest
    rw [deepest, tokenDepth]
    split
    next hopens =>
      rw [hopens, if_pos rfl] at hmeet
      have := hle (depth + 1) (max deepest' (depth + 1))
      have := @deepest_le_tokenDepth rest _ (depth + 1) (max deepest' (depth + 1)) hrest (by omega) (by omega)
      omega
    next hopens =>
    rw [if_neg hopens] at hmeet
    split
    next hshuts =>
      have := hle (depth - 1) deepest'
      have hclose : openGroups (meet w token) ≤ depth - 1 := by
        rcases hclose with (hshut | hnone) | hless
        · rw [hshuts] at hshut
          cases hshut
        · omega
        · omega
      have := @deepest_le_tokenDepth rest _ (depth - 1) deepest' hrest hclose (by omega)
      omega
    next =>
      have := hle depth deepest'
      have := @deepest_le_tokenDepth rest _ depth deepest' hrest (by omega) (by omega)
      omega

end Source

/-! ### The count along the characters -/

namespace Token

/-- The guard sees a `\right` in the characters. -/
def hasRight : List Char → Bool
  | [] => false
  | d :: rest => (d = '\\' && isCommandNamed "right" rest) || hasRight rest

/-- The guard sees a closing brace or a `\right` in the characters. -/
def hasCloser (escaped : Bool) : List Char → Bool
  | [] => false
  | d :: rest => (d = '\x7d' && !escaped) || (d = '\\' && isCommandNamed "right" rest) || hasCloser (d = '\\') rest

/-- What the guard sees at a command is what the command is. -/
def showsCommand (token : Token) (behind : List Char) : Bool :=
  match token with
  | .command name =>
    if name = "\\" then (behind.drop 1).head? ≠ some '\x7b' && !isCommandNamed "right" (behind.drop 1)
    else name = "right" || !isCommandNamed "right" behind
  | .verbatim _ content => !hasRight content.toList
  | _ => true

/-- The characters of a source show the guard what the tokens are, from the first that `skip` leaves.  No comment holds a
closing brace or a `\right`, and no argument that is kept as it is written holds a `\right`; a line end `\\` does not
stand in front of a brace or of `right`, where the guard takes its second backslash for the first of `\{` or `\right`;
and no letter that is not English stands right behind `\right`. -/
def showsGroups : Nat → List Char → Bool
  | _, [] => true
  | skip + 1, _ :: rest => showsGroups skip rest
  | 0, d :: rest =>
    if isBlank d then showsGroups 0 rest
    else if d = '%' then
      let comment := rest.takeWhile (· ≠ '\n')
      !hasCloser false comment && showsGroups comment.length rest
    else if d = '\\' then
      let read := readCommand rest
      showsCommand read.1 rest && showsGroups read.2 rest
    else if d = ':' ∧ rest.head? = some '=' then showsGroups 1 rest
    else showsGroups 0 rest

/-- The character means nothing to the guard. -/
def IsInert (d : Char) : Prop := d ≠ '\x7b' ∧ d ≠ '\x7d' ∧ d ≠ '\\'

theorem groupDepth_inert {d : Char} (hd : IsInert d) (escaped : Bool) (depth deepest : Nat) (rest : List Char) :
    groupDepth escaped depth deepest (d :: rest) = groupDepth false depth deepest rest := by
  obtain ⟨hopen, hclose, hslash⟩ := hd
  simp [groupDepth, hopen, hclose, hslash]

theorem groupDepth_inerts : ∀ {p : List Char}, (∀ d ∈ p, IsInert d) → ∀ (depth deepest : Nat) (rest : List Char),
    groupDepth false depth deepest (p ++ rest) = groupDepth false depth deepest rest
  | [], _, _, _, _ => rfl
  | d :: p, hp, depth, deepest, rest => by
    rw [List.cons_append, groupDepth_inert (hp d List.mem_cons_self)]
    exact groupDepth_inerts (fun d hd => hp d (List.mem_cons_of_mem _ hd)) depth deepest rest

theorem isInert_of_isLetter {d : Char} (h : isLetter d = true) : IsInert d := by
  refine ⟨?_, ?_, ?_⟩
  all_goals
    rintro rfl
    exact absurd h (by decide)

theorem isInert_of_isBlank {d : Char} (h : isBlank d = true) : IsInert d := by
  refine ⟨?_, ?_, ?_⟩
  all_goals
    rintro rfl
    exact absurd h (by decide)

theorem le_groupDepth : ∀ (cs : List Char) (escaped : Bool) (depth deepest : Nat),
    deepest ≤ groupDepth escaped depth deepest cs
  | [], _, _, _ => Nat.le_refl _
  | d :: rest, escaped, depth, deepest => by
    rw [groupDepth]
    split
    · exact Nat.le_trans (Nat.le_max_left _ _) (le_groupDepth rest _ _ _)
    · split
      · exact le_groupDepth rest _ _ _
      · exact le_groupDepth rest _ _ _

/-- Whether a command has a name hangs on no character behind one that ends it. -/
theorem isCommandNamed_append {d : Char} (hd : isCommandLetter d = false) {name : String} (hname : d ∉ name.toList)
    (p rest : List Char) : isCommandNamed name (p ++ d :: rest) = isCommandNamed name p := by
  have go : ∀ (n p : List Char), d ∉ n →
      (n.isPrefixOf (p ++ d :: rest) && !(((p ++ d :: rest).drop n.length).head?.any isCommandLetter)) =
        (n.isPrefixOf p && !((p.drop n.length).head?.any isCommandLetter)) := by
    intro n
    induction n with
    | nil =>
      intro p _
      cases p with
      | nil => simp [hd]
      | cons x p => simp
    | cons x n ih =>
      intro p hn
      simp only [List.mem_cons, not_or] at hn
      cases p with
      | nil => simp [Ne.symm hn.1]
      | cons y p =>
        have := ih p hn.2
        simp only [List.cons_append, List.isPrefixOf_cons_cons, List.length_cons, List.drop_succ_cons, Bool.and_assoc]
        rw [this]
  exact go name.toList p hname

/-- A comment, up to the end of its line, may add to the count. -/
theorem groupDepth_comment : ∀ {p rest : List Char} {escaped : Bool}, hasCloser escaped p = false →
    (∀ d ∈ rest.head?, d = '\n') → ∀ depth deepest, ∃ escaped' depth' deepest',
      groupDepth escaped depth deepest (p ++ rest) = groupDepth escaped' depth' deepest' rest ∧
        depth ≤ depth' ∧ deepest ≤ deepest'
  | [], _, escaped, _, _, depth, deepest => ⟨escaped, depth, deepest, rfl, Nat.le_refl _, Nat.le_refl _⟩
  | d :: p, rest, escaped, hp, hrest, depth, deepest => by
    simp only [hasCloser, Bool.or_eq_false_iff] at hp
    obtain ⟨⟨hbrace, hright⟩, hp⟩ := hp
    have hahead : isCommandNamed "right" (p ++ rest) = isCommandNamed "right" p := by
      cases rest with
      | nil => rw [List.append_nil]
      | cons x rest =>
        obtain rfl := hrest x rfl
        exact isCommandNamed_append (by decide) (by decide) p rest
    have hshut : ¬((d = '\x7d' ∧ !escaped) ∨ (d = '\\' ∧ isCommandNamed "right" (p ++ rest))) := by
      rw [hahead]
      simp_all
    rw [List.cons_append, groupDepth, if_neg hshut]
    split
    · obtain ⟨escaped', depth', deepest', heq, hdepth, hdeepest⟩ :=
        groupDepth_comment hp hrest (depth + 1) (max deepest (depth + 1))
      exact ⟨escaped', depth', deepest', heq, by omega, by omega⟩
    · exact groupDepth_comment hp hrest depth deepest

/-- A group that is kept as it is written may add to the count.  `k` of its braces are open, over `base`. -/
theorem groupDepth_group : ∀ {cs : List Char} {k : Int} {escaped : Bool} {m : Nat}, groupLength k escaped cs = some m →
    1 ≤ k → ∃ p rest, cs = p ++ '\x7d' :: rest ∧ m = p.length + 1 ∧ (hasRight p = false →
      ∀ (base : Int) (depth deepest : Nat), base + k ≤ depth → ∃ depth' deepest' : Nat,
        groupDepth escaped depth deepest cs = groupDepth false depth' deepest' rest ∧
          base ≤ depth' ∧ deepest ≤ deepest')
  | [], _, _, _, h, _ => by cases h
  | d :: cs, k, escaped, m, h, hk => by
    rw [groupLength] at h
    split at h
    next hopen =>
      obtain ⟨m, hm, rfl⟩ := Option.map_eq_some_iff.mp h
      obtain ⟨p, rest, rfl, rfl, hgroup⟩ := groupDepth_group hm (by omega)
      obtain ⟨rfl, hescaped⟩ := hopen
      refine ⟨'\x7b' :: p, rest, rfl, rfl, fun hright base depth deepest hbase => ?_⟩
      obtain ⟨depth', deepest', heq, hdepth, hdeepest⟩ :=
        hgroup (by simpa [hasRight] using hright) base (depth + 1) (max deepest (depth + 1)) (by omega)
      refine ⟨depth', deepest', ?_, hdepth, by omega⟩
      rw [groupDepth, if_pos (.inl ⟨rfl, hescaped⟩)]
      exact heq
    next hopen =>
    split at h
    next hclose =>
      obtain ⟨rfl, hescaped⟩ := hclose
      have hstep : ∀ depth deepest, groupDepth escaped depth deepest ('\x7d' :: cs) =
          groupDepth false (depth - 1) deepest cs := by
        intro depth deepest
        rw [groupDepth, if_neg (by simp), if_pos (.inl ⟨rfl, hescaped⟩)]
        rfl
      split at h
      next hlast =>
        cases h
        refine ⟨[], cs, rfl, rfl, fun _ base depth deepest hbase => ?_⟩
        exact ⟨depth - 1, deepest, hstep depth deepest, by omega, Nat.le_refl _⟩
      next hlast =>
        obtain ⟨m, hm, rfl⟩ := Option.map_eq_some_iff.mp h
        obtain ⟨p, rest, rfl, rfl, hgroup⟩ := groupDepth_group hm (by omega)
        refine ⟨'\x7d' :: p, rest, rfl, rfl, fun hright base depth deepest hbase => ?_⟩
        obtain ⟨depth', deepest', heq, hdepth, hdeepest⟩ :=
          hgroup (by simpa [hasRight] using hright) base (depth - 1) deepest (by omega)
        exact ⟨depth', deepest', (hstep depth deepest).trans heq, hdepth, hdeepest⟩
    next hclose =>
      obtain ⟨m, hm, rfl⟩ := Option.map_eq_some_iff.mp h
      obtain ⟨p, rest, rfl, rfl, hgroup⟩ := groupDepth_group hm hk
      refine ⟨d :: p, rest, rfl, rfl, fun hright base depth deepest hbase => ?_⟩
      simp only [hasRight, Bool.or_eq_false_iff] at hright
      have hahead : isCommandNamed "right" (p ++ '\x7d' :: rest) = isCommandNamed "right" p :=
        isCommandNamed_append (by decide) (by decide) p rest
      have hshut : ¬((d = '\x7d' ∧ !escaped) ∨ (d = '\\' ∧ isCommandNamed "right" (p ++ '\x7d' :: rest))) := by
        rw [hahead]
        simp_all
      rw [groupDepth, if_neg hshut]
      split
      · obtain ⟨depth', deepest', heq, hdepth, hdeepest⟩ :=
          hgroup hright.2 base (depth + 1) (max deepest (depth + 1)) (by omega)
        exact ⟨depth', deepest', heq, hdepth, by omega⟩
      · exact hgroup hright.2 base depth deepest hbase

/-! ### Commands -/

/-- A command with another first character has another name. -/
theorem isCommandNamed_of_head_ne {name : String} {d : Char} (hname : name.toList.head? ≠ some d) (hne : name ≠ "")
    (rest : List Char) : isCommandNamed name (d :: rest) = false := by
  unfold isCommandNamed
  cases hlist : name.toList with
  | nil => exact absurd (String.toList_inj.mp (hlist.trans rfl)) hne
  | cons x more =>
    have hne : x ≠ d := by
      rintro rfl
      exact hname (by rw [hlist]; rfl)
    rw [List.isPrefixOf_cons_cons, beq_eq_false_iff_ne.mpr hne]
    rfl

theorem isLetter_of_isCommandLetter {d : Char} (hd : isCommandLetter d = true) : isLetter d = true := by
  have halpha : d.isAlpha = true := by
    simp only [isCommandLetter, Bool.or_eq_true, Bool.and_eq_true, decide_eq_true_eq] at hd
    obtain ⟨hlow, hhigh⟩ | ⟨hlow, hhigh⟩ := hd
    · exact Bool.or_eq_true_iff.mpr (.inr (Bool.and_eq_true_iff.mpr ⟨decide_eq_true hlow, decide_eq_true hhigh⟩))
    · have hupper : decide (d.val ≥ 'A'.val ∧ d.val ≤ 'Z'.val) = true := decide_eq_true ⟨hlow, hhigh⟩
      exact Bool.or_eq_true_iff.mpr (.inl hupper)
  rw [isLetter, halpha]
  rfl

/-- A name in front of a character that is no letter is read as a whole. -/
theorem isCommandNamed_self (name : String) {rest : List Char} (hrest : ∀ x ∈ rest.head?, isLetter x = false) :
    isCommandNamed name (name.toList ++ rest) = true := by
  have hend : rest.head?.any isCommandLetter = false := by
    cases hhead : rest.head? with
    | none => rfl
    | some x =>
      refine Bool.eq_false_iff.mpr fun hx => ?_
      have := hrest x hhead
      rw [isLetter_of_isCommandLetter hx] at this
      cases this
  unfold isCommandNamed
  rw [List.isPrefixOf_iff_prefix.mpr (List.prefix_append _ _), ← String.length_toList, List.drop_left, hend]
  rfl

theorem showsGroups_length (cs rest : List Char) : showsGroups cs.length (cs ++ rest) = showsGroups 0 rest := by
  induction cs with
  | nil => rfl
  | cons d cs ih => exact ih

end Token

namespace Source

/-! ### The guard along the pieces of a source -/

/-- Along the characters the guard counts no less than their tokens tell, whatever both counted before. -/
def Covered (cs : List Char) : Prop :=
  ∀ (escaped : Bool) (depth deepest depth' deepest' : Nat), (escaped = true → cs.head? ≠ some '\x7b') →
    depth ≤ depth' → deepest ≤ deepest' →
    tokenDepth depth deepest (scanFrom 0 cs) ≤ groupDepth escaped depth' deepest' cs

theorem Covered.unescaped {cs : List Char} (h : Covered cs) {depth deepest depth' deepest' : Nat} (hdepth : depth ≤ depth')
    (hdeepest : deepest ≤ deepest') :
    tokenDepth depth deepest (scanFrom 0 cs) ≤ groupDepth false depth' deepest' cs :=
  h false depth deepest depth' deepest' (fun he => absurd he Bool.false_ne_true) hdepth hdeepest

theorem tokenDepth_neutral {token : Token} (hopens : opensGroup token = false) (hshuts : shutsGroup token = false)
    (depth deepest : Nat) (rest : List Token) :
    tokenDepth depth deepest (token :: rest) = tokenDepth depth deepest rest := by
  rw [tokenDepth, hopens, hshuts, if_neg Bool.false_ne_true, if_neg Bool.false_ne_true]

theorem covered_nil : Covered [] := fun _ _ _ _ _ _ _ hdeepest => hdeepest

theorem covered_blank {d : Char} {rest : List Char} (hd : isBlank d = true) (h : Covered rest) : Covered (d :: rest) := by
  intro escaped depth deepest depth' deepest' _ hdepth hdeepest
  rw [scanFrom, if_pos hd, groupDepth_inert (isInert_of_isBlank hd)]
  exact h.unescaped hdepth hdeepest

theorem covered_comment {comment rest : List Char} (hcloser : hasCloser false comment = false)
    (hrest : ∀ x ∈ rest.head?, x = '\n') (hlen : ((comment ++ rest).takeWhile (· ≠ '\n')).length = comment.length)
    (h : Covered rest) : Covered ('%' :: (comment ++ rest)) := by
  intro escaped depth deepest depth' deepest' _ hdepth hdeepest
  rw [scanFrom, if_neg (by decide), if_pos rfl, hlen, scanFrom_length, groupDepth_inert ⟨by decide, by decide, by decide⟩]
  obtain ⟨escaped₁, depth₁, deepest₁, heq, hdepth₁, hdeepest₁⟩ := groupDepth_comment hcloser hrest depth' deepest'
  rw [heq]
  refine h _ _ _ _ _ (fun _ hbrace => ?_) (by omega) (by omega)
  exact absurd (hrest _ hbrace) (by decide)

theorem covered_assign {rest : List Char} (h : Covered rest) : Covered (':' :: '=' :: rest) := by
  intro escaped depth deepest depth' deepest' _ hdepth hdeepest
  rw [scanFrom, if_neg (by decide), if_neg (by decide), if_neg (by decide), if_pos ⟨rfl, rfl⟩,
    tokenDepth_neutral (by decide) (by decide), groupDepth_inert ⟨by decide, by decide, by decide⟩,
    groupDepth_inert ⟨by decide, by decide, by decide⟩]
  exact h.unescaped hdepth hdeepest

theorem covered_char {d : Char} {rest : List Char} (hblank : isBlank d = false) (hcomment : d ≠ '%') (hslash : d ≠ '\\')
    (hassign : ¬(d = ':' ∧ rest.head? = some '=')) (h : Covered rest) : Covered (d :: rest) := by
  intro escaped depth deepest depth' deepest' hescaped hdepth hdeepest
  rw [scanFrom, hblank, if_neg Bool.false_ne_true, if_neg hcomment, if_neg hslash, if_neg hassign]
  by_cases hopen : d = '\x7b'
  · subst hopen
    have hescaped : escaped = false := Bool.eq_false_iff.mpr fun he => hescaped he rfl
    rw [tokenDepth, if_pos (by decide), groupDepth, if_pos (.inl ⟨rfl, by rw [hescaped]; rfl⟩)]
    exact h.unescaped (by omega) (by omega)
  by_cases hclose : d = '\x7d'
  · subst hclose
    rw [tokenDepth, if_neg (by decide), if_pos (by decide), groupDepth, if_neg (by simp)]
    split
    · exact h.unescaped (by omega) hdeepest
    · exact h.unescaped (by omega) hdeepest
  · rw [tokenDepth_neutral (by simpa [opensGroup] using hopen) (by simpa [shutsGroup] using hclose),
      groupDepth_inert ⟨hopen, hclose, hslash⟩]
    exact h.unescaped hdepth hdeepest

/-! ### The guard along commands -/

theorem covered_slash_end : Covered ['\\'] := by
  intro escaped depth deepest depth' deepest' _ _ hdeepest
  exact Nat.le_trans hdeepest (le_groupDepth _ _ _ _)

/-- The guard passes over a backslash that starts neither of the two commands that it knows. -/
theorem groupDepth_slash {rest : List Char} (hleft : isCommandNamed "left" rest = false)
    (hright : isCommandNamed "right" rest = false) (escaped : Bool) (depth deepest : Nat) :
    groupDepth escaped depth deepest ('\\' :: rest) = groupDepth true depth deepest rest := by
  simp [groupDepth, hleft, hright]

theorem tokenDepth_command {name : String} (hleft : name ≠ "left") (hright : name ≠ "right") (depth deepest : Nat)
    (rest : List Token) : tokenDepth depth deepest (.command name :: rest) = tokenDepth depth deepest rest :=
  tokenDepth_neutral (by simp [opensGroup, hleft]) (by simp [shutsGroup, hright]) depth deepest rest

/-- A backslash before a character that is no letter. -/
theorem covered_sign {d : Char} {rest : List Char} (hd : isLetter d = false)
    (hread : readCommand (d :: rest) = (.command (String.ofList [d]), 1))
    (hshows : showsCommand (.command (String.ofList [d])) (d :: rest) = true) (h : Covered rest) :
    Covered ('\\' :: d :: rest) := by
  intro escaped depth deepest depth' deepest' _ hdepth hdeepest
  have hname : ∀ {name : String}, name.toList.length ≠ 1 → String.ofList [d] ≠ name := by
    rintro _ hlen rfl
    exact hlen (by rw [String.toList_ofList]; rfl)
  have hhead : ∀ {name : String} {x : Char}, name.toList.head? = some x → isLetter x = true →
      name.toList.head? ≠ some d := by
    intro name x hx hletter hd'
    obtain rfl := Option.some.inj (hx.symm.trans hd')
    rw [hd] at hletter
    cases hletter
  rw [scanFrom_slash, hread, tokenDepth_command (hname (by decide)) (hname (by decide)),
    groupDepth_slash (isCommandNamed_of_head_ne (hhead rfl (by decide)) (by decide) rest)
      (isCommandNamed_of_head_ne (hhead rfl (by decide)) (by decide) rest)]
  show tokenDepth depth deepest (scanFrom 0 rest) ≤ _
  by_cases hslash : d = '\\'
  · subst hslash
    rw [showsCommand, if_pos rfl, Bool.and_eq_true, decide_eq_true_eq, Bool.not_eq_true'] at hshows
    obtain ⟨hbrace, hright⟩ := hshows
    simp only [List.drop_succ_cons, List.drop_zero] at hbrace hright
    rw [groupDepth]
    split
    · exact h _ _ _ _ _ (fun _ => hbrace) (by omega) (by omega)
    · rw [hright, if_neg (by simp)]
      exact h _ _ _ _ _ (fun _ => hbrace) hdepth hdeepest
  · have hskip : groupDepth true depth' deepest' (d :: rest) = groupDepth false depth' deepest' rest := by
      simp [groupDepth, hslash]
    rw [hskip]
    exact h.unescaped hdepth hdeepest

/-- A command of letters. -/
theorem covered_word {d : Char} {name rest : List Char} (hletters : ∀ x ∈ d :: name, isLetter x = true)
    (hrest : ∀ x ∈ rest.head?, isLetter x = false)
    (hread : readCommand (d :: name ++ rest) = (.command (String.ofList (d :: name)), (d :: name).length))
    (hshows : showsCommand (.command (String.ofList (d :: name))) (d :: name ++ rest) = true) (h : Covered rest) :
    Covered ('\\' :: (d :: name ++ rest)) := by
  intro escaped depth deepest depth' deepest' _ hdepth hdeepest
  have hletter : ∀ (escaped : Bool) (depth deepest : Nat),
      groupDepth escaped depth deepest (d :: name ++ rest) = groupDepth false depth deepest rest := by
    intro escaped depth deepest
    rw [List.cons_append, groupDepth_inert (isInert_of_isLetter (hletters d List.mem_cons_self))]
    exact groupDepth_inerts (fun x hx => isInert_of_isLetter (hletters x (List.mem_cons_of_mem _ hx))) _ _ _
  rw [scanFrom_slash, hread, scanFrom_length]
  generalize hs : String.ofList (d :: name) = s at hshows ⊢
  have hself : isCommandNamed s (d :: name ++ rest) = true := by
    have := isCommandNamed_self s hrest
    rwa [← hs, String.toList_ofList, hs] at this
  dsimp only
  by_cases hleft : s = "left"
  · subst hleft
    rw [tokenDepth, if_pos (by decide), groupDepth, if_pos (.inr ⟨rfl, hself⟩), hletter]
    exact h.unescaped (by omega) (by omega)
  by_cases hright : s = "right"
  · subst hright
    rw [tokenDepth, if_neg (by decide), if_pos (by decide), groupDepth]
    split
    · rw [hletter]
      exact h.unescaped (by omega) (by omega)
    · rw [if_pos (.inr ⟨rfl, hself⟩), hletter]
      exact h.unescaped (by omega) hdeepest
  · have hslash : s ≠ "\\" := by
      intro h
      have hd := congrArg String.toList (hs.trans h)
      rw [String.toList_ofList] at hd
      obtain rfl := (List.cons.inj hd).1
      exact absurd (hletters _ List.mem_cons_self) (by decide)
    have hshut : isCommandNamed "right" (d :: name ++ rest) = false := by
      simpa [showsCommand, hslash, hright] using hshows
    rw [tokenDepth_command hleft hright, groupDepth]
    split
    · rw [hletter]
      exact h.unescaped (by omega) (by omega)
    · rw [hshut, if_neg (by simp), hletter]
      exact h.unescaped hdepth hdeepest

/-- The group between a brace and the one that closes it, and the guard along it. -/
theorem group_cases (more : List Char) : group false ('\x7b' :: more) = (more, more.length + 1) ∨
    ∃ p rest, more = p ++ '\x7d' :: rest ∧ group false ('\x7b' :: more) = (p, p.length + 2) ∧
      (hasRight p = false → ∀ depth deepest, ∃ depth' deepest', depth ≤ depth' ∧ deepest ≤ deepest' ∧
        groupDepth false depth deepest ('\x7b' :: more) = groupDepth false depth' deepest' rest) := by
  have hlength : groupLength 0 false ('\x7b' :: more) = (groupLength 1 false more).map (· + 1) := by
    rw [groupLength, if_pos ⟨rfl, rfl⟩]
    rfl
  unfold group
  rw [hlength]
  cases hm : groupLength 1 false more with
  | none => exact .inl rfl
  | some m =>
    obtain ⟨p, rest, rfl, rfl, hgroup⟩ := groupDepth_group hm (Int.le_refl 1)
    refine .inr ⟨p, rest, rfl, ?_, fun hright depth deepest => ?_⟩
    · simp [Option.map]
    · obtain ⟨depth', deepest', heq, hdepth, hdeepest⟩ :=
        hgroup hright (depth : Int) (depth + 1) (max deepest (depth + 1)) (by omega)
      refine ⟨depth', deepest', by omega, by omega, ?_⟩
      rw [groupDepth, if_pos (.inl ⟨rfl, rfl⟩)]
      exact heq

/-- The names of commands with an argument that is kept as it is written are letters, and begin neither `left` nor
`right`. -/
theorem letters_of_verbatim {name : List Char} (h : String.ofList name ∈ verbatimCommands) :
    (∀ x ∈ name, isLetter x = true) ∧ ∃ d tail, name = d :: tail ∧ d ≠ 'l' ∧ d ≠ 'r' := by
  have hlist : name ∈ verbatimCommands.map String.toList := by
    have := List.mem_map_of_mem (f := String.toList) h
    rwa [String.toList_ofList] at this
  have hall : (verbatimCommands.map String.toList).all (fun name => name.all isLetter &&
      (name.head?.any fun d => d != 'l' && d != 'r')) = true := by decide
  have hname := List.all_eq_true.1 hall name hlist
  cases name with
  | nil => simp at hname
  | cons d tail =>
    simp only [List.head?_cons, Option.any_some, Bool.and_eq_true, bne_iff_ne, List.all_eq_true]
      at hname
    exact ⟨hname.1, d, tail, rfl, hname.2⟩

/-- A command with an argument that is kept as it is written. -/
theorem covered_verbatim {name blanks more : List Char} (hname : String.ofList name ∈ verbatimCommands)
    (hblanks : ∀ x ∈ blanks, isBlank x = true)
    (hread : readCommand (name ++ (blanks ++ '\x7b' :: more)) =
      (.verbatim (String.ofList name) (String.ofList (group false ('\x7b' :: more)).1),
        name.length + blanks.length + (group false ('\x7b' :: more)).2))
    (hright : hasRight (group false ('\x7b' :: more)).1 = false)
    (h : ∀ piece rest, name ++ (blanks ++ '\x7b' :: more) = piece ++ rest →
      (readCommand (name ++ (blanks ++ '\x7b' :: more))).2 = piece.length → Covered rest) :
    Covered ('\\' :: (name ++ (blanks ++ '\x7b' :: more))) := by
  intro escaped depth deepest depth' deepest' _ hdepth hdeepest
  obtain ⟨hletters, d, tail, rfl, hl, hr⟩ := letters_of_verbatim hname
  have hleft : "left".toList.head? ≠ some d := fun h => hl (Option.some.inj (show some 'l' = some d from h)).symm
  have hright' : "right".toList.head? ≠ some d := fun h => hr (Option.some.inj (show some 'r' = some d from h)).symm
  have hguard : groupDepth escaped depth' deepest' ('\\' :: (d :: tail ++ (blanks ++ '\x7b' :: more))) =
      groupDepth false depth' deepest' ('\x7b' :: more) := by
    rw [List.cons_append, groupDepth_slash (isCommandNamed_of_head_ne hleft (by decide) _)
        (isCommandNamed_of_head_ne hright' (by decide) _),
      groupDepth_inert (isInert_of_isLetter (hletters d List.mem_cons_self)),
      groupDepth_inerts (fun x hx => isInert_of_isLetter (hletters x (List.mem_cons_of_mem _ hx))),
      groupDepth_inerts (fun x hx => isInert_of_isBlank (hblanks x hx))]
  rw [hguard, scanFrom_slash, hread, tokenDepth_neutral (by simp [opensGroup]) (by simp [shutsGroup])]
  rw [hread] at h
  rcases group_cases more with hgroup | ⟨p, rest, rfl, hgroup, hcount⟩
  · rw [hgroup]
    have hlen : (d :: tail).length + blanks.length + (more.length + 1) =
        (d :: tail ++ (blanks ++ '\x7b' :: more)).length := by simp; omega
    have hscan := scanFrom_length (d :: tail ++ (blanks ++ '\x7b' :: more)) []
    rw [List.append_nil] at hscan
    rw [hlen, hscan]
    exact Nat.le_trans hdeepest (le_groupDepth _ _ _ _)
  · rw [hgroup] at h hright ⊢
    obtain ⟨depth₁, deepest₁, hdepth₁, hdeepest₁, heq⟩ := hcount hright depth' deepest'
    have hpiece : d :: tail ++ (blanks ++ '\x7b' :: (p ++ '\x7d' :: rest)) =
        (d :: tail ++ (blanks ++ '\x7b' :: (p ++ ['\x7d']))) ++ rest := by simp
    have hlen : (d :: tail).length + blanks.length + (p.length + 2) =
        (d :: tail ++ (blanks ++ '\x7b' :: (p ++ ['\x7d']))).length := by simp; omega
    rw [heq]
    show tokenDepth depth deepest (scanFrom ((d :: tail).length + blanks.length + (p.length + 2)) _) ≤ _
    rw [hpiece, hlen, scanFrom_length]
    exact (h _ rest hpiece hlen).unescaped (by omega) (by omega)

/-! ### Whole sources -/

/-- Where the characters show what the tokens are, the guard covers the tokens: by induction on the length of the source,
one piece after another. -/
theorem covered_of_showsGroups : ∀ (n : Nat) (cs : List Char), cs.length ≤ n → showsGroups 0 cs = true → Covered cs
  | _, [], _, _ => covered_nil
  | n + 1, d :: rest, hn, hshows => by
    have hn : rest.length ≤ n := Nat.le_of_succ_le_succ hn
    have ih : ∀ {piece more : List Char}, rest = piece ++ more → showsGroups piece.length rest = true → Covered more := by
      intro piece more hpiece hshows
      rw [hpiece, showsGroups_length] at hshows
      rw [hpiece, List.length_append] at hn
      exact covered_of_showsGroups n more (by omega) hshows
    rw [showsGroups] at hshows
    split at hshows
    next hblank => exact covered_blank hblank (@ih [] rest rfl hshows)
    next hblank =>
    split at hshows
    next hcomment =>
      subst hcomment
      rw [Bool.and_eq_true, Bool.not_eq_true'] at hshows
      have hsplit : rest.takeWhile (· ≠ '\n') ++ rest.dropWhile (· ≠ '\n') = rest := List.takeWhile_append_dropWhile
      have hend : ∀ x ∈ (rest.dropWhile (· ≠ '\n')).head?, x = '\n' := by
        intro x hx
        have hhead := List.head?_dropWhile_not (· ≠ '\n') rest
        rw [Option.mem_def.mp hx] at hhead
        simpa using hhead
      have hcovered := covered_comment hshows.1 hend (by rw [hsplit]) (ih hsplit.symm hshows.2)
      rwa [hsplit] at hcovered
    next hcomment =>
    split at hshows
    next hslash =>
      subst hslash
      rw [Bool.and_eq_true] at hshows
      obtain ⟨hcommand, hshows⟩ := hshows
      rcases readCommand_cases rest with hread | ⟨blanks, more, hrest, hblanks, hname, hread⟩
      · rw [hread] at hcommand hshows
        rcases commandName_cases rest with ⟨rfl, -⟩ | ⟨d, more, rfl, hd, hname⟩ | ⟨d, name, more, rfl, hletters, hend, hname⟩
        · exact covered_slash_end
        · rw [hname] at hread hcommand hshows
          exact covered_sign hd hread hcommand (@ih [d] more rfl hshows)
        · rw [hname] at hread hcommand hshows
          exact covered_word hletters hend hread hcommand (ih rfl hshows)
      · have hright : hasRight (group false ('\x7b' :: more)).1 = false := by
          rw [hread] at hcommand
          simpa [showsCommand] using hcommand
        generalize commandName rest = name at hrest hname hread
        subst hrest
        refine covered_verbatim hname hblanks hread hright fun piece behind hpiece hlen => ih hpiece ?_
        rw [← hlen]
        exact hshows
    next hslash =>
    split at hshows
    next hassign =>
      obtain ⟨rfl, hequal⟩ := hassign
      obtain ⟨more, rfl⟩ : ∃ more, rest = '=' :: more := by
        cases rest with
        | nil => cases hequal
        | cons x more =>
          obtain rfl := Option.some.inj hequal
          exact ⟨more, rfl⟩
      exact covered_assign (@ih ['='] more rfl hshows)
    next hassign =>
      exact covered_char (Bool.eq_false_iff.mpr hblank) hcomment hslash hassign (@ih [] rest rfl hshows)

end Source

/-- What is not below a number is not below a smaller one. -/
theorem Datum.isBelow_mono {d : Datum} {m n : Nat} (h : d.isBelow n = .ok false) (hmn : m ≤ n) : d.isBelow m = .ok false := by
  cases d with
  | bool b =>
    simp only [Datum.isBelow, Except.ok.injEq, decide_eq_false_iff_not, Int.not_lt] at h ⊢
    omega
  | int k =>
    simp only [Datum.isBelow, Except.ok.injEq, decide_eq_false_iff_not, Int.not_lt] at h ⊢
    omega
  | float x =>
    have hcast : (m : Rat) ≤ (n : Rat) := by exact_mod_cast hmn
    cases x with
    | nan => rfl
    | infinite negative => exact h
    | _ =>
      simp only [Datum.isBelow, Except.ok.injEq, decide_eq_false_iff_not, Rat.not_lt] at h ⊢
      exact Rat.le_trans hcast h
  | _ => cases h

/-- An accepted source nests no deeper than the limit, as far as the guard sees. -/
theorem Limits.of_checkSource {l : Limits} {source : String} (h : l.checkSource source = .ok ()) :
    l.maxDepth.isBelow (groupDepth false 0 0 source.toList) = .ok false := by
  unfold Limits.checkSource at h
  dsimp only at h
  split at h
  · cases h
  · obtain ⟨long, -, h⟩ := Outcome.bind_eq_ok.mp h
    cases long with
    | true => cases h
    | false =>
      obtain ⟨deep, hdeep, h⟩ := Outcome.bind_eq_ok.mp h
      cases deep with
      | true => cases h
      | false => exact hdeep

namespace Source

/-- **The guard covers the reader.**  For all limits, every catalog and every source that the guard accepts: if the
characters show what the tokens are, and if inside of groups and fences every token that closes does close one of them,
then no more groups and fences are ever open in the reader than the guard counts, hence than the limit on the depth. -/
theorem depth_within_limit {l : Limits} {source : String} (hcheck : l.checkSource source = .ok ())
    (hshows : showsGroups 0 source.toList = true) (hcloses : closesGroups [] (scan source) = true) (c : Catalog)
    {read : Reading (List Atom)} (hread : Source.read c source = .ok read) :
    read.depth ≤ groupDepth false 0 0 source.toList ∧ l.maxDepth.isBelow read.depth = .ok false := by
  have hcovered := covered_of_showsGroups _ source.toList (Nat.le_refl _) hshows
  have hdepth : read.depth ≤ groupDepth false 0 0 source.toList :=
    calc read.depth ≤ deepest [] (scan source) := depth_le_deepest hread
      _ ≤ tokenDepth 0 0 (scan source) := deepest_le_tokenDepth hcloses (Nat.le_refl _) (Nat.le_refl _)
      _ ≤ groupDepth false 0 0 source.toList := hcovered.unescaped (Nat.le_refl _) (Nat.le_refl _)
  exact ⟨hdepth, Datum.isBelow_mono (Limits.of_checkSource hcheck) hdepth⟩

/-- A fraction with a fence in it, two groups deep, under a limit of two. -/
theorem depth_within_limit_fraction :
    ({ maxDepth := .int 2 } : Limits).checkSource "\\frac\x7b\\left(x\\right)\x7d2" = .ok () ∧
      showsGroups 0 "\\frac\x7b\\left(x\\right)\x7d2".toList = true ∧
      closesGroups [] (scan "\\frac\x7b\\left(x\\right)\x7d2") = true ∧
      ∃ read, Source.read .builtin "\\frac\x7b\\left(x\\right)\x7d2" = .ok read ∧
        read.depth ≤ groupDepth false 0 0 "\\frac\x7b\\left(x\\right)\x7d2".toList ∧
        ({ maxDepth := .int 2 } : Limits).maxDepth.isBelow read.depth = .ok false := by
  have hcheck : ({ maxDepth := .int 2 } : Limits).checkSource "\\frac\x7b\\left(x\\right)\x7d2" = .ok () :=
    Outcome.eq_ok_of_toOption (by decide +kernel)
  have hshows : showsGroups 0 "\\frac\x7b\\left(x\\right)\x7d2".toList = true := by decide +kernel
  have hcloses : closesGroups [] (scan "\\frac\x7b\\left(x\\right)\x7d2") = true := by decide +kernel
  obtain ⟨read, hread, -⟩ := exists_read Catalog.worded_builtin.named "\\frac\x7b\\left(x\\right)\x7d2"
  exact ⟨hcheck, hshows, hcloses, read, hread, depth_within_limit hcheck hshows hcloses .builtin hread⟩

/-- The guard takes the braces behind two line ends for escaped ones: it counts none of the two groups that are open in
the reader. -/
theorem depth_beyond_limit_lineEnds :
    ({ maxDepth := .int 1 } : Limits).checkSource "\\\\\x7b\\\\\x7bx" = .ok () ∧
      ∃ read, Source.read .builtin "\\\\\x7b\\\\\x7bx" = .ok read ∧ read.depth = 2 := by
  refine ⟨Outcome.eq_ok_of_toOption (by decide +kernel), ?_⟩
  have hdepth : (Source.read .builtin "\\\\\x7b\\\\\x7bx").toOption.map (·.depth) = some 2 := by decide +kernel
  obtain ⟨read, hread, hdepth⟩ := Option.map_eq_some_iff.mp hdepth
  exact ⟨read, Outcome.eq_ok_of_toOption hread, hdepth⟩

end Source

end Formula
