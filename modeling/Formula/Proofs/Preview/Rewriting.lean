import Mathlib.Data.List.TakeWhile
import Formula.Preview.Drawable

/-!
# Commands in rewritten texts

A rule of replacement leaves what is no occurrence as it stands, and puts another text in the place of each occurrence
(`Rewritten`).  All occurrences begin with a backslash, so that a text is known by what stands behind its backslashes
(`BehindSlashes`).

A rule for whole commands puts nothing in their place that starts with a letter, and no letter stands behind them.  So the
names of the commands that stay are the same as before, and a command that one rule has taken out is not there again when
the last rule is done, whatever the text was.
-/

namespace Formula.Preview

/-! ### Behind backslashes -/

/-- What stands behind each backslash of the characters has the property. -/
def BehindSlashes (Q : List Char → Prop) : List Char → Prop
  | [] => True
  | c :: rest => (c = '\\' → Q rest) ∧ BehindSlashes Q rest

instance decidableBehindSlashes (Q : List Char → Prop) [DecidablePred Q] : DecidablePred (BehindSlashes Q)
  | [] => isTrue trivial
  | c :: rest =>
    have := decidableBehindSlashes Q rest
    inferInstanceAs (Decidable ((c = '\\' → Q rest) ∧ BehindSlashes Q rest))

section

variable {Q Q' : List Char → Prop} {s t : List Char}

theorem BehindSlashes.of_forall (hQ : ∀ rest, Q rest) : ∀ cs : List Char, BehindSlashes Q cs
  | [] => trivial
  | _ :: rest => ⟨fun _ => hQ _, .of_forall hQ rest⟩

/-- Characters in front of others, if their property holds with the others behind. -/
theorem BehindSlashes.append (hQ : ∀ rest, Q rest → Q' (rest ++ t)) (ht : BehindSlashes Q' t) :
    ∀ {s : List Char}, BehindSlashes Q s → BehindSlashes Q' (s ++ t)
  | [], _ => ht
  | _ :: _, ⟨hc, hrest⟩ => ⟨fun h => hQ _ (hc h), append hQ ht hrest⟩

/-- Other characters behind the same front. -/
theorem BehindSlashes.exchange (ht : BehindSlashes Q' t) : ∀ {front : List Char},
    (∀ rest, rest <:+ front → Q (rest ++ s) → Q' (rest ++ t)) → BehindSlashes Q (front ++ s) → BehindSlashes Q' (front ++ t)
  | [], _, _ => ht
  | _ :: front, hQ, ⟨hc, hrest⟩ => ⟨fun h => hQ front (List.suffix_cons _ _) (hc h),
      exchange ht (fun rest h => hQ rest (h.trans (List.suffix_cons _ _))) hrest⟩

theorem BehindSlashes.of_append : ∀ {s : List Char}, BehindSlashes Q (s ++ t) → BehindSlashes Q t
  | [], h => h
  | _ :: _, h => of_append h.2

theorem BehindSlashes.of_split (h : BehindSlashes Q (s ++ '\\' :: t)) : Q t := h.of_append.1 rfl

end

/-! ### What a rule does -/

namespace Rule

/-- The texts with which the occurrences of a rule begin. -/
def beginnings : Rule → List String
  | parts ps _ | commands ps _ => ps
  | dropped opening _ | renamed opening _ _ => [opening]

/-- All occurrences of the rule begin with a backslash. -/
def StartsWithSlash (r : Rule) : Prop := ∀ o ∈ r.beginnings, o.toList.head? = some '\\'

instance (r : Rule) : Decidable r.StartsWithSlash := inferInstanceAs (Decidable (∀ o ∈ r.beginnings, _))

theorem startsWithSlash_rules : ∀ r ∈ rules, r.StartsWithSlash := by decide

/-- An occurrence of a rule: the characters that are replaced, those in their place, and those that stand behind. -/
inductive Occurs : Rule → List Char → List Char → List Char → Prop
  | part {ps : List String} {p replacement : String} {more : List Char} : p ∈ ps →
    Occurs (parts ps replacement) p.toList replacement.toList more
  | command {ps : List String} {p replacement : String} {more : List Char} : p ∈ ps →
    more.head?.any Char.isAlpha = false → Occurs (commands ps replacement) p.toList replacement.toList more
  | dropped {opening : String} {closing : Char} {argument more : List Char} : closing ∉ argument →
    Occurs (dropped opening closing) (opening.toList ++ argument ++ [closing]) [] more
  | renamed {opening before after : String} {argument more : List Char} :
    (∀ c ∈ argument, c ≠ '\x7b' ∧ c ≠ '\x7d') →
    Occurs (renamed opening before after) (opening.toList ++ argument ++ ['\x7d'])
      (before.toList ++ argument ++ after.toList) more

/-- What a rule makes of characters: each stays, or belongs to an occurrence that is replaced. -/
inductive Rewritten (r : Rule) : List Char → List Char → Prop
  | nil : Rewritten r [] []
  | keep {c : Char} {rest out : List Char} : r.occurrence (c :: rest) = none → Rewritten r rest out →
    Rewritten r (c :: rest) (c :: out)
  | replace {written replacement more out : List Char} : r.Occurs written replacement more → Rewritten r more out →
    Rewritten r (written ++ more) (replacement ++ out)

variable {r : Rule} {c : Char} {cs out rest written replacement more : List Char}

theorem mem_of_partAt {ps : List String} {p : String} (h : partAt ps cs = some p) : p ∈ ps ∧ p.toList <+: cs :=
  ⟨List.mem_of_find?_eq_some h,
    List.isPrefixOf_iff_prefix.mp (List.find?_some (p := fun part : String => part.toList.isPrefixOf cs) h)⟩

/-- Behind the characters that are taken while they have a property stands a first one that has it not. -/
theorem exists_of_takeWhile {p : Char → Bool} (h : (cs.takeWhile p).length < cs.length) :
    ∃ last more, cs.drop (cs.takeWhile p).length = last :: more ∧ p last = false := by
  induction cs with
  | nil => cases h
  | cons c cs ih =>
    rw [List.takeWhile_cons] at h ⊢
    by_cases hc : p c = true
    · rw [if_pos hc] at h ⊢
      exact ih (Nat.lt_of_succ_lt_succ h)
    · rw [if_neg hc]
      exact ⟨c, cs, rfl, eq_false_of_ne_true hc⟩

theorem eq_takeWhile_append {p : Char → Bool} (h : cs.drop (cs.takeWhile p).length = more) : cs = cs.takeWhile p ++ more := by
  have hsplit := List.take_append_drop (cs.takeWhile p).length cs
  rw [h, ← List.prefix_iff_eq_take.mp (List.takeWhile_prefix p)] at hsplit
  exact hsplit.symm

/-- What a rule does at the front of the characters. -/
theorem occurs_of_occurrence {n : Nat} (h : r.occurrence cs = some (n, replacement)) :
    ∃ written more, cs = written ++ more ∧ n = written.length ∧ r.Occurs written replacement more := by
  cases r with
  | parts ps text =>
    obtain ⟨p, hp, heq⟩ := Option.map_eq_some_iff.mp h
    cases heq
    obtain ⟨hmem, more, rfl⟩ := mem_of_partAt hp
    exact ⟨p.toList, more, rfl, rfl, .part hmem⟩
  | commands ps text =>
    unfold occurrence at h
    dsimp only at h
    split at h
    next p hp =>
      obtain ⟨hmem, more, rfl⟩ := mem_of_partAt hp
      split at h
      · cases h
      next hletter =>
        cases h
        have hdrop : (p.toList ++ more).drop p.length = more := List.drop_left
        rw [hdrop] at hletter
        exact ⟨p.toList, more, rfl, rfl, .command hmem (eq_false_of_ne_true hletter)⟩
    · cases h
  | dropped opening closing =>
    unfold occurrence at h
    dsimp only at h
    split at h
    next hopening =>
      obtain ⟨rest, rfl⟩ := List.isPrefixOf_iff_prefix.mp hopening
      have hdrop : (opening.toList ++ rest).drop opening.length = rest := List.drop_left
      rw [hdrop] at h
      split at h
      next hlength =>
        cases h
        rw [List.length_append] at hlength
        obtain ⟨last, more, hbehind, hlast⟩ := exists_of_takeWhile (Nat.lt_of_add_lt_add_left hlength)
        obtain rfl : last = closing := by simpa using hlast
        refine ⟨opening.toList ++ rest.takeWhile (· ≠ last) ++ [last], more, ?_, ?_, .dropped ?_⟩
        · rw [List.append_assoc, List.append_assoc]
          exact congrArg (opening.toList ++ ·) (eq_takeWhile_append hbehind)
        · simp only [List.length_append, List.length_cons, List.length_nil, String.length_toList]
        · exact fun hmem => by simpa using List.mem_takeWhile_imp hmem
      · cases h
    · cases h
  | renamed opening before after =>
    unfold occurrence at h
    dsimp only at h
    split at h
    next hopening =>
      obtain ⟨rest, rfl⟩ := List.isPrefixOf_iff_prefix.mp hopening
      have hdrop : (opening.toList ++ rest).drop opening.length = rest := List.drop_left
      rw [hdrop] at h
      split at h
      next hbehind =>
        cases h
        rw [← List.drop_drop, hdrop] at hbehind
        obtain ⟨more, hmore⟩ := List.head?_eq_some_iff.mp hbehind
        refine ⟨opening.toList ++ rest.takeWhile (fun c => c ≠ '\x7b' ∧ c ≠ '\x7d') ++ ['\x7d'], more, ?_, ?_, .renamed ?_⟩
        · rw [List.append_assoc, List.append_assoc]
          exact congrArg (opening.toList ++ ·) (eq_takeWhile_append hmore)
        · simp only [List.length_append, List.length_cons, List.length_nil, String.length_toList]
        · exact fun c hc => by simpa using List.mem_takeWhile_imp hc
      · cases h
    · cases h

theorem apply_skip (r : Rule) : ∀ (n : Nat) (cs : List Char), r.apply n cs = r.apply 0 (cs.drop n)
  | 0, _ => rfl
  | _ + 1, [] => rfl
  | n + 1, _ :: cs => apply_skip r n cs

theorem Occurs.slash (h : r.Occurs written replacement more) (hr : r.StartsWithSlash) :
    ∃ behind, written = '\\' :: behind := by
  have front : ∀ {o : String} (rest : List Char), o ∈ r.beginnings → ∃ behind, o.toList ++ rest = '\\' :: behind := by
    intro o rest ho
    obtain ⟨behind, heq⟩ := List.head?_eq_some_iff.mp (hr o ho)
    exact ⟨behind ++ rest, by rw [heq, List.cons_append]⟩
  cases h with
  | part hp => simpa using front [] hp
  | command hp _ => simpa using front [] hp
  | dropped _ =>
    rw [List.append_assoc]
    exact front _ List.mem_cons_self
  | renamed _ =>
    rw [List.append_assoc]
    exact front _ List.mem_cons_self

/-- A rule makes of characters what it says. -/
theorem rewritten (hr : r.StartsWithSlash) (cs : List Char) : r.Rewritten cs (r.apply 0 cs) := by
  match cs with
  | [] => exact .nil
  | c :: rest =>
    cases hfound : r.occurrence (c :: rest) with
    | none =>
      rw [apply, hfound]
      exact .keep hfound (rewritten hr rest)
    | some found =>
      obtain ⟨n, replacement⟩ := found
      obtain ⟨written, more, heq, rfl, hoccurs⟩ := occurs_of_occurrence hfound
      obtain ⟨behind, rfl⟩ := hoccurs.slash hr
      have hshorter : more.length < (c :: rest).length := by
        rw [heq, List.length_append, List.length_cons]
        omega
      have happly : r.apply 0 (c :: rest) = replacement ++ r.apply 0 more := by
        obtain ⟨rfl, rfl⟩ := List.cons_eq_cons.mp (show c :: rest = '\\' :: (behind ++ more) from heq)
        rw [apply, hfound]
        show replacement ++ r.apply behind.length (behind ++ more) = _
        rw [apply_skip, List.drop_left]
      rw [happly, heq]
      exact .replace hoccurs (rewritten hr more)
termination_by cs.length
decreasing_by
  · exact Nat.lt_succ_self _
  · exact hshorter

/-! ### Character by character -/

/-- A character that is no backslash stays, and the rule goes on behind it. -/
theorem Rewritten.of_cons (h : r.Rewritten (c :: rest) out) (hr : r.StartsWithSlash) (hc : c ≠ '\\') :
    ∃ out', out = c :: out' ∧ r.Rewritten rest out' := by
  generalize hcs : c :: rest = cs at h
  cases h with
  | nil => cases hcs
  | keep _ h =>
    cases hcs
    exact ⟨_, rfl, h⟩
  | replace hoccurs _ =>
    obtain ⟨behind, rfl⟩ := hoccurs.slash hr
    exact absurd (List.cons_eq_cons.mp hcs).1 hc

/-- What stands behind the backslashes of the outcome: they are those of the characters that stay, and those of what is put
in the place of occurrences. -/
theorem Rewritten.behindSlashes {Q Q' : List Char → Prop} (h : r.Rewritten cs out)
    (keep : ∀ {rest out}, BehindSlashes Q ('\\' :: rest) → r.occurrence ('\\' :: rest) = none → r.Rewritten rest out → Q' out)
    (replace : ∀ {written replacement more out}, BehindSlashes Q (written ++ more) → r.Occurs written replacement more →
      r.Rewritten more out → BehindSlashes Q' out → BehindSlashes Q' (replacement ++ out)) :
    BehindSlashes Q cs → BehindSlashes Q' out := by
  induction h with
  | nil => exact id
  | @keep c rest out hnone hrest ih =>
    intro hQ
    refine ⟨?_, ih hQ.2⟩
    rintro rfl
    exact keep hQ hnone hrest
  | replace hoccurs hmore ih => exact fun hQ => replace hQ hoccurs hmore (ih hQ.of_append)

end Rule

/-! ### Names behind backslashes -/

/-- The name stands in front, and behind it a character of the kind, or the end of the text. -/
def named (ends : Option Char → Bool) : List Char → List Char → Bool
  | [], rest => ends rest.head?
  | _ :: _, [] => false
  | x :: name, c :: rest => x == c && named ends name rest

/-- The characters differ from the name where both have one. -/
def differs : List Char → List Char → Bool
  | x :: name, c :: rest => x != c || differs name rest
  | _, _ => false

section

variable {ends : Option Char → Bool} {name : List Char}

theorem named_iff : ∀ {name cs : List Char},
    named ends name cs = true ↔ ∃ behind, cs = name ++ behind ∧ ends behind.head? = true
  | [], cs => ⟨fun h => ⟨cs, rfl, h⟩, by rintro ⟨_, rfl, h⟩; exact h⟩
  | x :: name, [] => ⟨nofun, by rintro ⟨_, h, -⟩; cases h⟩
  | x :: name, c :: cs => by
    rw [named, Bool.and_eq_true, beq_iff_eq, named_iff]
    constructor
    · rintro ⟨rfl, behind, rfl, hends⟩
      exact ⟨behind, rfl, hends⟩
    · rintro ⟨behind, heq, hends⟩
      obtain ⟨rfl, rfl⟩ := List.cons_eq_cons.mp heq
      exact ⟨rfl, behind, rfl, hends⟩

theorem named_of_differs : ∀ {name cs : List Char} (more : List Char), differs name cs = true →
    named ends name (cs ++ more) = false
  | [], _, _, h => by cases h
  | _ :: _, [], _, h => by cases h
  | x :: name, c :: cs, more, h => by
    rw [differs, Bool.or_eq_true, bne_iff_ne] at h
    rw [List.cons_append, named, Bool.and_eq_false_iff, beq_eq_false_iff_ne]
    exact h.imp_right fun h => named_of_differs more h

/-- What stands behind a character that the name has not does not matter. -/
theorem named_exchange {last : Char} (s t : List Char) : ∀ {name : List Char} (front : List Char), last ∉ name →
    named ends name (front ++ last :: s) = named ends name (front ++ last :: t)
  | [], [], _ => rfl
  | [], _ :: _, _ => rfl
  | x :: name, [], h => by
    have hne : (x == last) = false := beq_eq_false_iff_ne.mpr (List.ne_of_not_mem_cons h).symm
    rw [List.nil_append, List.nil_append, named, named, hne, Bool.false_and, Bool.false_and]
  | x :: name, c :: front, h => by
    rw [List.cons_append, List.cons_append, named, named, named_exchange s t front (List.not_mem_of_not_mem_cons h)]

end

/-! ### Whole commands -/

/-- No letter stands there. -/
def noLetter (c : Option Char) : Bool := !c.any Char.isAlpha

/-- The command stands in the text, and no letter continues its name. -/
def HasCommand (command latex : String) : Prop :=
  ∃ before behind, latex.toList = before ++ (command.toList ++ behind) ∧ noLetter behind.head? = true

/-- No backslash of the characters begins the command of that name. -/
abbrev Lacks (name : List Char) : List Char → Prop := BehindSlashes fun rest => named noLetter name rest = false

theorem not_hasCommand {name latex : String} (h : Lacks name.toList latex.toList) : ¬HasCommand ("\\" ++ name) latex := by
  rintro ⟨before, behind, heq, hends⟩
  rw [String.toList_append] at heq
  rw [heq] at h
  exact absurd (named_iff.mpr ⟨behind, rfl, hends⟩) (ne_true_of_eq_false (h.of_split (t := name.toList ++ behind)))

namespace Rule

/-- What the rule puts in place of an occurrence does not continue a name. -/
def KeepsNames : Rule → Prop
  | commands _ replacement => replacement.toList.head?.any Char.isAlpha = false
  | renamed _ before _ => before.toList.head? = some '\\'
  | _ => False

instance : DecidablePred KeepsNames
  | commands .. | renamed .. => inferInstanceAs (Decidable (_ = _))
  | parts .. | dropped .. => isFalse id

/-- What the rule puts in place of an occurrence has no command of the name, however it goes on. -/
def Avoids (name : List Char) : Rule → Prop
  | commands _ replacement => BehindSlashes (fun rest => differs name rest = true) replacement.toList
  | renamed _ before after => BehindSlashes (fun rest => differs name rest = true) before.toList ∧
    after.toList.head? = some '\x7d' ∧ BehindSlashes (fun rest => differs name rest = true) after.toList
  | _ => False

instance (name : List Char) : DecidablePred (Avoids name)
  | commands .. => inferInstanceAs (Decidable (BehindSlashes _ _))
  | renamed .. => inferInstanceAs (Decidable (_ ∧ _ ∧ _))
  | parts .. | dropped .. => isFalse id

/-- The command of the name is one of those that the rule replaces, and no other of them begins like it. -/
def Replaces (name : List Char) : Rule → Prop
  | commands ps _ => String.ofList ('\\' :: name) ∈ ps ∧
    ∀ p ∈ ps, p.toList <+: '\\' :: name ∨ '\\' :: name <+: p.toList → p.toList = '\\' :: name
  | _ => False

instance (name : List Char) : DecidablePred (Replaces name)
  | commands .. => inferInstanceAs (Decidable (_ ∧ _))
  | parts .. | renamed .. | dropped .. => isFalse id

section

variable {r : Rule} {name cs out rest written replacement more : List Char}

theorem Rewritten.noLetter_head (h : r.Rewritten cs out) (hr : r.KeepsNames) (hcs : noLetter cs.head? = true) :
    noLetter out.head? = true := by
  induction h with
  | nil => rfl
  | keep _ _ _ => exact hcs
  | @replace written replacement more out hoccurs _ ih =>
    cases hoccurs with
    | part _ | dropped _ => cases hr
    | @command ps p text more hp hmore =>
      cases htext : text.toList with
      | nil => exact ih (by rw [noLetter, hmore]; rfl)
      | cons c t =>
        rw [KeepsNames, htext] at hr
        show (!(some c).any Char.isAlpha) = true
        rw [show (some c).any Char.isAlpha = false from hr]
        rfl
    | @renamed opening before after argument more _ =>
      obtain ⟨t, ht⟩ := List.head?_eq_some_iff.mp (show before.toList.head? = some '\\' from hr)
      rw [ht]
      rfl

/-- Where a letter stands in the outcome, it stood before. -/
theorem Rewritten.of_letter {x : Char} (h : r.Rewritten cs (x :: out)) (hs : r.StartsWithSlash) (hr : r.KeepsNames)
    (hx : x.isAlpha = true) : ∃ rest, cs = x :: rest ∧ r.Rewritten rest out := by
  have hletter : noLetter cs.head? ≠ true := fun hcs => by
    have hno := h.noLetter_head hr hcs
    rw [List.head?_cons, noLetter, Option.any_some, hx] at hno
    cases hno
  cases cs with
  | nil => exact absurd rfl hletter
  | cons c rest =>
    have hc : c ≠ '\\' := by
      rintro rfl
      exact hletter rfl
    obtain ⟨out', heq, hrest⟩ := h.of_cons hs hc
    obtain ⟨rfl, rfl⟩ := List.cons_eq_cons.mp heq
    exact ⟨rest, rfl, hrest⟩

/-- The names of commands that stay do not change. -/
theorem Rewritten.named (hs : r.StartsWithSlash) (hr : r.KeepsNames) (hletters : ∀ x ∈ name, x.isAlpha = true)
    (h : r.Rewritten cs out) (hout : named noLetter name out = true) : named noLetter name cs = true := by
  induction name generalizing cs out with
  | nil =>
    cases cs with
    | nil => rfl
    | cons c rest =>
      by_cases hc : c.isAlpha = true
      · obtain ⟨out', rfl, -⟩ := h.of_cons hs (by rintro rfl; cases hc)
        exact hout
      · show (!c.isAlpha) = true
        rw [eq_false_of_ne_true hc]
        rfl
  | cons x name ih =>
    cases out with
    | nil => cases hout
    | cons c out =>
      obtain ⟨hx, hname⟩ := Bool.and_eq_true_iff.mp hout
      obtain rfl := eq_of_beq hx
      obtain ⟨rest, rfl, hrest⟩ := h.of_letter hs hr (hletters x List.mem_cons_self)
      rw [Preview.named, beq_self_eq_true, Bool.true_and]
      exact ih (fun y hy => hletters y (List.mem_cons_of_mem x hy)) hrest hname

/-- A command that the rule replaces is an occurrence. -/
theorem occurrence_of_named (hr : r.Replaces name) (h : Preview.named noLetter name rest = true) :
    r.occurrence ('\\' :: rest) ≠ none := by
  obtain ⟨behind, rfl, hends⟩ := named_iff.mp h
  cases r with
  | commands ps replacement =>
    obtain ⟨hmem, halone⟩ := hr
    have hfront : '\\' :: name <+: '\\' :: (name ++ behind) := ⟨behind, rfl⟩
    cases hfind : partAt ps ('\\' :: (name ++ behind)) with
    | none =>
      refine absurd ?_ (List.find?_eq_none.mp hfind _ hmem)
      rw [String.toList_ofList]
      exact List.isPrefixOf_iff_prefix.mpr hfront
    | some p =>
      obtain ⟨hp, hprefix⟩ := mem_of_partAt hfind
      have hlength : p.length = ('\\' :: name).length :=
        congrArg List.length (halone p hp (List.prefix_or_prefix_of_prefix hprefix hfront))
      have hbehind : ('\\' :: (name ++ behind)).drop p.length = behind := by
        rw [hlength]
        exact List.drop_left
      have hno : behind.head?.any Char.isAlpha = false := by simpa [noLetter] using hends
      unfold occurrence
      simp only [hfind, hbehind, hno]
      exact nofun
  | _ => cases hr

/-- Behind a rule that replaces the command there is none. -/
theorem Rewritten.lacks (h : r.Rewritten cs out) (hs : r.StartsWithSlash) (hk : r.KeepsNames) (ha : r.Avoids name)
    (hr : r.Replaces name) (hletters : ∀ x ∈ name, x.isAlpha = true) : Lacks name out := by
  refine h.behindSlashes (Q := fun _ => True) (fun _ hnone hrest => ?_) (fun _ hoccurs _ hout => ?_) (.of_forall (fun _ => trivial) _)
  · refine eq_false_of_ne_true fun hnamed => ?_
    exact occurrence_of_named hr (hrest.named hs hk hletters hnamed) hnone
  · cases hoccurs with
    | command _ _ => exact BehindSlashes.append (fun _ => named_of_differs _) hout ha
    | _ => cases hr

/-- A rule that puts nothing like it anywhere leaves a text without a command without it. -/
theorem Rewritten.still_lacks (h : r.Rewritten cs out) (hs : r.StartsWithSlash) (hk : r.KeepsNames) (ha : r.Avoids name)
    (hletters : ∀ x ∈ name, x.isAlpha = true) (hcs : Lacks name cs) : Lacks name out := by
  refine h.behindSlashes (fun hlacks _ hrest => ?_) (fun {_ _ more out} hlacks hoccurs _ hout => ?_) hcs
  · refine eq_false_of_ne_true fun hnamed => ?_
    exact absurd (hrest.named hs hk hletters hnamed) (ne_true_of_eq_false (hlacks.1 rfl))
  · cases hoccurs with
    | command _ _ => exact BehindSlashes.append (fun _ => named_of_differs _) hout ha
    | @renamed opening before after argument _ _ =>
      obtain ⟨hbefore, hafter, hrest⟩ := ha
      obtain ⟨t, ht⟩ := List.head?_eq_some_iff.mp hafter
      have hclosing : '\x7d' ∉ name := fun hmem => absurd (hletters _ hmem) (by decide)
      have hargument : Lacks name (argument ++ '\x7d' :: more) := by
        rw [List.append_assoc, List.append_assoc] at hlacks
        exact hlacks.of_append
      have hbehind : Lacks name ('\x7d' :: (t ++ out)) := by
        rw [← List.cons_append, ← ht]
        exact BehindSlashes.append (fun _ => named_of_differs _) hout hrest
      rw [ht, List.append_assoc, List.append_assoc, List.cons_append]
      refine BehindSlashes.append (fun _ => named_of_differs _) ?_ hbefore
      refine BehindSlashes.exchange (s := '\x7d' :: more) (t := '\x7d' :: (t ++ out)) hbehind (fun front _ hfront => ?_) hargument
      exact (named_exchange _ _ front hclosing).trans hfront
    | _ => cases ha

end

end Rule

/-! ### All rules -/

/-- The commands that are replaced wherever no letter continues their names. -/
def replacedNames : List String := ["left", "right", "mathscr", "ldots", "coloneq", "doubleprime"]

/-- One of the rules replaces the command, and it and those behind it put nothing like the command anywhere. -/
def ClearedBy (name : List Char) : List Rule → Prop
  | [] => False
  | r :: rs => (r.Replaces name ∧ ∀ r' ∈ r :: rs, r'.KeepsNames ∧ r'.Avoids name) ∨ ClearedBy name rs

instance decidableClearedBy (name : List Char) : DecidablePred (ClearedBy name)
  | [] => isFalse id
  | r :: rs =>
    have := decidableClearedBy name rs
    inferInstanceAs (Decidable ((r.Replaces name ∧ ∀ r' ∈ r :: rs, r'.KeepsNames ∧ r'.Avoids name) ∨ ClearedBy name rs))

theorem clearedBy_rules : ∀ name ∈ replacedNames, name.toList.all Char.isAlpha = true ∧ ClearedBy name.toList rules := by
  decide

section

variable {name : List Char} (hletters : ∀ x ∈ name, x.isAlpha = true)

include hletters

/-- Rules that put nothing like a command anywhere, one after the other. -/
theorem lacks_foldl : ∀ {rs : List Rule} {cs : List Char}, (∀ r ∈ rs, r.StartsWithSlash) →
    (∀ r ∈ rs, r.KeepsNames ∧ r.Avoids name) → Lacks name cs → Lacks name (rs.foldl (fun cs r => r.apply 0 cs) cs)
  | [], _, _, _, hcs => hcs
  | r :: rs, cs, hslash, h, hcs => by
    obtain ⟨hs, hslash⟩ := List.forall_mem_cons.mp hslash
    obtain ⟨⟨hk, ha⟩, h⟩ := List.forall_mem_cons.mp h
    rw [List.foldl_cons]
    exact lacks_foldl hslash h ((Rule.rewritten hs cs).still_lacks hs hk ha hletters hcs)

/-- Rules that clear a text of a command. -/
theorem lacks_of_clearedBy : ∀ {rs : List Rule} (cs : List Char), (∀ r ∈ rs, r.StartsWithSlash) → ClearedBy name rs →
    Lacks name (rs.foldl (fun cs r => r.apply 0 cs) cs)
  | [], _, _, h => h.elim
  | r :: rs, cs, hslash, h => by
    obtain ⟨hs, hslash⟩ := List.forall_mem_cons.mp hslash
    rw [List.foldl_cons]
    rcases h with ⟨hr, hrest⟩ | h
    · obtain ⟨⟨hk, ha⟩, hrest⟩ := List.forall_mem_cons.mp hrest
      exact lacks_foldl hletters hslash hrest ((Rule.rewritten hs cs).lacks hs hk ha hr hletters)
    · exact lacks_of_clearedBy _ hslash h

end

/-- **No whole command stays of those that are replaced**, whatever the text is. -/
theorem drawable_not_hasCommand (latex : String) : ∀ name ∈ replacedNames, ¬HasCommand ("\\" ++ name) (drawable latex) := by
  intro name hname
  obtain ⟨hletters, hcleared⟩ := clearedBy_rules name hname
  have hlacks := lacks_of_clearedBy (List.all_eq_true.mp hletters) latex.toList Rule.startsWithSlash_rules hcleared
  refine not_hasCommand ?_
  rw [drawable, String.toList_ofList]
  exact hlacks

end Formula.Preview
