import Formula.Proofs.Reader.Twins

/-!
# Rows whose fences pair

A fence of any kind is closed by an atom of the same kind.  `fencesPair` goes through a row with the fences that are open,
the innermost first: an atom may close the innermost of them and no other, an atom that closes none may open one more, and
no fence is left open.  `Stands` is what the reader may rely on at a place of such a row: the fences that it has open are
those that the rest of the row closes.  The arguments of a call in such a row are rows of this kind.
-/

namespace Formula

open Atom Expr Outcome

namespace Atom

/-- The atom is spelled like a half of a digraph. -/
def isHalf (a : Atom) : Bool := Glyph.digraphs.any fun e => a.spelled e.1.1 || a.spelled e.1.2

/-- The atom closes the fence that waits for the closer, which is asked of an atom with a glyph. -/
def shuts (a : Atom) (k : Closer) : Bool := (a.closes k).toOption == some true

/-- What closes the fence that the atom opens. -/
def opened? (a : Atom) : Option Closer := (a.opener?.toOption.bind id).map (·.2)

/-- The fences of the row pair, those of the stack among them.  A delimiter that is no bracket carries no scripts where it
opens a fence, and no comma stands in such a fence but inside of brackets. -/
def fencesPair : List Closer → List Atom → Bool
  | stack, [] => stack.isEmpty
  | stack, a :: rest =>
    if a.type == .sized && a.isHalf then false
    else if stack.any a.shuts then stack.head?.any a.shuts && fencesPair stack.tail rest
    else match a.opened? with
      | some k => k.glyph.isSome && (a.type == .opening || !a.hasScripts) && fencesPair (k :: stack) rest
      | none =>
        a.type ∉ [.opening, .closing, .sized] &&
          !(a.type == .punctuation && a.spelled "," && stack.head?.any (·.type != .closing)) && fencesPair stack rest

/-- The types of atoms that open or close fences. -/
def fenceTypes : List AtomType := [.opening, .closing, .textual, .sized]

end Atom

/-- What closes a fence with a glyph that has a partner. -/
structure IsProper (k : Closer) : Prop where
  type : k.type ∈ [.closing, .textual, .sized]
  glyph : ∃ g ∈ Glyph.closers, k.glyph = some g

variable {a : Atom} {rest row : List Atom} {stack closers : List Closer} {k : Closer} {plain : Bool}

/-! ### Atoms that close and open -/

theorem shuts_iff : a.shuts k = true ↔ a.closes k = .ok true := by
  unfold shuts
  cases h : a.closes k with
  | error f => simp [Except.toOption]
  | ok b => simp [Except.toOption]

theorem shuts_of_closesAny : ∀ {ks : List Closer}, a.closesAny ks = .ok true → ∃ k ∈ ks, a.shuts k = true
  | k :: ks, h => by
    obtain ⟨closed, hclosed, h⟩ := bind_eq_ok.mp h
    cases closed with
    | true => exact ⟨k, List.mem_cons_self, shuts_iff.mpr hclosed⟩
    | false =>
      obtain ⟨k', hk', hshuts⟩ := @shuts_of_closesAny ks h
      exact ⟨k', List.mem_cons_of_mem k hk', hshuts⟩

theorem not_shuts_of_closesAny : ∀ {ks : List Closer}, a.closesAny ks = .ok false → ∀ k ∈ ks, a.shuts k ≠ true
  | k :: ks, h, k', hk' => by
    obtain ⟨closed, hclosed, h⟩ := bind_eq_ok.mp h
    cases closed with
    | true => cases h
    | false =>
      rcases List.mem_cons.mp hk' with rfl | hk'
      · rw [Ne, shuts_iff, hclosed]
        exact fun h => Bool.noConfusion (Except.ok.inj h)
      · exact @not_shuts_of_closesAny ks h k' hk'

theorem type_of_shuts (h : a.shuts k = true) : a.type = k.type := by
  by_cases ht : a.type = k.type
  · exact ht
  · have hcloses : a.closes k = .ok false := if_neg ht
    rw [shuts_iff, hcloses] at h
    cases h

theorem not_shuts_of_type (ht : a.type ∉ [.closing, .textual, .sized]) (hk : IsProper k) : a.shuts k ≠ true :=
  fun h => ht (type_of_shuts h ▸ hk.type)

/-- The glyph of an atom that closes a fence is the one that the fence waits for. -/
theorem text_of_shuts (hk : IsProper k) (h : a.shuts k = true) (hs : a.type ≠ .sized) :
    ∃ t ∈ Glyph.delimiters, a.text = .ok (.text t) := by
  obtain ⟨g, hg, hglyph⟩ := hk.glyph
  rw [shuts_iff] at h
  unfold closes at h
  rw [if_pos (type_of_shuts (shuts_iff.mpr (by rwa [closes]))), glyph, if_neg hs, hglyph] at h
  obtain ⟨text, htext, h⟩ := bind_eq_ok.mp h
  have his : text.isText g = true := Except.ok.inj h
  obtain ⟨t, rfl⟩ := Datum.isText_of_isText his
  rw [eq_of_beq his] at htext
  exact ⟨g, List.mem_append_right _ hg, htext⟩

theorem opened?_eq : a.opened? = some k ↔ ∃ left, a.opener? = .ok (some (left, k)) := by
  unfold opened?
  cases h : a.opener? with
  | error f => simp [Except.toOption]
  | ok found =>
    cases found with
    | none => simp [Except.toOption]
    | some opened =>
      obtain ⟨left, k'⟩ := opened
      simp [Except.toOption]

theorem opened?_of_opener? (h : a.opener? = .ok none) : a.opened? = none := by
  unfold opened?
  rw [h]
  rfl

/-- A bracket is closed by a closing atom, any other fence by an atom of the type of the opener. -/
theorem type_of_opener? {left : Datum} (h : a.opener? = .ok (some (left, k))) :
    (a.type = .opening ∧ k.type = .closing) ∨ (a.type ∈ [.textual, .sized] ∧ k.type = a.type) := by
  cases opens_of_opener? h with
  | bracket ht => exact .inl ⟨ht, rfl⟩
  | textual ht => exact .inr ⟨by simp [ht], ht.symm⟩
  | sized ht => exact .inr ⟨by simp [ht], ht.symm⟩

/-- A fence that waits for a glyph was opened by the partner of the glyph. -/
theorem proper_of_opened? (h : a.opened? = some k) (hg : k.glyph.isSome = true) :
    a.type ∈ [.opening, .textual, .sized] ∧ k.type = (if a.type = .opening then .closing else a.type) ∧ IsProper k ∧
      (a.type ≠ .sized → ∃ t ∈ Glyph.delimiters, a.text = .ok (.text t)) := by
  obtain ⟨left, h⟩ := opened?_eq.mp h
  cases opens_of_opener? h with
  | bracket ht htext hp =>
    obtain ⟨p, rfl⟩ := Option.isSome_iff_exists.mp hg
    obtain ⟨hmem, t, ht', rfl⟩ := mem_of_lookup_partners hp
    exact ⟨by simp [ht], by simp [ht], ⟨by simp, p, hmem, rfl⟩, fun _ => ⟨t, ht', htext⟩⟩
  | textual ht htext hp =>
    obtain ⟨hmem, t, ht', rfl⟩ := mem_of_lookup_partners hp
    exact ⟨by simp [ht], by simp [ht], ⟨by simp, _, hmem, rfl⟩, fun _ => ⟨t, ht', htext⟩⟩
  | sized ht hp =>
    obtain ⟨hmem, -⟩ := mem_of_lookup_partners hp
    exact ⟨by simp [ht], by simp [ht], ⟨by simp, _, hmem, rfl⟩, fun hs => absurd ht hs⟩

/-! ### One atom of a row -/

/-- What an atom does to the fences that are open. -/
inductive PairStep (stack : List Closer) (a : Atom) (rest : List Atom) : Prop
  | shuts {k : Closer} {more : List Closer} : stack = k :: more → a.shuts k = true → fencesPair more rest = true →
    PairStep stack a rest
  | opens {k : Closer} : (∀ k ∈ stack, a.shuts k ≠ true) → a.opened? = some k → k.glyph.isSome = true →
    (a.type = .opening ∨ a.hasScripts = false) → fencesPair (k :: stack) rest = true → PairStep stack a rest
  | other : (∀ k ∈ stack, a.shuts k ≠ true) → a.opened? = none → a.type ∉ [.opening, .closing, .sized] →
    (a.type = .punctuation → a.spelled "," = true → ∀ k ∈ stack.head?, k.type = .closing) →
    fencesPair stack rest = true → PairStep stack a rest

theorem fencesPair_cons : fencesPair stack (a :: rest) = true ↔
    (a.type = .sized → a.isHalf = false) ∧ PairStep stack a rest := by
  rw [fencesPair]
  by_cases hhalf : a.type = .sized ∧ a.isHalf = true
  · rw [if_pos (by simp [hhalf])]
    refine ⟨nofun, fun h => ?_⟩
    rw [h.1 hhalf.1] at hhalf
    cases hhalf.2
  rw [if_neg (by simpa using hhalf)]
  have hsized : a.type = .sized → a.isHalf = false := fun ht => Bool.eq_false_iff.mpr fun h => hhalf ⟨ht, h⟩
  rw [and_iff_right hsized]
  by_cases hany : stack.any a.shuts = true
  · obtain ⟨k', hk', hs'⟩ := List.any_eq_true.mp hany
    rw [if_pos hany, Bool.and_eq_true]
    constructor
    · rintro ⟨hhead, hrest⟩
      cases stack with
      | nil => cases hhead
      | cons k more => exact .shuts rfl hhead hrest
    · intro h
      cases h with
      | shuts hstack hs hrest =>
        rw [hstack]
        exact ⟨hs, hrest⟩
      | opens hnone _ _ _ _ => exact absurd hs' (hnone k' hk')
      | other hnone _ _ _ _ => exact absurd hs' (hnone k' hk')
  have hnone : ∀ k ∈ stack, a.shuts k ≠ true := fun k hk hs => hany (List.any_eq_true.mpr ⟨k, hk, hs⟩)
  rw [if_neg hany]
  have hno : ∀ {k : Closer} {more : List Closer}, stack = k :: more → a.shuts k ≠ true :=
    fun hstack => hnone _ (hstack ▸ List.mem_cons_self)
  cases hopened : a.opened? with
  | some k =>
    simp only [Bool.and_eq_true, Bool.or_eq_true, beq_iff_eq, Bool.not_eq_true']
    constructor
    · exact fun h => .opens hnone hopened h.1.1 h.1.2 h.2
    · intro h
      cases h with
      | shuts hstack hs _ => exact absurd hs (hno hstack)
      | opens _ hk hg hscripts hrest =>
        cases hopened.symm.trans hk
        exact ⟨⟨hg, hscripts⟩, hrest⟩
      | other _ hk _ _ _ =>
        rw [hopened] at hk
        cases hk
  | none =>
    have hhead : (stack.head?.any (·.type != .closing)) = false ↔ ∀ k ∈ stack.head?, k.type = .closing := by
      cases stack <;> simp
    simp only [Bool.and_eq_true, decide_eq_true_eq, Bool.not_eq_true', Bool.and_eq_false_iff, beq_eq_false_iff_ne, hhead]
    constructor
    · rintro ⟨⟨ht, hcomma⟩, hrest⟩
      refine .other hnone hopened ht (fun hp hs => ?_) hrest
      rcases hcomma with (hne | hne) | hclosing
      · exact absurd hp hne
      · rw [hne] at hs
        cases hs
      · exact hclosing
    · intro h
      cases h with
      | shuts hstack hs _ => exact absurd hs (hno hstack)
      | opens _ hk _ _ _ =>
        rw [hopened] at hk
        cases hk
      | other _ _ ht hcomma hrest =>
        refine ⟨⟨ht, ?_⟩, hrest⟩
        by_cases hp : a.type = .punctuation
        · cases hs : a.spelled "," with
          | true => exact .inr (hcomma hp hs)
          | false => exact .inl (.inr rfl)
        · exact .inl (.inl hp)

/-- The first atom of a row whose fences pair takes a step of them. -/
theorem pairStep_of_fencesPair (h : fencesPair stack (a :: rest) = true) :
    (a.type = .sized → a.isHalf = false) ∧ PairStep stack a rest :=
  fencesPair_cons.mp h

theorem fencesPair_of_pairStep (h : (a.type = .sized → a.isHalf = false) ∧ PairStep stack a rest) :
    fencesPair stack (a :: rest) = true :=
  fencesPair_cons.mpr h

/-- The number of brackets among the open fences. -/
def bracketsOf (stack : List Closer) : Nat := stack.countP fun k => k.type == .closing

/-- The fences that are open behind an atom, and what they are to the atom in front of any row. -/
theorem fencesPair_next (hproper : ∀ k ∈ stack, IsProper k) (h : fencesPair stack (a :: rest) = true) :
    ∃ next, (∀ k ∈ next, IsProper k) ∧ fencesPair next rest = true ∧
      (∀ part, fencesPair next part = true → fencesPair stack (a :: part) = true) ∧
      depthBehind (bracketsOf stack) a = bracketsOf next ∧
      (a.type = .punctuation → a.spelled "," = true → bracketsOf next = 0 → stack = [] ∧ next = []) := by
  obtain ⟨hsized, hstep⟩ := pairStep_of_fencesPair h
  have count : ∀ (k : Closer) (more : List Closer),
      bracketsOf (k :: more) = bracketsOf more + if k.type == .closing then 1 else 0 := fun k more => List.countP_cons
  cases hstep with
  | @shuts k more hstack hs hrest =>
    subst hstack
    have hk := hproper k List.mem_cons_self
    have ht := type_of_shuts hs
    refine ⟨more, fun k hk => hproper k (List.mem_cons_of_mem _ hk), hrest,
      fun part hpart => fencesPair_of_pairStep ⟨hsized, .shuts rfl hs hpart⟩, ?_, fun hp => ?_⟩
    · rw [count, depthBehind, ht]
      have hne : k.type ≠ .opening := fun h => absurd hk.type (by rw [h]; decide)
      rw [if_neg hne]
      by_cases hc : k.type = .closing
      · simp [hc]
      · simp [hc]
    · rw [hp] at ht
      exact absurd hk.type (by rw [← ht]; decide)
  | @opens k hnone hk hg hscripts hrest =>
    obtain ⟨htype, hclosing, hproper', -⟩ := proper_of_opened? hk hg
    refine ⟨k :: stack, fun k' hk' => ?_, hrest,
      fun part hpart => fencesPair_of_pairStep ⟨hsized, .opens hnone hk hg hscripts hpart⟩, ?_, fun hp => ?_⟩
    · rcases List.mem_cons.mp hk' with rfl | hk'
      · exact hproper'
      · exact hproper k' hk'
    · rw [count, depthBehind, hclosing]
      simp only [List.mem_cons, List.not_mem_nil, or_false] at htype
      rcases htype with ht | ht | ht <;> simp [ht]
    · rw [hp] at htype
      exact absurd htype (by decide)
  | other hnone hk ht hcomma hrest =>
    refine ⟨stack, hproper, hrest, fun part hpart => fencesPair_of_pairStep ⟨hsized, .other hnone hk ht hcomma hpart⟩, ?_,
      fun hp hs hzero => ?_⟩
    · rw [depthBehind, if_neg (fun h => ht (by simp [h])), if_neg (fun h => ht (by simp [h]))]
    · cases stack with
      | nil => exact ⟨rfl, rfl⟩
      | cons k more =>
        rw [count, hcomma hp hs k rfl] at hzero
        simp at hzero

/-! ### Places of a row -/

/-- Where the fences of the row are to pair, the ones that are open are closed in the rest of it. -/
def Stands (plain : Bool) (closers : List Closer) (row : List Atom) : Prop :=
  plain = true → (∀ k ∈ closers, IsProper k) ∧ fencesPair closers.reverse row = true

namespace Stands

theorem loose (closers : List Closer) (row : List Atom) : Stands false closers row := fun h => Bool.noConfusion h

/-- Behind an atom that neither opens nor closes a fence the same ones are open. -/
theorem tail (h : Stands plain closers (a :: rest)) (hshut : ∀ k ∈ closers, IsProper k → a.shuts k ≠ true)
    (hopen : ∀ k, a.opened? = some k → k.glyph.isSome = true → a.type = .sized ∧ a.isHalf = true) :
    Stands plain closers rest := by
  intro hp
  obtain ⟨hproper, hpair⟩ := h hp
  obtain ⟨hhalf, hstep⟩ := pairStep_of_fencesPair hpair
  refine ⟨hproper, ?_⟩
  cases hstep with
  | @shuts k more hstack hs _ =>
    have hk : k ∈ closers := List.mem_reverse.mp (hstack ▸ List.mem_cons_self)
    exact absurd hs (hshut k hk (hproper k hk))
  | opens _ hk hg _ _ =>
    obtain ⟨hsized, his⟩ := hopen _ hk hg
    rw [hhalf hsized] at his
    cases his
  | other _ _ _ _ hrest => exact hrest

theorem tail_of_type (h : Stands plain closers (a :: rest)) (ht : a.type ∉ fenceTypes) : Stands plain closers rest := by
  refine h.tail (fun k _ => not_shuts_of_type fun hmem => ht (List.mem_cons_of_mem _ hmem)) fun k hk hg => absurd ?_ ht
  have htype := (proper_of_opened? hk hg).1
  simp only [List.mem_cons, List.not_mem_nil, or_false] at htype
  rcases htype with h | h | h <;> rw [h] <;> decide

/-- An atom that is spelled like no delimiter opens and closes none of them; a sized one is a delimiter whatever its
spelling. -/
theorem tail_of_text (h : Stands plain closers (a :: rest)) (ht : ∀ t ∈ Glyph.delimiters, a.text ≠ .ok (.text t))
    (hsized : a.type = .sized → a.isHalf = true) : Stands plain closers rest := by
  by_cases hs : a.type = .sized
  · intro hp
    obtain ⟨-, hpair⟩ := h hp
    have hhalf := (pairStep_of_fencesPair hpair).1 hs
    rw [hsized hs] at hhalf
    cases hhalf
  · refine h.tail (fun k _ hk hshuts => ?_) fun k hk hg => ?_
    · obtain ⟨t, hmem, htext⟩ := text_of_shuts hk hshuts hs
      exact ht t hmem htext
    · obtain ⟨t, hmem, htext⟩ := (proper_of_opened? hk hg).2.2.2 hs
      exact absurd htext (ht t hmem)

/-- An atom that the reader finds to be neither a closer nor an opener. -/
theorem tail_of_open (h : Stands plain closers (a :: rest)) (hclosed : a.closesAny closers = .ok false)
    (hopener : a.opener? = .ok none) :
    Stands plain closers rest ∧ (plain = true → a.type ∉ [.opening, .closing, .sized]) := by
  have hnone := opened?_of_opener? hopener
  refine ⟨h.tail (fun k hk _ => not_shuts_of_closesAny hclosed k hk) fun k hk => ?_, fun hp => ?_⟩
  · rw [hnone] at hk
    cases hk
  · obtain ⟨-, hpair⟩ := h hp
    cases (pairStep_of_fencesPair hpair).2 with
    | @shuts k more hstack hs _ =>
      exact absurd hs (not_shuts_of_closesAny hclosed k (List.mem_reverse.mp (hstack ▸ List.mem_cons_self)))
    | opens _ hk _ _ _ =>
      rw [hnone] at hk
      cases hk
    | other _ _ ht _ _ => exact ht

/-- Behind an atom that opens a fence one more is open. -/
theorem push (h : Stands plain closers (a :: rest)) (hshut : ∀ k ∈ closers, IsProper k → a.shuts k ≠ true) {left : Datum}
    (hopener : a.opener? = .ok (some (left, k))) :
    Stands plain (closers ++ [k]) rest ∧ (plain = true → a.type = .opening ∨ a.hasScripts = false) := by
  have hopened : a.opened? = some k := opened?_eq.mpr ⟨left, hopener⟩
  have hstep : plain = true → IsProper k ∧ (a.type = .opening ∨ a.hasScripts = false) ∧
      fencesPair (k :: closers.reverse) rest = true := by
    intro hp
    obtain ⟨hproper, hpair⟩ := h hp
    cases (pairStep_of_fencesPair hpair).2 with
    | @shuts k' more hstack hs _ =>
      have hk' : k' ∈ closers := List.mem_reverse.mp (hstack ▸ List.mem_cons_self)
      exact absurd hs (hshut k' hk' (hproper k' hk'))
    | opens _ hk hg hscripts hrest =>
      cases hopened.symm.trans hk
      exact ⟨(proper_of_opened? hk hg).2.2.1, hscripts, hrest⟩
    | other _ hk _ _ _ =>
      rw [hopened] at hk
      cases hk
  refine ⟨fun hp => ⟨fun k' hk' => ?_, ?_⟩, fun hp => (hstep hp).2.1⟩
  · rcases List.mem_append.mp hk' with hk' | hk'
    · exact (h hp).1 k' hk'
    · rw [List.mem_singleton.mp hk']
      exact (hstep hp).1
  · rw [List.reverse_append]
    exact (hstep hp).2.2

theorem closers_of_append (h : Stands plain (closers ++ [k]) row) (hp : plain = true) :
    (∀ k ∈ closers, IsProper k) ∧ IsProper k ∧ fencesPair (k :: closers.reverse) row = true := by
  obtain ⟨hproper, hpair⟩ := h hp
  rw [List.reverse_append] at hpair
  exact ⟨fun k' hk' => hproper k' (List.mem_append_left _ hk'), hproper k (by simp), hpair⟩

/-- Behind the atom that closes the innermost fence the others are open. -/
theorem pop (h : Stands plain (closers ++ [k]) (a :: rest)) (hcloses : a.closes k = .ok true) :
    Stands plain closers rest := by
  intro hp
  obtain ⟨hproper, -, hpair⟩ := h.closers_of_append hp
  refine ⟨hproper, ?_⟩
  have hshuts := shuts_iff.mpr hcloses
  cases (pairStep_of_fencesPair hpair).2 with
  | shuts hstack _ hrest =>
    cases hstack
    exact hrest
  | opens hnone _ _ _ _ => exact absurd hshuts (hnone k List.mem_cons_self)
  | other hnone _ _ _ _ => exact absurd hshuts (hnone k List.mem_cons_self)

/-- Where the reader stops inside of a fence, the fence is closed. -/
theorem closed (h : Stands plain (closers ++ [k]) row) (hstops : StopsAt (closers ++ [k]) row) (hp : plain = true) :
    ∃ a rest, row = a :: rest ∧ a.closes k = .ok true := by
  obtain ⟨-, -, hpair⟩ := h.closers_of_append hp
  rcases hstops with rfl | ⟨a, rest, rfl, hcloses⟩
  · cases hpair
  · refine ⟨a, rest, rfl, shuts_iff.mp ?_⟩
    obtain ⟨k', hk', hshuts⟩ := shuts_of_closesAny hcloses
    have hk' : k' ∈ k :: closers.reverse := by simpa [or_comm] using hk'
    cases (pairStep_of_fencesPair hpair).2 with
    | shuts hstack hs _ =>
      cases hstack
      exact hs
    | opens hnone _ _ _ _ => exact absurd hshuts (hnone k' hk')
    | other hnone _ _ _ _ => exact absurd hshuts (hnone k' hk')

end Stands

/-! ### Arguments -/

/-- Spaces are no fences. -/
theorem fencesPair_unspaced : ∀ {row : List Atom} {stack : List Closer}, (∀ k ∈ stack, IsProper k) →
    fencesPair stack row = true → fencesPair stack (unspaced row) = true
  | [], _, _, h => h
  | a :: row, stack, hproper, h => by
    by_cases hs : a.type = .spacing
    · have hstands : Stands true stack.reverse (a :: row) :=
        fun _ => ⟨fun k hk => hproper k (List.mem_reverse.mp hk), by rwa [List.reverse_reverse]⟩
      obtain ⟨-, hrest⟩ := hstands.tail_of_type (by rw [hs]; decide) rfl
      rw [List.reverse_reverse] at hrest
      rw [unspaced_cons_of_spacing hs]
      exact fencesPair_unspaced hproper hrest
    · obtain ⟨next, hnext, hrest, hfront, -⟩ := fencesPair_next hproper h
      rw [unspaced_cons_of_ne hs]
      exact hfront _ (fencesPair_unspaced hnext hrest)

/-- A row up to the atom that closes the innermost bracket. -/
theorem fencesPair_splitAtCloser {outer : List Closer} (hk : k.type = .closing) {cut : List Atom × Atom × List Atom} :
    ∀ {row : List Atom} {inner : List Closer}, (∀ k ∈ inner, IsProper k) → fencesPair (inner ++ k :: outer) row = true →
      splitAtCloser (bracketsOf inner) row = some cut →
      fencesPair inner cut.1 = true ∧ cut.2.1.shuts k = true ∧ fencesPair outer cut.2.2 = true
  | [], inner, _, h, _ => by
    cases inner <;> cases h
  | a :: row, inner, hproper, h, hcut => by
    obtain ⟨hsized, hstep⟩ := pairStep_of_fencesPair h
    have count : ∀ (k : Closer) (more : List Closer),
        bracketsOf (k :: more) = bracketsOf more + if k.type == .closing then 1 else 0 := fun k more => List.countP_cons
    -- Behind an atom that is not the one looked for, the rest is split with the fences that are open there.
    have on : ∀ {next : List Closer}, (∀ k ∈ next, IsProper k) → fencesPair (next ++ k :: outer) row = true →
        ¬(a.type = .closing ∧ bracketsOf inner = 0) →
        (if a.type = .opening then bracketsOf inner + 1
          else if a.type = .closing then bracketsOf inner - 1 else bracketsOf inner) = bracketsOf next →
        (∀ part, fencesPair next part = true → fencesPair inner (a :: part) = true) →
        fencesPair inner cut.1 = true ∧ cut.2.1.shuts k = true ∧ fencesPair outer cut.2.2 = true := by
      intro next hnext hrest hne hdepth hfront
      rw [splitAtCloser, if_neg hne] at hcut
      dsimp only at hcut
      rw [hdepth] at hcut
      obtain ⟨cut', hcut', rfl⟩ := Option.map_eq_some_iff.mp hcut
      obtain ⟨hinner, hlast, hbehind⟩ := fencesPair_splitAtCloser hk hnext hrest hcut'
      exact ⟨hfront _ hinner, hlast, hbehind⟩
    cases hstep with
    | @shuts k' more hstack hs hrest =>
      cases inner with
      | nil =>
        obtain ⟨rfl, rfl⟩ := List.cons.inj hstack
        rw [splitAtCloser, if_pos ⟨(type_of_shuts hs).trans hk, rfl⟩] at hcut
        cases hcut
        exact ⟨rfl, hs, hrest⟩
      | cons k' inner =>
        obtain ⟨rfl, rfl⟩ := List.cons.inj hstack
        have hk' := hproper k' List.mem_cons_self
        have hne : k'.type ≠ .opening := fun h => absurd hk'.type (by rw [h]; decide)
        refine on (fun k hk => hproper k (List.mem_cons_of_mem _ hk)) hrest ?_ ?_
          fun part hpart => fencesPair_of_pairStep ⟨hsized, .shuts rfl hs hpart⟩
        all_goals
          rw [count, type_of_shuts hs]
          by_cases hc : k'.type = .closing <;> simp [hc, hne]
    | @opens k' hnone hopened hg hscripts hrest =>
      obtain ⟨htype, hclosing, hproper', -⟩ := proper_of_opened? hopened hg
      refine @on (k' :: inner) (fun k hk => ?_) hrest ?_ ?_ fun part hpart => fencesPair_of_pairStep
        ⟨hsized, .opens (fun k hk => hnone k (List.mem_append_left _ hk)) hopened hg hscripts hpart⟩
      · rcases List.mem_cons.mp hk with rfl | hk
        · exact hproper'
        · exact hproper k hk
      · simp only [List.mem_cons, List.not_mem_nil, or_false] at htype
        rcases htype with ht | ht | ht <;> simp [ht]
      · rw [count, hclosing]
        simp only [List.mem_cons, List.not_mem_nil, or_false] at htype
        rcases htype with ht | ht | ht <;> simp [ht]
    | other hnone hopened ht hcomma hrest =>
      have ho : a.type ≠ .opening := fun h => ht (by simp [h])
      have hc : a.type ≠ .closing := fun h => ht (by simp [h])
      refine on hproper hrest (fun h => hc h.1) (by rw [if_neg ho, if_neg hc]) fun part hpart => fencesPair_of_pairStep
        ⟨hsized, .other (fun k hk => hnone k (List.mem_append_left _ hk)) hopened ht (fun hp hs k hk => ?_) hpart⟩
      cases inner with
      | nil => cases hk
      | cons k' inner => exact hcomma hp hs k hk

theorem of_endsPart {depth : Int} (h : endsPart depth a = .ok true) :
    a.type = .punctuation ∧ a.spelled "," = true ∧ depthBehind depth a = 0 := by
  unfold endsPart at h
  split at h
  · rename_i hc
    obtain ⟨text, htext, his⟩ := map_eq_ok.mp h
    refine ⟨hc.2, ?_, hc.1⟩
    unfold spelled
    rw [htext]
    exact his
  · cases h

/-- The parts of a row between the commas that stand in no bracket. -/
theorem fencesPair_splitAtCommas : ∀ {row : List Atom} {stack : List Closer} {parts : List (List Atom)},
    (∀ k ∈ stack, IsProper k) → fencesPair stack row = true → splitAtCommas (bracketsOf stack) [] row = .ok parts →
      ∃ p ps, parts = p :: ps ∧ fencesPair stack p = true ∧ ∀ q ∈ ps, fencesPair [] q = true
  | [], stack, parts, _, h, hparts => by
    cases hparts
    exact ⟨[], [], rfl, h, nofun⟩
  | a :: row, stack, parts, hproper, h, hparts => by
    obtain ⟨next, hnext, hrest, hfront, hdepth, hcomma⟩ := fencesPair_next hproper h
    rw [splitAtCommas_step] at hparts
    obtain ⟨comma, hends, hparts⟩ := bind_eq_ok.mp hparts
    rw [hdepth] at hparts
    cases comma with
    | true =>
      obtain ⟨more, hmore, hparts⟩ := bind_eq_ok.mp hparts
      cases hparts
      obtain ⟨hp, hs, hzero⟩ := of_endsPart hends
      obtain ⟨rfl, rfl⟩ := hcomma hp hs (by rw [hdepth] at hzero; exact_mod_cast hzero)
      obtain ⟨p, ps, rfl, hp, hps⟩ := fencesPair_splitAtCommas hnext hrest hmore
      refine ⟨[], p :: ps, rfl, rfl, fun q hq => ?_⟩
      rcases List.mem_cons.mp hq with rfl | hq
      · exact hp
      · exact hps q hq
    | false =>
      rw [if_neg Bool.false_ne_true, splitAtCommas_inFirst row _ [a]] at hparts
      obtain ⟨more, hmore, rfl⟩ := map_eq_ok.mp hparts
      obtain ⟨p, ps, rfl, hp, hps⟩ := fencesPair_splitAtCommas hnext hrest hmore
      exact ⟨a :: p, ps, rfl, hfront p hp, hps⟩

end Formula
