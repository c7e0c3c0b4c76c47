import Formula.Proofs.Reader.Delimiters
import Formula.Proofs.Reader.Paired

/-!
# A fence of sized delimiters

The delimiters of a fence may be sized.  `SizedPair` is a fence whose delimiters are sized in one row and plain in another,
with the same atoms in front of it, in it and behind it.  The reader goes through both rows in lockstep.  `FencePlace` tells where
it is: outside of the fence, or inside with the fences that are open below the outermost one, which waits for another atom in
the one row than in the other.  `Rows` relates what is left of the rows at a place, and `View` what their first atoms do there.

A sized delimiter that can close is never read as a factor, and behind `f` and `g` a plain parenthesis opens the arguments of
a call where a sized one does not.  So the place in front of the fence may be reached only in a state `H` in which the two
forms are the same to the reader.
-/

namespace Formula

open Atom Expr Outcome

namespace Atom

/-! ### Rows whose fences nest -/

/-- The fences of the row nest, those of the stack among them, the innermost first: an atom may close the innermost of them
and no other, an atom that closes none may open one more, and no fence is left open. -/
def fencesNest : List Closer → List Atom → Bool
  | stack, [] => stack.isEmpty
  | stack, a :: rest =>
    if stack.any a.shuts then stack.head?.any a.shuts && fencesNest stack.tail rest
    else match a.opener? with
      | .ok (some (_, k)) => k.glyph.isSome && fencesNest (k :: stack) rest
      | .ok none => a.type != .closing && fencesNest stack rest
      | .error _ => false

/-! ### Delimiters and terms -/

/-- A delimiter of a type, with a glyph and without scripts, whose spelling is part of no numeral and of no digraph. -/
structure Delimits (type : AtomType) (g : String) (a : Atom) : Prop where
  type : a.type = type
  glyph : a.glyph = .ok (.text g)
  bare : a.hasScripts = false
  text : ∃ t, a.text = .ok (.text t) ∧ t ∉ [",", "!", "\\nabla", "\\times", "\\cdot"]

/-- A symbol, a digit or an operator, without scripts. -/
structure IsTerm (a : Atom) : Prop where
  type : a.type ∈ operatorTypes
  bare : a.hasScripts = false
  isPlaceholder : a.isPlaceholder = false
  opener? : a.opener? = .ok none

/-- What stands behind the atom is its operand: the atom is an operator, or the name of a function and no postfix mark. -/
def AwaitsOperand (a : Atom) : Prop :=
  (∃ p, a.precedence .builtin = .ok (some p)) ∨
    (a.type ∈ [.ordinary, .textual, .operator] ∧ a.isFunction .builtin = .ok true ∧ a.postfixFunction? = .ok none)

/-- The atom is a symbol that parentheses make the name of a call. -/
def NamesCall (a : Atom) : Prop := ∃ e, a.symbol .builtin = .ok e ∧ callName? e = .ok true

/-- The type of a plain delimiter: one that closes the fence that it opens is in the role of text. -/
def plainType (symmetric : Bool) (type : AtomType) : AtomType := if symmetric then .textual else type

theorem mem_plainType (symmetric : Bool) {type : AtomType} {types : List AtomType} (h : type ∈ types)
    (htextual : .textual ∈ types) : plainType symmetric type ∈ types := by
  unfold plainType
  split
  · exact htextual
  · exact h

end Atom

variable {a : Atom} {rest row : List Atom} {stack : List Closer} {k : Closer}

/-! ### What closes -/

/-- An atom with a glyph is asked of every fence. -/
theorem closesAny_of_glyph {d : Datum} (h : a.glyph = .ok d) : ∀ ks : List Closer, a.closesAny ks = .ok (ks.any a.shuts)
  | [] => rfl
  | k :: ks => by
    have hcloses : a.closes k = .ok (a.shuts k) := by
      unfold shuts
      unfold Atom.closes
      rw [h]
      by_cases ht : a.type = k.type
      · rw [if_pos ht]
        cases k.glyph with
        | none => rfl
        | some g =>
          show Except.ok (d.isText g) = Except.ok (Except.toOption (Except.ok (d.isText g)) == some true)
          cases d.isText g <;> rfl
      · rw [if_neg ht]
        rfl
    rw [closesAny, hcloses, List.any_cons]
    cases a.shuts k with
    | true => rfl
    | false => exact closesAny_of_glyph h ks

theorem glyph_of_text (hs : a.type ≠ .sized) : a.glyph = a.text := if_neg hs

/-- What has a glyph that is a delimiter's is a delimiter. -/
theorem isDelimiter_of_text {t : String} (ht : t ∈ Glyph.delimiters) (htext : a.text = .ok (.text t))
    (htype : a.type ∈ [.opening, .closing, .textual, .sized]) : IsDelimiter a where
  type := htype
  text := by
    have hall : ∀ t ∈ Glyph.delimiters, t ∉ [",", "!", "\\nabla", "\\times", "\\cdot"] := by decide
    exact ⟨t, htext, hall t ht, fun _ => ht⟩

/-! ### Rows inside of a fence -/

/-- The atom does the same to the open fences, whichever of two closers the outermost one waits for. -/
structure ClosesAlike (k k' : Closer) (stack : List Closer) (a : Atom) (b : Bool) : Prop where
  left : a.closesAny (k :: stack.reverse) = .ok b
  right : a.closesAny (k' :: stack.reverse) = .ok b

/-- An atom with a glyph closes the outermost fence only where it closes another. -/
theorem ClosesAlike.of_glyph {k' : Closer} {d : Datum} (hd : a.glyph = .ok d) (hk : a.shuts k ≠ true)
    (hk' : a.shuts k' = true → stack.any a.shuts = true) : ClosesAlike k k' stack a (stack.any a.shuts) where
  left := by rw [closesAny_of_glyph hd, List.any_cons, Bool.eq_false_iff.mpr hk, Bool.false_or, List.any_reverse]
  right := by
    rw [closesAny_of_glyph hd, List.any_cons, List.any_reverse]
    cases hs : a.shuts k' with
    | true => rw [Bool.true_or, hk' hs]
    | false => rw [Bool.false_or]

/-- An atom that is not of the type of a closer closes no fence. -/
theorem ClosesAlike.of_type {k' : Closer} (hk : k.type = .sized) (hk' : k'.type ∈ [.closing, .textual])
    (hproper : ∀ h ∈ stack, IsProper h) (ht : a.type ∉ [.closing, .textual, .sized]) : ClosesAlike k k' stack a false := by
  have hne : ∀ h ∈ stack.reverse, a.type ≠ h.type := fun h hh heq =>
    ht (heq ▸ (hproper h (List.mem_reverse.mp hh)).type)
  refine ⟨closesAny_eq_false (List.forall_mem_cons.mpr ⟨fun heq => ht ?_, hne⟩),
    closesAny_eq_false (List.forall_mem_cons.mpr ⟨fun heq => ht ?_, hne⟩)⟩
  · rw [heq, hk]
    decide
  · rw [heq]
    revert hk'
    cases k'.type <;> decide

/-- The fences of the row nest below an outermost one, which waits for one of two closers and is closed by no atom of the
row. -/
inductive Nested (k k' : Closer) : List Closer → List Atom → Prop
  | nil : Nested k k' [] []
  | shuts {h : Closer} {more : List Closer} {a : Atom} {rest : List Atom} : IsProper h → a.closes h = .ok true →
    a.type ≠ .sized → ClosesAlike k k' (h :: more) a true → Nested k k' more rest → Nested k k' (h :: more) (a :: rest)
  | opens {h : Closer} {stack : List Closer} {a : Atom} {rest : List Atom} {left : Datum} : IsDelimiter a →
    a.opener? = .ok (some (left, h)) → a.type ≠ .sized → ClosesAlike k k' stack a false → Nested k k' (h :: stack) rest →
    Nested k k' stack (a :: rest)
  | other {stack : List Closer} {a : Atom} {rest : List Atom} : a.opener? = .ok none → a.type ∉ [.closing, .sized] →
    ClosesAlike k k' stack a false → Nested k k' stack rest → Nested k k' stack (a :: rest)

/-- Fences that nest are nested below an outermost one that no atom of the row closes but where it closes another one. -/
theorem Nested.of_fencesNest {k k' : Closer} (hk : k.type = .sized) :
    ∀ {row : List Atom} {stack : List Closer}, (∀ h ∈ stack, IsProper h) → fencesNest stack row = true →
      (∀ a ∈ row, a.type ≠ .sized ∧ (a.type = .textual → a.shuts k' ≠ true)) →
      k'.type ∈ [.closing, .textual] → Nested k k' stack (unspaced row)
  | [], stack, _, h, _, _ => by
    cases stack with
    | nil => exact .nil
    | cons _ _ => cases h
  | a :: row, stack, hproper, h, hrow, hk' => by
    obtain ⟨⟨hsized, htextual⟩, hrest⟩ := List.forall_mem_cons.mp hrow
    rw [fencesNest] at h
    have alike : ∀ {d : Datum}, a.text = .ok d → (a.shuts k' = true → stack.any a.shuts = true) →
        ClosesAlike k k' stack a (stack.any a.shuts) := fun htext =>
      .of_glyph ((glyph_of_text hsized).trans htext) fun hs => hsized ((type_of_shuts hs).trans hk)
    by_cases hany : stack.any a.shuts = true
    · rw [if_pos hany, Bool.and_eq_true] at h
      cases stack with
      | nil => cases hany
      | cons k₀ more =>
        have hs : a.shuts k₀ = true := h.1
        have hk₀ := hproper k₀ List.mem_cons_self
        obtain ⟨t, -, htext⟩ := text_of_shuts hk₀ hs hsized
        have hspacing : a.type ≠ .spacing := fun heq => by
          have := hk₀.type
          rw [← type_of_shuts hs, heq] at this
          exact absurd this (by decide)
        rw [unspaced_cons_of_ne hspacing]
        refine .shuts hk₀ (shuts_iff.mp hs) hsized (hany ▸ alike htext fun _ => hany) ?_
        exact .of_fencesNest hk (fun h hh => hproper h (List.mem_cons_of_mem _ hh)) h.2 hrest hk'
    · rw [if_neg hany] at h
      have hany' : stack.any a.shuts = false := Bool.eq_false_iff.mpr hany
      cases hopener : a.opener? with
      | error f =>
        rw [hopener] at h
        cases h
      | ok found =>
        rw [hopener] at h
        cases found with
        | some opened =>
          obtain ⟨left, k₀⟩ := opened
          have h : (k₀.glyph.isSome && fencesNest (k₀ :: stack) row) = true := h
          rw [Bool.and_eq_true] at h
          obtain ⟨htype, -, hk₀, htext⟩ := proper_of_opened? (opened?_eq.mpr ⟨left, hopener⟩) h.1
          obtain ⟨t, ht, htext⟩ := htext hsized
          have hspacing : a.type ≠ .spacing := fun heq => absurd (heq ▸ htype) (by decide)
          rw [unspaced_cons_of_ne hspacing]
          have hdelimiter : IsDelimiter a := isDelimiter_of_text ht htext (by
            revert htype
            cases a.type <;> decide)
          refine .opens hdelimiter hopener hsized ?_
            (.of_fencesNest hk (List.forall_mem_cons.mpr ⟨hk₀, hproper⟩) h.2 hrest hk')
          simp only [List.mem_cons, List.not_mem_nil, or_false] at htype
          rcases htype with ht | ht | ht
          · exact .of_type hk hk' hproper (by rw [ht]; decide)
          · exact hany' ▸ alike htext fun hs => absurd hs (htextual ht)
          · exact absurd ht hsized
        | none =>
          have h : (a.type != .closing && fencesNest stack row) = true := h
          rw [Bool.and_eq_true, bne_iff_ne] at h
          have hbehind := Nested.of_fencesNest hk hproper h.2 hrest hk'
          by_cases hspacing : a.type = .spacing
          · rwa [unspaced_cons_of_spacing hspacing]
          rw [unspaced_cons_of_ne hspacing]
          refine .other hopener (by simp [h.1, hsized]) ?_ hbehind
          by_cases ht : a.type = .textual
          · obtain ⟨d, hd⟩ : ∃ d, a.text = .ok d := by
              unfold opener? at hopener
              rw [ht] at hopener
              obtain ⟨d, hd, -⟩ := bind_eq_ok.mp hopener
              exact ⟨d, hd⟩
            exact hany' ▸ alike hd fun hs => absurd hs (htextual ht)
          · exact .of_type hk hk' hproper (by simp [h.1, ht, hsized])

/-- What closes the innermost bracket of a row that nests is found in the row, and what is in front of it and behind it. -/
theorem Nested.splitAtCloser {k k' : Closer} {h : Closer} {outer : List Closer} (hk : h.type = .closing) :
    ∀ {row : List Atom} {inner : List Closer}, Nested k k' (inner ++ h :: outer) row →
      ∃ body last rest, Nested k k' outer rest ∧
        ∀ more, splitAtCloser (bracketsOf inner) (row ++ more) = some (body, last, rest ++ more)
  | [], inner, hn => by
    cases inner <;> cases hn
  | a :: row, inner, hn => by
    have count : ∀ (k : Closer) (more : List Closer),
        bracketsOf (k :: more) = bracketsOf more + if k.type == .closing then 1 else 0 := fun k more => List.countP_cons
    -- Behind an atom that is not the one looked for, the rest is split with the fences that are open there.
    have on : ∀ {next : List Closer}, Nested k k' (next ++ h :: outer) row → ¬(a.type = .closing ∧ bracketsOf inner = 0) →
        (if a.type = .opening then bracketsOf inner + 1
          else if a.type = .closing then bracketsOf inner - 1 else bracketsOf inner) = bracketsOf next →
        ∃ body last rest, Nested k k' outer rest ∧
          ∀ more, Expr.splitAtCloser (bracketsOf inner) (a :: row ++ more) = some (body, last, rest ++ more) := by
      intro next hnext hne hdepth
      obtain ⟨body, last, rest, hrest, hcut⟩ := Nested.splitAtCloser hk hnext
      refine ⟨a :: body, last, rest, hrest, fun more => ?_⟩
      rw [List.cons_append, Expr.splitAtCloser, if_neg hne]
      dsimp only
      rw [hdepth, hcut more]
      rfl
    generalize hstack : inner ++ h :: outer = stack at hn
    cases hn with
    | @shuts k₀ more _ _ hproper hs _ _ hrest =>
      have ht : a.type = k₀.type := type_of_shuts (shuts_iff.mpr hs)
      cases inner with
      | nil =>
        obtain ⟨rfl, rfl⟩ := List.cons.inj hstack
        refine ⟨[], a, row, hrest, fun more => ?_⟩
        rw [List.cons_append, Expr.splitAtCloser, if_pos ⟨ht.trans hk, rfl⟩]
      | cons k₁ inner =>
        obtain ⟨rfl, rfl⟩ := List.cons.inj hstack
        have hne : k₁.type ≠ .opening := fun h => absurd hproper.type (by rw [h]; decide)
        refine on hrest ?_ ?_
        all_goals
          rw [count, ht]
          by_cases hc : k₁.type = .closing <;> simp [hc, hne]
    | @opens k₀ _ _ _ left _ hopener hsized _ hrest =>
      subst hstack
      have hopened : a.type ≠ .closing ∧ (if a.type = .opening then bracketsOf inner + 1
          else if a.type = .closing then bracketsOf inner - 1 else bracketsOf inner) = bracketsOf (k₀ :: inner) := by
        rw [count]
        rcases type_of_opener? hopener with ⟨ht, hc⟩ | ⟨ht, hc⟩
        · simp [ht, hc]
        · simp only [List.mem_cons, List.not_mem_nil, or_false] at ht
          rcases ht with ht | ht
          · simp [ht, hc]
          · exact absurd ht hsized
      exact @on (k₀ :: inner) hrest (fun h => hopened.1 h.1) hopened.2
    | other hopener ht _ hrest =>
      subst hstack
      have ho := type_of_opener?_none hopener
      have hc : a.type ≠ .closing := fun h => ht (by simp [h])
      exact on hrest (fun h => hc h.1) (by rw [if_neg ho, if_neg hc])

/-! ### The pair -/

/-- A fence with sized delimiters in one row and with plain ones in another, between the same atoms. -/
structure SizedPair where
  left : Atom
  right : Atom
  opening : Atom
  closing : Atom
  opener : String
  closer : String
  front : List Atom
  body : List Atom
  behind : List Atom
  partner : Glyph.partners.lookup opener = some closer
  left_delimits : left.Delimits .sized opener
  right_delimits : right.Delimits .sized closer
  opening_delimits : opening.Delimits (plainType (Glyph.symmetric.contains opener) .opening) opener
  closing_delimits : closing.Delimits (plainType (Glyph.symmetric.contains opener) .closing) closer
  terms : ∀ a ∈ front, a.IsTerm
  nested : Nested ⟨.sized, some closer⟩ ⟨plainType (Glyph.symmetric.contains opener) .closing, some closer⟩ [] body
  lone : opener ∈ Glyph.symmetric → ∀ a, front.getLast? = some a → a.AwaitsOperand
  uncalled : opener = "(" → ∀ a, front.getLast? = some a → ¬a.NamesCall

/-- Where the reader is: outside of the fence, or inside of it with the fences of the stack open. -/
inductive FencePlace where
  | outside
  | inside (stack : List Closer)

namespace SizedPair

variable (p : SizedPair)

/-- What the fence with sized delimiters waits for. -/
def sizedCloser : Closer := ⟨.sized, some p.closer⟩

/-- What the fence with plain delimiters waits for. -/
def plainCloser : Closer := ⟨plainType (Glyph.symmetric.contains p.opener) .closing, some p.closer⟩

/-- The row from the sized delimiter on. -/
def sizedRow : List Atom := p.left :: (p.body ++ p.right :: p.behind)

/-- The row from the plain delimiter on. -/
def plainRow : List Atom := p.opening :: (p.body ++ p.closing :: p.behind)

/-- The fences that are open in the row with sized delimiters. -/
def sizedClosers : FencePlace → List Closer
  | .outside => []
  | .inside stack => p.sizedCloser :: stack.reverse

/-- The fences that are open in the row with plain delimiters. -/
def plainClosers : FencePlace → List Closer
  | .outside => []
  | .inside stack => p.plainCloser :: stack.reverse

/-- What is left of the two rows at a place, where the one in front of the fence is reached only if `H`. -/
inductive Rows (H : Prop) : FencePlace → List Atom → List Atom → Prop
  | same (l : List Atom) : Rows H .outside l l
  | ahead {done q : List Atom} {a : Atom} : p.front = done ++ a :: q →
    Rows H .outside (a :: (q ++ p.sizedRow)) (a :: (q ++ p.plainRow))
  | here : H → Rows H .outside p.sizedRow p.plainRow
  | inside {stack : List Closer} {q : List Atom} : Nested p.sizedCloser p.plainCloser stack q →
    Rows H (.inside stack) (q ++ p.right :: p.behind) (q ++ p.closing :: p.behind)

/-- The atom is the last one in front of the fence. -/
def EndsFront (a : Atom) : Prop := p.front.getLast? = some a

/-- Behind the expression both forms of the fence are the same to the reader. -/
def Fits (e : Expr) : Prop := p.opener ∉ Glyph.symmetric ∧ (p.opener = "(" → callName? e ≠ .ok true)

/-! ### The delimiters of the pair -/

/-- The glyphs of the pair are those of delimiters. -/
theorem mem_delimiters (p : SizedPair) : p.opener ∈ Glyph.delimiters ∧ p.closer ∈ Glyph.delimiters := by
  obtain ⟨before, behind, heq, -⟩ := List.lookup_eq_some_iff.mp p.partner
  have hmem : (p.opener, p.closer) ∈ Glyph.partners := heq ▸ List.mem_append_right _ List.mem_cons_self
  exact ⟨List.mem_append_left _ (List.mem_map.mpr ⟨_, hmem, rfl⟩),
    List.mem_append_right _ (List.mem_map.mpr ⟨_, hmem, rfl⟩)⟩

theorem isDelimiter_of_delimits {type : AtomType} {g : String} (h : a.Delimits type g)
    (htype : type ∈ [.opening, .closing, .textual, .sized]) (hg : g ∈ Glyph.delimiters) : IsDelimiter a where
  type := h.type ▸ htype
  text := by
    obtain ⟨t, htext, ht⟩ := h.text
    refine ⟨t, htext, ht, fun htextual => ?_⟩
    have hglyph := h.glyph
    rw [glyph_of_text (by rw [htextual]; decide), htext] at hglyph
    cases hglyph
    exact hg

theorem left_isDelimiter (p : SizedPair) : IsDelimiter p.left :=
  isDelimiter_of_delimits p.left_delimits (by decide) p.mem_delimiters.1

theorem right_isDelimiter (p : SizedPair) : IsDelimiter p.right :=
  isDelimiter_of_delimits p.right_delimits (by decide) p.mem_delimiters.2

theorem opening_isDelimiter (p : SizedPair) : IsDelimiter p.opening :=
  isDelimiter_of_delimits p.opening_delimits (mem_plainType _ (by decide) (by decide)) p.mem_delimiters.1

theorem closing_isDelimiter (p : SizedPair) : IsDelimiter p.closing :=
  isDelimiter_of_delimits p.closing_delimits (mem_plainType _ (by decide) (by decide)) p.mem_delimiters.2

theorem opener?_left (p : SizedPair) : p.left.opener? = .ok (some (.text p.opener, p.sizedCloser)) := by
  have hglyph := p.left_delimits.glyph
  rw [glyph, if_pos p.left_delimits.type] at hglyph
  unfold Atom.opener?
  rw [p.left_delimits.type, Except.ok.inj hglyph]
  show Except.ok ((Glyph.partners.lookup p.opener).map _) = _
  rw [p.partner]
  rfl

theorem opener?_opening (p : SizedPair) : p.opening.opener? = .ok (some (.text p.opener, p.plainCloser)) := by
  have htype := p.opening_delimits.type
  have htext := p.opening_delimits.glyph
  unfold Atom.opener?
  unfold plainCloser
  cases hs : Glyph.symmetric.contains p.opener with
  | true =>
    rw [hs] at htype
    rw [glyph_of_text (by rw [htype]; decide)] at htext
    rw [htype, htext]
    show Except.ok ((Glyph.partners.lookup p.opener).map _) = _
    rw [p.partner]
    rfl
  | false =>
    rw [hs] at htype
    rw [glyph_of_text (by rw [htype]; decide)] at htext
    rw [htype, htext]
    show Except.ok (some (Datum.text p.opener, (⟨.closing, Glyph.partners.lookup p.opener⟩ : Closer))) = _
    rw [p.partner]
    rfl

/-- A delimiter closes the fence that waits for its type and its glyph. -/
theorem closes_of_delimits {type : AtomType} {g : String} (h : a.Delimits type g) : a.closes ⟨type, some g⟩ = .ok true := by
  unfold Atom.closes
  rw [if_pos h.type, h.glyph]
  exact congrArg Except.ok (beq_self_eq_true g)

theorem closes_right (p : SizedPair) : p.right.closes p.sizedCloser = .ok true := closes_of_delimits p.right_delimits

theorem closes_closing (p : SizedPair) : p.closing.closes p.plainCloser = .ok true := closes_of_delimits p.closing_delimits

theorem closesAny_right (p : SizedPair) (ks : List Closer) : p.right.closesAny (p.sizedCloser :: ks) = .ok true := by
  rw [closesAny, p.closes_right]
  rfl

theorem closesAny_closing (p : SizedPair) (ks : List Closer) : p.closing.closesAny (p.plainCloser :: ks) = .ok true := by
  rw [closesAny, p.closes_closing]
  rfl

/-! ### Rows at a place -/

variable {p : SizedPair} {H K : Prop} {place : FencePlace} {b : Atom} {l r : List Atom}

theorem Rows.imp (h : p.Rows H place l r) (hK : H → K) : p.Rows K place l r := by
  cases h with
  | same => exact .same l
  | ahead hfront => exact .ahead hfront
  | here hH => exact .here (hK hH)
  | inside hn => exact .inside hn

/-- Inside of the fence a place may be reached in any state. -/
theorem Rows.inside_any {stack : List Closer} (h : p.Rows H (.inside stack) l r) : p.Rows K (.inside stack) l r := by
  cases h with
  | inside hn => exact .inside hn

theorem sameButDelimiters_append {l r : List Atom} (h : SameButDelimiters l r) (q : List Atom) :
    SameButDelimiters (q ++ l) (q ++ r) := by
  induction q with
  | nil => exact h
  | cons a q ih => exact .cons (.same a) ih

/-- What is left of the rows is the same but for delimiters. -/
theorem Rows.sameButDelimiters (h : p.Rows H place l r) : SameButDelimiters l r := by
  have closing : SameButDelimiters (p.right :: p.behind) (p.closing :: p.behind) :=
    .cons (.delimiters p.right_isDelimiter p.closing_isDelimiter p.right_delimits.bare p.closing_delimits.bare)
      (SameButDelimiters.refl p.behind)
  have opening : SameButDelimiters p.sizedRow p.plainRow :=
    .cons (.delimiters p.left_isDelimiter p.opening_isDelimiter p.left_delimits.bare p.opening_delimits.bare)
      (sameButDelimiters_append closing p.body)
  cases h with
  | same => exact SameButDelimiters.refl l
  | @ahead _ q a _ => exact sameButDelimiters_append opening (a :: q)
  | here => exact opening
  | inside => exact sameButDelimiters_append closing _

/-- What the first atoms of the rows do at a place.  The atom that ends the front is a term. -/
inductive View (p : SizedPair) (H : Prop) : FencePlace → Atom → List Atom → Atom → List Atom → Prop
  | same (a : Atom) (l : List Atom) : View p H .outside a l a l
  | left : H → View p H .outside p.left (p.body ++ p.right :: p.behind) p.opening (p.body ++ p.closing :: p.behind)
  | right : View p H (.inside []) p.right p.behind p.closing p.behind
  | shuts {k : Closer} {more : List Closer} {a : Atom} {l r : List Atom} : IsProper k → a.closes k = .ok true →
    a.type ≠ .sized → ClosesAlike p.sizedCloser p.plainCloser (k :: more) a true → p.Rows False (.inside more) l r →
    View p H (.inside (k :: more)) a l a r
  | opens {k : Closer} {stack : List Closer} {a : Atom} {l r : List Atom} {left : Datum} : IsDelimiter a →
    a.opener? = .ok (some (left, k)) → a.type ≠ .sized → ClosesAlike p.sizedCloser p.plainCloser stack a false →
    p.Rows False (.inside (k :: stack)) l r → View p H (.inside stack) a l a r
  | other {place : FencePlace} {a : Atom} {l r : List Atom} : a.opener? = .ok none → a.type ∉ [.closing, .sized] →
    a.closesAny (p.sizedClosers place) = .ok false → a.closesAny (p.plainClosers place) = .ok false →
    p.Rows False place (a :: l) (a :: r) → p.Rows (p.EndsFront a) place l r → View p H place a l a r

theorem Rows.view (h : p.Rows H place (a :: l) (b :: r)) : p.View H place a l b r := by
  generalize hl : a :: l = l' at h
  generalize hr : b :: r = r' at h
  cases h with
  | same =>
    obtain ⟨rfl, rfl⟩ := List.cons.inj (hl.trans hr.symm)
    exact .same a l
  | @ahead done q c hfront =>
    obtain ⟨rfl, rfl⟩ := List.cons.inj hl
    obtain ⟨rfl, rfl⟩ := List.cons.inj hr
    have hterm := p.terms b (hfront ▸ List.mem_append_right _ List.mem_cons_self)
    have htype : b.type ∉ [.closing, .sized] := fun h => by
      have := hterm.type
      simp only [List.mem_cons, List.not_mem_nil, or_false] at h
      rcases h with h | h <;> rw [h] at this <;> exact absurd this (by decide)
    refine .other hterm.opener? htype rfl rfl (.ahead hfront) ?_
    cases q with
    | nil => exact .here (by rw [EndsFront, hfront, List.getLast?_concat])
    | cons c q => exact .ahead (hfront.trans (List.append_assoc done [b] (c :: q)).symm)
  | here hH =>
    obtain ⟨rfl, rfl⟩ := List.cons.inj hl
    obtain ⟨rfl, rfl⟩ := List.cons.inj hr
    exact .left hH
  | @inside stack q hn =>
    cases hn with
    | nil =>
      obtain ⟨rfl, rfl⟩ := List.cons.inj hl
      obtain ⟨rfl, rfl⟩ := List.cons.inj hr
      exact .right
    | shuts hproper hcloses hsized halike hrest =>
      obtain ⟨rfl, rfl⟩ := List.cons.inj hl
      obtain ⟨rfl, rfl⟩ := List.cons.inj hr
      exact .shuts hproper hcloses hsized halike (.inside hrest)
    | opens hdelimiter hopener hsized halike hrest =>
      obtain ⟨rfl, rfl⟩ := List.cons.inj hl
      obtain ⟨rfl, rfl⟩ := List.cons.inj hr
      exact .opens hdelimiter hopener hsized halike (.inside hrest)
    | other hopener htype halike hrest =>
      obtain ⟨rfl, rfl⟩ := List.cons.inj hl
      obtain ⟨rfl, rfl⟩ := List.cons.inj hr
      exact .other hopener htype halike.left halike.right (.inside (.other hopener htype halike hrest)) (.inside hrest)

/-- Inside of a fence a row is never at its end. -/
theorem Rows.nil_iff (h : p.Rows H place l r) : l = [] ↔ r = [] := by
  have := h.sameButDelimiters.length_eq
  rw [← List.length_eq_zero_iff, ← List.length_eq_zero_iff, this]

/-- What an atom that closes a fence is spelled. -/
theorem isDelimiter_of_closes (hk : IsProper k) (h : a.closes k = .ok true) (hs : a.type ≠ .sized) : IsDelimiter a := by
  obtain ⟨t, ht, htext⟩ := text_of_shuts hk (shuts_iff.mpr h) hs
  refine isDelimiter_of_text ht htext ?_
  rw [type_of_shuts (shuts_iff.mpr h)]
  have := hk.type
  revert this
  cases k.type <;> decide

/-- Behind an atom that is no delimiter the rows are left at the same place. -/
theorem Rows.tail (h : p.Rows H place (a :: l) (b :: r)) (hb : ¬IsDelimiter b) :
    a = b ∧ p.Rows (p.EndsFront a) place l r := by
  cases h.view with
  | same => exact ⟨rfl, .same l⟩
  | left => exact absurd p.opening_isDelimiter hb
  | right => exact absurd p.closing_isDelimiter hb
  | shuts hk hcloses hs => exact absurd (isDelimiter_of_closes hk hcloses hs) hb
  | opens hdelimiter => exact absurd hdelimiter hb
  | other _ _ _ _ _ hbehind => exact ⟨rfl, hbehind⟩

/-- The same fences are closed on both sides. -/
theorem Rows.closesAny (h : p.Rows H place (a :: l) (b :: r)) :
    a.closesAny (p.sizedClosers place) = b.closesAny (p.plainClosers place) := by
  cases h.view with
  | same => rfl
  | left => rfl
  | right => rw [sizedClosers, plainClosers, p.closesAny_right, p.closesAny_closing]
  | shuts _ _ _ halike => exact halike.left.trans halike.right.symm
  | opens _ _ _ halike => exact halike.left.trans halike.right.symm
  | other _ _ hleft hright => exact hleft.trans hright.symm

/-! ### Questions at a place -/

/-- The rows stand in front of the fence, or they are in no such place. -/
theorem Rows.here_or (h : p.Rows H place l r) :
    p.Rows False place l r ∨ (H ∧ place = .outside ∧ l = p.sizedRow ∧ r = p.plainRow) := by
  cases h with
  | same => exact .inl (.same l)
  | ahead hfront => exact .inl (.ahead hfront)
  | here hH => exact .inr ⟨hH, rfl, rfl, rfl⟩
  | inside hn => exact .inl (.inside hn)

/-- An atom that closes the same fences starts an operand or not on both sides. -/
theorem startsOperand_congr {c : Catalog} {ks ks' : List Closer} (h : a.closesAny ks = a.closesAny ks') :
    a.startsOperand c ks = a.startsOperand c ks' := by
  unfold Atom.startsOperand
  rw [h]

/-- A fence whose glyphs differ is an operand in both forms. -/
theorem startsOperand_fence (hsymmetric : p.opener ∉ Glyph.symmetric) :
    p.left.startsOperand .builtin [] = .ok true ∧ p.opening.startsOperand .builtin [] = .ok true := by
  have hcontains : Glyph.symmetric.contains p.opener = false := by simpa using hsymmetric
  constructor
  · have hclosers : ∀ e ∈ Glyph.partners, e.1 ∉ Glyph.symmetric → Glyph.closers.contains e.1 = false := by decide
    obtain ⟨before, behind, heq, -⟩ := List.lookup_eq_some_iff.mp p.partner
    have hcloser := hclosers (p.opener, p.closer) (heq ▸ List.mem_append_right _ List.mem_cons_self) hsymmetric
    have hglyph := p.left_delimits.glyph
    rw [glyph, if_pos p.left_delimits.type] at hglyph
    unfold Atom.startsOperand
    rw [p.left_isDelimiter.precedence, p.left_delimits.type, Except.ok.inj hglyph]
    show Except.ok ((Glyph.partners.lookup p.opener).isSome && !Glyph.closers.contains p.opener) = _
    rw [p.partner, hcloser]
    rfl
  · have htype := p.opening_delimits.type
    rw [hcontains] at htype
    unfold Atom.startsOperand
    rw [p.opening_isDelimiter.precedence, htype, p.opening_isDelimiter.isPlaceholder]
    rfl

theorem Rows.startsOperand {e : Expr} (h : p.Rows (p.Fits e) place (a :: l) (b :: r)) :
    a.startsOperand .builtin (p.sizedClosers place) = b.startsOperand .builtin (p.plainClosers place) := by
  cases h.view with
  | same => rfl
  | left hfits => exact (startsOperand_fence hfits.1).1.trans (startsOperand_fence hfits.1).2.symm
  | right =>
    exact (startsOperand_of_closed (p.closesAny_right _)).trans (startsOperand_of_closed (p.closesAny_closing _)).symm
  | shuts _ _ _ halike => exact startsOperand_congr (halike.left.trans halike.right.symm)
  | opens _ _ _ halike => exact startsOperand_congr (halike.left.trans halike.right.symm)
  | other _ _ hleft hright => exact startsOperand_congr (hleft.trans hright.symm)

/-! ### Arguments of a call -/

/-- The same arguments and the same atom that ends them, with the rows behind it at the place. -/
inductive SameCut (p : SizedPair) (place : FencePlace) :
    Option (List Atom × Atom × List Atom) → Option (List Atom × Atom × List Atom) → Prop
  | none : SameCut p place none none
  | some {inner : List Atom} {last : Atom} {l r : List Atom} : p.Rows False place l r →
    SameCut p place (some (inner, last, l)) (some (inner, last, r))

/-- The atoms of the front are terms. -/
theorem EndsFront.isTerm (h : p.EndsFront a) : a.IsTerm := p.terms a (List.mem_of_getLast? h)

/-- An atom that closes no fence starts the same arguments on both sides. -/
theorem Rows.callArguments {F : Fault → Prop} (h : p.Rows False place (a :: l) (b :: r))
    (hopen : a.closesAny (p.sizedClosers place) = .ok false) :
    Agree F (p.SameCut place) (callArguments? (a :: l)) (callArguments? (b :: r)) := by
  have none : ∀ {a : Atom} {l r : List Atom}, a.type ≠ .fenced → a.type ≠ .opening →
      Agree F (p.SameCut place) (callArguments? (a :: l)) (callArguments? (a :: r)) := by
    intro a l r hf ho
    rw [callArguments?_none hf ho, callArguments?_none hf ho]
    exact .none
  cases h.view with
  | same =>
    refine .refl (fun cut => ?_) _
    obtain _ | ⟨inner, last, rest⟩ := cut
    · exact .none
    · exact .some (.same rest)
  | left hfalse => exact hfalse.elim
  | right =>
    rw [sizedClosers, p.closesAny_right] at hopen
    cases hopen
  | shuts _ _ _ halike =>
    rw [sizedClosers, halike.left] at hopen
    cases hopen
  | @opens k stack _ _ _ left _ hopener hsized halike hbehind =>
    rcases type_of_opener? hopener with ⟨ht, hk⟩ | ⟨ht, -⟩
    · cases hbehind with
      | @inside _ q hn =>
        obtain ⟨body, last, rest, hrest, hcut⟩ := @Nested.splitAtCloser _ _ _ _ hk _ [] hn
        rw [Expr.callArguments?, Expr.callArguments?, ht]
        refine .ask fun text _ => .choice (fun _ => ?_) fun _ => .none
        rw [show (0 : Nat) = bracketsOf [] from rfl, hcut, hcut]
        exact .some (.inside hrest)
    · refine none ?_ ?_ <;>
      · intro heq
        rw [heq] at ht
        exact absurd ht (by decide)
  | other hopener _ _ _ _ hbehind =>
    have ho := type_of_opener?_none hopener
    by_cases hf : a.type = .fenced
    · have hrest : p.Rows False place l r := hbehind.imp fun hends => by
        have := hends.isTerm.type
        rw [hf] at this
        exact absurd this (by decide)
      rw [Expr.callArguments?, Expr.callArguments?, hf]
      exact .choice (fun _ => .some hrest) fun _ => .none
    · exact none hf ho

/-- A fence that fits behind an expression is no arguments of it, in neither form. -/
theorem Fits.callArguments {e : Expr} (h : p.Fits e) (hcall : callName? e = .ok true) :
    callArguments? p.sizedRow = .ok none ∧ callArguments? p.plainRow = .ok none := by
  refine ⟨callArguments?_none (by rw [p.left_delimits.type]; decide) (by rw [p.left_delimits.type]; decide), ?_⟩
  have hcontains : Glyph.symmetric.contains p.opener = false := by simpa using h.1
  have htype := p.opening_delimits.type
  have htext := p.opening_delimits.glyph
  rw [hcontains] at htype
  rw [glyph_of_text (by rw [htype]; decide)] at htext
  rw [plainRow, Expr.callArguments?, htype, htext]
  have hne : p.opener ≠ "(" := fun heq => h.2 heq hcall
  show (if (p.opener == "(") = true then _ else _) = _
  rw [if_neg (by simpa using hne)]
  rfl

/-! ### Numerals -/

/-- The fence starts no numeral and no exponent. -/
theorem startsWithDigit_sizedRow (p : SizedPair) : startsWithDigit p.sizedRow = .ok false := p.left_isDelimiter.isSolitary.isDigit

theorem startsWithExponent_sizedRow (p : SizedPair) : startsWithExponent p.sizedRow = .ok false := by
  unfold startsWithExponent sizedRow
  dsimp only
  rw [show startsWithDigit (p.left :: _) = .ok false from p.left_isDelimiter.isSolitary.isDigit, p.left_isDelimiter.isSolitary.signOf?]
  rfl

end SizedPair

namespace Atom

/-! ### What awaits no operand -/

/-- Digits, points and exclamation marks are neither operators nor functions. -/
theorem quiet_texts : ∀ t ∈ digits ++ [".", "!"],
    (Catalog.builtin.canonicalNameOf (.text t) >>= Catalog.builtin.precedenceOf) = .ok none ∧
    (Catalog.builtin.canonicalNameOf (.text t)).map Catalog.builtin.isFunction = .ok false ∧
    Text.beginsWith t "\\operatorname" = false := by decide

/-- Postfix marks are no operators. -/
theorem precedenceOf_marks : ∀ e ∈ Glyph.postfixFunctions,
    (Catalog.builtin.canonicalNameOf (.text e.1) >>= Catalog.builtin.precedenceOf) = .ok none := by decide +kernel

theorem precedence_of_text {t : String} (ht : a.text = .ok (.text t))
    (h : (Catalog.builtin.canonicalNameOf (.text t) >>= Catalog.builtin.precedenceOf) = .ok none) :
    a.precedence .builtin = .ok none := by
  unfold Atom.precedence Atom.name
  rw [ht]
  split
  · exact h
  · rfl

theorem not_awaitsOperand_of_text {t : String} (ht : a.text = .ok (.text t)) (hmem : t ∈ digits ++ [".", "!"]) :
    ¬a.AwaitsOperand := by
  obtain ⟨hprecedence, hfunction, hbegins⟩ := quiet_texts t hmem
  rintro (⟨q, hq⟩ | ⟨-, hq, -⟩)
  · rw [precedence_of_text ht hprecedence] at hq
    cases hq
  · obtain ⟨name, hname, hfunction⟩ := map_eq_ok.mp hfunction
    obtain ⟨name', hname', hq⟩ := bind_eq_ok.mp hq
    unfold Atom.name at hname'
    rw [ht] at hname'
    cases hname.symm.trans hname'
    obtain ⟨precedence, -, hq⟩ := bind_eq_ok.mp hq
    split at hq
    · cases hq
    obtain ⟨text, htext, hq⟩ := bind_eq_ok.mp hq
    cases ht.symm.trans htext
    rw [hfunction] at hq
    split at hq
    · rename_i heq
      obtain rfl := Datum.text.inj heq
      have hq := Except.ok.inj hq
      rw [hbegins] at hq
      cases hq
    · rename_i hno
      exact hno t rfl
    · cases hq

theorem not_awaitsOperand_of_mark {name : String} (h : a.postfixFunction? = .ok (some name)) : ¬a.AwaitsOperand := by
  rintro (⟨q, hq⟩ | ⟨-, -, hnone⟩)
  · have ht := type_of_postfixFunction? h
    unfold Atom.postfixFunction? at h
    rw [if_pos ht] at h
    obtain ⟨text, htext, h⟩ := bind_eq_ok.mp h
    obtain ⟨t, rfl, hmem⟩ := Datum.mem_of_lookup h
    rw [precedence_of_text htext (precedenceOf_marks _ hmem)] at hq
    cases hq
  · rw [h] at hnone
    cases hnone

end Atom

namespace SizedPair

variable {p : SizedPair} {H K : Prop} {place : FencePlace} {b : Atom} {l r : List Atom}

/-- An atom that awaits no operand ends the front of no fence that can close. -/
theorem EndsFront.not_symmetric (h : p.EndsFront a) (ha : ¬a.AwaitsOperand) : p.opener ∉ Glyph.symmetric :=
  fun hsymmetric => ha (p.lone hsymmetric a h)

/-- The last atom of a numeral may stand in front of the fence. -/
def EndsNumeral (p : SizedPair) (last : Option Atom) : Prop :=
  p.opener ∉ Glyph.symmetric ∧ ∀ a ∈ last, a.hasScripts = false

/-- The same numeral, with the rows behind it at the place. -/
def SameNumeral (p : SizedPair) (place : FencePlace) (x y : NumeralReading) : Prop :=
  x.chars = y.chars ∧ x.last = y.last ∧ p.Rows (p.EndsNumeral y.last) place x.rest y.rest

theorem Rows.scanNumeralFrom {F : Fault → Prop} {last : Option Atom} (h : p.Rows (p.EndsNumeral last) place l r)
    (state : NumeralState) (chars : List Char) (hsign : state = .sign → startsWithExponent l = .ok true) :
    Agree F (p.SameNumeral place) (scanNumeralFrom state chars last l) (Atom.scanNumeralFrom state chars last r) := by
  induction l generalizing r state chars last with
  | nil =>
    cases h.nil_iff.mp rfl
    exact ⟨rfl, rfl, h⟩
  | cons a l ih =>
    cases r with
    | nil => cases h.nil_iff.mpr rfl
    | cons b r =>
      obtain ⟨hab, hlr⟩ := List.forall₂_cons.mp h.sameButDelimiters
      rw [Atom.scanNumeralFrom, Atom.scanNumeralFrom, SameButDelimiters.numeralStep hab hlr, hab.hasScripts]
      refine .ask fun found hfound => ?_
      cases found with
      | none => exact ⟨rfl, rfl, h⟩
      | some step =>
        obtain ⟨added, next⟩ := step
        have hnot : ¬IsDelimiter b := fun hb => by
          rw [hb.isSolitary.numeralStep] at hfound
          cases hfound
        obtain ⟨rfl, hbehind⟩ := h.tail hnot
        rw [← SameButDelimiters.numeralStep hab hlr] at hfound
        have hrest : p.Rows (p.EndsNumeral (some a)) place l r := by
          rcases hbehind.here_or with hbehind | ⟨hends, -, rfl, -⟩
          · exact hbehind.imp False.elim
          · obtain ⟨t, hmem, ht⟩ := text_of_numeralStep hfound p.startsWithDigit_sizedRow
              p.startsWithExponent_sizedRow hsign
            refine hbehind.imp fun hends => ⟨hends.not_symmetric (not_awaitsOperand_of_text ht hmem), ?_⟩
            rintro _ ⟨⟩
            exact hends.isTerm.bare
        refine .choice (fun _ => ⟨rfl, rfl, hrest⟩) fun _ => ?_
        refine ih hrest next _ fun hnext => ?_
        exact (numeralPart_of_step hfound).startsWithExponent hnext

theorem Rows.scanNumeral {F : Fault → Prop} (h : p.Rows False place l r) :
    Agree F (p.SameNumeral place) (scanNumeral l) (Atom.scanNumeral r) :=
  (h.imp False.elim).scanNumeralFrom _ _ nofun

end SizedPair

end Formula
