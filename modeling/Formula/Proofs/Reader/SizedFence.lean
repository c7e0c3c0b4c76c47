import Formula.Proofs.Reader.Fences
import Formula.Proofs.Reader.SizedReading
import Formula.Source

/-!
# Sized delimiters of LaTeX

A fence with sized delimiters is read as the same fence with plain ones, as LaTeX gives them to the glyphs.  What sets the
two apart is that a sized delimiter that can close is never a factor.
-/

namespace Formula

open Atom Expr Outcome

/-! ### Delimiters of LaTeX -/

/-- The four delimiters of a fence with two glyphs: the sized ones, and the plain ones of the role that the glyphs have. -/
structure AreDelimiters (l r : String) (left right opening closing : Atom) : Prop where
  partner : Glyph.partners.lookup l = some r
  left : left.Delimits .sized l
  right : right.Delimits .sized r
  opening : opening.Delimits (plainType (Glyph.symmetric.contains l) .opening) l
  closing : closing.Delimits (plainType (Glyph.symmetric.contains l) .closing) r

/-- A delimiter behind the command of a size. -/
def sizedAtom (size g : String) : Atom := { type := .sized, latex := .text size, delim := .text g }

theorem delimits_sizedAtom {size : String} (h : size ∈ Source.sizes) (g : String) : (sizedAtom size g).Delimits .sized g where
  type := rfl
  glyph := rfl
  bare := rfl
  text := by
    have hall : ∀ size ∈ Source.sizes, (sizedAtom size g).text = .ok (.text size) ∧
        size ∉ [",", "!", "\\nabla", "\\times", "\\cdot"] := by
      intro size h
      simp only [Source.sizes, List.mem_cons, List.not_mem_nil, or_false] at h
      rcases h with rfl | rfl | rfl | rfl | rfl | rfl | rfl | rfl | rfl | rfl | rfl | rfl | rfl | rfl | rfl | rfl
      all_goals exact ⟨rfl, by decide⟩
    exact ⟨size, hall size h⟩

/-- The plain delimiters of LaTeX have the roles of their glyphs. -/
theorem symbolAtom_partners : ∀ e ∈ Glyph.partners,
    ((Source.symbolAtom .builtin e.1).map fun a => (a.type, a.hasScripts, a.spelled e.1)) =
      .ok (plainType (Glyph.symmetric.contains e.1) .opening, false, true) ∧
    ((Source.symbolAtom .builtin e.2).map fun a => (a.type, a.hasScripts, a.spelled e.2)) =
      .ok (plainType (Glyph.symmetric.contains e.1) .closing, false, true) := by decide +kernel

theorem delimits_of_symbolAtom {type : AtomType} {g : String} {a : Atom} (hg : g ∈ Glyph.delimiters)
    (htype : type ∈ [.opening, .closing, .textual])
    (h : ((Source.symbolAtom .builtin g).map fun a => (a.type, a.hasScripts, a.spelled g)) = .ok (type, false, true))
    (ha : Source.symbolAtom .builtin g = .ok a) : a.Delimits type g := by
  rw [ha] at h
  obtain ⟨ht, hs, hspelled⟩ : a.type = type ∧ a.hasScripts = false ∧ a.spelled g = true := by
    have := Except.ok.inj h
    simpa using this
  have htext := spelled_iff.mp hspelled
  have hne : a.type ≠ .sized := by
    rw [ht]
    revert htype
    cases type <;> decide
  have hdelimiter := isDelimiter_of_text hg htext (by
    rw [ht]
    revert htype
    cases type <;> decide)
  obtain ⟨t, htext', hmem, -⟩ := hdelimiter.text
  exact ⟨ht, (glyph_of_text hne).trans htext, hs, t, htext', hmem⟩

/-- Sized and plain delimiters as they are read in LaTeX are the delimiters of a fence. -/
theorem areDelimiters_of_symbolAtom {l r size size' : String} {opening closing : Atom}
    (hpartner : Glyph.partners.lookup l = some r) (hsize : size ∈ Source.sizes) (hsize' : size' ∈ Source.sizes)
    (hopening : Source.symbolAtom .builtin l = .ok opening) (hclosing : Source.symbolAtom .builtin r = .ok closing) :
    AreDelimiters l r (sizedAtom size l) (sizedAtom size' r) opening closing := by
  obtain ⟨before, behind, heq, -⟩ := List.lookup_eq_some_iff.mp hpartner
  have hmem : (l, r) ∈ Glyph.partners := heq ▸ List.mem_append_right _ List.mem_cons_self
  obtain ⟨hl, hr⟩ := symbolAtom_partners (l, r) hmem
  exact ⟨hpartner, delimits_sizedAtom hsize l, delimits_sizedAtom hsize' r,
    delimits_of_symbolAtom (List.mem_append_left _ (List.mem_map.mpr ⟨_, hmem, rfl⟩)) (mem_plainType _ (by decide) (by decide))
      hl hopening,
    delimits_of_symbolAtom (List.mem_append_right _ (List.mem_map.mpr ⟨_, hmem, rfl⟩)) (mem_plainType _ (by decide) (by decide))
      hr hclosing⟩

/-! ### The theorem -/

/-- The outermost fence is closed by a textual atom only if its glyph is the one that opened it. -/
theorem AreDelimiters.not_shuts_textual {l r : String} {left right opening closing a : Atom}
    (h : AreDelimiters l r left right opening closing) (ht : a.type = .textual)
    (hspelled : l ∈ Glyph.symmetric → a.spelled l = false) :
    a.shuts ⟨plainType (Glyph.symmetric.contains l) .closing, some r⟩ ≠ true := by
  intro hs
  have htype := type_of_shuts hs
  rw [ht] at htype
  cases hc : Glyph.symmetric.contains l with
  | false =>
    rw [hc] at htype
    cases htype
  | true =>
    have hmem : l ∈ Glyph.symmetric := List.contains_iff_mem.mp hc
    have hself : ∀ g ∈ Glyph.symmetric, Glyph.partners.lookup g = some g := by decide
    obtain rfl : l = r := Option.some.inj ((hself l hmem).symm.trans h.partner)
    have hcloses := shuts_iff.mp hs
    unfold Atom.closes at hcloses
    rw [if_pos (type_of_shuts hs), glyph_of_text (by rw [ht]; decide)] at hcloses
    obtain ⟨text, htext, hcloses⟩ := bind_eq_ok.mp hcloses
    rw [Datum.eq_text_of_isText (Except.ok.inj hcloses)] at htext
    have := hspelled hmem
    rw [spelled_iff.mpr htext] at this
    cases this

/-- The atoms of a row with a fence in it, without the spaces. -/
theorem unspaced_around {front : List Atom} {first last : Atom} (hfront : ∀ a ∈ front, a.IsTerm) (hfirst : IsDelimiter first)
    (hlast : IsDelimiter last) (body behind : List Atom) : unspaced (front ++ first :: (body ++ last :: behind)) =
      front ++ first :: (unspaced body ++ last :: unspaced behind) := by
  have hterms : unspaced front = front := unspaced_eq_self fun a ha heq => by
    have htype := (hfront a ha).type
    rw [heq] at htype
    exact absurd htype (by decide)
  rw [unspaced_append, hterms, unspaced_cons_of_ne (hfirst.type_ne (by decide)), unspaced_append,
    unspaced_cons_of_ne (hlast.type_ne (by decide))]

/-- **Sized delimiters are a fence like plain ones.**  In front of the fence stand terms, in it atoms whose own fences nest and
are not sized, and behind it anything.  A delimiter that can also close has to stand where an operand is awaited, and must not
occur once more in the fence; a parenthesis must not stand behind the name of a call. -/
theorem ofAtoms_sized_fence {l r : String} {left right opening closing : Atom}
    (h : AreDelimiters l r left right opening closing) {front body : List Atom} (hfront : ∀ a ∈ front, a.IsTerm)
    (hbody : ∀ a ∈ body, a.type ≠ .sized) (hnest : fencesNest [] body = true)
    (hsymmetric : l ∈ Glyph.symmetric → (∀ a ∈ front.getLast?, a.AwaitsOperand) ∧
      ∀ a ∈ body, a.type = .textual → a.spelled l = false)
    (hcall : l = "(" → ∀ a ∈ front.getLast?, ¬a.NamesCall) (behind : List Atom) :
    ofAtoms .builtin (front ++ left :: (body ++ right :: behind)) =
      ofAtoms .builtin (front ++ opening :: (body ++ closing :: behind)) := by
  have htextual : ∀ a ∈ body, a.type ≠ .sized ∧
      (a.type = .textual → a.shuts ⟨plainType (Glyph.symmetric.contains l) .closing, some r⟩ ≠ true) :=
    fun a ha => ⟨hbody a ha, fun ht => h.not_shuts_textual ht fun hmem => (hsymmetric hmem).2 a ha ht⟩
  let p : SizedPair := {
    left, right, opening, closing, front
    opener := l
    closer := r
    body := unspaced body
    behind := unspaced behind
    partner := h.partner
    left_delimits := h.left
    right_delimits := h.right
    opening_delimits := h.opening
    closing_delimits := h.closing
    terms := hfront
    nested := .of_fencesNest rfl (fun _ h => by cases h) hnest htextual (mem_plainType _ (by decide) (by decide))
    lone := fun hmem a ha => (hsymmetric hmem).1 a ha
    uncalled := fun hparenthesis a ha => hcall hparenthesis a ha }
  exact SizedPair.ofAtoms_alike (p := p) (unspaced_around hfront p.left_isDelimiter p.right_isDelimiter body behind)
    (unspaced_around hfront p.opening_isDelimiter p.closing_isDelimiter body behind)

/-- The sum of a letter and an absolute value between sized bars. -/
theorem ofAtoms_sized_fence_bars : ∃ bar plus, AreDelimiters "|" "|" (sizedAtom "\\bigl" "|") (sizedAtom "\\bigr" "|") bar bar ∧
    Atom.AwaitsOperand plus ∧ fencesNest [] [openingAtom, ofCharacter 'y', closingAtom] = true ∧
    ofAtoms .builtin ([ofCharacter 'a', plus] ++ sizedAtom "\\bigl" "|" ::
      ([openingAtom, ofCharacter 'y', closingAtom] ++ sizedAtom "\\bigr" "|" :: [ofCharacter 'z'])) =
      .ok (between "+" (ofSymbol (.text "a") .null) (between "*"
        (apply "abs" (fenced (ofSymbol (.text "y") .null) parentheses)) (ofSymbol (.text "z") .null))) := by
  let plus : Atom := { type := .binary, value := "+" }
  have h : AreDelimiters "|" "|" (sizedAtom "\\bigl" "|") (sizedAtom "\\bigr" "|") { type := .textual, value := "|" }
      { type := .textual, value := "|" } := areDelimiters_of_symbolAtom rfl (by decide) (by decide) rfl rfl
  have hplus : plus.AwaitsOperand := .inl ⟨_, rfl⟩
  refine ⟨_, plus, h, hplus, rfl, ?_⟩
  rw [ofAtoms_sized_fence h]
  · rfl
  · intro a ha
    simp only [List.mem_cons, List.not_mem_nil, or_false] at ha
    rcases ha with rfl | rfl
    · exact ⟨by decide, rfl, rfl, rfl⟩
    · exact ⟨by decide, rfl, rfl, rfl⟩
  · decide
  · rfl
  · refine fun _ => ⟨?_, by decide⟩
    rintro _ ⟨⟩
    exact hplus
  · exact fun heq => absurd heq (by decide)

/-- Behind a factor a sized bar is no operand: it ends the sum, and all of the sum is multiplied by what is between the bars,
where plain bars multiply its last term. -/
theorem ofAtoms_sized_fence_behind_factor : ∃ bar plus,
    AreDelimiters "|" "|" (sizedAtom "\\big" "|") (sizedAtom "\\big" "|") bar bar ∧
    (∀ a ∈ [ofCharacter 'a', plus, ofCharacter 'x'], a.IsTerm) ∧ fencesNest [] [ofCharacter 'y'] = true ∧
    ofAtoms .builtin ([ofCharacter 'a', plus, ofCharacter 'x'] ++ sizedAtom "\\big" "|" ::
      ([ofCharacter 'y'] ++ sizedAtom "\\big" "|" :: [])) ≠
    ofAtoms .builtin ([ofCharacter 'a', plus, ofCharacter 'x'] ++ bar :: ([ofCharacter 'y'] ++ bar :: [])) := by
  let a := ofSymbol (.text "a") .null
  let x := ofSymbol (.text "x") .null
  let value := apply "abs" (ofSymbol (.text "y") .null)
  refine ⟨{ type := .textual, value := "|" }, { type := .binary, value := "+" },
    areDelimiters_of_symbolAtom rfl (by decide) (by decide) rfl rfl, ?_, rfl, fun heq => ?_⟩
  · intro a ha
    simp only [List.mem_cons, List.not_mem_nil, or_false] at ha
    rcases ha with rfl | rfl | rfl
    · exact ⟨by decide, rfl, rfl, rfl⟩
    · exact ⟨by decide, rfl, rfl, rfl⟩
    · exact ⟨by decide, rfl, rfl, rfl⟩
  · have heq : (.ok (between "*" (between "+" a x) value) : Outcome Expr) = .ok (between "+" a (between "*" x value)) := heq
    have hop : Datum.text "*" = .text "+" := (Expr.binary.inj (Except.ok.inj heq)).1
    exact absurd (Datum.text.inj hop) (by decide)

end Formula
