import Formula.Format.Template
import Formula.Proofs.Format.Accuracy
import Formula.Proofs.Settling

/-!
# Texts that are put together

What is written is put together of fixed texts, of digits and of labels, by joining and by braces around.  A property of
texts is kept in writing (`KeptInWriting`) if the fixed texts and the digits have it, and what is put together of texts that
have it has it too.  Then every number that is written has the property.
-/

namespace Formula

open Number Text Outcome

namespace Format

/-- The texts that are written whatever there is to write. -/
def fixedTexts : List String := [
  "(", ")", "[", "]", "^", "_", " ", ", ", ".", "+", "-", "\\mathrm\x7bi\x7d", thinSpace, "10^", "\\overline", "\\ldots",
  "\\cdot ", "\\frac", "\\sqrt",
  "\\infty", "-\\infty", notANumber, "\\mathrm", "\\mathbb", "\\mathbf", "\\mathscr", "\\mathfrak", "\\mathsf", "\\mathtt",
  "\\bbox[#F56165]"]

/-- If the outcome is a text, that text has the property. -/
abbrev Yields (P : String → Prop) (written : Outcome String) : Prop := written.Within (fun _ => True) P

/-- The property holds of what is put together of texts that have it. -/
structure KeptInWriting (P : String → Prop) : Prop where
  append : ∀ {s t : String}, P s → P t → P (s ++ t)
  braced : ∀ {s : String}, P s → P ("\x7b" ++ s ++ "\x7d")
  digits : ∀ cs : List Char, (∀ d ∈ cs, d.isDigit = true) → P (String.ofList cs)
  fixed : ∀ s ∈ fixedTexts, P s

namespace KeptInWriting

variable {P : String → Prop} (hP : KeptInWriting P)

include hP

theorem empty : P "" := hP.digits [] nofun

/-! ### Joining -/

theorem glue {s t : String} (hs : P s) (ht : P t) : P (glue s t) := by
  unfold Format.glue
  split
  · exact hs
  · split
    · exact hP.append (hP.append hs (hP.fixed " " (by decide))) ht
    · exact hP.append hs ht

theorem join {pieces : List String} (h : ∀ s ∈ pieces, P s) : P (join pieces) := by
  have hfold : ∀ (pieces : List String) (out : String), P out → (∀ s ∈ pieces, P s) → P (pieces.foldl Format.glue out) := by
    intro pieces
    induction pieces with
    | nil => exact fun _ hout _ => hout
    | cons s pieces ih =>
      intro out hout h
      exact ih _ (hP.glue hout (h s List.mem_cons_self)) fun t ht => h t (List.mem_cons_of_mem s ht)
  exact hfold pieces "" hP.empty h

theorem intercalate {separator : String} (hs : P separator) :
    ∀ {pieces : List String}, (∀ s ∈ pieces, P s) → P (separator.intercalate pieces)
  | [], _ => by
    rw [String.intercalate_nil]
    exact hP.empty
  | [s], h => by
    rw [String.intercalate_singleton]
    exact h s List.mem_cons_self
  | s :: t :: pieces, h => by
    rw [String.intercalate_cons_of_ne_nil (List.cons_ne_nil _ _)]
    exact hP.append (hP.append (h s List.mem_cons_self) hs) (intercalate hs fun u hu => h u (List.mem_cons_of_mem s hu))

/-! ### Numbers -/

theorem intText (n : Int) : P (intText n) := by
  have hdigits : P (String.ofList (Nat.toDigits 10 n.natAbs)) := hP.digits _ (List.all_eq_true.mp (all_toDigits _))
  unfold Number.intText
  split
  · exact hP.append (hP.fixed "-" (by decide)) hdigits
  · exact hdigits

theorem spaced {groups : List (List Char)} (h : ∀ group ∈ groups, ∀ d ∈ group, d.isDigit = true) : P (spaced groups) := by
  refine hP.intercalate (hP.fixed thinSpace (by decide)) fun s hs => ?_
  obtain ⟨group, hgroup, rfl⟩ := List.mem_map.mp hs
  exact hP.digits _ (h group hgroup)

theorem layout {l : Layout} (h : l.Sound) : P (l.text "\\cdot ") := by
  have hgroups : ∀ first {digits : List Char}, (∀ d ∈ digits, d.isDigit = true) → P (Format.spaced (groupsFrom first digits)) :=
    fun first digits hd => hP.spaced fun _ hg d hmem => hd d (mem_of_mem_groupsFrom hg hmem)
  have hfraction : P l.fractionText := by
    refine hP.append (hgroups 0 h.fraction) ?_
    split
    · exact hP.empty
    · exact hP.append (s := "\\overline") (hP.fixed _ (by decide)) (hP.braced (hP.digits _ h.block))
  have hpower : P (Layout.power l.shift) :=
    hP.append (s := "10^") (hP.fixed _ (by decide)) (hP.braced (hP.intText l.shift))
  have hmantissa : P l.mantissa := by
    refine hP.append (hP.append (hgroups _ h.whole) ?_) ?_
    · split
      · exact hP.empty
      · exact hP.append (hP.fixed "." (by decide)) hfraction
    · split
      · exact hP.fixed _ (by decide)
      · exact hP.empty
  unfold Layout.text
  split
  · exact hmantissa
  · split
    · exact hpower
    · exact hP.append (hP.append hmantissa (hP.fixed _ (by decide))) hpower

/-- A magnitude is written with the property. -/
theorem magnitude (d : Decimal) : Yields P (({} : Format).magnitude d) := by
  exact .of_eq_ok (magnitude_layout (p := 14) (by decide) (by decide) "auto" "\\cdot " d)
    (hP.layout (layoutOf_rounded_sound 14 d _))

theorem signed (negative : Bool) (d : Decimal) : Yields P (({} : Format).signed negative d) := by
  refine (hP.magnitude _).bind fun text htext => within_ok (hP.append ?_ htext)
  cases negative with
  | true => exact hP.fixed "-" (by decide)
  | false => exact hP.empty

theorem double (x : Double) : Yields P (({} : Format).double x) := by
  cases x with
  | nan => exact within_ok (hP.fixed _ (by decide))
  | infinite negative => cases negative <;> exact within_ok (hP.fixed _ (by decide))
  | finite negative m q => exact .choice (fun _ => hP.signed _ _) fun _ => hP.signed _ _

theorem ratio (r : Rat) : Yields P (({} : Format).ratio r) := by
  have hdigits : ∀ n, Yields P (digitsOf n) := fun n => .choice (fun _ => trivial) fun _ => hP.intText n
  refine .choice (fun _ => within_ok (hP.digits ['0'] (List.forall_mem_singleton.mpr rfl))) fun _ => .choice (fun _ => hP.signed _ _) fun _ => ?_
  refine (hdigits _).bind fun numerator hn => (hdigits _).bind fun denominator hd => within_ok ?_
  have hsign : P (if r.num < 0 then "-" else "") := by
    split
    · exact hP.fixed _ (by decide)
    · exact hP.empty
  have htext := hP.append (hP.append (hP.append hsign (hP.fixed "\\frac" (by decide))) (hP.braced hn)) (hP.braced hd)
  have hopen : "\\frac\x7b" = "\\frac" ++ "\x7b" := rfl
  have hbetween : "\x7d\x7b" = "\x7d" ++ "\x7b" := rfl
  rw [hopen, hbetween]
  simpa only [String.append_assoc] using htext

theorem numberText (text : String) : Yields P (({} : Format).numberText text) := by
  have hnan : P notANumber := hP.fixed _ (by decide)
  unfold Format.numberText
  dsimp only
  split
  · unfold ratioText
    split
    · exact .choice (fun _ => within_ok hnan) fun _ => hP.ratio _
    · exact within_ok hnan
  · split
    · exact hP.double _
    · exact within_ok hnan

/-- **Every value is written with the property**, if it is written as a number at all. -/
theorem number (value : Datum) : Yields P (({} : Format).number value) := by
  have hany : ∀ x : Outcome Double, Yields P (x >>= ({} : Format).double) := fun x =>
    (within_of_forall (fun _ => trivial) (fun _ => trivial) x : x.Within (fun _ => True) fun _ => True).bind
      fun x _ => hP.double x
  cases value with
  | text s =>
    have hnumber : ({} : Format).number (.text s) = ({} : Format).numberText (trim s) := rfl
    rw [hnumber]
    exact hP.numberText _
  | int n => exact hP.signed _ _
  | _ => exact hany _

end KeptInWriting

end Format

end Formula
