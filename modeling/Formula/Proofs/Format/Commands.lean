import Formula.Proofs.Format.Written
import Formula.Settings

/-!
# The commands of a written number

A number is put together from pieces: digits, the options of the format, and a power of ten.  Scanned as a source it gives the
tokens of its pieces, since next to all of them end in a character of their own.  The ellipsis is the exception: it ends in the
name of a command.  Behind it stand the end of the number or the sign of a product, but in a format with a mark for the
exponent this mark, and if it is a letter, another command is read.
-/

namespace Formula

open Number Text

/-- A command, also one whose argument is kept as it is written. -/
def Token.isCommand : Token → Bool
  | command _ | verbatim .. => true
  | _ => false

/-! ### Magnitudes of values -/

/-- The value is a finite number, or the text of one, and this is the decimal of its magnitude: a whole number is taken as it
is, a floating-point number as the shortest decimal that reads back. -/
inductive Datum.HasMagnitude : Datum → Decimal → Prop
  | int (n : Int) : HasMagnitude (.int n) ⟨n.natAbs, 0⟩
  | zero (negative : Bool) (q : Int) : HasMagnitude (.float (.finite negative 0 q)) ⟨0, 0⟩
  | float (negative : Bool) {m : Nat} (hm : 0 < m) (q : Int) :
    HasMagnitude (.float (.finite negative m q)) (Double.shortest m q)
  | text {s : String} {x : Double} {d : Decimal} : '/' ∉ (trim s).toList → readDouble (trim s) = some x →
    HasMagnitude (.float x) d → HasMagnitude (.text s) d

namespace Format

/-- A number is written as a sign and its magnitude. -/
theorem number_signed {v : Datum} {d : Decimal} (hv : v.HasMagnitude d) (f : Format) :
    ∃ negative, f.number v = f.signed negative d := by
  induction hv with
  | int n => exact ⟨_, rfl⟩
  | zero negative q => exact ⟨false, rfl⟩
  | float negative hm q => exact ⟨negative, if_neg (Nat.pos_iff_ne_zero.mp hm)⟩
  | @text s x d hratio hread _ ih =>
    obtain ⟨negative, ih⟩ := ih
    refine ⟨negative, ?_⟩
    have htext : f.number (.text s) = f.double x := by
      show f.numberText (trim s) = _
      unfold numberText
      rw [if_neg (by simpa using hratio), hread]
    rw [htext]
    exact ih

/-! ### Pieces -/

/-- The options from which a number is put together, but for the mark of the point. -/
def numberOptions (f : Format) : List Datum := [f.groupSeparator, f.exponentProduct, f.beginRepeat, f.endRepeat, f.ellipsis]

/-- The commands of these options. -/
def ownCommands (f : Format) : List Token :=
  f.numberOptions.flatMap fun option => (Token.scan option.shown).filter Token.isCommand

/-- All commands among the tokens are those of the format. -/
def Owns (f : Format) (tokens : List Token) : Prop := ∀ t ∈ tokens, t.isCommand = true → t ∈ f.ownCommands

/-- Whatever follows the text, it is read as tokens of the format. -/
def IsPiece (f : Format) (s : String) : Prop := ∃ tokens, Token.Scans s.toList tokens ∧ f.Owns tokens

/-- The text is read as tokens of the format where no letter follows. -/
def IsLastPiece (f : Format) (s : String) : Prop := ∃ tokens, Token.ScansBefore s.toList tokens ∧ f.Owns tokens

section

variable {f : Format} {s t : String}

theorem Owns.append {tokens more : List Token} (h : f.Owns tokens) (h' : f.Owns more) : f.Owns (tokens ++ more) := by
  intro t ht
  exact (List.mem_append.mp ht).elim (h t) (h' t)

theorem IsPiece.last (h : f.IsPiece s) : f.IsLastPiece s := by
  obtain ⟨tokens, hscans, howns⟩ := h
  exact ⟨tokens, hscans.before, howns⟩

theorem IsPiece.append (h : f.IsPiece s) (h' : f.IsPiece t) : f.IsPiece (s ++ t) := by
  obtain ⟨tokens, hscans, howns⟩ := h
  obtain ⟨more, hscans', howns'⟩ := h'
  exact ⟨_, String.toList_append ▸ hscans.append hscans', howns.append howns'⟩

theorem IsPiece.append_last (h : f.IsPiece s) (h' : f.IsLastPiece t) : f.IsLastPiece (s ++ t) := by
  obtain ⟨tokens, hscans, howns⟩ := h
  obtain ⟨more, hscans', howns'⟩ := h'
  exact ⟨_, String.toList_append ▸ hscans.append_before hscans', howns.append howns'⟩

theorem IsLastPiece.append (h : f.IsLastPiece s) (h' : f.IsPiece t) (ht : Source.StartsApart t) : f.IsPiece (s ++ t) := by
  obtain ⟨tokens, hscans, howns⟩ := h
  obtain ⟨more, hscans', howns'⟩ := h'
  obtain ⟨d, ds, hcs, hd⟩ := ht
  rw [hcs] at hscans'
  refine ⟨_, ?_, howns.append howns'⟩
  rw [String.toList_append, hcs]
  exact hscans.append_scans hd hscans'

/-- The commands of an option are those of the format. -/
theorem owns_option (h : .text s ∈ f.numberOptions) : f.Owns (Token.scan s) := fun _ ht hcommand =>
  List.mem_flatMap.mpr ⟨_, h, List.mem_filter.mpr ⟨ht, hcommand⟩⟩

theorem isPiece_option (h : .text s ∈ f.numberOptions) {tokens : List Token} (hscans : Token.Scans s.toList tokens) :
    f.IsPiece s := ⟨tokens, hscans, hscans.scan ▸ owns_option h⟩

theorem isPiece_empty : f.IsPiece "" := ⟨[], .nil, fun _ ht => by cases ht⟩

/-- The characters begin no command, no comment and no sign of their own. -/
def IsPlainText (cs : List Char) : Prop := ∀ d ∈ cs, isBlank d = false ∧ d ≠ '%' ∧ d ≠ '\\' ∧ d ≠ ':'

instance : DecidablePred IsPlainText := fun cs =>
  List.decidableBAll (fun d => isBlank d = false ∧ d ≠ '%' ∧ d ≠ '\\' ∧ d ≠ ':') cs

theorem isPiece_plain {cs : List Char} (h : IsPlainText cs) : f.IsPiece (String.ofList cs) := by
  induction cs with
  | nil => exact isPiece_empty
  | cons d cs ih =>
    obtain ⟨hblank, hcomment, hslash, hcolon⟩ := h d List.mem_cons_self
    obtain ⟨tokens, hscans, howns⟩ := ih fun e he => h e (List.mem_cons_of_mem _ he)
    rw [String.toList_ofList] at hscans
    refine ⟨.char d :: tokens, ?_, fun t ht hcommand => ?_⟩
    · rw [String.toList_ofList]
      exact (Token.scans_char hblank hcomment hslash hcolon).append hscans
    · rcases List.mem_cons.mp ht with rfl | ht
      · cases hcommand
      · exact howns t ht hcommand

theorem isPiece_digits {digits : List Char} (h : ∀ d ∈ digits, d.isDigit = true) : f.IsPiece (String.ofList digits) := by
  refine isPiece_plain fun d hd => ⟨isBlank_of_isGraphic (isGraphic_of_isDigit (h d hd)), ?_, ?_, ?_⟩ <;>
    · rintro rfl
      exact absurd (h _ hd) (by decide)

theorem isPiece_intText (n : Int) : f.IsPiece (intText n) := by
  have hdigits : f.IsPiece (String.ofList (Nat.toDigits 10 n.natAbs)) := isPiece_digits (List.all_eq_true.mp (all_toDigits _))
  unfold intText
  split
  · exact (@isPiece_plain f ['-'] (by decide)).append hdigits
  · exact hdigits

/-- A whole number begins with no letter. -/
theorem head?_intText (n : Int) : ∀ d ∈ (intText n).toList.head?, isLetter d = false := by
  intro d hd
  unfold intText at hd
  split at hd
  · rw [String.toList_append] at hd
    obtain rfl : '-' = d := Option.some.inj hd
    decide
  · rw [String.toList_ofList] at hd
    have hdigit : d.isDigit = true :=
      Nat.isDigit_of_mem_toDigits (by decide) (by decide) (List.mem_of_mem_head? hd)
    refine Bool.eq_false_iff.mpr fun hletter => ?_
    rw [isDigit_of_isLetter hletter] at hdigit
    cases hdigit

theorem isPiece_intercalate {separator : String} (h : f.IsPiece separator) :
    ∀ {pieces : List String}, (∀ s ∈ pieces, f.IsPiece s) → f.IsPiece (separator.intercalate pieces)
  | [], _ => isPiece_empty
  | [s], hall => by
    rw [String.intercalate_singleton]
    exact hall s List.mem_cons_self
  | s :: t :: pieces, hall => by
    rw [String.intercalate_cons_of_ne_nil (List.cons_ne_nil _ _)]
    exact ((hall s List.mem_cons_self).append h).append
      (isPiece_intercalate h fun u hu => hall u (List.mem_cons_of_mem s hu))

theorem isPiece_power (shift : Int) : f.IsPiece (Layout.power shift) :=
  ((@isPiece_plain f ['1', '0', '^', '\x7b'] (by decide)).append (isPiece_intText shift)).append
    (@isPiece_plain f ['\x7d'] (by decide))

end

/-! ### Formats of pieces -/

/-- The options of the format are pieces; the ellipsis is one in front of the sign of a product, which begins with no letter. -/
structure IsPieced (f : Format) : Prop where
  places : ∃ p, f.places = .ok p
  separator : ∃ s, f.groupSeparator = .text s ∧ f.IsPiece s
  marker : ∃ s, f.decimalMarker = .text s ∧ f.IsPiece s
  product : f.IsPiece f.exponentProduct.shown ∧ Source.StartsApart f.exponentProduct.shown
  beginRepeat : ∃ s, f.beginRepeat = .text s ∧ f.IsPiece s
  endRepeat : ∃ s, f.endRepeat = .text s ∧ f.IsPiece s ∧ s ≠ ""
  ellipsis : f.ellipsis = .text "\\ldots"

namespace IsPieced

variable {f : Format} (hf : f.IsPieced)
include hf

theorem isLastPiece_ellipsis : f.IsLastPiece "\\ldots" := by
  have hscans := @Token.scansBefore_command ['l', 'd', 'o', 't', 's'] (by decide) (by decide) (by decide)
  have hmem : .text "\\ldots" ∈ f.numberOptions := by simp [numberOptions, hf.ellipsis]
  exact ⟨_, hscans, @Token.ScansBefore.scan "\\ldots" _ hscans ▸ owns_option hmem⟩

/-- Digits are written with the separator between their groups. -/
theorem grouped {digits : List Char} (h : ∀ d ∈ digits, d.isDigit = true) (first : Nat) :
    ∃ text, Format.grouped f.groupSeparator first digits = .ok text ∧ f.IsPiece text := by
  obtain ⟨separator, hseparator, hpiece⟩ := hf.separator
  unfold Format.grouped
  rw [hseparator]
  split
  · exact ⟨_, rfl, isPiece_digits h⟩
  · refine ⟨_, rfl, isPiece_intercalate hpiece fun s hs => ?_⟩
    obtain ⟨group, hgroup, rfl⟩ := List.mem_map.mp hs
    refine isPiece_digits fun d hd => h d ?_
    have hrest : ∀ i, d ∈ ((digits.drop first).drop (3 * i)).take 3 → d ∈ digits := fun i hd =>
      List.mem_of_mem_drop (List.mem_of_mem_drop (List.mem_of_mem_take hd))
    unfold groupsOf at hgroup
    split at hgroup
    · obtain ⟨i, -, rfl⟩ := List.mem_map.mp hgroup
      exact hrest i hd
    · rcases List.mem_cons.mp hgroup with rfl | hgroup
      · exact List.mem_of_mem_take hd
      · obtain ⟨i, -, rfl⟩ := List.mem_map.mp hgroup
        exact hrest i hd

/-- The digits behind the point are a piece, with the ellipsis behind it if digits were cut off and none repeat; something is
written of them if some were cut off. -/
theorem fractionText {fraction : List Char} (hne : fraction ≠ []) (h : ∀ d ∈ fraction, d.isDigit = true) (whole : List Char)
    (truncated : Bool) (shift : Int) : ∃ front text, f.fractionText fraction truncated = .ok text ∧ f.IsPiece front ∧
      text = (if (layoutParts whole fraction truncated shift).cut then front ++ "\\ldots" else front) ∧
      (truncated = true → text.isEmpty = false) := by
  have hnil : fraction.isEmpty = false := List.isEmpty_eq_false_iff.mpr hne
  unfold Format.fractionText groupedFraction
  cases hblock : blockIn truncated fraction with
  | some found =>
    obtain ⟨offset, period⟩ := found
    obtain ⟨rfl, hfound, -⟩ := blockIn_spec hblock
    obtain ⟨start, hstart, hstartPiece⟩ := hf.grouped (fun d hd => h d (List.mem_of_mem_take (i := offset) hd)) 0
    obtain ⟨opening, hopening, hopeningPiece⟩ := hf.beginRepeat
    obtain ⟨closing, hclosing, hclosingPiece, hclosingNe⟩ := hf.endRepeat
    have hdigits : ∀ d ∈ (fraction.drop offset).take period, d.isDigit = true := fun d hd =>
      h d (List.mem_of_mem_drop (List.mem_of_mem_take hd))
    refine ⟨_, start ++ opening ++ String.ofList ((fraction.drop offset).take period) ++ closing, ?_,
      ((hstartPiece.append hopeningPiece).append (isPiece_digits hdigits)).append hclosingPiece, ?_, fun _ => ?_⟩
    · rw [hnil, hfound, hopening, hclosing]
      show (Format.grouped f.groupSeparator 0 (fraction.take offset) >>= _) = _
      rw [hstart]
      rfl
    · rw [layoutParts_block shift hblock, if_neg Bool.false_ne_true]
    · rw [String.isEmpty_eq_false_iff]
      exact fun hempty => hclosingNe (String.append_eq_empty_iff.mp hempty).2
  | none =>
    obtain ⟨digits, hdigits, hpiece⟩ := hf.grouped h 0
    rw [layoutParts_plain shift hblock]
    cases truncated with
    | false => exact ⟨digits, digits, hdigits, hpiece, rfl, fun hfalse => by cases hfalse⟩
    | true =>
      have hfound : findRepeat fraction.dropLast = none := hblock
      refine ⟨digits, digits ++ "\\ldots", ?_, hpiece, rfl, fun _ => ?_⟩
      · rw [hnil, hfound, hf.ellipsis, hdigits]
        rfl
      · rw [String.isEmpty_eq_false_iff]
        exact fun hempty => absurd (String.append_eq_empty_iff.mp hempty).2 (by decide)

/-- **A mantissa is a piece**, with the ellipsis behind it if digits were cut off and none repeat. -/
theorem mantissaText {whole fraction : List Char} (hwhole : ∀ d ∈ whole, d.isDigit = true)
    (hfraction : ∀ d ∈ fraction, d.isDigit = true) (truncated : Bool) (shift : Int) :
    ∃ front, f.mantissaText whole fraction truncated =
      .ok (if (layoutParts whole fraction truncated shift).cut then front ++ "\\ldots" else front) ∧ f.IsPiece front := by
  obtain ⟨wholeText, hw, hwholePiece⟩ := hf.grouped hwhole (whole.length % 3)
  obtain ⟨marker, hmarker, hmarkerPiece⟩ := hf.marker
  have hall : f.mantissaText whole fraction truncated = f.fractionText fraction truncated >>= fun shown =>
      .ok (if !shown.isEmpty then wholeText ++ (marker ++ shown) else if truncated then wholeText ++ "\\ldots" else wholeText) := by
    unfold Format.mantissaText groupedWhole
    rw [hw, hmarker, hf.ellipsis]
    refine congrArg (f.fractionText fraction truncated >>= ·) (funext fun shown => ?_)
    cases shown.isEmpty <;> cases truncated <;> rfl
  rw [hall]
  by_cases hnil : fraction = []
  · -- without a fraction the ellipsis stands behind the whole number
    subst hnil
    have htext : f.fractionText [] truncated = .ok "" := by
      unfold Format.fractionText
      rw [List.isEmpty_nil, Bool.or_true, if_pos rfl]
      exact if_pos (by simp)
    have hcut : (layoutParts whole [] truncated shift).cut = truncated := by
      cases truncated <;> rfl
    refine ⟨wholeText, ?_, hwholePiece⟩
    rw [htext, hcut]
    cases truncated <;> rfl
  · obtain ⟨front, text, htext, hpiece, heq, hshown⟩ := hf.fractionText hnil hfraction whole truncated shift
    rw [htext]
    show ∃ front, Except.ok (if !text.isEmpty then _ else _) = _ ∧ _
    cases hempty : text.isEmpty with
    | false =>
      refine ⟨wholeText ++ (marker ++ front), congrArg Except.ok ?_, hwholePiece.append (hmarkerPiece.append hpiece)⟩
      rw [heq]
      show wholeText ++ (marker ++ _) = _
      split <;> simp [String.append_assoc]
    | true =>
      have hwritten : truncated = false := Bool.eq_false_iff.mpr fun h => by
        rw [hshown h] at hempty
        cases hempty
      subst hwritten
      exact ⟨wholeText, rfl, hwholePiece⟩

end IsPieced

/-! ### Powers of ten -/

/-- The layout of a magnitude in the format, with so many significant digits. -/
def layoutIn (f : Format) (places : Int) (d : Decimal) : Layout :=
  layoutOf (rounded places.toNat d) (shiftOf f.scientificNotation places (rounded places.toNat d).leading)

/-- A mark for the exponent stands behind the ellipsis. -/
def Glues (f : Format) (l : Layout) : Prop := f.exponentMarker.isVoid = false ∧ l.cut = true ∧ l.shift ≠ 0

namespace IsPieced

variable {f : Format} (hf : f.IsPieced)
include hf

/-- A number is written as a sign, a piece, the ellipsis if it was cut off, and the power of ten. -/
theorem number {v : Datum} {d : Decimal} (hv : v.HasMagnitude d) : ∃ places sign front l, f.places = .ok places ∧
    f.layoutIn places (d.round .even contextPlaces) = l ∧ f.IsPiece sign ∧ f.IsPiece front ∧
    f.number v = .ok (sign ++ f.withExponent (if l.cut then front ++ "\\ldots" else front) l.shift) := by
  obtain ⟨places, hplaces⟩ := hf.places
  obtain ⟨negative, hnumber⟩ := number_signed hv f
  obtain ⟨r, hr⟩ : ∃ r, rounded places.toNat (d.round .even contextPlaces) = r := ⟨_, rfl⟩
  obtain ⟨shift, hshift⟩ : ∃ shift, shiftOf f.scientificNotation places r.leading = shift := ⟨_, rfl⟩
  obtain ⟨n, hdigits⟩ : ∃ n, r.digits = Nat.toDigits 10 n := ⟨_, by rw [← hr]; rfl⟩
  obtain ⟨-, hwhole, hfraction⟩ := @splitDigits_digits n (r.leading - shift + 1)
  rw [← hdigits] at hwhole hfraction
  obtain ⟨front, hmantissa, hpiece⟩ := hf.mantissaText hwhole hfraction r.truncated shift
  have hlayout : (layoutOf r shift).shift = shift := layoutParts_shift _ _ _ _
  have hmagnitude : f.magnitude (d.round .even contextPlaces) = (do
      let mantissa ← f.mantissaText (splitDigits r.digits (r.leading - shift + 1)).1
        (splitDigits r.digits (r.leading - shift + 1)).2 r.truncated
      return f.withExponent mantissa shift) := by
    unfold magnitude
    rw [hplaces, ← hshift, ← hr]
    rfl
  refine ⟨places, if negative then "-" else "", front, layoutOf r shift, hplaces, ?_, ?_, hpiece, ?_⟩
  · unfold layoutIn
    rw [hr, hshift]
  · cases negative with
    | true => exact @isPiece_plain f ['-'] (by decide)
    | false => exact isPiece_empty
  · rw [hnumber, signed, hmagnitude, hmantissa, hlayout]
    rfl

/-- **Where no mark for the exponent stands behind the ellipsis, all commands are those of the format.** -/
theorem isLastPiece_withExponent {l : Layout} (hl : ¬f.Glues l) (hmarker : f.IsPiece f.exponentMarker.shown) {front : String}
    (hfront : f.IsPiece front) : f.IsLastPiece (f.withExponent (if l.cut then front ++ "\\ldots" else front) l.shift) := by
  have hmantissa : f.IsLastPiece (if l.cut then front ++ "\\ldots" else front) := by
    split
    · exact hfront.append_last hf.isLastPiece_ellipsis
    · exact hfront.last
  have hmarked : l.shift ≠ 0 → f.exponentMarker.isVoid = false → (if l.cut then front ++ "\\ldots" else front) = front :=
    fun hshift hvoid => if_neg fun hcut => hl ⟨hvoid, hcut, hshift⟩
  obtain ⟨mantissa, heq⟩ : ∃ mantissa, (if l.cut then front ++ "\\ldots" else front) = mantissa := ⟨_, rfl⟩
  rw [heq] at hmantissa hmarked ⊢
  unfold withExponent
  by_cases hshift : l.shift = 0
  · rw [if_pos hshift]
    exact hmantissa
  · rw [if_neg hshift]
    cases hvoid : f.exponentMarker.isVoid with
    | false =>
      rw [hmarked hshift hvoid]
      exact ((hfront.append hmarker).append (isPiece_intText _)).last
    | true =>
      rw [Bool.not_true, if_neg Bool.false_ne_true]
      split
      · exact (isPiece_power _).last
      · exact ((hmantissa.append hf.product.1 hf.product.2).append (isPiece_power _)).last

end IsPieced

/-- **A letter that marks the exponent behind the ellipsis is read as a part of its command.** -/
theorem withExponent_glued {f : Format} {l : Layout} (hl : f.Glues l) (hmarker : f.exponentMarker.shown = "e")
    {sign front : String} (hsign : f.IsPiece sign) (hfront : f.IsPiece front) : .command "ldotse" ∈
      Token.scan (sign ++ f.withExponent (if l.cut then front ++ "\\ldots" else front) l.shift) := by
  obtain ⟨hvoid, hcut, hshift⟩ := hl
  have htext : sign ++ f.withExponent (if l.cut then front ++ "\\ldots" else front) l.shift =
      sign ++ front ++ ("\\ldotse" ++ intText l.shift) := by
    unfold withExponent
    rw [if_neg hshift, hvoid, hcut, hmarker, Bool.not_false, if_pos rfl, if_pos rfl]
    have hglue : ∀ t : String, "\\ldots" ++ ("e" ++ t) = "\\ldotse" ++ t := fun t => by
      rw [← String.append_assoc]
      rfl
    simp only [String.append_assoc, hglue]
  obtain ⟨tokens, hscans, -⟩ := hsign.append hfront
  have hcommand := @Token.scansBefore_command ['l', 'd', 'o', 't', 's', 'e'] (by decide) (by decide) (by decide)
  rw [htext, Token.scan, String.toList_append, hscans, String.toList_append,
    show "\\ldotse".toList = '\\' :: ['l', 'd', 'o', 't', 's', 'e'] from rfl, hcommand _ (head?_intText l.shift)]
  simp

/-! ### Styles -/

/-- The options that no style changes, and those that have one of two values in the styles, are pieces. -/
theorem isPieced {f : Format} (hplaces : ∃ p, f.places = .ok p)
    (hseparator : f.groupSeparator = .text "" ∨ f.groupSeparator = .text thinSpace)
    (hmarker : f.decimalMarker = .text "." ∨ f.decimalMarker = .text "\x7b,\x7d")
    (hproduct : f.exponentProduct = .text "\\cdot " ∨ f.exponentProduct = .text "\\times ")
    (hbegin : f.beginRepeat = .text "\\overline\x7b") (hend : f.endRepeat = .text "\x7d")
    (hellipsis : f.ellipsis = .text "\\ldots") : f.IsPieced := by
  have hblank : Token.Scans [' '] [] := Token.scans_blank (by decide)
  have hsign : ∀ {name : List Char}, name ≠ [] → name.all isLetter = true →
      Token.verbatimCommands.contains (String.ofList name) = false →
      .text ("\\" ++ String.ofList name ++ " ") ∈ f.numberOptions → f.IsPiece ("\\" ++ String.ofList name ++ " ") := by
    intro name hne hletters hverbatim hmem
    have hscans := Token.Scans.command hne hletters hverbatim (by decide) hblank
    refine @isPiece_option f _ hmem [.command (String.ofList name)] ?_
    rw [String.toList_append, String.toList_append, @String.toList_ofList name, List.append_assoc]
    exact hscans
  refine ⟨hplaces, ?_, ?_, ?_, ⟨_, hbegin, ?_⟩, ⟨_, hend, @isPiece_plain f ['\x7d'] (by decide), by decide⟩, hellipsis⟩
  · rcases hseparator with h | h
    · exact ⟨_, h, isPiece_empty⟩
    · have hscans : Token.Scans thinSpace.toList [.command ","] :=
        (Token.scans_sign (d := ',') (by decide) (by decide)).append hblank
      exact ⟨_, h, isPiece_option (by simp [numberOptions, h]) hscans⟩
  · rcases hmarker with h | h
    · exact ⟨_, h, @isPiece_plain f ['.'] (by decide)⟩
    · exact ⟨_, h, @isPiece_plain f ['\x7b', ',', '\x7d'] (by decide)⟩
  · rcases hproduct with h | h <;> rw [h]
    · exact ⟨@hsign ['c', 'd', 'o', 't'] (by decide) (by decide) (by decide) (by simp [numberOptions, h]), _, _, rfl, by decide⟩
    · exact ⟨@hsign ['t', 'i', 'm', 'e', 's'] (by decide) (by decide) (by decide) (by simp [numberOptions, h]), _, _, rfl,
        by decide⟩
  · have hbrace : Token.Scans ['\x7b'] [.char '\x7b'] := Token.scans_char (by decide) (by decide) (by decide) (by decide)
    have hscans := @Token.Scans.command ['o', 'v', 'e', 'r', 'l', 'i', 'n', 'e'] _ _ _ (by decide) (by decide) (by decide)
      (by decide) hbrace
    exact isPiece_option (s := "\\overline\x7b") (by simp [numberOptions, hbegin]) hscans

/-- Every style changes the format to one of pieces; one of them has a letter for the exponent. -/
theorem isPieced_style {style : String} (h : style ∈ Settings.styleNames) : ∃ settings,
    Settings.inStyle {} (.text style) = .ok settings ∧ settings.format.IsPieced ∧
      settings.format.exponentMarker = (if style = "compact" then .text "e" else .text "") ∧
      .command "ldotse" ∉ settings.format.ownCommands := by
  simp only [Settings.styleNames, Settings.styles, List.map_cons, List.map_nil, List.mem_cons, List.not_mem_nil, or_false] at h
  rcases h with rfl | rfl | rfl | rfl
  · exact ⟨_, rfl, isPieced ⟨10, rfl⟩ (.inl rfl) (.inl rfl) (.inl rfl) rfl rfl rfl, rfl, by decide⟩
  · exact ⟨_, rfl, isPieced ⟨14, rfl⟩ (.inr rfl) (.inl rfl) (.inl rfl) rfl rfl rfl, rfl, by decide⟩
  · exact ⟨_, rfl, isPieced ⟨14, rfl⟩ (.inr rfl) (.inl rfl) (.inr rfl) rfl rfl rfl, rfl, by decide⟩
  · exact ⟨_, rfl, isPieced ⟨14, rfl⟩ (.inr rfl) (.inr rfl) (.inl rfl) rfl rfl rfl, rfl, by decide⟩

end Format

end Formula
