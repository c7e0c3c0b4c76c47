import Mathlib.Data.List.Basic
import Formula.Settings
import Formula.Proofs.Expr.Writing
import Formula.Proofs.Reader.Juxtaposition

/-!
# The compact format

The compact style writes numbers without spaces and with ten digits at most, and a product without a sign, unless the
digits of two numbers would meet.  Then a product of factors is written as its factors one behind the other
(`join_products`).
-/

namespace Formula

open Number Text

namespace Format

/-- The format of the compact style. -/
def compact : Format := { precision := .int 10, groupSeparator := "", product := "", exponentMarker := "e" }

theorem inStyle_compact : ∃ settings, Settings.inStyle {} (.text "compact") = .ok settings ∧ settings.format = compact :=
  ⟨_, rfl, rfl⟩

/-! ### Numbers -/

theorem writesInFull_compact : compact.WritesInFull 10 := ⟨rfl, by decide, by decide, rfl⟩

/-- **A whole number of at most ten digits is written as its sign and its digits.** -/
theorem number_compact {value : Datum} {n : Int} (h : value.IsWhole n) (hlt : n.natAbs < tenTo 10) :
    compact.number value = .ok (signText n ++ String.ofList (Nat.toDigits 10 n.natAbs)) :=
  number_inFull writesInFull_compact h hlt rfl

/-- Only an unsigned number is simple. -/
theorem isSimple_number_compact {value : Datum} {n : Int} (h : value.IsWhole n) (hlt : n.natAbs < tenTo 10) :
    (Expr.ofNumber value).isSimple compact = .ok (decide (0 ≤ n)) := by
  have hsimple : (Expr.ofNumber value).isSimple compact =
      .ok (isPlain (replaceAll (signText n ++ String.ofList (Nat.toDigits 10 n.natAbs)) "." ".")) := by
    show (do return isPlain (← Expr.plainDigitsOf compact (← compact.number value))) = _
    rw [number_compact h hlt]
    rfl
  rw [hsimple]
  by_cases hneg : n < 0
  · have hminus := replaceChars_minus (by decide : '.' ≠ '-') [] ['.'] (String.ofList (Nat.toDigits 10 n.natAbs))
    have hreplaced : replaceAll ("-" ++ String.ofList (Nat.toDigits 10 n.natAbs)) "." "." = _ := hminus
    rw [signText, if_pos hneg, hreplaced, isPlain_minus, decide_eq_false (Int.not_le.mpr hneg)]
  · rw [signText, if_neg hneg, String.empty_append, replaceAll_point, isPlain_toDigits,
      decide_eq_true (Int.not_lt.mp hneg)]

/-! ### Ends of texts -/

/-- No command ends the text, nor would one with letters behind it. -/
structure EndsOutside (cs : List Char) : Prop where
  line : cs.getLast? ≠ some '\n'
  command : (cs.reverse.dropWhile isCommandLetter).head? ≠ some '\\'

theorem EndsOutside.append {cs ds : List Char} (h : EndsOutside cs) (h' : EndsOutside ds) : EndsOutside (cs ++ ds) where
  line := by
    rw [List.getLast?_append]
    cases hlast : ds.getLast? with
    | none => exact h.line
    | some d =>
      have := h'.line
      rwa [hlast] at this
  command := by
    rw [List.reverse_append, List.dropWhile_append]
    split
    · exact h.command
    · rename_i hne
      cases hdrop : ds.reverse.dropWhile isCommandLetter with
      | nil => exact absurd (by rw [hdrop]; rfl) hne
      | cons d behind =>
        have := h'.command
        rwa [hdrop] at this

theorem EndsOutside.of_last (cs : List Char) {d : Char} (hd : isCommandLetter d = false) (hslash : d ≠ '\\')
    (hline : d ≠ '\n') : EndsOutside (cs ++ [d]) where
  line := by
    rw [List.getLast?_concat]
    exact fun h => hline (Option.some.inj h)
  command := by
    rw [List.reverse_concat, List.dropWhile_cons_of_neg (by rw [hd]; exact Bool.false_ne_true), List.head?_cons]
    exact fun h => hslash (Option.some.inj h)

theorem EndsOutside.letter {d : Char} (hd : isCommandLetter d = true) : EndsOutside [d] where
  line := by
    rintro ⟨⟩
    exact absurd hd (by decide)
  command := by
    rw [List.reverse_singleton, List.dropWhile_cons_of_pos hd]
    exact fun h => by cases h

theorem EndsOutside.endsInCommand {s : String} (h : EndsOutside s.toList) : endsInCommand s = false := by
  have hdrop : ∀ cs : List Char, cs.drop (cs.takeWhile isCommandLetter).length = cs.dropWhile isCommandLetter := by
    intro cs
    exact (congrArg (List.drop _) List.takeWhile_append_dropWhile.symm).trans List.drop_left
  unfold Format.endsInCommand
  split
  · rename_i cs hcs
    refine absurd ?_ h.line
    rw [← List.head?_reverse, hcs]
    rfl
  · unfold endsInCommandReversed
    dsimp only
    rw [hdrop, beq_eq_false_iff_ne.mpr h.command, Bool.and_false]

theorem isCommandLetter_of_isAlpha {d : Char} (hd : d.isAlpha = true) : isCommandLetter d = true := by
  have h := toNat_of_isAlpha hd
  simp only [isCommandLetter, Bool.or_eq_true, Bool.and_eq_true, decide_eq_true_eq, Char.le_def, UInt32.le_iff_toNat_le]
  have hval : d.toNat = d.val.toNat := rfl
  have h1 : 'a'.val.toNat = 97 := rfl
  have h2 : 'z'.val.toNat = 122 := rfl
  have h3 : 'A'.val.toNat = 65 := rfl
  have h4 : 'Z'.val.toNat = 90 := rfl
  omega

theorem not_isCommandLetter_of_isDigit {d : Char} (hd : d.isDigit = true) : isCommandLetter d = false := by
  have h := toNat_of_isDigit hd
  rw [Bool.eq_false_iff]
  simp only [isCommandLetter, ne_eq, Bool.or_eq_true, Bool.and_eq_true, decide_eq_true_eq, Char.le_def,
    UInt32.le_iff_toNat_le]
  have hval : d.toNat = d.val.toNat := rfl
  have h1 : 'a'.val.toNat = 97 := rfl
  have h3 : 'A'.val.toNat = 65 := rfl
  omega

theorem join_three {a s : String} (ha : endsInCommand a = false) (hs : endsInCommand (a ++ s) = false) (b : String) :
    join [a, s, b] = a ++ (s ++ b) := by
  unfold join
  rw [List.foldl_cons, List.foldl_cons, List.foldl_cons, List.foldl_nil, glue_empty, glue_of_not_command ha,
    glue_of_not_command hs, String.append_assoc]

end Format

/-! ### Factors -/

namespace Factor

theorem endsOutside (f : Factor) : Format.EndsOutside f.text.toList := by
  cases f with
  | number n lt =>
    obtain ⟨ds, d, hdigits⟩ : ∃ ds d, Nat.toDigits 10 n = ds ++ [d] :=
      ⟨_, _, (List.dropLast_concat_getLast Nat.toDigits_ne_nil).symm⟩
    have hd : d.isDigit = true := Nat.isDigit_of_mem_toDigits (by decide) (by decide)
      (hdigits ▸ List.mem_append_right ds (List.mem_singleton_self d))
    rw [text, String.toList_ofList, hdigits]
    refine .of_last ds (Format.not_isCommandLetter_of_isDigit hd) ?_ ?_ <;> (rintro rfl; exact absurd hd (by decide))
  | letter d alpha =>
    rw [text, Char.toString, String.toList_singleton]
    exact .letter (Format.isCommandLetter_of_isAlpha alpha)
  | fraction n d =>
    rw [text, String.toList_append, Expr.braced, Expr.braced, Source.toList_braced d.text, ← List.cons_append,
      ← List.append_assoc]
    exact .of_last _ (by decide) (by decide) (by decide)
  | fence p =>
    rw [text, Expr.parenthesized, String.toList_append]
    exact .of_last _ (by decide) (by decide) (by decide)

/-- Only a number has digits at its ends. -/
theorem isDigitLike_ends (f : Factor) : f.text.toList.head?.any isDigitLike = (f.kind == .digits) ∧
    f.text.toList.getLast?.any isDigitLike = (f.kind == .digits) := by
  cases f with
  | number n lt =>
    have hall : ∀ d ∈ Nat.toDigits 10 n, isDigitLike d = true := fun d hd => by
      rw [isDigitLike, Nat.isDigit_of_mem_toDigits (by decide) (by decide) hd, Bool.true_or]
    have hne := @Nat.toDigits_ne_nil n 10
    rw [text, String.toList_ofList, List.head?_eq_some_head hne, List.getLast?_eq_some_getLast hne]
    exact ⟨hall _ (List.head_mem hne), hall _ (List.getLast_mem hne)⟩
  | letter d alpha =>
    have hletter : isDigitLike d = false := by
      have h := toNat_of_isAlpha alpha
      have hdigit : d.isDigit = false := by
        rw [Bool.eq_false_iff]
        intro hd
        have := toNat_of_isDigit hd
        omega
      rw [isDigitLike, hdigit, decide_eq_false (by omega)]
      rfl
    rw [text, Char.toString, String.toList_singleton]
    exact ⟨hletter, hletter⟩
  | fraction n d =>
    rw [text, String.toList_append, Expr.braced, Expr.braced, Source.toList_braced d.text, ← List.cons_append,
      ← List.append_assoc, List.getLast?_concat, String.toList_append]
    exact ⟨rfl, rfl⟩
  | fence p =>
    rw [text, Expr.parenthesized, String.toList_append, String.toList_append]
    exact ⟨rfl, congrArg (Option.any isDigitLike) List.getLast?_concat⟩

theorem toList_text_ne_nil (f : Factor) : f.text.toList ≠ [] := by
  intro h
  cases f with
  | number n lt => exact @Nat.toDigits_ne_nil n 10 (by rwa [text, String.toList_ofList] at h)
  | letter d alpha =>
    rw [text, Char.toString, String.toList_singleton] at h
    cases h
  | fraction n d =>
    rw [text, String.toList_append, String.toList_append] at h
    cases h
  | fence p =>
    rw [text, Expr.parenthesized, String.toList_append, String.toList_append] at h
    cases h

/-- The last factor of a product. -/
def last (f : Factor) : List Factor → Factor
  | [] => f
  | g :: more => g.last more

theorem glued_append (g : Factor) (behind : List Factor) : ∀ (f : Factor) (more : List Factor),
    f.glued (more ++ g :: behind) = f.glued more ++ ((f.last more).separator g ++ g.glued behind)
  | _, [] => rfl
  | f, h :: more => by
    rw [List.cons_append, glued, glued_append g behind h more, glued, last, String.append_assoc, String.append_assoc]

theorem toList_glued_ne_nil : ∀ (f : Factor) (more : List Factor), (f.glued more).toList ≠ []
  | f, [] => f.toList_text_ne_nil
  | f, g :: more => by
    rw [glued, String.toList_append]
    exact List.append_ne_nil_of_left_ne_nil f.toList_text_ne_nil _

theorem head_glued (f : Factor) (more : List Factor) :
    (f.glued more).toList.head?.any isDigitLike = (f.kind == .digits) := by
  cases more with
  | nil => exact f.isDigitLike_ends.1
  | cons g more =>
    rw [glued, String.toList_append, List.head?_append_of_ne_nil _ f.toList_text_ne_nil]
    exact f.isDigitLike_ends.1

theorem getLast_glued : ∀ (f : Factor) (more : List Factor),
    (f.glued more).toList.getLast?.any isDigitLike = ((f.last more).kind == .digits)
  | f, [] => f.isDigitLike_ends.2
  | f, g :: more => by
    rw [glued, String.toList_append, String.toList_append, ← List.append_assoc,
      List.getLast?_append_of_ne_nil _ (toList_glued_ne_nil g more)]
    exact getLast_glued g more

theorem endsOutside_separator (f g : Factor) : Format.EndsOutside (f.separator g).toList := by
  unfold separator
  split
  · exact @Format.EndsOutside.of_last "\\cdot".toList ' ' (by decide) (by decide) (by decide)
  · exact ⟨fun h => (by cases h), fun h => (by cases h)⟩

theorem endsOutside_glued : ∀ (f : Factor) (more : List Factor), Format.EndsOutside (f.glued more).toList
  | f, [] => f.endsOutside
  | f, g :: more => by
    rw [glued, String.toList_append, String.toList_append]
    exact f.endsOutside.append ((f.endsOutside_separator g).append (endsOutside_glued g more))

end Factor

/-! ### Products -/

namespace FactorProduct

/-- A factor with signs in front. -/
def single (signs : List Sign) (f : Factor) : FactorProduct := ⟨signs, f, []⟩

/-- The factors of another product behind those of this one. -/
def append (p q : FactorProduct) : FactorProduct := ⟨p.signs, p.first, p.more ++ q.first :: q.more⟩

theorem text_append (signs : List Sign) (s t : String) :
    signs.foldr (fun sign text => sign.name ++ text) (s ++ t) =
      signs.foldr (fun sign text => sign.name ++ text) s ++ t := by
  induction signs with
  | nil => rfl
  | cons sign signs ih => rw [List.foldr_cons, List.foldr_cons, ih, String.append_assoc]

theorem endsOutside (p : FactorProduct) : Format.EndsOutside p.text.toList := by
  obtain ⟨signs, first, more⟩ := p
  induction signs with
  | nil => exact first.endsOutside_glued more
  | cons s signs ih =>
    have hsign : Format.EndsOutside s.name.toList := by
      cases s with
      | plus => exact @Format.EndsOutside.of_last [] '+' (by decide) (by decide) (by decide)
      | minus => exact @Format.EndsOutside.of_last [] '-' (by decide) (by decide) (by decide)
    show Format.EndsOutside (s.name ++ text ⟨signs, first, more⟩).toList
    rw [String.toList_append]
    exact hsign.append ih

theorem getLast_text (p : FactorProduct) :
    p.text.toList.getLast?.any isDigitLike = ((p.first.last p.more).kind == .digits) := by
  have hne := p.first.toList_glued_ne_nil p.more
  have hsigns : p.text = p.signs.foldr (fun sign text => sign.name ++ text) "" ++ p.first.glued p.more := by
    rw [← text_append, String.empty_append]
    rfl
  rw [hsigns, String.toList_append, List.getLast?_append_of_ne_nil _ hne]
  exact p.first.getLast_glued p.more

/-- **Two products are written one behind the other**, with a sign between them where digits meet. -/
theorem join_products (p q : FactorProduct) (hq : q.signs = []) : ∃ sign,
    Expr.productSign Format.compact p.text q.text = .ok sign ∧
      Format.join [p.text, sign, q.text] = (p.append q).text := by
  obtain ⟨_, g, behind⟩ := q
  obtain rfl := hq
  have hsign : Expr.productSign Format.compact p.text (g.glued behind) = .ok ((p.first.last p.more).separator g) := by
    show Except.ok (if (allBlank "" && (p.text.toList.getLast?.any isDigitLike &&
      (g.glued behind).toList.head?.any isDigitLike)) = true then "\\cdot " else "") = _
    rw [p.getLast_text, g.head_glued behind]
    rfl
  have hends : Format.endsInCommand (p.text ++ (p.first.last p.more).separator g) = false := by
    refine Format.EndsOutside.endsInCommand ?_
    rw [String.toList_append]
    exact p.endsOutside.append (Factor.endsOutside_separator _ g)
  refine ⟨_, hsign, ?_⟩
  show Format.join [p.text, _, g.glued behind] = _
  rw [Format.join_three p.endsOutside.endsInCommand hends, text, ← text_append, append, text, Factor.glued_append]

end FactorProduct

end Formula
