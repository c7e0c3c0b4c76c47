import Formula.Proofs.Expr.Errors
import Formula.Proofs.Reader.Texts

/-!
# How arithmetic nodes are written

For every kind of arithmetic node its text, put together from the texts of its parts; that of operations and functions in
the usual format.  Where a node has a superscript, what stands in front of it is in parentheses unless it is a symbol, a
short number, a group or a root.
-/

namespace Formula

open Number Text

/-! ### Joining -/

namespace Format

/-- No command stands at the end. -/
theorem glue_of_not_command {out : String} (h : endsInCommand out = false) (piece : String) :
    glue out piece = out ++ piece := by
  unfold glue
  split
  · rename_i hpiece
    rw [String.toList_eq_nil_iff.mp hpiece, String.append_empty]
  · rw [h, Bool.and_false, if_neg Bool.false_ne_true]

theorem glue_empty (piece : String) : glue "" piece = piece := by
  rw [glue_of_not_command rfl, String.empty_append]

/-- A sign is no part of a command. -/
theorem glue_sign {d : Char} {ds : List Char} (hd : isLetter d = false) (out : String) :
    glue out (String.ofList (d :: ds)) = out ++ String.ofList (d :: ds) := by
  unfold glue
  rw [String.toList_ofList]
  dsimp only
  rw [hd, Bool.false_and, if_neg Bool.false_ne_true]

theorem endsInCommand_append {out : String} {d : Char} {ds : List Char} (hd : isCommandLetter d = false) (hn : d ≠ '\n') :
    endsInCommand (out ++ String.ofList (ds ++ [d])) = false := by
  unfold endsInCommand
  rw [String.toList_append, String.toList_ofList, ← List.append_assoc, List.reverse_append, List.reverse_singleton,
    List.singleton_append]
  split
  · rename_i heq
    exact absurd (List.cons.inj heq).1 hn
  · unfold endsInCommandReversed
    rw [List.takeWhile_cons_of_neg (by rw [hd]; exact Bool.false_ne_true)]
    rfl

theorem join_two (a b : String) (h : endsInCommand a = false) : join [a, b] = a ++ b := by
  unfold join
  rw [List.foldl_cons, List.foldl_cons, List.foldl_nil, glue_empty, glue_of_not_command h]

/-- Parentheses are put around a text as it is. -/
theorem join_parentheses (s : String) : join ["(", s, ")"] = Expr.parenthesized s := by
  have hclose : glue ("(" ++ s) ")" = "(" ++ s ++ ")" := @glue_sign ')' [] (by decide) _
  unfold join
  rw [List.foldl_cons, List.foldl_cons, List.foldl_cons, List.foldl_nil, glue_empty, @glue_of_not_command "(" rfl, hclose]
  rfl

/-- The dot of a product stands between its factors as it is. -/
theorem join_product (left right : String) : join [left, "\\cdot ", right] = left ++ ("\\cdot " ++ right) := by
  have hsign : glue left "\\cdot " = left ++ "\\cdot " := @glue_sign '\\' "cdot ".toList (by decide) _
  have hend : endsInCommand (left ++ "\\cdot ") = false :=
    @endsInCommand_append left ' ' "\\cdot".toList (by decide) (by decide)
  unfold join
  rw [List.foldl_cons, List.foldl_cons, List.foldl_cons, List.foldl_nil, glue_empty, hsign, glue_of_not_command hend,
    String.append_assoc]

/-! ### Places in templates -/

theorem splitAtPlace_cons {d : Char} (hd : d ≠ '%') (before : List Char) (escaped : Bool) (rest : List Char) :
    splitAtPlace before escaped (d :: rest) = splitAtPlace (d :: before) (d = '\\') rest := by
  rw [splitAtPlace.eq_def]
  exact if_neg fun h => hd h.1

theorem splitAtPlace_last {cs : List Char} (h : '%' ∉ cs) (before : List Char) (escaped : Bool) :
    splitAtPlace before escaped (cs ++ [' ', '%']) = some (before.reverse ++ cs ++ [' '], []) := by
  induction cs generalizing before escaped with
  | nil =>
    rw [List.nil_append, splitAtPlace_cons (by decide), List.append_nil, ← List.reverse_cons]
    rfl
  | cons d cs ih =>
    rw [List.mem_cons, not_or] at h
    rw [List.cons_append, splitAtPlace_cons (Ne.symm h.1), ih h.2, List.reverse_cons, List.append_assoc before.reverse]
    rfl

/-- In front of places nothing changes if these are taken out. -/
theorem replaceAll_place {s place tail rest : String} {ds : List Char} (h : '%' ∉ s.toList) (hplace : place.toList = '%' :: ds)
    (htail : replaceAll tail place "" = rest) : replaceAll (s ++ tail) place "" = s ++ rest := by
  have hne : ∀ d ∈ s.toList, d ≠ '%' := fun d hd heq => h (heq ▸ hd)
  have hthere : place.isEmpty = false := by
    rw [String.isEmpty_eq_false_iff]
    rintro rfl
    cases hplace
  unfold replaceAll at htail ⊢
  rw [hthere, if_neg Bool.false_ne_true, hplace] at htail ⊢
  rw [String.toList_append, replaceChars_of_ne hne, String.ofList_append, String.ofList_toList, htail]

/-- A template whose last place is that of the argument does not enclose it. -/
theorem enclosesArgument_last {s : String} (h : '%' ∉ s.toList) : enclosesArgument (s ++ "%^%_ %") = false := by
  have hsuper : replaceAll (s ++ "%^%_ %") "%^" "" = s ++ "%_ %" := replaceAll_place h rfl (by decide)
  have hsub : replaceAll (s ++ "%_ %") "%_" "" = s ++ " %" := replaceAll_place h rfl (by decide)
  have hsplit : splitAtPlace [] false (s.toList ++ " %".toList) = some (s.toList ++ [' '], []) := splitAtPlace_last h [] false
  unfold enclosesArgument
  dsimp only
  rw [hsuper, hsub, String.toList_append, hsplit]
  exact Bool.and_false _

theorem enclosesArgument_character {d : Char} (hplace : d ≠ '%') (hslash : d ≠ '\\') :
    enclosesArgument (d.toString ++ "%^%_%") = false := by
  have h : '%' ∉ d.toString.toList := by
    rw [Char.toString, String.toList_singleton, List.mem_singleton]
    exact Ne.symm hplace
  have hsuper : replaceAll (d.toString ++ "%^%_%") "%^" "" = d.toString ++ "%_%" := replaceAll_place h rfl (by decide)
  have hsub : replaceAll (d.toString ++ "%_%") "%_" "" = d.toString ++ "%" := replaceAll_place h rfl (by decide)
  have hsplit : splitAtPlace [] false (d.toString.toList ++ "%".toList) = some ([d], []) := by
    rw [Char.toString, String.toList_singleton, List.singleton_append, splitAtPlace_cons hplace, decide_eq_false hslash]
    rfl
  unfold enclosesArgument
  dsimp only
  rw [hsuper, hsub, String.toList_append, hsplit]
  exact Bool.and_false _

end Format

namespace Expr

theorem inFence_parentheses (s : String) : inFence parentheses s = .ok (parenthesized s) := by
  show Except.ok (Format.join ["(", s, ")"]) = _
  rw [Format.join_parentheses]

/-! ### Scripts -/

/-- The superscript is written as the text, or as nothing if it is missing. -/
def IsSuperText (f : Format) (s : Expr) (text : String) : Prop :=
  scriptsLatex (present s (latex f .builtin s)) (present missing (latex f .builtin missing)) = .ok text

/-- The superscript and the subscript are written as the text, of which nothing is for one that is missing. -/
def AreScriptTexts (f : Format) (s s' : Expr) (text : String) : Prop :=
  scriptsLatex (present s (latex f .builtin s)) (present s' (latex f .builtin s')) = .ok text

variable {f : Format}

theorem isSuperText_missing : IsSuperText f missing "" := rfl

theorem isSuperText_of_latex {s : Expr} {t : String} (hthere : s.isMissing = false) (h : s.latex f .builtin = .ok t) :
    IsSuperText f s ("^" ++ braced t) := by
  unfold IsSuperText present
  rw [hthere, if_neg Bool.false_ne_true, h]
  show Except.ok ("" ++ ("^" ++ braced t)) = _
  rw [String.empty_append]

theorem areScriptTexts_missing : AreScriptTexts f missing missing "" := rfl

/-! ### Leaves -/

/-- A symbol of the vocabulary has the first command that is listed for it, and any other has none. -/
theorem latexForSymbol_cases (s : String) :
    (s ∉ Catalog.builtinSymbols.map (·.2) ∧ Catalog.builtin.latexForSymbol (.text s) = .null) ∨
      ∃ p ∈ Catalog.builtinSymbols, p.2 = s ∧ Catalog.builtin.latexForSymbol (.text s) = .text p.1 := by
  unfold Catalog.latexForSymbol
  rw [show Catalog.builtin.symbols = Catalog.textTable Catalog.builtinSymbols from rfl]
  cases hfound : List.find? (fun e => e.2.same (.text s)) (Catalog.textTable Catalog.builtinSymbols) with
  | none =>
    refine .inl ⟨fun hmem => ?_, rfl⟩
    obtain ⟨p, hp, rfl⟩ := List.mem_map.mp hmem
    have := List.find?_eq_none.mp hfound (.text p.1, .text p.2)
      (List.mem_map.mpr ⟨(p.1, .text p.2), List.mem_map.mpr ⟨p, hp, rfl⟩, rfl⟩)
    exact this (beq_self_eq_true p.2)
  | some e =>
    have hmem := List.mem_of_find?_eq_some hfound
    simp only [Catalog.textTable, Table.ofTexts, List.map_map, List.mem_map, Function.comp_apply] at hmem
    obtain ⟨p, hp, rfl⟩ := hmem
    have hsame := List.find?_some hfound
    exact .inr ⟨p, hp, eq_of_beq (by exact hsame), rfl⟩

/-- A symbol of one character is written as its command, or as itself if it has none. -/
theorem symbolLatex_character {d : Char} (hd : d ≠ '&') : symbolLatex .builtin (.text d.toString) .null =
    .ok ((Catalog.builtin.latexForSymbol (.text d.toString)).orElse (.text d.toString)) := by
  have hreference : holds d.toString "&#" = false := by
    unfold holds
    rw [Char.toString, String.toList_singleton]
    show (("&#".toList.isPrefixOf [d]) || ("&#".toList.isEmpty)) = false
    rw [show "&#".toList = ['&', '#'] from rfl, List.isPrefixOf_cons_cons, beq_eq_false_iff_ne.mpr (Ne.symm hd)]
    rfl
  have hresolved : resolvedName (.text d.toString) = .ok (.text d.toString) := by
    show (if holds d.toString "&#" = true then _ else pure (Datum.text d.toString)) = _
    rw [hreference, if_neg Bool.false_ne_true]
    rfl
  unfold symbolLatex
  rw [hresolved]
  rfl

/-- A symbol without scripts is written as its spelling. -/
theorem latex_symbol {name variant : Datum} {s : String} (h : symbolLatex .builtin name variant = .ok (.text s)) :
    (ofSymbol name variant).latex f .builtin = .ok s := by
  show guarded (do
    let text ← symbolLatex .builtin name variant
    text.append "") = _
  rw [h]
  exact congrArg Except.ok String.append_empty

/-- A letter is written as it is. -/
theorem symbolLatex_letter {d : Char} (hd : d.isAlpha = true) :
    symbolLatex .builtin (.text d.toString) .null = .ok (.text d.toString) := by
  have hne : d ≠ '&' := by
    rintro rfl
    exact absurd hd (by decide)
  rw [symbolLatex_character hne]
  rcases latexForSymbol_cases d.toString with ⟨-, hnone⟩ | ⟨p, hp, heq, -⟩
  · rw [hnone]
    rfl
  · have hforeign : ∀ p ∈ Catalog.builtinSymbols, p.2.toList.all fun d => !d.isAlpha := by decide
    have := hforeign p hp
    rw [heq, Char.toString, String.toList_singleton, List.all_cons, hd] at this
    cases this

theorem latex_letter_scripts {d : Char} (hd : d.isAlpha = true) {s s' : Expr} {t : String} (hs : AreScriptTexts f s s' t) :
    (symbol (.text d.toString) .null s s').latex f .builtin = .ok (d.toString ++ t) := by
  show guarded (do
    let text ← symbolLatex .builtin (.text d.toString) .null
    text.append (← scriptsLatex _ _)) = _
  rw [symbolLatex_letter hd, hs]
  rfl

theorem latex_letter {d : Char} (hd : d.isAlpha = true) {s : Expr} {t : String} (hs : IsSuperText f s t) :
    (symbol (.text d.toString) .null s missing).latex f .builtin = .ok (d.toString ++ t) := latex_letter_scripts hd hs

theorem latex_number_scripts {value : Datum} {text : String} (h : f.number value = .ok text) {s s' : Expr} {t : String}
    (hs : AreScriptTexts f s s' t) :
    (number value s s').latex f .builtin =
      .ok (parenthesizedIf ((!s.isMissing || !s'.isMissing) && (beginsWith text "-" || holds text "\\")) text ++ t) := by
  show guarded (do
    let text ← numberLatex f value (!s.isMissing || !s'.isMissing)
    return text ++ (← scriptsLatex _ _)) = _
  unfold numberLatex
  rw [h, hs]
  rfl

theorem latex_number {value : Datum} {text : String} (h : f.number value = .ok text) {s : Expr} {t : String}
    (hs : IsSuperText f s t) :
    (number value s missing).latex f .builtin =
      .ok (parenthesizedIf (!s.isMissing && (beginsWith text "-" || holds text "\\")) text ++ t) := by
  rw [latex_number_scripts h hs]
  exact congrArg (fun b => Except.ok (parenthesizedIf (b && (beginsWith text "-" || holds text "\\")) text ++ t))
    (Bool.or_false _)

section

variable {value : Datum} {n : Int} (h : value.IsWhole n) (hlt : n.natAbs < tenTo 14)
include h hlt

theorem latex_whole : (ofNumber value).latex {} .builtin = .ok (Format.signText n ++ Format.wholeText n.natAbs) := by
  have := latex_number (Format.number_whole h hlt) isSuperText_missing
  rwa [String.append_empty] at this

/-- A whole number is simple unless it has a sign. -/
theorem isSimple_whole : (ofNumber value).isSimple {} = .ok (!decide (n < 0)) := by
  have htext : (ofNumber value).isSimple {} =
      (plainDigitsOf {} (Format.signText n ++ Format.wholeText n.natAbs)).map Format.isPlain := by
    show (do return Format.isPlain (← plainDigitsOf {} (← ({} : Format).number value))) = _
    rw [Format.number_whole h hlt]
    rfl
  rw [htext]
  unfold Format.signText
  by_cases hneg : n < 0
  · obtain ⟨digits, hdigits⟩ := Format.plainDigitsOf_minus (Format.wholeText n.natAbs)
    rw [if_pos hneg, decide_eq_true hneg, hdigits]
    exact congrArg Except.ok (Format.isPlain_minus _)
  · rw [if_neg hneg, decide_eq_false hneg, String.empty_append, Format.plainDigitsOf_wholeText]
    exact congrArg Except.ok (Format.isPlain_toDigits _)

theorem isBareArgument_whole : (ofNumber value).isBareArgument {} = .ok (!decide (n < 0)) := by
  show (do return !beginsWith (← ({} : Format).number value) "-") = _
  rw [Format.number_whole h hlt]
  exact congrArg (fun b => Except.ok (!b)) (Format.beginsWith_signText n)

end

/-! ### Groups and signs -/

theorem latex_group_fence {e s s' : Expr} {fence : Datum} {simple : Bool} {text fencedText t : String}
    (hsimple : e.isSimple f = .ok simple) (h : e.latex f .builtin = .ok text) (hfence : inFence fence text = .ok fencedText)
    (hs : AreScriptTexts f s s' t) :
    (group e fence s s').latex f .builtin = .ok ((if simple then text else fencedText) ++ t) := by
  show guarded (groupLatex f e fence (latex f .builtin e) (scriptsLatex _ _)) = _
  unfold groupLatex
  rw [h, hsimple, hs]
  cases simple with
  | true => rfl
  | false =>
    show guarded (do
      let text ← inFence fence text
      return text ++ t) = _
    rw [hfence]
    rfl

theorem latex_group_scripts {e s s' : Expr} {simple : Bool} {text t : String} (hsimple : e.isSimple f = .ok simple)
    (h : e.latex f .builtin = .ok text) (hs : AreScriptTexts f s s' t) :
    (group e parentheses s s').latex f .builtin = .ok ((if simple then text else parenthesized text) ++ t) :=
  latex_group_fence hsimple h (inFence_parentheses text) hs

theorem latex_group {e s : Expr} {simple : Bool} {text t : String} (hsimple : e.isSimple f = .ok simple)
    (h : e.latex f .builtin = .ok text) (hs : IsSuperText f s t) :
    (group e parentheses s missing).latex f .builtin = .ok ((if simple then text else parenthesized text) ++ t) :=
  latex_group_scripts hsimple h hs

theorem latex_before {sign : Sign} {e s : Expr} {text t : String} (h : e.latex f .builtin = .ok text)
    (hs : IsSuperText f s t) :
    (unary (.text sign.name) e s missing).latex f .builtin =
      .ok (parenthesizedIf (!s.isMissing) (sign.name ++ parenthesizedIf e.isPlainOperation text) ++ t) := by
  have hjoin : ∀ text, Format.join [(signCommands.lookup sign.name).getD sign.name, text] = sign.name ++ text := by
    intro text
    cases sign with
    | plus => exact Format.join_two "+" text rfl
    | minus => exact Format.join_two "-" text rfl
  show guarded (unaryLatex (.text sign.name) e (!s.isMissing || false) (latex f .builtin e) (scriptsLatex _ _)) = _
  rw [h, hs, Bool.or_false]
  show Except.ok (parenthesizedIf (!s.isMissing)
    (Format.join [(signCommands.lookup sign.name).getD sign.name, parenthesizedIf e.isPlainOperation text]) ++ t) = _
  rw [hjoin]

theorem latex_signed (sign : Sign) {e : Expr} {text : String} (h : e.latex f .builtin = .ok text) :
    (before (.text sign.name) e).latex f .builtin = .ok (sign.name ++ parenthesizedIf e.isPlainOperation text) := by
  have hlatex := @latex_before f sign e missing text "" h isSuperText_missing
  rwa [String.append_empty] at hlatex

/-! ### Operations -/

theorem operationLatex_name (o : Infix) (left right : String) :
    operationLatex {} .builtin (.text o.name) left right = .ok (left ++ (o.sign ++ right)) := by
  have hfill : String.ofList (left.toList ++ (o.sign.toList ++ (right.toList ++ []))) = left ++ (o.sign ++ right) := by
    rw [← String.toList_inj, String.toList_ofList, String.toList_append, String.toList_append, List.append_nil]
  cases o with
  | product =>
    show Except.ok (Format.join [left, "\\cdot ", right]) = _
    rw [Format.join_product]
    rfl
  | _ => exact congrArg Except.ok hfill

/-- An operand has parentheses, or its operator binds as tight as the one beside it, and tighter behind a minus. -/
theorem operandLatex_cases (own : Option Int) (around : Int) (right : Bool) (op : Datum) (text : String) :
    own.isSome = true ∧ operandLatex own around right op text = parenthesized text ∨
      operandLatex own around right op text = text ∧
        ∀ q, own = some q → around ≤ q ∧ (right = true → isSubtractive op = true → around < q) := by
  cases own with
  | none => exact .inr ⟨rfl, fun q hq => by cases hq⟩
  | some q =>
    show _ ∧ parenthesizedIf _ text = _ ∨ parenthesizedIf _ text = _ ∧ _
    unfold parenthesizedIf
    split
    · exact .inl ⟨rfl, rfl⟩
    · rename_i hloose
      simp only [Bool.or_eq_true, decide_eq_true_eq, Bool.and_eq_true, beq_iff_eq, not_or, not_and] at hloose
      refine .inr ⟨rfl, fun q' hq => ?_⟩
      obtain rfl := Option.some.inj hq
      refine ⟨by omega, fun hright hsubtractive => ?_⟩
      have : q ≠ around := fun heq => hloose.2 ⟨hright, heq⟩ hsubtractive
      omega

/-- An operand whose operator binds tighter needs no parentheses. -/
theorem operandLatex_of_le {own : Option Int} {around : Int} {right : Bool}
    (h : ∀ q, own = some q → around ≤ q ∧ (right = true → around < q)) (op : Datum) (text : String) :
    operandLatex own around right op text = text := by
  cases own with
  | none => rfl
  | some q =>
    obtain ⟨hle, hlt⟩ := h q rfl
    have hloose : (q < around || (right && q == around && isSubtractive op)) = false := by
      rw [Bool.or_eq_false_iff, decide_eq_false_iff_not, Bool.and_eq_false_iff, Bool.and_eq_false_iff]
      refine ⟨by omega, .inl ?_⟩
      cases right with
      | false => exact .inl rfl
      | true =>
        have := hlt rfl
        exact .inr (beq_eq_false_iff_ne.mpr (by omega))
    exact if_neg (by rw [hloose]; exact Bool.false_ne_true)

theorem latex_infix (o : Infix) {l r s : Expr} {own own' : Option Int} {left right t : String}
    (hl : l.latex {} .builtin = .ok left) (hr : r.latex {} .builtin = .ok right)
    (hown : l.precedence .builtin = .ok own) (hown' : r.precedence .builtin = .ok own') (hs : IsSuperText {} s t) :
    (binary (.text o.name) l r s missing).latex {} .builtin =
      .ok (parenthesizedIf (!s.isMissing) (operandLatex own o.precedence false (.text o.name) left ++
        (o.sign ++ operandLatex own' o.precedence true (.text o.name) right)) ++ t) := by
  show guarded (binaryLatex {} .builtin (.text o.name) l r (!s.isMissing || false) (latex {} .builtin l)
    (latex {} .builtin r) (scriptsLatex _ _)) = _
  unfold binaryLatex
  rw [o.isText_slash, o.precedenceOf_name, hl, hr, hown, hown', hs, Bool.or_false]
  show guarded (do
    let text ← operationLatex {} .builtin (.text o.name) _ _
    return parenthesizedIf (!s.isMissing) text ++ t) = _
  rw [operationLatex_name]
  rfl

theorem latex_between (o : Operation) {l r s : Expr} {own own' : Option Int} {left right t : String}
    (hl : l.latex {} .builtin = .ok left) (hr : r.latex {} .builtin = .ok right)
    (hown : l.precedence .builtin = .ok own) (hown' : r.precedence .builtin = .ok own') (hs : IsSuperText {} s t) :
    (binary (.text o.name) l r s missing).latex {} .builtin =
      .ok (parenthesizedIf (!s.isMissing) (operandLatex own o.precedence false (.text o.name) left ++
        (o.sign ++ operandLatex own' o.precedence true (.text o.name) right)) ++ t) := by
  have := latex_infix o.toInfix hl hr hown hown' hs
  rwa [o.name_toInfix, o.precedence_toInfix, o.sign_toInfix] at this

theorem fractionLatex_eq (decorated : Bool) (numerator denominator scripts : String) :
    fractionLatex decorated (.ok numerator) (.ok denominator) (.ok scripts) =
      .ok (parenthesizedIf decorated ("\\frac" ++ braced numerator ++ braced denominator) ++ scripts) := rfl

theorem latex_slash {n d s : Expr} {numerator denominator t : String} (hn : n.latex f .builtin = .ok numerator)
    (hd : d.latex f .builtin = .ok denominator) (hs : IsSuperText f s t) :
    (binary (.text "/") n d s missing).latex f .builtin =
      .ok (parenthesizedIf (!s.isMissing) ("\\frac" ++ braced numerator ++ braced denominator) ++ t) := by
  show guarded (fractionLatex (!s.isMissing || false) (latex f .builtin n) (latex f .builtin d) (scriptsLatex _ _)) = _
  rw [hn, hd, hs, fractionLatex_eq, Bool.or_false]
  rfl

theorem latex_fraction {n d s : Expr} {numerator denominator t : String} (hn : n.latex f .builtin = .ok numerator)
    (hd : d.latex f .builtin = .ok denominator) (hs : IsSuperText f s t) :
    (fraction n d s missing).latex f .builtin =
      .ok (parenthesizedIf (!s.isMissing) ("\\frac" ++ braced numerator ++ braced denominator) ++ t) := by
  show guarded (fractionLatex (!s.isMissing || false) (latex f .builtin n) (latex f .builtin d) (scriptsLatex _ _)) = _
  rw [hn, hd, hs, fractionLatex_eq, Bool.or_false]
  rfl

theorem latex_root {e s : Expr} {text t : String} (h : e.latex f .builtin = .ok text) (hs : IsSuperText f s t) :
    (root e missing s missing).latex f .builtin = .ok ("\\sqrt" ++ braced text ++ t) := by
  show guarded (rootLatex (latex f .builtin e) none (scriptsLatex _ _)) = _
  rw [h, hs]
  rfl

/-! ### Functions -/

/-- A power with its scripts, behind parentheses. -/
theorem latex_power_scripts {b x s s' : Expr} {simple : Bool} {base exponent t : String} (hsimple : b.isSimple {} = .ok simple)
    (hb : b.latex {} .builtin = .ok base) (hx : x.latex {} .builtin = .ok exponent) (hs : AreScriptTexts {} s s' t)
    (fence : Datum) : (call "pow" (tuple [b, x]) fence s s').latex {} .builtin =
      .ok (parenthesizedIf (!s.isMissing || !s'.isMissing)
        ((if simple then base else parenthesized base) ++ ("^" ++ braced exponent)) ++ t) := by
  show guarded (powerLatex {} b (!s.isMissing || !s'.isMissing) (b.latex {} .builtin) (x.latex {} .builtin) (scriptsLatex _ _)) = _
  unfold powerLatex
  rw [hb, hx, hsimple, hs, ← @String.append_assoc _ "^"]
  rfl

theorem latex_power {b x : Expr} {simple : Bool} {base exponent : String} (hsimple : b.isSimple {} = .ok simple)
    (hb : b.latex {} .builtin = .ok base) (hx : x.latex {} .builtin = .ok exponent) :
    (apply "pow" (tuple [b, x])).latex {} .builtin =
      .ok ((if simple then base else parenthesized base) ++ ("^" ++ braced exponent)) := by
  have hlatex := latex_power_scripts hsimple hb hx areScriptTexts_missing parentheses
  rwa [String.append_empty] at hlatex

/-- A function of one argument is written by its template. -/
theorem latex_apply {e : Expr} (hnode : e.isNode = true) (name : String) {template : Datum}
    (htemplate : Catalog.builtin.functionTemplateOf (.text name) = .ok template) :
    (apply name e).latex {} .builtin =
      guarded (callLatex template (argumentLatex {} (.text name) template e parentheses (latex {} .builtin e)) none none) := by
  have hcall : (apply name e).latex {} .builtin = guarded (do
      let template ← Catalog.builtin.functionTemplateOf (.text name)
      callLatex template (argumentLatex {} (.text name) template e parentheses (latex {} .builtin e)) none none) := by
    cases e <;> first | rfl | cases hnode
  rw [hcall, htemplate]
  rfl

theorem callLatex_plain (template argument : String) :
    callLatex (.text template) (.ok argument) none none =
      .ok (String.ofList (Format.fillFunction argument.toList [] [] false template.toList)) := by
  have hscripts : scriptsLatex none none = .ok "" := rfl
  unfold callLatex templateChars
  simp only [bind, Except.bind, hscripts, ite_self, String.append_empty]
  rfl

/-- An argument is in parentheses unless it is bare and the function a loose one. -/
theorem argumentLatex_eq {name template : String} {e : Expr} {bare : Bool} {text : String}
    (hopen : Format.enclosesArgument template = false) (hbare : e.isBareArgument {} = .ok bare) :
    argumentLatex {} (.text name) (.text template) e parentheses (.ok text) =
      .ok (if looseFunctions.contains name && bare then text else parenthesized text) := by
  unfold argumentLatex
  simp only [bind, Except.bind, hopen, hbare, inFence_parentheses]
  cases looseFunctions.contains name <;> cases bare <;> rfl

theorem argumentLatex_enclosed {template : String} (h : Format.enclosesArgument template = true) (name : Datum) (e : Expr)
    (text : String) : argumentLatex {} name (.text template) e parentheses (.ok text) = .ok text := by
  unfold argumentLatex
  simp only [bind, Except.bind, h, if_pos]
  rfl

section

variable {argument sup sub rest : List Char}

theorem fillFunction_cons {d : Char} (hd : d ≠ '%') (escaped : Bool) :
    Format.fillFunction argument sup sub escaped (d :: rest) =
      d :: Format.fillFunction argument sup sub (d = '\\') rest := by
  rw [Format.fillFunction.eq_def]
  split <;> simp_all

/-- What holds neither places nor backslashes stays as it is, also behind a backslash. -/
theorem fillFunction_append : ∀ {cs : List Char} (escaped : Bool), (∀ d ∈ cs, d ≠ '%' ∧ d ≠ '\\') → cs ≠ [] →
    Format.fillFunction argument sup sub escaped (cs ++ rest) = cs ++ Format.fillFunction argument sup sub false rest
  | [], _, _, hne => absurd rfl hne
  | d :: cs, escaped, h, _ => by
    obtain ⟨hplace, hslash⟩ := h d List.mem_cons_self
    rw [List.cons_append, fillFunction_cons hplace, decide_eq_false hslash, List.cons_append]
    cases cs with
    | nil => rfl
    | cons e cs => rw [fillFunction_append false (fun f hf => h f (List.mem_cons_of_mem _ hf)) (List.cons_ne_nil _ _)]

end

/-- A function without a template of its own has a plain one. -/
theorem functionTemplateOf_plain {name template : String} (hname : name ∉ Catalog.builtinFunctionTemplates.map (·.1))
    (hplain : Catalog.plainFunctionTemplate (.text name) = .ok template) :
    Catalog.builtin.functionTemplateOf (.text name) = .ok (.text template) := by
  have hfind : (Catalog.textTable Catalog.builtinFunctionTemplates).find? (.text name) = none := Catalog.find?_textTable hname
  have hkey : (Datum.text name).key = .ok (.text name) := rfl
  unfold Catalog.functionTemplateOf
  rw [hkey]
  simp only [bind, Except.bind]
  rw [show Catalog.builtin.functionTemplates = Catalog.textTable Catalog.builtinFunctionTemplates from rfl, hfind, hplain]
  rfl

theorem functionTemplateOf_command {name : String} (hname : name ∈ Catalog.commandFunctions) :
    Catalog.builtin.functionTemplateOf (.text name) = .ok (.text ("\\" ++ name ++ "%^%_ %")) := by
  have hnone : ∀ s ∈ Catalog.commandFunctions, s ∉ Catalog.builtinFunctionTemplates.map (·.1) := by decide +kernel
  have hcontains : Catalog.commandFunctions.contains name = true := List.contains_iff_mem.mpr hname
  have hplain : Catalog.plainFunctionTemplate (.text name) = .ok ("\\" ++ name ++ "%^%_ %") := by
    unfold Catalog.plainFunctionTemplate
    rw [if_pos (by exact hcontains)]
    rfl
  exact functionTemplateOf_plain (hnone name hname) hplain

/-- The template with the argument and the texts of the scripts, which stand at their places or behind it. -/
def callText (template argument above below : String) : String :=
  String.ofList (Format.fillFunction argument.toList above.toList below.toList false template.toList) ++
    (if holdsChars ['%', '_'] template.toList then "" else below) ++
    (if holdsChars ['%', '^'] template.toList then "" else above)

theorem callLatex_scripts {sup sub : Option (Outcome String)} {above below : String} (habove : scriptsLatex sup none = .ok above)
    (hbelow : scriptsLatex none sub = .ok below) (template argument : String) :
    callLatex (.text template) (.ok argument) sup sub = .ok (callText template argument above below) := by
  simp only [bind, Except.bind, callLatex, templateChars, habove, hbelow]
  rfl

/-- **A function of one argument**, with its scripts. -/
theorem latex_call_scripts {name template argument above below : String} {e s t : Expr} {fence : Datum} (hone : ∀ items, e ≠ tuple items)
    (htemplate : Catalog.builtin.functionTemplateOf (.text name) = .ok (.text template))
    (hargument : argumentLatex {} (.text name) (.text template) e fence (e.latex {} .builtin) = .ok argument)
    (habove : scriptsLatex (present s (s.latex {} .builtin)) none = .ok above)
    (hbelow : scriptsLatex none (present t (t.latex {} .builtin)) = .ok below) :
    (call (.text name) e fence s t).latex {} .builtin = .ok (callText template argument above below) := by
  have hcall : (call (.text name) e fence s t).latex {} .builtin = guarded (do
      let template ← Catalog.builtin.functionTemplateOf (.text name)
      callLatex template (argumentLatex {} (.text name) template e fence (latex {} .builtin e))
        (present s (latex {} .builtin s)) (present t (latex {} .builtin t))) := by
    cases e <;> first | rfl | exact absurd rfl (hone _)
  rw [hcall, htemplate]
  simp only [bind, Except.bind, hargument, callLatex_scripts habove hbelow]
  rfl

/-- **A function of several arguments**, with its scripts. -/
theorem latex_several_scripts {name template argument above below : String} {items : List Expr} {s t : Expr} {fence : Datum}
    (hpower : powerParts? (.text name) (tuple items) (latexEach {} .builtin items) = none)
    (htemplate : Catalog.builtin.functionTemplateOf (.text name) = .ok (.text template))
    (hargument : argumentsLatex fence (latexEach {} .builtin items) = .ok argument)
    (habove : scriptsLatex (present s (s.latex {} .builtin)) none = .ok above)
    (hbelow : scriptsLatex none (present t (t.latex {} .builtin)) = .ok below) :
    (call (.text name) (tuple items) fence s t).latex {} .builtin = .ok (callText template argument above below) := by
  show guarded _ = _
  dsimp only
  rw [hpower, htemplate]
  simp only [bind, Except.bind, hargument, callLatex_scripts habove hbelow]
  rfl

theorem holdsChars_behind {part cs : List Char} (h : holdsChars part cs = true) (front : List Char) :
    holdsChars part (front ++ cs) = true := by
  induction front with
  | nil => exact h
  | cons d front ih => rw [List.cons_append, holdsChars, ih, Bool.or_true]

/-- A template that is a command with its scripts and the argument behind it. -/
theorem callText_head {head : String} {cs : List Char} (hhead : head.toList = '\\' :: cs)
    (hplain : ∀ d ∈ cs, d ≠ '%' ∧ d ≠ '\\') (hne : cs ≠ []) (argument above below : String) :
    callText (head ++ "%^%_ %") argument above below = head ++ (above ++ (below ++ " ")) ++ argument := by
  have hplaces : holdsChars ['%', '_'] (head ++ "%^%_ %").toList = true ∧ holdsChars ['%', '^'] (head ++ "%^%_ %").toList = true := by
    rw [String.toList_append]
    exact ⟨holdsChars_behind (by decide) _, holdsChars_behind (by decide) _⟩
  unfold callText
  rw [hplaces.1, hplaces.2, if_pos rfl, if_pos rfl, String.append_empty, String.append_empty, ← String.toList_inj,
    String.toList_ofList, String.toList_append, hhead, List.cons_append, fillFunction_cons (by decide),
    fillFunction_append _ hplain hne]
  simp [Format.fillFunction, hhead]

/-- A function of which the template is a command with the argument behind it. -/
theorem latex_head {name head : String} {cs : List Char} (hhead : head.toList = '\\' :: cs)
    (hplain : ∀ d ∈ cs, d ≠ '%' ∧ d ≠ '\\') (hne : cs ≠ [])
    (htemplate : Catalog.builtin.functionTemplateOf (.text name) = .ok (.text (head ++ "%^%_ %"))) {e : Expr} {bare : Bool}
    {text : String} (hnode : e.isNode = true) (hbare : e.isBareArgument {} = .ok bare) (h : e.latex {} .builtin = .ok text) :
    (apply name e).latex {} .builtin =
      .ok (head ++ " " ++ if looseFunctions.contains name && bare then text else parenthesized text) := by
  have hplace : '%' ∉ head.toList := by
    rw [hhead, List.mem_cons, not_or]
    exact ⟨by decide, fun hd => (hplain _ hd).1 rfl⟩
  have hone : ∀ items, e ≠ tuple items := by
    rintro items rfl
    cases hnode
  rw [apply, latex_call_scripts hone htemplate (by rw [h, argumentLatex_eq (Format.enclosesArgument_last hplace) hbare]) rfl rfl,
    callText_head hhead hplain hne]
  rfl

/-- **A function with a command of its own.** -/
theorem latex_command {name : String} (hname : name ∈ Catalog.commandFunctions) {e : Expr} {bare : Bool} {text : String}
    (hnode : e.isNode = true) (hbare : e.isBareArgument {} = .ok bare) (h : e.latex {} .builtin = .ok text) :
    (apply name e).latex {} .builtin =
      .ok ("\\" ++ name ++ " " ++ if looseFunctions.contains name && bare then text else parenthesized text) := by
  have hfacts : ∀ s ∈ Catalog.commandFunctions, s.toList.all isLetter = true ∧ s.toList ≠ [] := by decide +kernel
  obtain ⟨hletters, hne⟩ := hfacts name hname
  refine latex_head (String.toList_append ..) (fun d hd => ?_) hne (functionTemplateOf_command hname) hnode hbare h
  have hletter := List.all_eq_true.mp hletters d hd
  constructor <;>
    · rintro rfl
      exact absurd hletter (by decide)

/-- **A factorial.** -/
theorem latex_factorial {e : Expr} {bare : Bool} {text : String} (hnode : e.isNode = true)
    (hbare : e.isBareArgument {} = .ok bare) (h : e.latex {} .builtin = .ok text) :
    (apply "factorial" e).latex {} .builtin = .ok ((if bare then text else parenthesized text) ++ "!") := by
  have hloose : looseFunctions.contains "factorial" = true := by decide
  have htemplate : Catalog.builtin.functionTemplateOf (.text "factorial") = .ok (.text "%!") := rfl
  rw [latex_apply hnode "factorial" htemplate, h, argumentLatex_eq (by decide) hbare, hloose, Bool.true_and,
    callLatex_plain]
  refine congrArg Except.ok ?_
  rw [← String.toList_inj, String.toList_ofList, String.toList_append]
  rfl

/-- A function whose template has no place for scripts is written with its superscript behind the template. -/
theorem latex_call {name template argument t : String} {e sup : Expr} (hnode : e.isNode = true)
    (htemplate : Catalog.builtin.functionTemplateOf (.text name) = .ok (.text template))
    (hplace : holdsChars ['%', '^'] template.toList = false)
    (hargument : argumentLatex {} (.text name) (.text template) e parentheses (e.latex {} .builtin) = .ok argument)
    (hsup : IsSuperText {} sup t) : (call (.text name) e parentheses sup missing).latex {} .builtin =
      .ok (String.ofList (Format.fillFunction argument.toList t.toList [] false template.toList) ++ t) := by
  have hone : ∀ items, e ≠ tuple items := by
    rintro items rfl
    cases hnode
  have hbelow : scriptsLatex none (present missing (latex {} .builtin missing)) = .ok "" := rfl
  rw [latex_call_scripts hone htemplate hargument hsup hbelow, callText, hplace, ite_self, String.append_empty]
  rfl

/-- **A function that encloses its argument**, with its superscript. -/
theorem latex_enclosure_super (f : Enclosure) {e sup : Expr} {text t : String} (hnode : e.isNode = true)
    (h : e.latex {} .builtin = .ok text) (hsup : IsSuperText {} sup t) :
    (call (.text f.name) e parentheses sup missing).latex {} .builtin = .ok (f.around text ++ t) := by
  have htemplate : Catalog.builtin.functionTemplateOf (.text f.name) = .ok (.text (f.around "%")) := by
    cases f <;> rfl
  have hfacts : holdsChars ['%', '^'] (f.around "%").toList = false ∧ Format.enclosesArgument (f.around "%") = true := by
    cases f <;> decide +kernel
  have hfill : Format.fillFunction text.toList t.toList [] false (f.around "%").toList = (f.around text).toList := by
    unfold Enclosure.around
    simp only [String.toList_append]
    cases f <;> rfl
  rw [latex_call hnode htemplate hfacts.1 (by rw [h, argumentLatex_enclosed hfacts.2]) hsup, hfill, String.ofList_toList]

theorem latex_enclosure (f : Enclosure) {e : Expr} {text : String} (hnode : e.isNode = true)
    (h : e.latex {} .builtin = .ok text) : (apply f.name e).latex {} .builtin = .ok (f.around text) := by
  have hlatex := latex_enclosure_super f hnode h isSuperText_missing
  rwa [String.append_empty] at hlatex

/-! ### Questions about nodes with scripts -/

theorem precedence_eq_none {t : Expr} (h : t.isPlainOperation = false) : t.precedence .builtin = .ok none := by
  cases t with
  | binary op l r s t =>
    have hany : ∀ a b c : Bool, (!a && b && c) = false → (a || !(b && c)) = true := by decide
    exact if_pos (hany _ _ _ h)
  | _ => rfl

section

variable {t s : Expr}

theorem isMissing_of_isNode (h : t.isNode = true) : t.isMissing = false := by
  cases t <;> first | rfl | cases h

theorem isBareArgument_withScripts (t s s' : Expr) : (t.withScripts s s').isBareArgument {} = t.isBareArgument {} := by
  cases t <;> rfl

/-- A node with scripts is never simple. -/
theorem isSimple_withScripts (h : t.isNode = true) {s' : Expr} (hs : (s.isMissing && s'.isMissing) = false) :
    (t.withScripts s s').isSimple {} = .ok false := by
  cases t with
  | missing | foreign | tuple => cases h
  | number =>
    show (if (s.isMissing && s'.isMissing) = true then _ else _) = _
    rw [hs]
    rfl
  | symbol =>
    show Except.ok (s.isMissing && s'.isMissing) = _
    rw [hs]
  | _ => rfl

theorem isPlainOperation_withScripts (hs : s.isMissing = false) (s' : Expr) :
    (t.withScripts s s').isPlainOperation = false := by
  cases t with
  | binary op l r =>
    show (!op.isText "/" && s.isMissing && s'.isMissing) = false
    rw [hs, Bool.and_false, Bool.false_and]
  | _ => rfl

end

end Expr

end Formula
