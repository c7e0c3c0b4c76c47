import Formula.Proofs.Expr.Sums
import Formula.Proofs.Reader.Arguments

/-!
# Named functions

A function that has no notation of its own is written with its name in front of the argument: with the command of the name
if it has one, and else with the name in `\operatorname`, which the reader keeps as it is written.  In both forms the name
is one atom, and the reader of rows knows it as the function.

A function may have any name that can stand between braces, and its call is read as the call of that name.  It is written so
again if the name is longer than one character and holds no percent sign, which is the place of the argument in a template; a
name of one character is written without the command, and only `f` and `g` are then the names of functions to the reader.
-/

namespace Formula

open Text Atom Expr

/-- The function is written as the text in front of its argument, and the atoms that the text spells make its call of the
primary behind them. -/
structure WritesHead (name head : String) (front : List Atom) : Prop where
  spells : Source.Spells .builtin head front
  spaceless : unspaced front = front
  primary : ∀ {row : List Atom} {e : Expr}, IsPrimary .builtin row e → IsPrimary .builtin (front ++ row) (apply name e)
  latex : ∀ {e : Expr} {bare : Bool} {text : String}, e.isNode = true → e.isBareArgument {} = .ok bare →
    e.latex {} .builtin = .ok text → (apply name e).latex {} .builtin =
      .ok (head ++ if looseFunctions.contains name && bare then text else parenthesized text)

theorem FunctionAtom.spaceless (f : FunctionAtom .builtin) : unspaced [f.atom] = [f.atom] := by
  refine unspaced_singleton ?_
  rw [f.type_eq]
  decide

/-- A function with a command of its own. -/
theorem writesHead_command {name : String} (h : name ∈ Catalog.commandFunctions) :
    WritesHead name ("\\" ++ name ++ " ") [(FunctionAtom.command h).atom] :=
  ⟨spells_command h, FunctionAtom.spaceless _, fun hprimary => hprimary.function (.command h),
    fun hnode hbare hlatex => latex_command h hnode hbare hlatex⟩

/-! ### Names that are kept as they are written -/

/-- The letters of the command for names. -/
def headLetters : List Char := ['o', 'p', 'e', 'r', 'a', 't', 'o', 'r', 'n', 'a', 'm', 'e']

/-- The name of a function in its command. -/
def operatorNameText (name : String) : String := Catalog.operatorNameHead ++ name ++ "\x7d"

/-- The atom of such a name. -/
def operatorNameAtom (name : String) : Atom := { type := .operator, latex := .text (operatorNameText name) }

/-- A text that begins and ends with a character of another kind has no blanks around it. -/
theorem trim_eq_self {s : String} {d e : Char} {cs : List Char} (hs : s.toList = d :: (cs ++ [e])) (hd : isBlank d = false)
    (he : isBlank e = false) : trim s = s := by
  unfold trim trimChars
  rw [hs, List.dropWhile_cons_of_neg (by rw [hd]; exact Bool.false_ne_true), List.reverse_cons, List.reverse_append,
    List.reverse_singleton, List.singleton_append, List.cons_append,
    List.dropWhile_cons_of_neg (by rw [he]; exact Bool.false_ne_true), ← String.toList_inj, String.toList_ofList, hs]
  simp

theorem isVoid_eq_false {s : String} {d : Char} {cs : List Char} (hs : s.toList = d :: cs) :
    (Datum.text s).isVoid = false := by
  refine Bool.eq_false_iff.mpr fun h => ?_
  rw [String.isEmpty_iff.mp h] at hs
  cases hs

/-- The text of an atom is how it is written in LaTeX, if there are no blanks around that. -/
theorem text_of_latex {a : Atom} {s : String} {d e : Char} {cs : List Char} (ha : a.latex = .text s)
    (hs : s.toList = d :: (cs ++ [e])) (hd : isBlank d = false) (he : isBlank e = false) : a.text = .ok (.text s) := by
  have hblank : allBlank s = false := by
    rw [allBlank, hs, List.all_cons, hd]
    rfl
  unfold Atom.text
  rw [ha, isVoid_eq_false hs, if_neg Bool.false_ne_true]
  dsimp only
  rw [hblank, trim_eq_self hs hd he]
  rfl

section

variable (n : String)

theorem toList_operatorNameText : (operatorNameText n).toList =
    '\\' :: (headLetters ++ '\x7b' :: (n.toList ++ ['\x7d'])) := by
  unfold operatorNameText
  rw [String.toList_append, String.toList_append]
  rfl

theorem beginsWith_operatorNameText : beginsWith (operatorNameText n) Catalog.operatorNameHead = true := by
  unfold beginsWith operatorNameText
  rw [List.isPrefixOf_iff_prefix, String.append_assoc, String.toList_append]
  exact List.prefix_append _ _

/-- The text is none of those that begin otherwise. -/
theorem operatorNameText_not_mem {texts : List String} (h : (texts.all fun s => !beginsWith s Catalog.operatorNameHead) = true) :
    operatorNameText n ∉ texts := by
  intro hmem
  have hbegins := List.all_eq_true.mp h _ hmem
  rw [beginsWith_operatorNameText n] at hbegins
  cases hbegins

theorem trim_operatorNameText : trim (operatorNameText n) = operatorNameText n := by
  refine @trim_eq_self _ '\\' '\x7d' (headLetters ++ '\x7b' :: n.toList) ?_
    (by decide) (by decide)
  rw [toList_operatorNameText]
  simp

theorem operatorName?_operatorNameText : Catalog.operatorName? (operatorNameText n) = some n := by
  have hends : endsWith (operatorNameText n) "\x7d" = true := by
    unfold endsWith operatorNameText
    rw [List.isSuffixOf_iff_suffix, String.toList_append]
    exact List.suffix_append _ _
  have hinner : ((operatorNameText n).toList.drop Catalog.operatorNameHead.length).dropLast = n.toList := by
    have hlength : Catalog.operatorNameHead.length = Catalog.operatorNameHead.toList.length := String.length_toList.symm
    unfold operatorNameText
    rw [String.append_assoc, String.toList_append, hlength, List.drop_left, String.toList_append]
    exact List.dropLast_concat
  unfold Catalog.operatorName?
  rw [beginsWith_operatorNameText, hends, hinner, String.ofList_toList]
  rfl

theorem isVoid_operatorNameText : (Datum.text (operatorNameText n)).isVoid = false :=
  isVoid_eq_false (toList_operatorNameText n)

theorem text_operatorNameAtom : (operatorNameAtom n).text = .ok (.text (operatorNameText n)) := by
  refine @text_of_latex _ _ '\\' '\x7d' (headLetters ++ '\x7b' :: n.toList) rfl ?_ (by decide) (by decide)
  rw [toList_operatorNameText]
  simp

theorem name_operatorNameAtom : (operatorNameAtom n).name .builtin = .ok (.text n) := by
  have hname : Catalog.builtin.nameOfTrimmed (operatorNameText n) = .text n := by
    unfold Catalog.nameOfTrimmed
    rw [show Catalog.builtin.names = Catalog.textTable Catalog.builtinNames from rfl,
      show Catalog.builtin.symbols = Catalog.textTable Catalog.builtinSymbols from rfl,
      Catalog.find?_textTable (operatorNameText_not_mem n (by decide)),
      Catalog.find?_textTable (operatorNameText_not_mem n (by decide +kernel)), operatorName?_operatorNameText]
  unfold Atom.name Catalog.canonicalNameOf
  rw [text_operatorNameAtom]
  show (if (Datum.text (operatorNameText n)).isVoid = true then Except.ok (Catalog.builtin.nameOfTrimmed "")
    else Except.ok (Catalog.builtin.nameOfTrimmed (trim (operatorNameText n)))) = _
  rw [isVoid_operatorNameText, if_neg Bool.false_ne_true, trim_operatorNameText, hname]

theorem isFunction_operatorNameAtom (h : n ∉ Catalog.builtinPrecedences.map (·.1)) :
    (operatorNameAtom n).isFunction .builtin = .ok true := by
  have hprecedence : Catalog.builtin.precedence (.text n) = none := by
    have hfind : (Table.ofTexts Catalog.builtinPrecedences).find? (.text n) = none := Catalog.find?_ofTexts h
    exact hfind
  have hbegins : beginsWith (operatorNameText n) "\\operatorname" = true := by
    unfold beginsWith
    rw [toList_operatorNameText]
    rfl
  unfold Atom.isFunction
  rw [name_operatorNameAtom, text_operatorNameAtom]
  show (if (Catalog.builtin.precedence (.text n)).isSome = true then Except.ok false
    else Except.ok (beginsWith (operatorNameText n) "\\operatorname" || Catalog.builtin.isFunction (.text n))) = _
  rw [hprecedence, hbegins]
  rfl

/-- A name in its command spells its atom. -/
theorem spells_operatorName (h : Token.KeepsGroup n.toList) : Source.Spells .builtin (operatorNameText n) [operatorNameAtom n] := by
  have htext : Token.text (.verbatim "operatorname" n) = operatorNameText n := by
    rw [← String.toList_inj, toList_operatorNameText, Token.text, String.toList_append, String.toList_append,
      String.toList_append, String.toList_append]
    rfl
  have hscans := @Token.scans_verbatim headLetters _ (by decide) (by decide)
    (by decide) h.fills
  rw [String.ofList_toList] at hscans
  refine ⟨[.verbatim "operatorname" n], ?_, ?_⟩
  · rw [toList_operatorNameText]
    exact hscans
  have hstarts : Source.StartsAtom (.verbatim "operatorname" n) := by
    refine ⟨by simp, rfl, ?_⟩
    rw [htext, ← Bool.not_eq_true, List.contains_iff_mem]
    exact operatorNameText_not_mem n (by decide)
  refine @Source.yields_construct _ _ hstarts [] _ fun rest fuel _ => ⟨0, ?_⟩
  rw [List.nil_append, Source.readAtom.eq_def]
  show Except.ok (⟨rest, some { type := .operator, latex := .text (Token.text (.verbatim "operatorname" n)) }, 0⟩ :
    Source.Reading (Option Atom)) = _
  rw [htext]
  rfl

/-- The same with a blank behind it. -/
theorem spells_operatorNameText (h : Token.KeepsGroup n.toList) :
    Source.Spells .builtin (operatorNameText n ++ " ") [operatorNameAtom n] :=
  (spells_operatorName n h).append Source.spells_blank

end

/-- A name in its command, to the reader of rows. -/
def FunctionAtom.named {n : String} (h : n ∉ Catalog.builtinPrecedences.map (·.1)) : FunctionAtom .builtin where
  atom := operatorNameAtom n
  name := n
  plain := {
    worded := ⟨⟨_, rfl⟩, .inr ⟨_, rfl⟩, .inl rfl, .inl rfl, .inl rfl, .inl rfl⟩
    unscripted := rfl
    spelling := by
      intro t ht
      rw [text_operatorNameAtom] at ht
      obtain rfl := Datum.text.inj (Except.ok.inj ht)
      have hother := @operatorNameText_not_mem n ["\\nabla", "!"] (by decide)
      rw [List.mem_cons, List.mem_singleton, not_or] at hother
      exact hother }
  type_eq := rfl
  name_eq := name_operatorNameAtom n
  function := isFunction_operatorNameAtom n h

/-! ### How such names are written -/

/-- A name of one character without a command is written as it is. -/
theorem plainFunctionTemplate_character {d : Char} (hcommand : d.toString ∉ Catalog.commandFunctions) :
    Catalog.plainFunctionTemplate (.text d.toString) = .ok (d.toString ++ "%^%_%") := by
  have hcontains : (Datum.text d.toString).text?.any Catalog.commandFunctions.contains = false := by
    rw [← Bool.not_eq_true]
    exact fun h => hcommand (List.contains_iff_mem.mp h)
  have hlength : (Datum.text d.toString).length? = some 1 := by
    have hone : d.toString.length = 1 := by rw [← String.length_toList, Char.toString, String.toList_singleton]; rfl
    exact congrArg some hone
  unfold Catalog.plainFunctionTemplate
  rw [hcontains, if_neg Bool.false_ne_true, hlength]
  rfl

/-- A longer name without a command is written with the command for names. -/
theorem plainFunctionTemplate_named {n : String} (hlong : n.length ≠ 1) (hcommand : n ∉ Catalog.commandFunctions) :
    Catalog.plainFunctionTemplate (.text n) = .ok (operatorNameText n ++ "%^%_ %") := by
  have hcontains : (Datum.text n).text?.any Catalog.commandFunctions.contains = false := by
    rw [← Bool.not_eq_true]
    exact fun h => hcommand (List.contains_iff_mem.mp h)
  have hlength : (Datum.text n).length? = some n.length := rfl
  unfold Catalog.plainFunctionTemplate
  rw [hcontains, if_neg Bool.false_ne_true, hlength]
  split
  · rename_i heq
    cases heq
  · rename_i heq
    exact absurd (Option.some.inj heq) hlong
  · show Except.ok (Catalog.operatorNameHead ++ n ++ ("\x7d" ++ "%^%_ %")) = _
    rw [← String.append_assoc]
    rfl

/-- Such a name holds neither places nor backslashes but the one in front. -/
theorem plain_operatorNameText {n : String} (hchars : Token.KeepsGroup n.toList) (hplace : '%' ∉ n.toList) :
    ∀ d ∈ headLetters ++ '\x7b' :: (n.toList ++ ['\x7d']), d ≠ '%' ∧ d ≠ '\\' := by
  have hletters : ∀ d ∈ headLetters, d ≠ '%' ∧ d ≠ '\\' := by simp [headLetters]
  intro d hd
  rcases List.mem_append.mp hd with hd | hd
  · exact hletters d hd
  · rcases List.mem_cons.mp hd with rfl | hd
    · decide
    · rcases List.mem_append.mp hd with hd | hd
      · exact ⟨fun heq => hplace (heq ▸ hd), (hchars d hd).2.2⟩
      · rw [List.mem_singleton.mp hd]
        decide

/-- **A function of a longer name without a command and a template of its own is written with its name as it is.** -/
theorem writesHead_named {n : String} (hchars : Token.KeepsGroup n.toList) (hplace : '%' ∉ n.toList) (hlong : n.length ≠ 1)
    (hcommand : n ∉ Catalog.commandFunctions) (htemplate : n ∉ Catalog.builtinFunctionTemplates.map (·.1))
    (hprecedence : n ∉ Catalog.builtinPrecedences.map (·.1)) :
    WritesHead n (operatorNameText n ++ " ") [operatorNameAtom n] where
  spells := spells_operatorNameText n hchars
  spaceless := rfl
  primary hprimary := hprimary.function (.named hprecedence)
  latex hnode hbare hlatex := latex_head (toList_operatorNameText n) (plain_operatorNameText hchars hplace) (by simp)
    (functionTemplateOf_plain htemplate (plainFunctionTemplate_named hlong hcommand)) hnode hbare hlatex

/-! ### Letters as arguments -/

/-- A letter is an argument as it is and in parentheses, and in both forms it is read as itself. -/
theorem letter_argument {d : Char} (hd : isLetter d = true) : ∃ s, (letterSymbol d).latex {} .builtin = .ok s ∧
    ∀ bare : Bool, ∃ row arg, Source.SpellsBefore .builtin (if bare then s else parenthesized s) row ∧
      IsPrimary .builtin (unspaced row) arg ∧ (arg = letterSymbol d ∨ arg = fenced (letterSymbol d) parentheses) := by
  obtain ⟨token, a, htoken, hlatex, hscan⟩ := isLetterToken_written hd
  have hspacing : a.type ≠ .spacing := by
    rw [htoken.type]
    decide
  have hspells : Source.SpellsBefore .builtin token.text [a] := ⟨[token], hscan, htoken.yields⟩
  have hoperand : IsOperand .builtin (unspaced [a]) (letterSymbol d) := by
    rw [unspaced_singleton hspacing]
    exact htoken.operand
  refine ⟨token.text, hlatex, fun bare => ?_⟩
  cases bare with
  | true => exact ⟨_, _, hspells, hoperand.isPrimary, .inl rfl⟩
  | false =>
    obtain ⟨row, hspells', hgroup⟩ := IsSumText.parenthesized ⟨[a], hspells, .single hoperand.isAddend⟩
    exact ⟨row, _, hspells'.before, hgroup.isPrimary, .inr rfl⟩

/-- **A function that is written with its name in front is read back.** -/
theorem WritesHead.reread {name head : String} {front : List Atom} (h : WritesHead name head front) {d : Char}
    (hd : isLetter d = true) : ∃ text arg, (apply name (letterSymbol d)).latex {} .builtin = .ok text ∧
      IsReadAs text (apply name arg) ∧ (arg = letterSymbol d ∨ arg = fenced (letterSymbol d) parentheses) := by
  obtain ⟨s, hlatex, hargument⟩ := letter_argument hd
  obtain ⟨row, arg, hspells, hprimary, harg⟩ := hargument (looseFunctions.contains name && true)
  refine ⟨_, arg, h.latex rfl rfl hlatex, IsWhole.isReadAs (IsPrimary.isWhole ?_) (h.spells.append_before hspells), harg⟩
  rw [unspaced_append, h.spaceless]
  exact h.primary hprimary

/-! ### Names of one character -/

/-- **The functions `f` and `g` are written with their argument in parentheses, and read back.** -/
theorem callName_reread {name : String} (hname : name ∈ callNames) {d : Char} (hd : isLetter d = true) :
    ∃ text, (apply name (letterSymbol d)).latex {} .builtin = .ok text ∧ IsReadAs text (apply name (letterSymbol d)) := by
  obtain ⟨e, he, rfl⟩ : ∃ e : Char, (e = 'f' ∨ e = 'g') ∧ e.toString = name := by
    simp only [callNames, List.mem_cons, List.not_mem_nil, or_false] at hname
    rcases hname with rfl | rfl
    · exact ⟨'f', .inl rfl, rfl⟩
    · exact ⟨'g', .inr rfl, rfl⟩
  obtain ⟨halpha, hloose, hopen⟩ : e.isAlpha = true ∧ looseFunctions.contains e.toString = false ∧
      Format.enclosesArgument (e.toString ++ "%^%_%") = false := by
    rcases he with rfl | rfl <;> decide
  have hwritten : Catalog.builtin.functionTemplateOf (.text e.toString) = .ok (.text (e.toString ++ "%^%_%")) := by
    rcases he with rfl | rfl <;> rfl
  obtain ⟨token, a, htoken, hlatex, hscan⟩ := isLetterToken_written hd
  refine ⟨e.toString ++ parenthesized token.text, ?_, ?_⟩
  · have hfill : ∀ cs : List Char, Format.fillFunction cs [] [] false (e.toString ++ "%^%_%").toList =
        e.toString.toList ++ (cs ++ []) := by
      rcases he with rfl | rfl <;> exact fun _ => rfl
    rw [latex_apply rfl _ hwritten, hlatex, @argumentLatex_eq _ _ _ true _ hopen rfl, hloose, callLatex_plain, hfill]
    refine congrArg Except.ok ?_
    rw [← String.toList_inj, String.toList_ofList, List.append_nil, String.toList_append]
    rfl
  · have hspells := (Source.spells_character (isLetterOrDigit_of_isAlpha halpha)).append
      (spells_parenthesized ⟨[token], hscan, htoken.yields⟩)
    refine ⟨_, hspells.atoms, ?_⟩
    have hparentheses : AreParentheses openingAtom closingAtom := ⟨⟨rfl, rfl⟩, rfl, rfl⟩
    have hlevel : levelAfter 0 [a] = some 0 := by
      rw [levelAfter, levelBehind, if_neg (by rw [htoken.type]; decide), if_neg (by rw [htoken.type]; decide)]
      rfl
    have hspelled : ∀ b ∈ [a], b.IsSpelled := by
      intro b hb
      obtain ⟨t, ht⟩ := (htoken.operand.worded b hb).text
      exact ⟨_, _, ht, rfl⟩
    have hrows : CommaRows [[a]] [a] :=
      .last ⟨hlevel, hidesCommas_cons.mpr ⟨fun _ htype => absurd (htoken.type.symm.trans htype) (by decide),
        fun next _ => hidesCommas_nil next⟩⟩
    have hread : ofAtoms .builtin [a] = .ok (letterSymbol d) := by
      have hoperand := htoken.operand.isPrimary
      rw [← unspaced_singleton (a := a) (by rw [htoken.type]; decide)] at hoperand
      rw [ofAtoms_eq, hoperand.isWhole.read]
    have harguments : Grammar.arguments .builtin [a] = .ok [letterSymbol d] := by
      rw [Grammar.arguments_rows hrows hspelled]
      exact Grammar.parts_eq_ok_iff.mpr (.cons hread .nil)
    rw [ofAtoms_eq]
    show Grammar.whole .builtin (ofCharacter e :: openingAtom :: ([a] ++ [closingAtom])) = _
    rw [hparentheses.whole_call rfl hlevel (by exact hname), hparentheses.digraph hspelled, harguments]
    rfl

/-! ### All of them -/

/-- **A name between braces and a letter behind it are read as the call of the name.** -/
theorem operatorName_reads {n : String} (hchars : Token.KeepsGroup n.toList)
    (hprecedence : n ∉ Catalog.builtinPrecedences.map (·.1)) {d : Char} (hd : isLetter d = true) :
    IsReadAs ("\\operatorname\x7b" ++ n ++ "\x7d " ++ d.toString) (apply n (letterSymbol d)) := by
  have hspells : Source.Spells .builtin (operatorNameText n ++ " " ++ d.toString) [operatorNameAtom n, ofCharacter d] :=
    (spells_operatorNameText n hchars).append (Source.spells_character (isLetterOrDigit_of_isLetter hd))
  have hcall := (isLetterToken_char hd).operand.isPrimary.function (.named hprecedence)
  have htext : operatorNameText n ++ " " ++ d.toString = "\\operatorname\x7b" ++ n ++ "\x7d " ++ d.toString := by
    rw [operatorNameText, @String.append_assoc (Catalog.operatorNameHead ++ n)]
    rfl
  have hspaces : unspaced [operatorNameAtom n, ofCharacter d] = [operatorNameAtom n, ofCharacter d] := rfl
  rw [← htext]
  refine IsWhole.isReadAs (IsPrimary.isWhole ?_) hspells.before
  rw [hspaces]
  exact hcall

/-- **A named function stays a function.**  A name between braces and a letter behind it are read as the call of the name.
If the name has no template of its own, is not a single character other than `f` and `g`, and holds no percent sign, the
call is written so that it is read back. -/
theorem named_call_reread {n : String} (hchars : Token.KeepsGroup n.toList)
    (htemplate : n ∉ Catalog.builtinFunctionTemplates.map (·.1)) (hprecedence : n ∉ Catalog.builtinPrecedences.map (·.1))
    {d : Char} (hd : isLetter d = true) :
    IsReadAs ("\\operatorname\x7b" ++ n ++ "\x7d " ++ d.toString) (apply n (letterSymbol d)) ∧
      ('%' ∉ n.toList → n.length ≠ 1 ∨ n ∈ callNames → ∃ text arg,
        (apply n (letterSymbol d)).latex {} .builtin = .ok text ∧ IsReadAs text (apply n arg) ∧
          (arg = letterSymbol d ∨ arg = fenced (letterSymbol d) parentheses)) := by
  refine ⟨operatorName_reads hchars hprecedence hd, fun hplace hlong => ?_⟩
  by_cases hcall : n ∈ callNames
  · obtain ⟨text, hlatex, hread⟩ := callName_reread hcall hd
    exact ⟨text, _, hlatex, hread, .inl rfl⟩
  by_cases hcommand : n ∈ Catalog.commandFunctions
  · exact (writesHead_command hcommand).reread hd
  · exact (writesHead_named hchars hplace (hlong.resolve_right hcall) hcommand htemplate hprecedence).reread hd

/-- A name with an operator in it. -/
theorem named_call_reread_ord : IsReadAs "\\operatorname\x7bord-2\x7d x" (apply "ord-2" (letterSymbol 'x')) ∧ ∃ text arg,
    (apply "ord-2" (letterSymbol 'x')).latex {} .builtin = .ok text ∧ IsReadAs text (apply "ord-2" arg) ∧
      (arg = letterSymbol 'x' ∨ arg = fenced (letterSymbol 'x') parentheses) := by
  obtain ⟨hread, hreread⟩ := @named_call_reread "ord-2" (by decide) (by decide +kernel)
    (by decide +kernel) 'x' (by decide)
  exact ⟨hread, hreread (by decide) (.inl (by decide))⟩

/-- **A function of one letter other than `f` and `g` is read, but what is written for it is a product, and a name with a
percent sign is read back as another one.** -/
theorem named_call_lost :
    (IsReadAs "\\operatorname\x7bh\x7d x" (apply "h" (letterSymbol 'x')) ∧ ∃ text,
      (apply "h" (letterSymbol 'x')).latex {} .builtin = .ok text ∧ ¬ ∃ arg, IsReadAs text (apply "h" arg)) ∧
    ∃ text, (apply "a%b" (letterSymbol 'x')).latex {} .builtin = .ok text ∧ ¬ ∃ arg, IsReadAs text (apply "a%b" arg) := by
  have hone : ((apply "h" (letterSymbol 'x')).latex {} .builtin).toOption = some "h(x)" := by decide +kernel
  have hplace : ((apply "a%b" (letterSymbol 'x')).latex {} .builtin).toOption =
      some "\\operatorname\x7baxb\x7d x" := by decide +kernel
  have hread := @operatorName_reads "h" (by decide) (by decide +kernel) 'x' (by decide)
  refine ⟨⟨hread, _, Outcome.eq_ok_of_toOption hone, fun ⟨_, h⟩ => not_isReadAs_apply (by decide +kernel) h⟩, _,
    Outcome.eq_ok_of_toOption hplace, fun ⟨_, h⟩ => not_isReadAs_apply (by decide +kernel) h⟩

end Formula
