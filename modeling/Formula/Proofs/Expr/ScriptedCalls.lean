import Formula.Proofs.Expr.NamedCalls
import Formula.Proofs.Expr.ScriptedNodes

/-!
# Calls and the places of their scripts

A call is written by a template: its name with the scripts and the argument behind it, delimiters around the argument, or a
mark at it.  There is always a place for the scripts but in two cases.  A mark that is a superscript of the argument takes the
place of one itself, and what stands in front of it is the argument with its own scripts.  Behind a pair of marks in front of
the argument, the scripts of the call come to the argument.
-/

namespace Formula

open Text Atom Expr

open Source (SpellsAttached EndsFree)

namespace Expr

/-! ### Templates -/

/-- A template of a name of one character, with its scripts and the argument behind it. -/
theorem callText_character {d : Char} (hplace : d ≠ '%') (hslash : d ≠ '\\') (argument above below : String) :
    callText (d.toString ++ "%^%_%") argument above below = d.toString ++ (above ++ (below ++ argument)) := by
  have hplaces : holdsChars ['%', '_'] (d.toString ++ "%^%_%").toList = true ∧
      holdsChars ['%', '^'] (d.toString ++ "%^%_%").toList = true := by
    rw [String.toList_append]
    exact ⟨holdsChars_behind (by decide) _, holdsChars_behind (by decide) _⟩
  unfold callText
  rw [hplaces.1, hplaces.2, if_pos rfl, if_pos rfl, String.append_empty, String.append_empty, ← String.toList_inj,
    String.toList_ofList, String.toList_append, Char.toString, String.toList_singleton, List.singleton_append,
    fillFunction_cons hplace, decide_eq_false hslash]
  simp [Format.fillFunction]

/-- A template without places for scripts, which stand behind it. -/
theorem callText_behind {template : String} (hsuper : holdsChars ['%', '^'] template.toList = false)
    (hsub : holdsChars ['%', '_'] template.toList = false) {argument filled above below : String}
    (hfill : Format.fillFunction argument.toList above.toList below.toList false template.toList = filled.toList) :
    callText template argument above below = filled ++ (below ++ above) := by
  unfold callText
  rw [hsuper, hsub, hfill, String.ofList_toList, if_neg Bool.false_ne_true, if_neg Bool.false_ne_true, String.append_assoc]

/-- Without places nothing is filled in. -/
theorem fillFunction_plain {argument sup sub cs : List Char} (h : '%' ∉ cs) (escaped : Bool) :
    Format.fillFunction argument sup sub escaped cs = cs := by
  induction cs generalizing escaped with
  | nil => cases escaped <;> rfl
  | cons d cs ih =>
    rw [List.mem_cons, not_or] at h
    rw [fillFunction_cons (Ne.symm h.1), ih h.2]

/-- The marks that are written as superscripts. -/
def raisedMarks : List (String × String) := [
  ("dagger", "\\dagger"), ("dagger2", "\\ddagger"), ("prime", "\\prime"), ("prime2", "\\doubleprime"),
  ("backprime", "\\backprime"), ("backprime2", "\\backprime\\backprime"), ("degree", "\\circ")]

/-- A mark that is a superscript of the argument. -/
theorem callText_raised {p : String × String} (h : p ∈ raisedMarks) (argument above below : String) :
    callText ("% ^" ++ braced p.2) argument above below =
      argument ++ " " ++ (Source.Script.super.sign ++ braced p.2) ++ (below ++ above) := by
  have hfacts : ∀ p ∈ raisedMarks, holdsChars ['%', '^'] ("% ^" ++ braced p.2).toList = false ∧
      holdsChars ['%', '_'] ("% ^" ++ braced p.2).toList = false ∧ '%' ∉ ' ' :: ("^" ++ braced p.2).toList := by decide +kernel
  obtain ⟨hsuper, hsub, hplain⟩ := hfacts p h
  have htemplate : ("% ^" ++ braced p.2).toList = '%' :: ' ' :: ("^" ++ braced p.2).toList := by
    rw [String.toList_append, String.toList_append]
    rfl
  refine callText_behind hsuper hsub ?_
  rw [htemplate, @String.toList_append (argument ++ " "), @String.toList_append argument, List.append_assoc]
  exact congrArg (argument.toList ++ ·) (fillFunction_plain hplain false)

end Expr

/-! ### Arguments -/

section

variable {e s t : Expr} {text above below : String}

/-- **An argument behind a loose function or in front of a mark**: in parentheses there is a place behind it. -/
theorem Placed.argumentText (he : Placed e text) {template : String} (hopen : Format.enclosesArgument template = false)
    (name : String) : ∃ argument,
      argumentLatex {} (.text name) (.text template) e parentheses (e.latex {} .builtin) = .ok argument ∧
        EndsFree argument (e.scriptsFit = true) fun kind => looseFunctions.contains name = true → e.leavesPlace kind = true := by
  obtain ⟨bare, hbare, hends⟩ := he.argument
  refine ⟨_, by rw [he.latex]; exact argumentLatex_eq hopen hbare, ?_⟩
  have hleaves : ∀ kind, e.leavesPlace kind = (!bare || e.hasPlace kind) := by
    intro kind
    unfold leavesPlace
    rw [hbare]
    rfl
  cases hloose : looseFunctions.contains name with
  | false =>
    rw [Bool.false_and, if_neg Bool.false_ne_true]
    exact he.attached.parenthesized.congr Iff.rfl fun kind _ => iff_of_true trivial fun h => by cases h
  | true =>
    cases bare with
    | false =>
      rw [Bool.and_false, if_neg Bool.false_ne_true]
      exact he.attached.parenthesized.congr Iff.rfl fun kind _ => iff_of_true trivial fun _ => by rw [hleaves]; rfl
    | true =>
      rw [Bool.and_self, if_pos rfl]
      refine (hends rfl).congr Iff.rfl fun kind _ => ?_
      rw [hleaves]
      simp

/-- A call that is written as the text. -/
theorem Placed.of_call {name : String} {template argument : String} (he : Placed e text) (hs : Placed s above)
    (ht : Placed t below)
    (htemplate : Catalog.builtin.functionTemplateOf (.text name) = .ok (.text template))
    (hargument : argumentLatex {} (.text name) (.text template) e parentheses (e.latex {} .builtin) = .ok argument)
    (hattached : SpellsAttached (callText template argument (scriptText .super s above) (scriptText .sub t below))
      ((call (.text name) e parentheses s t).scriptsFit = true)) :
    ∃ text, Placed (call (.text name) e parentheses s t) text :=
  ⟨_, .of_attached (latex_call_scripts he.single htemplate hargument (scriptsLatex_super hs.latex) (scriptsLatex_sub ht.latex))
    hattached ⟨none, rfl⟩ rfl rfl fun _ h => by cases h⟩

/-! ### Names in front of the argument -/

/-- The function is written with the command in front of its argument, which takes the scripts. -/
structure HasHead (name head : String) : Prop where
  template : Catalog.builtin.functionTemplateOf (.text name) = .ok (.text (head ++ "%^%_ %"))
  plain : ∃ cs, head.toList = '\\' :: cs ∧ (∀ d ∈ cs, d ≠ '%' ∧ d ≠ '\\') ∧ cs ≠ []
  ends : EndsFree head True fun _ => True
  places : hasOwnPlaces name = true

theorem hasHead_command {name : String} (h : name ∈ Catalog.commandFunctions) : HasHead name ("\\" ++ name) where
  template := functionTemplateOf_command h
  plain := by
    have hfacts : ∀ s ∈ Catalog.commandFunctions,
        s.toList.all (fun d => decide (d ≠ '%' ∧ d ≠ '\\')) = true ∧ s.toList ≠ [] := by decide
    obtain ⟨hplain, hne⟩ := hfacts name h
    exact ⟨_, String.toList_append .., fun d hd => of_decide_eq_true (List.all_eq_true.mp hplain d hd), hne⟩
  ends := by
    have hknown := knowsCommand h
    have hatom : Source.symbolAtom .builtin (Token.command name).text = .ok (functionAtom name) := symbolAtom_command h
    have htoken : (Token.command name).isName = true := by
      simp only [Token.isName, hknown.verbatim, List.isEmpty_eq_false_iff.mpr hknown.letters.1, hknown.letters.2]
      rfl
    have hleaf : Source.HasLeaf (.command name) := ⟨hknown.symbol, by rw [hatom]; rfl⟩
    have htakes : Source.takesScripts (.command name) = true := by
      rw [Source.takesScripts, hatom]
      rfl
    exact (hleaf.endsFree (.inr htoken)).congr Iff.rfl fun _ _ => iff_of_true htakes trivial
  places := by
    have hfacts : ∀ s ∈ Catalog.commandFunctions, hasOwnPlaces s = true := by decide +kernel
    exact hfacts name h

/-- A function without a template of its own has places of its own. -/
theorem hasOwnPlaces_of_not_mem {name : String} (h : name ∉ Catalog.builtinFunctionTemplates.map (·.1)) :
    hasOwnPlaces name = true := by
  have hnone : Catalog.builtinFunctionTemplates.lookup name = none :=
    List.lookup_eq_none_iff.mpr fun p hp => bne_iff_ne.mpr fun heq => h (List.mem_map.mpr ⟨p, hp, heq.symm⟩)
  have hprefix : Glyph.prefixDigraphs.contains name = false := by
    have hlisted : ∀ s ∈ Glyph.prefixDigraphs, s ∈ Catalog.builtinFunctionTemplates.map (·.1) := by decide
    rw [← Bool.not_eq_true, List.contains_iff_mem]
    exact fun hmem => h (hlisted name hmem)
  unfold hasOwnPlaces isRaised
  rw [hnone, hprefix]
  rfl

theorem hasHead_named {n : String} (hchars : Token.KeepsGroup n.toList) (hplace : '%' ∉ n.toList) (hlong : n.length ≠ 1)
    (hcommand : n ∉ Catalog.commandFunctions) (htemplate : n ∉ Catalog.builtinFunctionTemplates.map (·.1)) :
    HasHead n (operatorNameText n) where
  template := functionTemplateOf_plain htemplate (plainFunctionTemplate_named hlong hcommand)
  plain := ⟨_, toList_operatorNameText n, plain_operatorNameText hchars hplace, by simp⟩
  ends := Source.endsFree_single (spells_operatorName n hchars).before (iff_of_true (attached_leaf rfl) trivial)
    (show AtomType.operator ∉ Source.Script.refused by decide) rfl rfl
  places := hasOwnPlaces_of_not_mem htemplate

/-- **A name in front of its argument.** -/
theorem Placed.headed {name head : String} (h : HasHead name head) (he : Placed e text) (hs : Placed s above)
    (ht : Placed t below) : ∃ text, Placed (call (.text name) e parentheses s t) text := by
  obtain ⟨cs, hhead, hplain, hne⟩ := h.plain
  have hplace : '%' ∉ head.toList := by
    rw [hhead, List.mem_cons, not_or]
    exact ⟨by decide, fun hd => (hplain _ hd).1 rfl⟩
  obtain ⟨argument, hargument, hends⟩ := he.argumentText (Format.enclosesArgument_last hplace) name
  refine he.of_call hs ht h.template hargument ?_
  have hhead' := (h.ends.script? .super hs.attached).script? .sub ht.attached
  have htext : head ++ scriptText .super s above ++ scriptText .sub t below ++ " " ++ argument =
      callText (head ++ "%^%_ %") argument (scriptText .super s above) (scriptText .sub t below) := by
    rw [callText_head hhead hplain hne, String.append_assoc, String.append_assoc, String.append_assoc, String.append_assoc]
    simp only [String.append_assoc]
  rw [← htext]
  refine (hhead'.spellsAttached.spaced hends.spellsAttached).congr ?_
  rw [scriptsFit_call h.places]
  simp [and_comm]

/-! ### Names of one character -/

/-- A letter or a digit is the name of no function of the tables. -/
theorem letter_not_mem {d : Char} (hd : isLetterOrDigit d = true) : d.toString ∉ Catalog.builtinFunctionTemplates.map (·.1) ∧
    d.toString ∉ Catalog.commandFunctions ∧ looseFunctions.contains d.toString = false := by
  have hfacts : ∀ s ∈ Catalog.builtinFunctionTemplates.map (·.1) ++ (Catalog.commandFunctions ++ looseFunctions),
      s.toList.length ≠ 1 ∨ s.toList.all (fun d => !isLetterOrDigit d) = true := by decide +kernel
  have hforeign : d.toString ∉ Catalog.builtinFunctionTemplates.map (·.1) ++ (Catalog.commandFunctions ++ looseFunctions) := by
    intro hmem
    have h := hfacts _ hmem
    rw [Char.toString, String.toList_singleton, List.all_cons, hd] at h
    rcases h with h | h
    · exact h rfl
    · cases h
  rw [List.mem_append, List.mem_append, not_or, not_or] at hforeign
  exact ⟨hforeign.1, hforeign.2.1, by rw [← Bool.not_eq_true, List.contains_iff_mem]; exact hforeign.2.2⟩

section

variable {d : Char} (hd : isLetterOrDigit d = true)
include hd

theorem functionTemplateOf_letter :
    Catalog.builtin.functionTemplateOf (.text d.toString) = .ok (.text (d.toString ++ "%^%_%")) := by
  obtain ⟨htemplate, hcommand, -⟩ := letter_not_mem hd
  exact functionTemplateOf_plain htemplate (plainFunctionTemplate_character hcommand)

/-- A letter in front of parentheses, with scripts. -/
theorem attached_letterCall {p : Prop} (hs : Placed s above) (ht : Placed t below) (h : SpellsAttached text p) :
    SpellsAttached (callText (d.toString ++ "%^%_%") (parenthesized text) (scriptText .super s above) (scriptText .sub t below))
      (p ∧ s.scriptsFit = true ∧ t.scriptsFit = true) := by
  have hne : ∀ e : Char, isLetterOrDigit e = false → d ≠ e := by
    rintro e he rfl
    rw [he] at hd
    cases hd
  have hletter : EndsFree d.toString True fun _ => True :=
    Source.endsFree_single (Source.spells_character hd).before
      (iff_of_true (attached_leaf (Source.isLeaf_character (hne _ (by decide +kernel)))) trivial)
      (show AtomType.ordinary ∉ Source.Script.refused by decide) rfl rfl
  have happart : Source.StartsApart (parenthesized text) := by
    refine ⟨'(', text.toList ++ [')'], ?_, by decide⟩
    rw [parenthesized, String.toList_append, String.toList_append]
    rfl
  have hhead := (hletter.script? .super hs.attached).script? .sub ht.attached
  rw [callText_character (hne _ (by decide)) (hne _ (by decide +kernel)), ← String.append_assoc, ← String.append_assoc]
  refine (hhead.spellsAttached.append h.parenthesized.spellsAttached happart).congr ?_
  simp [and_comm]

/-- **A letter or a digit as the name of a function.** -/
theorem Placed.lettered (he : Placed e text) (hs : Placed s above) (ht : Placed t below) :
    ∃ text, Placed (call (.text d.toString) e parentheses s t) text := by
  obtain ⟨htemplate, -, hloose⟩ := letter_not_mem hd
  have hopen := @Format.enclosesArgument_character d (by rintro rfl; exact absurd hd (by decide +kernel))
    (by rintro rfl; exact absurd hd (by decide +kernel))
  obtain ⟨bare, hbare, -⟩ := he.argument
  have hargument := @argumentLatex_eq d.toString _ _ _ text hopen hbare
  rw [hloose, Bool.false_and, if_neg Bool.false_ne_true, ← he.latex] at hargument
  refine he.of_call hs ht (functionTemplateOf_letter hd) hargument ((attached_letterCall hd hs ht he.attached).congr ?_)
  rw [scriptsFit_call (hasOwnPlaces_of_not_mem htemplate)]

end

/-! ### Several arguments -/

theorem spells_comma : ∃ row, Source.Spells .builtin ", " row ∧ Attached row := by
  have hleaf : Source.HasLeaf (.char ',') := by decide +kernel
  obtain ⟨a, hspells, hattached⟩ := hleaf.spells (by decide)
  exact ⟨_, hspells.append Source.spells_blank, attached_append.mpr ⟨hattached, attached_nil⟩⟩

/-- The texts of several arguments, with commas between them. -/
theorem attached_arguments : ∀ {items : List Expr}, (∀ e ∈ items, ∃ text, Placed e text) → ∃ texts,
    (latexEach {} .builtin items).mapM id = .ok texts ∧ texts.length = items.length ∧
      SpellsAttached (", ".intercalate texts) (scriptsFitEach items = true)
  | [], _ => by
    refine ⟨[], rfl, rfl, ?_⟩
    rw [String.intercalate_nil]
    exact Source.spellsAttached_empty.congr (iff_of_true trivial rfl)
  | e :: rest, h => by
    obtain ⟨text, he⟩ := h e List.mem_cons_self
    obtain ⟨texts, hlatex, hlength, hattached⟩ := attached_arguments fun k hk => h k (List.mem_cons_of_mem e hk)
    have hall : (latexEach {} .builtin (e :: rest)).mapM id = .ok (text :: texts) := by
      rw [latexEach, List.mapM_cons, he.latex, hlatex]
      rfl
    have hfit : scriptsFitEach (e :: rest) = true ↔ e.scriptsFit = true ∧ scriptsFitEach rest = true := by
      rw [scriptsFitEach, Bool.and_eq_true]
    refine ⟨_, hall, congrArg (· + 1) hlength, ?_⟩
    by_cases hnone : texts = []
    · obtain rfl : rest = [] := List.length_eq_zero_iff.mp (by rw [← hlength, hnone]; rfl)
      rw [hnone, String.intercalate_singleton]
      exact he.attached.congr (hfit.trans (and_iff_left rfl)).symm
    · rw [String.intercalate_cons_of_ne_nil hnone, String.append_assoc]
      have hapart : Source.StartsApart (", " ++ ", ".intercalate texts) :=
        Source.StartsApart.append ⟨',', [' '], rfl, by decide⟩ _
      obtain ⟨row, hspells, hcomma⟩ := spells_comma
      exact (he.attached.append (hattached.behind hspells hcomma) hapart).congr hfit.symm

/-- **A letter in front of several arguments.** -/
theorem Placed.arguments {d : Char} (hd : isLetterOrDigit d = true) {items : List Expr}
    (hitems : ∀ e ∈ items, ∃ text, Placed e text) (hs : Placed s above) (ht : Placed t below) :
    ∃ text, Placed (call (.text d.toString) (tuple items) parentheses s t) text := by
  obtain ⟨texts, hlatex, -, hattached⟩ := attached_arguments hitems
  obtain ⟨htemplate, -⟩ := letter_not_mem hd
  have hpower : powerParts? (.text d.toString) (tuple items) (latexEach {} .builtin items) = none := by
    have hpow : (Datum.text d.toString).isText "pow" = false := by
      refine beq_eq_false_iff_ne.mpr fun heq => ?_
      have hlist := congrArg String.toList heq
      rw [Char.toString, String.toList_singleton] at hlist
      cases hlist
    unfold powerParts?
    split
    · rw [hpow, if_neg Bool.false_ne_true]
    · rfl
  have harguments : argumentsLatex parentheses (latexEach {} .builtin items) = .ok (parenthesized (", ".intercalate texts)) := by
    unfold argumentsLatex
    rw [hlatex]
    exact inFence_parentheses _
  have hcall := latex_several_scripts hpower (functionTemplateOf_letter hd) harguments (scriptsLatex_super hs.latex)
    (scriptsLatex_sub ht.latex)
  refine ⟨_, .of_attached hcall ?_ ⟨none, rfl⟩ rfl rfl fun _ h => by cases h⟩
  refine (attached_letterCall hd hs ht hattached).congr ?_
  rw [scriptsFit_call (hasOwnPlaces_of_not_mem htemplate), scriptsFit]

/-! ### Delimiters around the argument -/

/-- The function is written as signs around its argument, behind which there are places for scripts. -/
structure Surrounds (name : String) (around : String → String) : Prop where
  template : Catalog.builtin.functionTemplateOf (.text name) = .ok (.text (around "%"))
  encloses : Format.enclosesArgument (around "%") = true
  filled : ∀ argument above below, callText (around "%") argument above below = around argument ++ (below ++ above)
  ends : ∀ {text : String} {p : Prop}, SpellsAttached text p → EndsFree (around text) p fun _ => True
  places : hasOwnPlaces name = true

theorem surrounds_enclosure (f : Enclosure) : Surrounds f.name f.around where
  template := by cases f <;> rfl
  encloses := by cases f <;> decide +kernel
  filled argument above below := by
    refine callText_behind (by cases f <;> decide +kernel) (by cases f <;> decide +kernel) ?_
    unfold Enclosure.around
    simp only [String.toList_append]
    cases f <;> rfl
  ends h := h.around f
  places := by cases f <;> decide +kernel

theorem surrounds_root : Surrounds "sqrt" ("\\sqrt" ++ braced ·) where
  template := rfl
  encloses := by decide +kernel
  filled argument above below := by
    refine callText_behind (by decide +kernel) (by decide) ?_
    unfold braced
    simp only [String.toList_append]
    rfl
  ends h := h.radical
  places := by decide +kernel

/-- **Delimiters around an argument.** -/
theorem Placed.surrounded {name : String} {around : String → String} (h : Surrounds name around) (he : Placed e text)
    (hs : Placed s above) (ht : Placed t below) : ∃ text, Placed (call (.text name) e parentheses s t) text := by
  refine he.of_call hs ht h.template (by rw [he.latex, argumentLatex_enclosed h.encloses]) ?_
  rw [h.filled]
  refine ((h.ends he.attached).scripts hs.attached ht.attached).spellsAttached.congr ?_
  rw [scriptsFit_call h.places]
  simp

/-! ### Marks at the argument -/

/-- **A mark behind its argument.** -/
theorem Placed.marked (m : PostfixMark) (he : Placed e text) (hs : Placed s above) (ht : Placed t below) :
    ∃ text, Placed (call (.text m.name) e parentheses s t) text := by
  obtain ⟨argument, hargument, hends⟩ := he.argumentText m.opens m.name
  have hmark : EndsFree m.sign True fun _ => True := by
    refine ⟨m.front, m.last, m.spells_sign.before, iff_of_true ?_ trivial, fun kind _ => iff_of_true ?_ trivial⟩
    · have hleaf : Attached [m.last] := attached_leaf (by cases m <;> rfl)
      cases m with
      | doubleFactorial => exact attached_append.mpr ⟨attached_leaf rfl, hleaf⟩
      | _ => exact hleaf
    · cases m <;> cases kind <;> exact ⟨rfl, by decide⟩
  have hapart : Source.StartsApart m.sign := by cases m <;> exact ⟨_, _, rfl, by decide⟩
  have hfilled : callText ("%" ++ m.sign) argument (scriptText .super s above) (scriptText .sub t below) =
      argument ++ m.sign ++ (scriptText .sub t below ++ scriptText .super s above) := by
    refine callText_behind (by cases m <;> decide) (by cases m <;> decide) ?_
    rw [m.fillFunction_template, String.toList_append]
  refine he.of_call hs ht m.functionTemplateOf_name hargument ?_
  rw [hfilled]
  refine ((EndsFree.append hends.spellsAttached hmark hapart).scripts hs.attached ht.attached).spellsAttached.congr ?_
  rw [scriptsFit_call (by cases m <;> decide +kernel)]
  simp

/-- An argument of a loose function, behind which there are the places that it leaves. -/
theorem Placed.looseArgument (he : Placed e text) {name template : String} (hopen : Format.enclosesArgument template = false)
    (hloose : looseFunctions.contains name = true) : ∃ argument,
      argumentLatex {} (.text name) (.text template) e parentheses (e.latex {} .builtin) = .ok argument ∧
        EndsFree argument (e.scriptsFit = true) (e.leavesPlace · = true) := by
  obtain ⟨argument, hargument, hends⟩ := he.argumentText hopen name
  exact ⟨argument, hargument, hends.congr Iff.rfl fun kind _ => ⟨fun h => h hloose, fun h _ => h⟩⟩

/-- **Marks in front of the argument**, whose places the scripts come to. -/
theorem Placed.prefixed (m : PrefixMark) (he : Placed e text) (hs : Placed s above) (ht : Placed t below) :
    ∃ text, Placed (call (.text m.name) e parentheses s t) text := by
  have hloose : looseFunctions.contains m.name = true := by cases m <;> decide
  obtain ⟨argument, hargument, hends⟩ := he.looseArgument m.opens hloose
  have hmarks : Attached [nablaAtom, m.second] := by
    rw [← List.singleton_append, attached_append]
    exact ⟨attached_leaf rfl, attached_leaf (by cases m <;> rfl)⟩
  have hfilled : callText (m.sign ++ "%") argument (scriptText .super s above) (scriptText .sub t below) =
      m.sign ++ (argument ++ (scriptText .sub t below ++ scriptText .super s above)) := by
    rw [← String.append_assoc]
    refine callText_behind (by cases m <;> decide +kernel) (by cases m <;> decide +kernel) ?_
    rw [m.fillFunction_template, String.toList_append]
  refine he.of_call hs ht m.functionTemplateOf_name hargument ?_
  rw [hfilled]
  refine ((hends.scripts hs.attached ht.attached).spellsAttached.behind m.spells_sign hmarks).congr ?_
  have hfits : callFits m.name e s t = ((s.isMissing || e.leavesPlace .super) && (t.isMissing || e.leavesPlace .sub)) := by
    cases m <;> rfl
  rw [scriptsFit_call_iff, hfits]
  cases s.isMissing <;> cases t.isMissing <;> simp [and_assoc]

/-- The commands of marks that are superscripts. -/
theorem spellsAttached_raised {p : String × String} (h : p ∈ raisedMarks) : SpellsAttached p.2 True := by
  have command : ∀ {name : String}, name ∈ ["dagger", "ddagger", "prime", "doubleprime", "backprime", "circ"] →
      SpellsAttached ("\\" ++ name) True := by
    intro name hname
    have hfacts : ∀ s ∈ ["dagger", "ddagger", "prime", "doubleprime", "backprime", "circ"], (Token.command s).isName = true ∧
        Source.HasLeaf (.command s) := by decide +kernel
    exact ((hfacts name hname).2.endsFree (.inr (hfacts name hname).1)).spellsAttached
  simp only [raisedMarks, List.mem_cons, List.not_mem_nil, or_false] at h
  rcases h with rfl | rfl | rfl | rfl | rfl | rfl | rfl
  · exact @command "dagger" (by decide)
  · exact @command "ddagger" (by decide)
  · exact @command "prime" (by decide)
  · exact @command "doubleprime" (by decide)
  · exact @command "backprime" (by decide)
  · have hdouble := (@command "backprime" (by decide)).append (@command "backprime" (by decide)) ⟨_, _, rfl, by decide⟩
    exact hdouble.congr (and_self_iff)
  · exact @command "circ" (by decide)

/-- **A mark that is a superscript of its argument** takes the place of one, and leaves none for that of the call. -/
theorem Placed.raised {p : String × String} (h : p ∈ raisedMarks) (he : Placed e text) (hs : Placed s above)
    (ht : Placed t below) : ∃ text, Placed (call (.text p.1) e parentheses s t) text := by
  have hfacts : ∀ p ∈ raisedMarks,
      (Catalog.builtin.functionTemplateOf (.text p.1)).toOption.any (·.isText ("% ^" ++ braced p.2)) = true ∧
      Format.enclosesArgument ("% ^" ++ braced p.2) = false ∧ looseFunctions.contains p.1 = true ∧ isRaised p.1 = true := by
    decide +kernel
  obtain ⟨htemplate, hopen, hloose, hraised⟩ := hfacts p h
  obtain ⟨d, hd, htext⟩ := (Option.any_eq_true ..).mp htemplate
  obtain rfl := Datum.eq_text_of_isText htext
  obtain ⟨argument, hargument, hends⟩ := he.looseArgument hopen hloose
  refine he.of_call hs ht (Outcome.eq_ok_of_toOption hd) hargument ?_
  rw [callText_raised h]
  -- The blank in front of the mark is no part of the row: the mark is a superscript of the last atom of the argument.
  refine ((hends.blank.script .super (spellsAttached_raised h)).scripts hs.attached ht.attached).spellsAttached.congr ?_
  rw [scriptsFit_call_iff, callFits, hasOwnPlaces, hraised]
  cases s.isMissing <;> cases t.isMissing <;> simp [and_comm, and_left_comm, and_assoc]

end

end Formula
