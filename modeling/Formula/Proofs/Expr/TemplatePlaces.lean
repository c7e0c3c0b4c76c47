import Formula.Proofs.Format.Braces
import Formula.Proofs.Expr.NamedCalls

/-!
# Texts that hold other texts

What the writer puts together holds its pieces: `Shows text part` says that a text holds a part.  A template holds an operand,
an argument or a script if it has the place of it (`operatorPlaces`, `functionPlaces`), and the templates of the usual vocabulary
have all that are needed.
-/

namespace Formula

open Text

/-- The text holds the part. -/
def Shows (text part : String) : Prop := part.toList <:+: text.toList

namespace Shows

variable {s t part : String}

theorem refl (s : String) : Shows s s := List.infix_rfl

theorem empty (s : String) : Shows s "" := List.nil_infix

theorem trans (h : Shows s t) (h' : Shows t part) : Shows s part := List.IsInfix.trans h' h

theorem append_left (h : Shows s part) (t : String) : Shows (s ++ t) part := by
  unfold Shows
  rw [String.toList_append]
  exact List.IsInfix.trans h (List.prefix_append _ _).isInfix

theorem append_right (h : Shows t part) (s : String) : Shows (s ++ t) part := by
  unfold Shows
  rw [String.toList_append]
  exact List.IsInfix.trans h (List.suffix_append _ _).isInfix

theorem braced (h : Shows s part) : Shows (Expr.braced s) part := (h.append_right "\x7b").append_left "\x7d"

theorem parenthesized (h : Shows s part) : Shows (Expr.parenthesized s) part := (h.append_right "(").append_left ")"

theorem parenthesizedIf (h : Shows s part) (decorated : Bool) : Shows (Expr.parenthesizedIf decorated s) part := by
  cases decorated with
  | true => exact h.parenthesized
  | false => exact h

theorem operandLatex (h : Shows s part) (own : Option Int) (around : Int) (right : Bool) (op : Datum) :
    Shows (Expr.operandLatex own around right op s) part := by
  cases own with
  | none => exact h
  | some own => exact h.parenthesizedIf _

end Shows

/-! ### Pieces one behind the other -/

namespace Format

theorem shows_glue (out piece : String) : Shows (glue out piece) out ∧ Shows (glue out piece) piece := by
  unfold glue
  split
  · next h => exact ⟨.refl out, by rw [Shows, h]; exact List.nil_infix⟩
  · split
    · exact ⟨((Shows.refl out).append_left " ").append_left piece, (Shows.refl piece).append_right _⟩
    · exact ⟨(Shows.refl out).append_left piece, (Shows.refl piece).append_right out⟩

theorem shows_join {pieces : List String} {piece : String} (h : piece ∈ pieces) : Shows (join pieces) piece := by
  have hfold : ∀ (pieces : List String) (out : String), Shows (pieces.foldl glue out) out ∧
      ∀ piece ∈ pieces, Shows (pieces.foldl glue out) piece := by
    intro pieces
    induction pieces with
    | nil => exact fun out => ⟨.refl out, fun _ h => absurd h List.not_mem_nil⟩
    | cons s pieces ih =>
      intro out
      obtain ⟨hfirst, hrest⟩ := ih (glue out s)
      refine ⟨hfirst.trans (shows_glue out s).1, fun piece hpiece => ?_⟩
      rcases List.mem_cons.mp hpiece with rfl | hpiece
      · exact hfirst.trans (shows_glue out piece).2
      · exact hrest piece hpiece
  exact (hfold pieces "").2 piece h

theorem shows_intercalate (separator : String) : ∀ {pieces : List String} {piece : String}, piece ∈ pieces →
    Shows (separator.intercalate pieces) piece
  | [s], piece, h => by
    rw [List.mem_singleton.mp h, String.intercalate_singleton]
    exact .refl s
  | s :: t :: pieces, piece, h => by
    rw [String.intercalate_cons_of_ne_nil (List.cons_ne_nil _ _)]
    rcases List.mem_cons.mp h with rfl | h
    · exact ((Shows.refl piece).append_left _).append_left _
    · exact (shows_intercalate separator h).append_right _

/-! ### Places of templates -/

/-- The places of the operands in the template of an operator. -/
def operatorPlaces : List Char → List Char
  | '%' :: '0' :: rest => '0' :: operatorPlaces rest
  | '%' :: '1' :: rest => '1' :: operatorPlaces rest
  | _ :: rest => operatorPlaces rest
  | [] => []

theorem infix_fillOperator (left right template : List Char) :
    ('0' ∈ operatorPlaces template → left <:+: fillOperator left right template) ∧
      ('1' ∈ operatorPlaces template → right <:+: fillOperator left right template) := by
  have behind : ∀ (front : List Char) {part rest : List Char}, part <:+: rest → part <:+: front ++ rest := fun front _ _ h =>
    h.trans (List.suffix_append front _).isInfix
  fun_induction fillOperator left right template with
  | case1 rest ih =>
    rw [operatorPlaces]
    exact ⟨fun _ => (List.prefix_append _ _).isInfix, fun h => behind left (ih.2 (by simpa using h))⟩
  | case2 rest ih =>
    rw [operatorPlaces]
    exact ⟨fun h => behind right (ih.1 (by simpa using h)), fun _ => (List.prefix_append _ _).isInfix⟩
  | case3 c rest hleft hright ih =>
    rw [operatorPlaces]
    · exact ⟨fun h => behind [c] (ih.1 h), fun h => behind [c] (ih.2 h)⟩
    · exact hleft
    · exact hright
  | case4 => exact ⟨fun h => absurd h List.not_mem_nil, fun h => absurd h List.not_mem_nil⟩

/-- A blank ends whatever stands in front of it. -/
theorem operatorPlaces_behind {d : Char} {rest : List Char} (h : d ∈ operatorPlaces rest) :
    ∀ cs : List Char, d ∈ operatorPlaces (cs ++ ' ' :: rest) := by
  intro cs
  fun_induction operatorPlaces cs with
  | case1 more ih => exact List.mem_cons_of_mem _ ih
  | case2 more ih => exact List.mem_cons_of_mem _ ih
  | case3 c more hleft hright ih =>
    rw [List.cons_append, operatorPlaces]
    · exact ih
    · intro digits hc heq
      cases more with
      | nil => cases heq
      | cons e more => exact hleft more hc (by rw [List.cons_append] at heq; rw [(List.cons.inj heq).1])
    · intro digits hc heq
      cases more with
      | nil => cases heq
      | cons e more => exact hright more hc (by rw [List.cons_append] at heq; rw [(List.cons.inj heq).1])
  | case4 => exact h

/-- The places of the argument and of the scripts in the template of a function, by what stands behind the sign; the first truth
value tells of a backslash in front. -/
def functionPlaces : Bool → List Char → List Char
  | _, [] => []
  | false, '%' :: '^' :: rest => '^' :: functionPlaces false rest
  | false, '%' :: '_' :: rest => '_' :: functionPlaces false rest
  | false, '%' :: rest => '%' :: functionPlaces false rest
  | _, c :: rest => functionPlaces (c = '\\') rest

theorem infix_fillFunction (argument sup sub : List Char) (escaped : Bool) (template : List Char) :
    ('%' ∈ functionPlaces escaped template → argument <:+: fillFunction argument sup sub escaped template) ∧
      ('^' ∈ functionPlaces escaped template → sup <:+: fillFunction argument sup sub escaped template) ∧
      ('_' ∈ functionPlaces escaped template → sub <:+: fillFunction argument sup sub escaped template) := by
  have behind : ∀ (front : List Char) {part rest : List Char}, part <:+: rest → part <:+: front ++ rest := fun front _ _ h =>
    h.trans (List.suffix_append front _).isInfix
  have first : ∀ (front rest : List Char), front <:+: front ++ rest := fun front rest => (List.prefix_append front rest).isInfix
  fun_induction fillFunction argument sup sub escaped template with
  | case1 =>
    exact ⟨fun h => absurd h List.not_mem_nil, fun h => absurd h List.not_mem_nil, fun h => absurd h List.not_mem_nil⟩
  | case2 rest ih =>
    rw [functionPlaces]
    exact ⟨fun h => behind sup (ih.1 (by simpa using h)), fun _ => first sup _, fun h => behind sup (ih.2.2 (by simpa using h))⟩
  | case3 rest ih =>
    rw [functionPlaces]
    exact ⟨fun h => behind sub (ih.1 (by simpa using h)), fun h => behind sub (ih.2.1 (by simpa using h)), fun _ => first sub _⟩
  | case4 rest hsup hsub ih =>
    rw [functionPlaces]
    · exact ⟨fun _ => first argument _, fun h => behind argument (ih.2.1 (by simpa using h)),
        fun h => behind argument (ih.2.2 (by simpa using h))⟩
    · exact hsup
    · exact hsub
  | case5 escaped c rest hsup hsub hplace ih =>
    rw [functionPlaces]
    · exact ⟨fun h => behind [c] (ih.1 h), fun h => behind [c] (ih.2.1 h), fun h => behind [c] (ih.2.2 h)⟩
    · exact hsup
    · exact hsub
    · exact hplace

/-- A closing brace ends whatever stands in front of it, a backslash too. -/
theorem functionPlaces_behind {d : Char} {rest : List Char} (h : d ∈ functionPlaces false rest) :
    ∀ (escaped : Bool) (cs : List Char), d ∈ functionPlaces escaped (cs ++ '\x7d' :: rest) := by
  intro escaped cs
  fun_induction functionPlaces escaped cs with
  | case1 escaped => cases escaped <;> exact h
  | case2 more ih => exact List.mem_cons_of_mem _ ih
  | case3 more ih => exact List.mem_cons_of_mem _ ih
  | case4 more hsup hsub ih =>
    rw [List.cons_append, functionPlaces]
    · exact List.mem_cons_of_mem _ ih
    · intro tail heq
      cases more with
      | nil => cases heq
      | cons e more => exact hsup more (by rw [(List.cons.inj heq).1])
    · intro tail heq
      cases more with
      | nil => cases heq
      | cons e more => exact hsub more (by rw [(List.cons.inj heq).1])
  | case5 escaped c more hsup hsub hplace ih =>
    rw [List.cons_append, functionPlaces]
    · exact ih
    · intro tail hescaped hc heq
      cases more with
      | nil => cases heq
      | cons e more => exact hsup more hescaped hc (by rw [(List.cons.inj heq).1])
    · intro tail hescaped hc heq
      cases more with
      | nil => cases heq
      | cons e more => exact hsub more hescaped hc (by rw [(List.cons.inj heq).1])
    · exact hplace

/-! ### The usual vocabulary -/

/-- The template of every operator has the places of both operands. -/
theorem operatorTemplateOf_places (op : String) : ∃ template : String,
    Catalog.builtin.operatorTemplateOf (.text op) = .ok (.text template) ∧
      '0' ∈ operatorPlaces template.toList ∧ '1' ∈ operatorPlaces template.toList := by
  have hall : ∀ p ∈ Catalog.builtinOperatorTemplates, '0' ∈ operatorPlaces p.2.toList ∧ '1' ∈ operatorPlaces p.2.toList := by
    decide
  have hkey : (Datum.text op).key = .ok (.text op) := rfl
  unfold Catalog.operatorTemplateOf
  cases hfind : Catalog.builtin.operatorTemplates.find? (.text op) with
  | some template =>
    obtain ⟨e, he, rfl⟩ := Option.map_eq_some_iff.mp hfind
    have hmem : e ∈ Catalog.textTable Catalog.builtinOperatorTemplates := List.mem_of_find?_eq_some he
    simp only [Catalog.textTable, Table.ofTexts, List.map_map, List.mem_map, Function.comp_apply] at hmem
    obtain ⟨p, hp, rfl⟩ := hmem
    refine ⟨p.2, ?_, hall p hp⟩
    rw [hkey]
    simp only [bind, Except.bind, hfind]
    rfl
  | none =>
    refine ⟨"%0 " ++ ((Catalog.builtin.latexForSymbol (.text op)).orElse (.text op)).shown ++ " %1", ?_, ?_, ?_⟩
    · rw [hkey]
      simp only [bind, Except.bind, hfind]
      rfl
    · simp [operatorPlaces]
    · rw [String.toList_append]
      show '1' ∈ operatorPlaces (_ ++ ' ' :: ['%', '1'])
      exact operatorPlaces_behind (by decide) _

/-- A function has the template that is listed for it. -/
theorem functionTemplateOf_table {p : String × String} (h : p ∈ Catalog.builtinFunctionTemplates) :
    Catalog.builtin.functionTemplateOf (.text p.1) = .ok (.text p.2) := by
  have hall : ∀ p ∈ Catalog.builtinFunctionTemplates,
      (Catalog.builtin.functionTemplateOf (.text p.1)).toOption.bind Datum.text? = some p.2 := by decide +kernel
  obtain ⟨template, htemplate, htext⟩ := Option.bind_eq_some_iff.mp (hall p h)
  cases template with
  | text t =>
    obtain rfl := Option.some.inj htext
    exact Outcome.eq_ok_of_toOption htemplate
  | _ => cases htext

/-- The places of a template for a function: one of the argument, and of either script, if it has any sign of that. -/
structure HasPlaces (template : String) : Prop where
  argument : '%' ∈ functionPlaces false template.toList
  sub : holdsChars ['%', '_'] template.toList = true → '_' ∈ functionPlaces false template.toList

/-- The superscript has a place in the template, or is put behind it. -/
def HasSuperPlace (template : String) : Prop :=
  holdsChars ['%', '^'] template.toList = true → '^' ∈ functionPlaces false template.toList

instance (template : String) : Decidable (HasSuperPlace template) := inferInstanceAs (Decidable (_ → _))

theorem hasPlaces_iff (template : String) : HasPlaces template ↔ '%' ∈ functionPlaces false template.toList ∧
    (holdsChars ['%', '_'] template.toList = true → '_' ∈ functionPlaces false template.toList) :=
  ⟨fun h => ⟨h.argument, h.sub⟩, fun h => ⟨h.1, h.2⟩⟩

instance (template : String) : Decidable (HasPlaces template) := decidable_of_iff _ (hasPlaces_iff template).symm

/-- The template of a name of one character. -/
theorem hasPlaces_character (d : Char) :
    HasPlaces (d.toString ++ "%^%_%") ∧ (d ≠ '\\' → HasSuperPlace (d.toString ++ "%^%_%")) := by
  by_cases hslash : d = '\\'
  · subst hslash
    exact ⟨by decide, fun h => absurd rfl h⟩
  by_cases hplace : d = '%'
  · subst hplace
    exact ⟨by decide, fun _ => by decide⟩
  have htext : (d.toString ++ "%^%_%").toList = d :: ['%', '^', '%', '_', '%'] := by
    rw [String.toList_append, Char.toString, String.toList_singleton]
    rfl
  have hplaces : functionPlaces false (d.toString ++ "%^%_%").toList = ['^', '_', '%'] := by
    rw [htext, functionPlaces, decide_eq_false hslash]
    · rfl
    · exact fun _ _ h => absurd h hplace
    · exact fun _ _ h => absurd h hplace
    · exact fun _ h => absurd h hplace
  rw [hasPlaces_iff, HasSuperPlace, hplaces]
  exact ⟨⟨by decide, fun _ => by decide⟩, fun _ _ => by decide⟩

/-- The template of a name that is written upright. -/
theorem hasPlaces_named (name : String) :
    HasPlaces (operatorNameText name ++ "%^%_ %") ∧ HasSuperPlace (operatorNameText name ++ "%^%_ %") := by
  have htext : (operatorNameText name ++ "%^%_ %").toList =
      (Catalog.operatorNameHead ++ name).toList ++ '\x7d' :: ['%', '^', '%', '_', ' ', '%'] := by
    rw [String.toList_append, operatorNameText, String.toList_append, List.append_assoc]
    rfl
  have place : ∀ {d : Char}, d ∈ functionPlaces false ['%', '^', '%', '_', ' ', '%'] →
      d ∈ functionPlaces false (operatorNameText name ++ "%^%_ %").toList := fun h => by
    rw [htext]
    exact functionPlaces_behind h false _
  exact ⟨⟨place (by decide), fun _ => place (by decide)⟩, fun _ => place (by decide)⟩

/-- The template of every function has its places.  A backslash as a name takes the place of the superscript. -/
theorem functionTemplateOf_places (name : String) : ∃ template : String,
    Catalog.builtin.functionTemplateOf (.text name) = .ok (.text template) ∧ HasPlaces template ∧
      (name ≠ "\\" → HasSuperPlace template) := by
  by_cases htable : name ∈ Catalog.builtinFunctionTemplates.map (·.1)
  · have hall : ∀ p ∈ Catalog.builtinFunctionTemplates, HasPlaces p.2 ∧ HasSuperPlace p.2 := by decide
    obtain ⟨p, hp, rfl⟩ := List.mem_map.mp htable
    exact ⟨p.2, functionTemplateOf_table hp, (hall p hp).1, fun _ => (hall p hp).2⟩
  by_cases hcommand : name ∈ Catalog.commandFunctions
  · have hall : ∀ name ∈ Catalog.commandFunctions,
        HasPlaces ("\\" ++ name ++ "%^%_ %") ∧ HasSuperPlace ("\\" ++ name ++ "%^%_ %") := by
      decide +kernel
    exact ⟨_, Expr.functionTemplateOf_command hcommand, (hall name hcommand).1, fun _ => (hall name hcommand).2⟩
  by_cases hlong : name.length = 1
  · obtain ⟨d, hname⟩ : ∃ d, name.toList = [d] := List.length_eq_one_iff.mp (by rw [String.length_toList, hlong])
    obtain rfl : name = d.toString := by rw [← String.toList_inj, hname, Char.toString, String.toList_singleton]
    obtain ⟨hplaces, hsuper⟩ := hasPlaces_character d
    exact ⟨_, Expr.functionTemplateOf_plain htable (plainFunctionTemplate_character hcommand), hplaces, fun hne =>
      hsuper fun hd => hne (hd ▸ rfl)⟩
  · obtain ⟨hplaces, hsuper⟩ := hasPlaces_named name
    exact ⟨_, Expr.functionTemplateOf_plain htable (plainFunctionTemplate_named hlong hcommand), hplaces, fun _ => hsuper⟩

/-- What is put in the places of a template is in the text, or stands behind it. -/
theorem HasPlaces.shows_callText {template : String} (h : HasPlaces template) (argument above below : String) :
    Shows (Expr.callText template argument above below) argument ∧ Shows (Expr.callText template argument above below) below ∧
      (HasSuperPlace template → Shows (Expr.callText template argument above below) above) := by
  obtain ⟨hargument, hsuper, hsub⟩ :=
    infix_fillFunction argument.toList above.toList below.toList false template.toList
  have filled : ∀ {part : String},
      part.toList <:+: fillFunction argument.toList above.toList below.toList false template.toList →
      Shows (Expr.callText template argument above below) part := fun h =>
    Shows.append_left (Shows.append_left (by rwa [Shows, String.toList_ofList]) _) _
  refine ⟨filled (hargument h.argument), ?_, fun hplace => ?_⟩
  · by_cases hsign : holdsChars ['%', '_'] template.toList = true
    · exact filled (hsub (h.sub hsign))
    · unfold Expr.callText
      rw [if_neg hsign]
      exact ((Shows.refl below).append_right _).append_left _
  · by_cases hsign : holdsChars ['%', '^'] template.toList = true
    · exact filled (hsuper (hplace hsign))
    · unfold Expr.callText
      rw [if_neg hsign]
      exact (Shows.refl above).append_right _

end Format

end Formula
