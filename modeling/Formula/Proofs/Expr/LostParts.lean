import Formula.Proofs.Expr.WrittenParts

/-!
# What is lost with a leaf that cannot be written

A number whose value is neither a number nor a text is written as nothing.  The nodes around it put what they are given
together, so that nothing else is lost; but some of them ask about the number, whether it needs parentheses, and cannot be
written themselves if there is no answer.  They are the groups around it, the powers of it and the functions that take a number
without parentheses: what else stands in them is lost with it (`Loses`).

All other trees keep what is not in such a leaf (`rest_written`): whatever the tree holds outside of it (`Holds`) is in the text
as it is written on its own.
-/

namespace Formula

open Number Text

namespace Expr

/-! ### Trees -/

/-- The label of the leaf cannot be written. -/
def LabelFails : Expr → Prop
  | number value _ _ => ∃ fault, ({} : Format).number value = .error fault
  | symbol name variant _ _ => ∃ fault, symbolLatex .builtin name variant = .error fault
  | _ => False

/-- All labels of the tree have the kinds that they ought to have, but for the values of numbers. -/
inductive WellTyped : Expr → Prop
  | missing : WellTyped missing
  | number {value : Datum} {s t : Expr} : WellTyped s → WellTyped t → WellTyped (number value s t)
  | symbol {name : String} {variant : Datum} {s t : Expr} : variant = .null ∨ (∃ v : String, variant = .text v) →
    WellTyped s → WellTyped t → WellTyped (symbol (.text name) variant s t)
  | text {content : Datum} {s t : Expr} : WellTyped s → WellTyped t → WellTyped (text content s t)
  | group {e s t : Expr} {left right : String} : WellTyped e → WellTyped s → WellTyped t →
    WellTyped (group e (.tuple [.text left, .text right]) s t)
  | binary {op : String} {l r s t : Expr} : WellTyped l → WellTyped r → WellTyped s → WellTyped t →
    WellTyped (binary (.text op) l r s t)
  | unary {op : String} {e s t : Expr} : WellTyped e → WellTyped s → WellTyped t → WellTyped (unary (.text op) e s t)
  | call {name left right : String} {e s t : Expr} : WellTyped e → WellTyped s → WellTyped t →
    WellTyped (call (.text name) e (.tuple [.text left, .text right]) s t)
  | several {name left right : String} {items : List Expr} {s t : Expr} : (∀ e ∈ items, WellTyped e) → WellTyped s →
    WellTyped t → WellTyped (Expr.call (.text name) (tuple items) (.tuple [.text left, .text right]) s t)
  | fraction {l r s t : Expr} : WellTyped l → WellTyped r → WellTyped s → WellTyped t → WellTyped (fraction l r s t)
  | root {e index s t : Expr} : WellTyped e → WellTyped index → WellTyped s → WellTyped t → WellTyped (root e index s t)
  | complex {re im : Datum} {s t : Expr} : re.isNumeric = true → im.isNumeric = true → WellTyped s → WellTyped t →
    WellTyped (complex re im s t)
  | error {placeholder message : Datum} {s t : Expr} : WellTyped s → WellTyped t → WellTyped (error placeholder message s t)

/-- The expression is in the tree, and not inside of a leaf whose label cannot be written: such a leaf may itself have scripts. -/
inductive Holds : Expr → Expr → Prop
  | self (e : Expr) : Holds e e
  | child {e k x : Expr} : ¬e.LabelFails → k ∈ e.children → Holds k x → Holds e x

/-- Parts of the node are lost: it asks about a number that cannot be written, which is not all that it has, or it is a function
named by a backslash, whose superscript has no place. -/
def Loses : Expr → Prop
  | group e _ s t => (∃ value, e = ofNumber value ∧ e.LabelFails) ∧ (s ≠ missing ∨ t ≠ missing)
  | call name argument _ s t =>
    (name = .text "pow" ∧ ∃ value exponent, argument = tuple [ofNumber value, exponent] ∧ (ofNumber value).LabelFails ∧
      (exponent ≠ missing ∨ s ≠ missing ∨ t ≠ missing)) ∨
    ((∃ f ∈ looseFunctions, name = .text f) ∧ (∃ value s t, argument = number value s t) ∧ argument.LabelFails ∧
      (s ≠ missing ∨ t ≠ missing)) ∨
    (name = .text "\\" ∧ s ≠ missing)
  | _ => False

/-! ### Nodes that cannot be written -/

theorem guarded_error {r : Outcome String} {fault : Fault} (h : r = .error fault)
    (hkind : fault.kind = .type ∨ fault.kind = .value) : guarded r = .ok "" := by
  subst h
  unfold guarded
  dsimp only
  rcases hkind with h | h <;> rw [h]

/-- The template of a loose function does not enclose its argument. -/
theorem loose_open {name : String} (hname : name ∈ looseFunctions) : ∃ template : String,
    Catalog.builtin.functionTemplateOf (.text name) = .ok (.text template) ∧ Format.enclosesArgument template = false := by
  have hlisted : ∀ p ∈ Catalog.builtinFunctionTemplates, p.1 ∈ looseFunctions → Format.enclosesArgument p.2 = false := by
    decide +kernel
  have hother : ∀ s ∈ looseFunctions, s ∈ Catalog.builtinFunctionTemplates.map (·.1) ∨ s.length ≠ 1 ∧ '%' ∉ s.toList := by
    decide +kernel
  by_cases htable : name ∈ Catalog.builtinFunctionTemplates.map (·.1)
  · obtain ⟨p, hp, rfl⟩ := List.mem_map.mp htable
    exact ⟨p.2, Format.functionTemplateOf_table hp, hlisted p hp hname⟩
  obtain ⟨hlong, hplace⟩ := (hother name hname).resolve_left htable
  by_cases hcommand : name ∈ Catalog.commandFunctions
  · refine ⟨_, functionTemplateOf_command hcommand, Format.enclosesArgument_last ?_⟩
    rw [String.toList_append, List.mem_append, not_or]
    exact ⟨by decide, hplace⟩
  · refine ⟨_, functionTemplateOf_plain htable (plainFunctionTemplate_named hlong hcommand), Format.enclosesArgument_last ?_⟩
    rw [operatorNameText, String.toList_append, String.toList_append, List.mem_append, List.mem_append, not_or, not_or]
    exact ⟨⟨by decide, hplace⟩, by decide⟩

section

variable {value : Datum} {fault : Fault} (h : ({} : Format).number value = .error fault)
include h

theorem number_fault_kind : fault.kind = .type ∨ fault.kind = .value := by
  rcases Format.number_fault h with rfl | rfl
  · exact .inl rfl
  · exact .inr rfl

theorem latex_number_fails (s t : Expr) : (number value s t).latex {} .builtin = .ok "" := by
  have hnode : (do
      let text ← numberLatex {} value (!s.isMissing || !t.isMissing)
      return text ++ (← scriptsLatex (present s (latex {} .builtin s)) (present t (latex {} .builtin t)))) =
      Except.error fault := by
    unfold numberLatex
    rw [h]
    rfl
  exact guarded_error hnode (number_fault_kind h)

theorem isSimple_fails : (ofNumber value).isSimple {} = .error fault := by
  show (do return Format.isPlain (← plainDigitsOf {} (← ({} : Format).number value))) = _
  rw [h]
  rfl

/-- **A group around a bare number that cannot be written** is written as nothing, with all its scripts. -/
theorem latex_group_fails (fence : Datum) (s t : Expr) : (group (ofNumber value) fence s t).latex {} .builtin = .ok "" := by
  have hnode : groupLatex {} (ofNumber value) fence ((ofNumber value).latex {} .builtin)
      (scriptsLatex (present s (latex {} .builtin s)) (present t (latex {} .builtin t))) = .error fault := by
    unfold groupLatex
    rw [ofNumber, latex_number_fails h, ← ofNumber, isSimple_fails h]
    rfl
  exact guarded_error hnode (number_fault_kind h)

/-- **A power of one** is, with its exponent. -/
theorem latex_power_fails (exponent : Expr) (fence : Datum) (s t : Expr) :
    (call "pow" (tuple [ofNumber value, exponent]) fence s t).latex {} .builtin = .ok "" := by
  have hnode : powerLatex {} (ofNumber value) (!s.isMissing || !t.isMissing) ((ofNumber value).latex {} .builtin)
      (exponent.latex {} .builtin) (scriptsLatex (present s (latex {} .builtin s)) (present t (latex {} .builtin t))) =
      .error fault := by
    unfold powerLatex
    rw [ofNumber, latex_number_fails h, ← ofNumber, isSimple_fails h]
    rfl
  exact guarded_error hnode (number_fault_kind h)

/-- **A loose function of one** is, with the scripts of the function. -/
theorem latex_loose_fails {name : String} (hname : name ∈ looseFunctions) (s' t' : Expr) (fence : Datum) (s t : Expr) :
    (call (.text name) (number value s' t') fence s t).latex {} .builtin = .ok "" := by
  obtain ⟨template, htemplate, hopen⟩ := loose_open hname
  have hloose : looseFunctions.contains name = true := List.contains_iff_mem.mpr hname
  have hbare : (number value s' t').isBareArgument {} = .error fault := by
    show (do return !beginsWith (← ({} : Format).number value) "-") = _
    rw [h]
    rfl
  have hnode : (do
      let template ← Catalog.builtin.functionTemplateOf (.text name)
      callLatex template (argumentLatex {} (.text name) template (number value s' t') fence
        ((number value s' t').latex {} .builtin)) (present s (latex {} .builtin s)) (present t (latex {} .builtin t))) =
      Except.error fault := by
    rw [htemplate, latex_number_fails h]
    simp only [bind, Except.bind, argumentLatex, hopen, hloose, hbare, callLatex, if_true, Bool.false_eq_true, if_false]
  exact guarded_error hnode (number_fault_kind h)

end

theorem latex_symbol_fails {name variant : Datum} {digits : Nat}
    (h : symbolLatex .builtin name variant = .error (.tooManyDigits digits)) (s t : Expr) :
    (symbol name variant s t).latex {} .builtin = .ok "" := by
  have hnode : (do
      let text ← symbolLatex .builtin name variant
      text.append (← scriptsLatex (present s (latex {} .builtin s)) (present t (latex {} .builtin t)))) =
      Except.error (.tooManyDigits digits) := by
    rw [h]
    rfl
  exact guarded_error hnode (.inr rfl)

variable {e k l r s t : Expr} {left right above below : String}

/-! ### Questions -/

theorem number_of_not_fails {value : Datum} (h : ¬(number value s t).LabelFails) :
    ∃ text, ({} : Format).number value = .ok text := by
  cases hnumber : ({} : Format).number value with
  | ok text => exact ⟨text, rfl⟩
  | error fault => exact absurd ⟨fault, hnumber⟩ h

theorem WellTyped.isSimple (h : e.WellTyped) (hlabel : ∀ value, e = ofNumber value → ¬e.LabelFails) :
    ∃ simple, e.isSimple {} = .ok simple := by
  cases h with
  | @number value s t =>
    by_cases hbare : (s.isMissing && t.isMissing) = true
    · obtain ⟨hs, ht⟩ := Bool.and_eq_true_iff.mp hbare
      obtain ⟨rfl, rfl⟩ := And.intro (eq_missing hs) (eq_missing ht)
      obtain ⟨text, htext⟩ := number_of_not_fails (hlabel value rfl)
      refine ⟨Format.isPlain (replaceAll (replaceAll text "\\, " "") "." "."), ?_⟩
      show (do return Format.isPlain (← plainDigitsOf {} (← ({} : Format).number value))) = _
      rw [htext]
      rfl
    · refine ⟨false, ?_⟩
      rw [Expr.isSimple, if_neg hbare]
  | _ => exact ⟨_, rfl⟩

theorem WellTyped.isBareArgument (h : e.WellTyped) (hlabel : ∀ value s t, e = Expr.number value s t → ¬e.LabelFails) :
    ∃ bare, e.isBareArgument {} = .ok bare := by
  cases h with
  | @number value s t =>
    obtain ⟨text, htext⟩ := number_of_not_fails (hlabel value s t rfl)
    refine ⟨!beginsWith text "-", ?_⟩
    show (do return !beginsWith (← ({} : Format).number value) "-") = _
    rw [htext]
    rfl
  | _ => exact ⟨_, rfl⟩

theorem WellTyped.precedence (h : e.WellTyped) : ∃ own, e.precedence .builtin = .ok own := by
  cases h with
  | @binary op l r s t =>
    rw [Expr.precedence]
    split
    · exact ⟨_, rfl⟩
    · exact ⟨_, rfl⟩
  | _ => exact ⟨_, rfl⟩

/-! ### Trees without losses -/

/-- No node of the tree loses parts. -/
def Keeps (e : Expr) : Prop := ∀ n, e.Holds n → ¬n.Loses

theorem keeps_missing : Keeps missing := by
  intro n h
  cases h with
  | self => exact id
  | child _ hk => cases hk

theorem Keeps.self (h : e.Keeps) : ¬e.Loses := h e (.self e)

/-- The parts of a node that lose nothing. -/
theorem Keeps.part {parts : List Expr} (h : e.Keeps) (hlabel : ¬e.LabelFails)
    (hparts : e.children = parts.filter fun k => !k.isMissing) (hk : k ∈ parts) : k.Keeps := by
  by_cases hm : k.isMissing = true
  · rw [eq_missing hm]
    exact keeps_missing
  · have hchild : k ∈ e.children := hparts ▸ List.mem_filter.mpr ⟨hk, by simpa using hm⟩
    exact fun n hn => h n (.child hlabel hchild hn)

/-- The node is written, and nothing of its children is lost. -/
def Kept (e : Expr) : Prop :=
  ∃ text, e.latex {} .builtin = .ok text ∧
    (¬e.LabelFails → ∀ k ∈ e.children, ∃ part, k.latex {} .builtin = .ok part ∧ Shows text part)

/-- The texts of the scripts of a node that loses nothing. -/
theorem Keeps.scripts {parts : List Expr} (h : e.Keeps) (hlabel : ¬e.LabelFails)
    (hparts : e.children = (parts ++ [s, t]).filter fun k => !k.isMissing) (hs : s.Keeps → Kept s) (ht : t.Keeps → Kept t) :
    (∃ above, s.latex {} .builtin = .ok above) ∧ ∃ below, t.latex {} .builtin = .ok below := by
  obtain ⟨above, habove, -⟩ := hs (h.part hlabel hparts (by simp))
  obtain ⟨below, hbelow, -⟩ := ht (h.part hlabel hparts (by simp))
  exact ⟨⟨above, habove⟩, below, hbelow⟩

theorem Writes.kept {parts : List Expr} (h : Writes e parts) (hparts : e.children = parts.filter fun k => !k.isMissing) :
    Kept e := by
  obtain ⟨text, htext, hall⟩ := h
  exact ⟨text, htext, fun _ k hk => hall k (List.mem_filter.mp (hparts ▸ hk)).1⟩

/-- A leaf that cannot be written. -/
theorem kept_leaf (h : e.latex {} .builtin = .ok "") (hlabel : e.LabelFails) : Kept e :=
  ⟨"", h, fun hno => absurd hlabel hno⟩

/-- A node that cannot be written, of which all children cannot be, too. -/
theorem kept_nothing (h : e.latex {} .builtin = .ok "") (hall : ∀ k ∈ e.children, k.latex {} .builtin = .ok "") : Kept e :=
  ⟨"", h, fun _ k hk => ⟨"", hall k hk, .refl _⟩⟩

theorem children_call {name fence : Datum} (hone : ∀ items, e ≠ tuple items) :
    (call name e fence s t).children = ([e] ++ [s, t]).filter fun k => !k.isMissing := by
  cases e <;> first | rfl | exact absurd rfl (hone _)

theorem WellTyped.single (h : e.WellTyped) (items : List Expr) : e ≠ tuple items := by
  rintro rfl
  cases h

/-- A number, or nothing in its place. -/
theorem kept_number {value : Datum} (h : (number value s t).Keeps) (ihs : s.Keeps → Kept s) (iht : t.Keeps → Kept t) :
    Kept (number value s t) := by
  cases hnumber : ({} : Format).number value with
  | error fault => exact kept_leaf (latex_number_fails hnumber s t) ⟨fault, hnumber⟩
  | ok text =>
    have hlabel : ¬(number value s t).LabelFails := by
      rintro ⟨fault, hfault⟩
      cases hnumber.symm.trans hfault
    have hparts : (number value s t).children = ([] ++ [s, t]).filter fun k => !k.isMissing := rfl
    obtain ⟨⟨above, hs⟩, below, ht⟩ := h.scripts hlabel hparts ihs iht
    exact (writes_number hs ht hnumber).kept hparts

theorem kept_symbol {name : String} {variant : Datum} (hvariant : variant = .null ∨ ∃ v : String, variant = .text v)
    (h : (symbol (.text name) variant s t).Keeps) (ihs : s.Keeps → Kept s) (iht : t.Keeps → Kept t) :
    Kept (symbol (.text name) variant s t) := by
  rcases symbolLatex_cases name hvariant with ⟨text, htext⟩ | ⟨digits, hdigits⟩
  · have hlabel : ¬(symbol (.text name) variant s t).LabelFails := by
      rintro ⟨fault, hfault⟩
      cases htext.symm.trans hfault
    have hparts : (symbol (.text name) variant s t).children = ([] ++ [s, t]).filter fun k => !k.isMissing := rfl
    obtain ⟨⟨above, hs⟩, below, ht⟩ := h.scripts hlabel hparts ihs iht
    exact (writes_symbol hs ht htext).kept hparts
  · exact kept_leaf (latex_symbol_fails hdigits s t) ⟨_, hdigits⟩

/-- A function named by a backslash that loses nothing has no superscript. -/
theorem missing_of_not_loses {name : String} {argument : Expr} {fence : Datum} (h : ¬(call (.text name) argument fence s t).Loses)
    (hname : name = "\\") : s = missing := by
  subst hname
  by_contra hthere
  exact h (.inr (.inr ⟨rfl, hthere⟩))

section

variable (hs : s.latex {} .builtin = .ok above) (ht : t.latex {} .builtin = .ok below)
include hs ht

/-- **A group**: without an answer there is nothing else in it. -/
theorem kept_group {l r : String} (h : ¬(group e (.tuple [.text l, .text r]) s t).Loses) (hwell : e.WellTyped)
    (he : e.latex {} .builtin = .ok left) : Kept (group e (.tuple [.text l, .text r]) s t) := by
  by_cases hfails : ∃ value, e = ofNumber value ∧ e.LabelFails
  · have hnone := not_or.mp fun hthere => h ⟨hfails, hthere⟩
    obtain ⟨value, rfl, fault, hfault⟩ := hfails
    obtain ⟨rfl, rfl⟩ := hnone.imp not_not.mp not_not.mp
    refine kept_nothing (latex_group_fails hfault _ _ _) fun k hk => ?_
    obtain rfl := List.mem_singleton.mp (show k ∈ [ofNumber value] from hk)
    exact latex_number_fails hfault _ _
  · obtain ⟨simple, hsimple⟩ := hwell.isSimple fun value heq hlabel => hfails ⟨value, heq, hlabel⟩
    exact (writes_group hs ht he hsimple).kept rfl

/-- **A power.** -/
theorem kept_power {fence : Datum} (h : ¬(call "pow" (tuple [l, r]) fence s t).Loses) (hwell : l.WellTyped)
    (hl : l.latex {} .builtin = .ok left) (hr : r.latex {} .builtin = .ok right) :
    Kept (call "pow" (tuple [l, r]) fence s t) := by
  by_cases hfails : ∃ value, l = ofNumber value ∧ l.LabelFails
  · obtain ⟨value, rfl, hlabel⟩ := hfails
    have hnone := not_or.mp fun hthere => h (.inl ⟨rfl, value, r, rfl, hlabel, hthere⟩)
    obtain ⟨rfl, rfl, rfl⟩ := hnone.imp not_not.mp fun h => (not_or.mp h).imp not_not.mp not_not.mp
    obtain ⟨fault, hfault⟩ := hlabel
    refine kept_nothing (latex_power_fails hfault _ _ _ _) fun k hk => ?_
    obtain rfl := List.mem_singleton.mp (show k ∈ [ofNumber value] from hk)
    exact latex_number_fails hfault _ _
  · obtain ⟨simple, hsimple⟩ := hwell.isSimple fun value heq hlabel => hfails ⟨value, heq, hlabel⟩
    exact (writes_power hs ht hl hr hsimple fence).kept rfl

/-- **A function of one argument.** -/
theorem kept_call {name l r : String} (h : ¬(call (.text name) e (.tuple [.text l, .text r]) s t).Loses) (hwell : e.WellTyped)
    (he : e.latex {} .builtin = .ok left) : Kept (call (.text name) e (.tuple [.text l, .text r]) s t) := by
  by_cases hfails : name ∈ looseFunctions ∧ (∃ value s t, e = number value s t) ∧ e.LabelFails
  · have hnone := not_or.mp fun hthere => h (.inr (.inl ⟨⟨name, hfails.1, rfl⟩, hfails.2.1, hfails.2.2, hthere⟩))
    obtain ⟨hname, ⟨value, s', t', rfl⟩, fault, hfault⟩ := hfails
    obtain ⟨rfl, rfl⟩ := hnone.imp not_not.mp not_not.mp
    refine kept_nothing (latex_loose_fails hfault hname s' t' _ _ _) fun k hk => ?_
    obtain rfl := List.mem_singleton.mp (show k ∈ [number value s' t'] from hk)
    exact latex_number_fails hfault _ _
  · have hbare : name ∈ looseFunctions → ∃ bare, e.isBareArgument {} = .ok bare := fun hname =>
      hwell.isBareArgument fun value s t heq hlabel => hfails ⟨hname, ⟨value, s, t, heq⟩, hlabel⟩
    exact (writes_call hs ht hwell.single he hbare (missing_of_not_loses h)).kept (children_call hwell.single)

/-- **A function of several arguments**, also a power. -/
theorem kept_several {name l r : String} {items : List Expr}
    (h : ¬(call (.text name) (tuple items) (.tuple [.text l, .text r]) s t).Loses) (hwell : ∀ e ∈ items, e.WellTyped)
    (hitems : ∀ e ∈ items, ∃ text, e.latex {} .builtin = .ok text) :
    Kept (call (.text name) (tuple items) (.tuple [.text l, .text r]) s t) := by
  by_cases hpower : name = "pow" ∧ ∃ base exponent, items = [base, exponent]
  · obtain ⟨rfl, base, exponent, rfl⟩ := hpower
    obtain ⟨left, hleft⟩ := hitems base (by simp)
    obtain ⟨right, hright⟩ := hitems exponent (by simp)
    exact kept_power hs ht h (hwell base (by simp)) hleft hright
  · exact (writes_several hs ht hitems (fun hname base exponent heq => hpower ⟨hname, base, exponent, heq⟩)
      (missing_of_not_loses h)).kept rfl

end

/-- **A tree without losses is written, and each node holds the texts of its children.**  By induction on the tree: a node that
asks about a number that cannot be written holds nothing but this number. -/
theorem WellTyped.kept (h : e.WellTyped) (hkeeps : e.Keeps) : Kept e := by
  induction h with
  | missing => exact ⟨"", rfl, fun _ _ hk => by cases hk⟩
  | number _ _ ihs iht => exact kept_number hkeeps ihs iht
  | symbol hvariant _ _ ihs iht => exact kept_symbol hvariant hkeeps ihs iht
  | @text content s t _ _ ihs iht =>
    have hparts : (Expr.text content s t).children = ([] ++ [s, t]).filter fun k => !k.isMissing := rfl
    obtain ⟨⟨above, hs⟩, below, ht⟩ := hkeeps.scripts id hparts ihs iht
    exact (writes_text hs ht content).kept hparts
  | @group e s t l r he _ _ ihe ihs iht =>
    have hparts : (Expr.group e (.tuple [.text l, .text r]) s t).children = ([e] ++ [s, t]).filter fun k => !k.isMissing := rfl
    obtain ⟨left, hleft, -⟩ := ihe (hkeeps.part id hparts (by simp))
    obtain ⟨⟨above, hs⟩, below, ht⟩ := hkeeps.scripts id hparts ihs iht
    exact kept_group hs ht hkeeps.self he hleft
  | @binary op l r s t hl hr _ _ ihl ihr ihs iht =>
    have hparts : (Expr.binary (.text op) l r s t).children = ([l, r] ++ [s, t]).filter fun k => !k.isMissing := rfl
    obtain ⟨left, hleft, -⟩ := ihl (hkeeps.part id hparts (by simp))
    obtain ⟨right, hright, -⟩ := ihr (hkeeps.part id hparts (by simp))
    obtain ⟨⟨above, hs⟩, below, ht⟩ := hkeeps.scripts id hparts ihs iht
    exact (writes_binary hs ht hleft hright op hl.precedence hr.precedence).kept hparts
  | @unary op e s t _ _ _ ihe ihs iht =>
    have hparts : (Expr.unary (.text op) e s t).children = ([e] ++ [s, t]).filter fun k => !k.isMissing := rfl
    obtain ⟨left, hleft, -⟩ := ihe (hkeeps.part id hparts (by simp))
    obtain ⟨⟨above, hs⟩, below, ht⟩ := hkeeps.scripts id hparts ihs iht
    exact (writes_unary hs ht op hleft).kept hparts
  | @call name left right e s t he _ _ ihe ihs iht =>
    have hparts := @children_call e s t (.text name) (.tuple [.text left, .text right]) he.single
    obtain ⟨left, hleft, -⟩ := ihe (hkeeps.part id hparts (by simp))
    obtain ⟨⟨above, hs⟩, below, ht⟩ := hkeeps.scripts id hparts ihs iht
    exact kept_call hs ht hkeeps.self he hleft
  | @several name left right items s t hitems _ _ ihitems ihs iht =>
    have hparts : (Expr.call (.text name) (tuple items) (.tuple [.text left, .text right]) s t).children =
        (items ++ [s, t]).filter fun k => !k.isMissing := rfl
    obtain ⟨⟨above, hs⟩, below, ht⟩ := hkeeps.scripts id hparts ihs iht
    refine kept_several hs ht hkeeps.self hitems fun e he => ?_
    obtain ⟨text, htext, -⟩ := ihitems e he (hkeeps.part id hparts (List.mem_append_left _ he))
    exact ⟨text, htext⟩
  | @fraction l r s t _ _ _ _ ihl ihr ihs iht =>
    have hparts : (Expr.fraction l r s t).children = ([l, r] ++ [s, t]).filter fun k => !k.isMissing := rfl
    obtain ⟨left, hleft, -⟩ := ihl (hkeeps.part id hparts (by simp))
    obtain ⟨right, hright, -⟩ := ihr (hkeeps.part id hparts (by simp))
    obtain ⟨⟨above, hs⟩, below, ht⟩ := hkeeps.scripts id hparts ihs iht
    exact (writes_fraction hs ht hleft hright).kept hparts
  | @root e index s t _ _ _ _ ihe ihindex ihs iht =>
    have hparts : (Expr.root e index s t).children = ([e, index] ++ [s, t]).filter fun k => !k.isMissing := rfl
    obtain ⟨left, hleft, -⟩ := ihe (hkeeps.part id hparts (by simp))
    obtain ⟨n, hn, -⟩ := ihindex (hkeeps.part id hparts (by simp))
    obtain ⟨⟨above, hs⟩, below, ht⟩ := hkeeps.scripts id hparts ihs iht
    exact (writes_root hs ht hleft hn).kept hparts
  | @complex re im s t hre him _ _ ihs iht =>
    have hparts : (Expr.complex re im s t).children = ([] ++ [s, t]).filter fun k => !k.isMissing := rfl
    obtain ⟨⟨above, hs⟩, below, ht⟩ := hkeeps.scripts id hparts ihs iht
    exact (writes_complex hs ht hre him).kept hparts
  | @error placeholder message s t _ _ ihs iht =>
    have hparts : (Expr.error placeholder message s t).children = ([] ++ [s, t]).filter fun k => !k.isMissing := rfl
    obtain ⟨⟨above, hs⟩, below, ht⟩ := hkeeps.scripts id hparts ihs iht
    exact (writes_error hs ht placeholder message).kept hparts

theorem WellTyped.child (h : e.WellTyped) (hk : k ∈ e.children) : k.WellTyped := by
  have each : ∀ parts : List Expr, e.children = parts.filter (fun k => !k.isMissing) → (∀ p ∈ parts, p.WellTyped) →
      k.WellTyped := fun _ hparts hall => hall k (List.mem_filter.mp (hparts ▸ hk)).1
  cases h with
  | missing => cases hk
  | number hs ht | symbol _ hs ht | text hs ht | complex _ _ hs ht | error hs ht =>
    exact each [_, _] rfl (by simp [sup, sub, hs, ht])
  | group he hs ht | unary he hs ht => exact each [_, _, _] rfl (by simp [sup, sub, he, hs, ht])
  | call he hs ht => exact each _ (children_call he.single) (by simp [he, hs, ht])
  | binary hl hr hs ht | fraction hl hr hs ht | root hl hr hs ht =>
    exact each [_, _, _, _] rfl (by simp [sup, sub, hl, hr, hs, ht])
  | several hitems hs ht =>
    refine each (_ ++ [_, _]) rfl fun p hp => ?_
    rcases List.mem_append.mp hp with hp | hp
    · exact hitems p hp
    · simp only [List.mem_cons, List.not_mem_nil, or_false] at hp
      rcases hp with rfl | rfl
      · exact hs
      · exact ht

/-- A node that loses parts is written as nothing, unless it is a function named by a backslash. -/
theorem Loses.nothing (h : e.Loses) (hname : ∀ argument fence s t, e ≠ call (.text "\\") argument fence s t) :
    e.latex {} .builtin = .ok "" := by
  cases e with
  | group e fence s t =>
    obtain ⟨⟨value, rfl, fault, hfault⟩, -⟩ := h
    exact latex_group_fails hfault fence s t
  | call name argument fence s t =>
    rcases h with ⟨rfl, value, exponent, rfl, ⟨fault, hfault⟩, -⟩ | ⟨⟨f, hf, rfl⟩, ⟨value, s', t', rfl⟩, ⟨fault, hfault⟩, -⟩ |
      ⟨rfl, -⟩
    · exact latex_power_fails hfault exponent fence s t
    · exact latex_loose_fails hfault hf s' t' fence s t
    · exact absurd rfl (hname argument fence s t)
  | _ => cases h

end Expr

end Formula
