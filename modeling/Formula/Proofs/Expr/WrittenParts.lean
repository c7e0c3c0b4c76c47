import Formula.Proofs.Expr.ScriptPlaces
import Formula.Proofs.Expr.TemplatePlaces
import Formula.Proofs.Format.NumericText

/-!
# The parts of a node in its text

`Writes e parts` says that the text of the node holds the texts of the parts.  Every kind of node writes all its parts and its
scripts, if they are written and the node gets answers to what it asks about them: whether a base or the inner part of a group
is simple, whether an argument is bare, and which precedence an operand has.
-/

namespace Formula

open Number Text

namespace Expr

/-- The node is written, and the texts of the parts are in what is written. -/
def Writes (e : Expr) (parts : List Expr) : Prop :=
  ∃ text, e.latex {} .builtin = .ok text ∧ ∀ p ∈ parts, ∃ part, p.latex {} .builtin = .ok part ∧ Shows text part

variable {e l r s t : Expr} {body left right above below : String} {parts : List Expr}

/-! ### Scripts and fences -/

theorem shows_scriptText (kind : Source.Script) (hs : s.latex {} .builtin = .ok above) :
    Shows (scriptText kind s above) above := by
  unfold scriptText
  split
  · next hmissing =>
    rw [eq_missing hmissing] at hs
    obtain rfl : "" = above := Except.ok.inj hs
    exact .refl _
  · exact ((Shows.refl above).braced).append_right _

/-- A fence of two texts around a text. -/
theorem shows_inFence (l r b : String) : ∃ text, inFence (.tuple [.text l, .text r]) b = .ok text ∧ Shows text b := by
  have delimiter : ∀ s : String, ∃ t, delimiterLatex (.text s) = .ok t := fun s => by
    unfold delimiterLatex
    split
    all_goals first | exact ⟨_, rfl⟩ | skip
    next hno => exact absurd rfl (hno s)
  obtain ⟨left, hl⟩ := delimiter l
  obtain ⟨right, hr⟩ := delimiter r
  exact ⟨_, inFence_glue hl hr b, (Format.shows_glue _ _).1.trans (Format.shows_glue _ _).2⟩

/-! ### Labels -/

theorem resolvedName_cases (name : String) : (∃ n : String, resolvedName (.text name) = .ok (.text n)) ∨
    ∃ digits, resolvedName (.text name) = .error (.tooManyDigits digits) := by
  show (∃ n, (if holds name "&#" = true then _ else pure (Datum.text name)) = Except.ok (Datum.text n)) ∨
    ∃ digits, (if holds name "&#" = true then _ else pure (Datum.text name)) = Except.error (Fault.tooManyDigits digits)
  split
  · split
    · exact .inr ⟨_, rfl⟩
    · exact .inl ⟨_, rfl⟩
  · exact .inl ⟨name, rfl⟩

theorem spelling_text (n : String) : ∃ text : String, Catalog.builtin.spelling (.text n) = .ok (.text text) := by
  obtain ⟨text, htext⟩ : ∃ text : String, (Catalog.builtin.latexForSymbol (.text n)).orElse (.text n) = .text text := by
    unfold Datum.orElse
    split
    · exact ⟨n, rfl⟩
    · next hthere =>
      rcases latexForSymbol_cases n with ⟨-, hnone⟩ | ⟨p, -, -, htext⟩
      · exact absurd (hnone ▸ rfl) hthere
      · exact ⟨p.1, htext⟩
  exact ⟨text, congrArg Except.ok htext⟩

/-- A symbol is written by a text, unless its name refers to a character with too many digits. -/
theorem symbolLatex_cases (name : String) {variant : Datum} (h : variant = .null ∨ ∃ v : String, variant = .text v) :
    (∃ text, symbolLatex .builtin (.text name) variant = .ok (.text text)) ∨
      ∃ digits, symbolLatex .builtin (.text name) variant = .error (.tooManyDigits digits) := by
  unfold symbolLatex
  rcases resolvedName_cases name with ⟨n, hn⟩ | ⟨digits, hdigits⟩
  · left
    obtain ⟨text, htext⟩ := spelling_text n
    obtain ⟨v, hv⟩ : ∃ v : String, variant.orElse "" = .text v := by
      unfold Datum.orElse
      rcases h with rfl | ⟨v, rfl⟩
      · exact ⟨"", rfl⟩
      · split
        · exact ⟨"", rfl⟩
        · exact ⟨v, rfl⟩
    have hlookup : (Datum.text v).lookup variantCommands = .ok (variantCommands.lookup v) := rfl
    rw [hn, hv]
    simp only [bind, Except.bind, htext, hlookup]
    cases variantCommands.lookup v with
    | none => exact ⟨text, rfl⟩
    | some command => exact ⟨_, rfl⟩
  · right
    rw [hdigits]
    exact ⟨digits, rfl⟩

/-- A part of a complex number is a number, also if it counts as nothing. -/
theorem partOrZero_number {d : Datum} (h : d.isNumeric = true) : ∃ d', partOrZero d = .ok d' ∧ d'.isNumeric = true := by
  obtain ⟨tiny, htiny⟩ : ∃ tiny, isTiny d = .ok tiny := by
    cases d with
    | bool | int | float => exact ⟨_, rfl⟩
    | _ => cases h
  unfold partOrZero
  rw [htiny]
  cases tiny with
  | true => exact ⟨_, rfl, rfl⟩
  | false => exact ⟨d, rfl, h⟩

theorem imaginaryLatex_text {im : Datum} (h : im.isNumeric = true) : ∃ text, imaginaryLatex {} im = .ok (.text text) := by
  have htiny : ∀ n, ∃ tiny, isTiny (plus im n) = .ok tiny := by
    intro n
    cases im with
    | bool | int | float => exact ⟨_, rfl⟩
    | _ => cases h
  obtain ⟨one, hone⟩ := htiny (-1)
  obtain ⟨minus, hminus⟩ := htiny 1
  obtain ⟨text, htext⟩ := Format.number_written h
  unfold imaginaryLatex
  simp only [bind, Except.bind, hone, hminus, htext]
  cases im.isVoid <;> cases one <;> cases minus <;> exact ⟨_, rfl⟩

/-- **A complex number of two numbers** is written with its scripts behind it. -/
theorem complexLatex_numbers {re im : Datum} (hre : re.isNumeric = true) (him : im.isNumeric = true) (raised : Bool)
    (scripts : String) : ∃ body : String, complexLatex {} re im raised (.ok scripts) = .ok (body ++ scripts) := by
  obtain ⟨re', hre', hnumeric⟩ := partOrZero_number hre
  obtain ⟨im', him', himaginary⟩ := partOrZero_number him
  obtain ⟨written, hwritten⟩ := Format.number_written hnumeric
  obtain ⟨imaginary, himaginary⟩ := imaginaryLatex_text himaginary
  have hsum : ∀ real : String, ∃ body : String, (
      if !real.isEmpty && !(Datum.text imaginary).isVoid then
        Except.ok (parenthesizedIf raised (if beginsWith imaginary "-" then real ++ imaginary else real ++ "+" ++ imaginary) ++
          scripts)
      else if !real.isEmpty then .ok (real ++ scripts)
      else ((Datum.text imaginary).orElse "0").append scripts : Outcome String) = .ok (body ++ scripts) := by
    intro real
    unfold Datum.orElse
    cases real.isEmpty <;> cases (Datum.text imaginary).isVoid <;> exact ⟨_, rfl⟩
  unfold complexLatex
  simp only [bind, Except.bind, hre', him', himaginary, hwritten]
  cases re'.isVoid with
  | true => exact hsum ""
  | false => exact hsum written

/-! ### Operators and arguments -/

/-- An operation holds both operands. -/
theorem shows_operation (op left right : String) : ∃ text, operationLatex {} .builtin (.text op) left right = .ok text ∧
    Shows text left ∧ Shows text right := by
  unfold operationLatex
  split
  · obtain ⟨sign, hsign⟩ : ∃ sign, productSign {} left right = .ok sign := ⟨_, rfl⟩
    rw [hsign]
    exact ⟨_, rfl, Format.shows_join (by simp), Format.shows_join (by simp)⟩
  · obtain ⟨template, htemplate, hleft, hright⟩ := Format.operatorTemplateOf_places op
    obtain ⟨hleft', hright'⟩ := Format.infix_fillOperator left.toList right.toList template.toList
    rw [htemplate]
    refine ⟨_, rfl, ?_, ?_⟩
    · rw [Shows, String.toList_ofList]
      exact hleft' hleft
    · rw [Shows, String.toList_ofList]
      exact hright' hright

/-- The argument of a function of one argument. -/
theorem shows_argument {name : String} (l r : String) (hbare : name ∈ looseFunctions → ∃ bare, e.isBareArgument {} = .ok bare)
    (template text : String) : ∃ argument,
      argumentLatex {} (.text name) (.text template) e (.tuple [.text l, .text r]) (.ok text) = .ok argument ∧
        Shows argument text := by
  obtain ⟨fencedText, hfence, hshows⟩ := shows_inFence l r text
  unfold argumentLatex
  simp only [bind, Except.bind]
  split
  · exact ⟨text, rfl, .refl text⟩
  · split
    · next hloose =>
      obtain ⟨bare, hbare⟩ := hbare (List.contains_iff_mem.mp hloose)
      rw [hbare]
      cases bare with
      | true => exact ⟨text, rfl, .refl text⟩
      | false => exact ⟨fencedText, hfence, hshows⟩
    · exact ⟨fencedText, hfence, hshows⟩

theorem latexEach_written : ∀ {items : List Expr}, (∀ e ∈ items, ∃ text, e.latex {} .builtin = .ok text) →
    ∃ texts, (latexEach {} .builtin items).mapM id = .ok texts ∧ ∀ e ∈ items, ∃ text ∈ texts, e.latex {} .builtin = .ok text
  | [], _ => ⟨[], rfl, fun _ h => absurd h List.not_mem_nil⟩
  | e :: items, h => by
    obtain ⟨text, htext⟩ := h e List.mem_cons_self
    obtain ⟨texts, htexts, hall⟩ := latexEach_written fun k hk => h k (List.mem_cons_of_mem _ hk)
    refine ⟨text :: texts, ?_, fun k hk => ?_⟩
    · rw [latexEach, List.mapM_cons, htexts, id, htext]
      rfl
    · rcases List.mem_cons.mp hk with rfl | hk
      · exact ⟨text, List.mem_cons_self, htext⟩
      · obtain ⟨part, hpart, hlatex⟩ := hall k hk
        exact ⟨part, List.mem_cons_of_mem _ hpart, hlatex⟩

/-- The arguments of a function of several. -/
theorem shows_arguments (l r : String) {items : List Expr} (h : ∀ e ∈ items, ∃ text, e.latex {} .builtin = .ok text) :
    ∃ argument, argumentsLatex (.tuple [.text l, .text r]) (latexEach {} .builtin items) = .ok argument ∧
      ∀ e ∈ items, ∃ part, e.latex {} .builtin = .ok part ∧ Shows argument part := by
  obtain ⟨texts, htexts, hall⟩ := latexEach_written h
  obtain ⟨fencedText, hfence, hshows⟩ := shows_inFence l r (", ".intercalate texts)
  refine ⟨fencedText, ?_, fun e he => ?_⟩
  · unfold argumentsLatex
    rw [htexts]
    exact hfence
  · obtain ⟨part, hpart, hlatex⟩ := hall e he
    exact ⟨part, hlatex, hshows.trans (Format.shows_intercalate _ hpart)⟩

/-! ### Nodes -/

section

variable (hs : s.latex {} .builtin = .ok above) (ht : t.latex {} .builtin = .ok below)
include hs ht

/-- The scripts of a node stand behind it. -/
theorem Writes.of_body (h : e.latex {} .builtin = .ok (body ++ (scriptText .sub t below ++ scriptText .super s above)))
    (hparts : ∀ p ∈ parts, ∃ part, p.latex {} .builtin = .ok part ∧ Shows body part) : Writes e (parts ++ [s, t]) := by
  refine ⟨_, h, fun p hp => ?_⟩
  rcases List.mem_append.mp hp with hp | hp
  · obtain ⟨part, hpart, hshows⟩ := hparts p hp
    exact ⟨part, hpart, hshows.append_left _⟩
  · simp only [List.mem_cons, List.not_mem_nil, or_false] at hp
    rcases hp with rfl | rfl
    · exact ⟨above, hs, ((shows_scriptText .super hs).append_right _).append_right _⟩
    · exact ⟨below, ht, ((shows_scriptText .sub ht).append_left _).append_right _⟩

theorem Writes.of_leaf (h : e.latex {} .builtin = .ok (body ++ (scriptText .sub t below ++ scriptText .super s above))) :
    Writes e ([] ++ [s, t]) := .of_body hs ht h fun _ hp => absurd hp List.not_mem_nil

theorem writes_number {value : Datum} {text : String} (h : ({} : Format).number value = .ok text) :
    Writes (number value s t) ([] ++ [s, t]) :=
  .of_leaf hs ht (latex_number_scripts h (areScriptTexts hs ht))

theorem writes_symbol {name variant : Datum} {text : String} (h : symbolLatex .builtin name variant = .ok (.text text)) :
    Writes (symbol name variant s t) ([] ++ [s, t]) := by
  have hlatex : (symbol name variant s t).latex {} .builtin =
      .ok (text ++ (scriptText .sub t below ++ scriptText .super s above)) := by
    show guarded (do
      let text ← symbolLatex .builtin name variant
      text.append (← scriptsLatex _ _)) = _
    rw [h, show scriptsLatex _ _ = _ from areScriptTexts hs ht]
    rfl
  exact .of_leaf hs ht hlatex

theorem writes_text (content : Datum) : Writes (text content s t) ([] ++ [s, t]) := by
  have hlatex : (text content s t).latex {} .builtin =
      .ok ("\\text" ++ braced content.shown ++ (scriptText .sub t below ++ scriptText .super s above)) := by
    show guarded (do return "\\text" ++ braced content.shown ++ (← scriptsLatex _ _)) = _
    rw [show scriptsLatex _ _ = _ from areScriptTexts hs ht]
    rfl
  exact .of_leaf hs ht hlatex

theorem writes_error (placeholder message : Datum) : Writes (error placeholder message s t) ([] ++ [s, t]) := by
  have hlatex : (error placeholder message s t).latex {} .builtin =
      .ok ("\\bbox[#F56165]" ++ braced (placeholder.orElse "?").shown ++
        (scriptText .sub t below ++ scriptText .super s above)) := by
    show guarded (do return "\\bbox[" ++ _ ++ "]" ++ braced (placeholder.orElse "?").shown ++ (← scriptsLatex _ _)) = _
    rw [show scriptsLatex _ _ = _ from areScriptTexts hs ht]
    rfl
  exact .of_leaf hs ht hlatex

theorem writes_complex {re im : Datum} (hre : re.isNumeric = true) (him : im.isNumeric = true) :
    Writes (complex re im s t) ([] ++ [s, t]) := by
  obtain ⟨body, hbody⟩ := complexLatex_numbers hre him (!s.isMissing) (scriptText .sub t below ++ scriptText .super s above)
  refine .of_leaf hs ht (?_ : _ = Except.ok (body ++ _))
  show guarded (complexLatex {} re im (!s.isMissing) (scriptsLatex _ _)) = _
  rw [show scriptsLatex _ _ = _ from areScriptTexts hs ht, hbody]
  rfl

theorem writes_group {l r : String} {simple : Bool} (he : e.latex {} .builtin = .ok left) (hsimple : e.isSimple {} = .ok simple) :
    Writes (group e (.tuple [.text l, .text r]) s t) ([e] ++ [s, t]) := by
  obtain ⟨fencedText, hfence, hshows⟩ := shows_inFence l r left
  refine .of_body hs ht (latex_group_fence hsimple he hfence (areScriptTexts hs ht)) fun p hp => ?_
  obtain rfl := List.mem_singleton.mp hp
  refine ⟨left, he, ?_⟩
  split
  · exact .refl left
  · exact hshows

theorem writes_unary (op : String) (he : e.latex {} .builtin = .ok left) :
    Writes (unary (.text op) e s t) ([e] ++ [s, t]) := by
  have hlatex : (unary (.text op) e s t).latex {} .builtin =
      .ok (parenthesizedIf (!s.isMissing || !t.isMissing)
        (Format.join [(signCommands.lookup op).getD op, parenthesizedIf e.isPlainOperation left]) ++
          (scriptText .sub t below ++ scriptText .super s above)) := by
    show guarded (unaryLatex (.text op) e (!s.isMissing || !t.isMissing) (e.latex {} .builtin) (scriptsLatex _ _)) = _
    rw [he, show scriptsLatex _ _ = _ from areScriptTexts hs ht]
    rfl
  refine .of_body hs ht hlatex fun p hp => ?_
  obtain rfl := List.mem_singleton.mp hp
  have hoperand : Shows (parenthesizedIf p.isPlainOperation left) left := (Shows.refl left).parenthesizedIf _
  exact ⟨left, he, ((Format.shows_join (by simp)).trans hoperand).parenthesizedIf _⟩

theorem writes_root {index : Expr} {n : String} (he : e.latex {} .builtin = .ok left) (hindex : index.latex {} .builtin = .ok n) :
    Writes (root e index s t) ([e, index] ++ [s, t]) := by
  have hlatex : (root e index s t).latex {} .builtin =
      .ok ("\\sqrt" ++ (if index.isMissing then "" else "[" ++ n ++ "]") ++ braced left ++
        (scriptText .sub t below ++ scriptText .super s above)) := by
    show guarded (rootLatex (e.latex {} .builtin) (present index (index.latex {} .builtin)) (scriptsLatex _ _)) = _
    rw [he, hindex, show scriptsLatex _ _ = _ from areScriptTexts hs ht]
    unfold present
    cases index.isMissing <;> rfl
  refine .of_body hs ht hlatex fun p hp => ?_
  simp only [List.mem_cons, List.not_mem_nil, or_false] at hp
  rcases hp with rfl | rfl
  · exact ⟨left, he, (Shows.refl left).braced.append_right _⟩
  · refine ⟨n, hindex, (Shows.append_right ?_ _).append_left _⟩
    split
    · next hmissing =>
      rw [eq_missing hmissing] at hindex
      obtain rfl : "" = n := Except.ok.inj hindex
      exact .refl _
    · exact ((Shows.refl n).append_right _).append_left _

section

variable (hl : l.latex {} .builtin = .ok left) (hr : r.latex {} .builtin = .ok right)
include hl hr

theorem Writes.of_two (h : e.latex {} .builtin = .ok (body ++ (scriptText .sub t below ++ scriptText .super s above)))
    (hleft : Shows body left) (hright : Shows body right) : Writes e ([l, r] ++ [s, t]) := by
  refine .of_body hs ht h fun p hp => ?_
  simp only [List.mem_cons, List.not_mem_nil, or_false] at hp
  rcases hp with rfl | rfl
  · exact ⟨left, hl, hleft⟩
  · exact ⟨right, hr, hright⟩


theorem Writes.of_fraction (h : e.latex {} .builtin = guarded (fractionLatex (!s.isMissing || !t.isMissing) (l.latex {} .builtin)
    (r.latex {} .builtin) (scriptsLatex (present s (s.latex {} .builtin)) (present t (t.latex {} .builtin))))) :
    Writes e ([l, r] ++ [s, t]) := by
  have hlatex : e.latex {} .builtin =
      .ok (parenthesizedIf (!s.isMissing || !t.isMissing) ("\\frac" ++ braced left ++ braced right) ++
        (scriptText .sub t below ++ scriptText .super s above)) := by
    rw [h, hl, hr, show scriptsLatex _ _ = _ from areScriptTexts hs ht]
    rfl
  exact .of_two hs ht hl hr hlatex ((((Shows.refl left).braced.append_right _).append_left _).parenthesizedIf _)
    (((Shows.refl right).braced.append_right _).parenthesizedIf _)

theorem writes_fraction : Writes (fraction l r s t) ([l, r] ++ [s, t]) := .of_fraction hs ht hl hr rfl

theorem writes_binary (op : String) (hown : ∃ own, l.precedence .builtin = .ok own)
    (hown' : ∃ own, r.precedence .builtin = .ok own) :
    Writes (binary (.text op) l r s t) ([l, r] ++ [s, t]) := by
  obtain ⟨own, hown⟩ := hown
  obtain ⟨own', hown'⟩ := hown'
  have hnode : (binary (.text op) l r s t).latex {} .builtin = guarded (binaryLatex {} .builtin (.text op) l r
      (!s.isMissing || !t.isMissing) (l.latex {} .builtin) (r.latex {} .builtin)
      (scriptsLatex (present s (s.latex {} .builtin)) (present t (t.latex {} .builtin)))) := rfl
  by_cases hslash : (Datum.text op).isText "/" = true
  · refine .of_fraction hs ht hl hr (hnode.trans ?_)
    unfold binaryLatex
    rw [if_pos hslash]
  obtain ⟨around, haround⟩ : ∃ around, Catalog.builtin.precedenceOf (.text op) = .ok around := ⟨_, rfl⟩
  obtain ⟨text, htext, hleft, hright⟩ := shows_operation op (operandLatex own (around.getD 0) false (.text op) left)
    (operandLatex own' (around.getD 0) true (.text op) right)
  have hlatex : (binary (.text op) l r s t).latex {} .builtin =
      .ok (parenthesizedIf (!s.isMissing || !t.isMissing) text ++ (scriptText .sub t below ++ scriptText .super s above)) := by
    rw [hnode, show scriptsLatex _ _ = _ from areScriptTexts hs ht]
    unfold binaryLatex
    rw [if_neg hslash]
    simp only [bind, Except.bind, haround, hl, hr, hown, hown', htext]
    rfl
  exact .of_two hs ht hl hr hlatex
    ((hleft.trans ((Shows.refl left).operandLatex own (around.getD 0) false (.text op))).parenthesizedIf _)
    ((hright.trans ((Shows.refl right).operandLatex own' (around.getD 0) true (.text op))).parenthesizedIf _)

/-- **A power.** -/
theorem writes_power {simple : Bool} (hsimple : l.isSimple {} = .ok simple) (fence : Datum) :
    Writes (call "pow" (tuple [l, r]) fence s t) ([l, r] ++ [s, t]) := by
  refine .of_two hs ht hl hr (latex_power_scripts hsimple hl hr (areScriptTexts hs ht) fence) ?_ ?_
  · refine ((?_ : Shows _ left).append_left _).parenthesizedIf _
    split
    · exact .refl left
    · exact (Shows.refl left).parenthesized
  · exact (((Shows.refl right).braced.append_right _).append_right _).parenthesizedIf _

end

/-! ### Functions -/

/-- A function is written by its template.  A backslash as a name takes the place of the superscript. -/
theorem Writes.of_call {name template argument : String}
    (htemplate : Catalog.builtin.functionTemplateOf (.text name) = .ok (.text template)) (hslash : name = "\\" → s = missing)
    (h : e.latex {} .builtin = .ok (callText template argument (scriptText .super s above) (scriptText .sub t below)))
    (hparts : ∀ p ∈ parts, ∃ part, p.latex {} .builtin = .ok part ∧ Shows argument part) : Writes e (parts ++ [s, t]) := by
  obtain ⟨template', htemplate', hplaces, hsuper⟩ := Format.functionTemplateOf_places name
  obtain rfl : template = template' := Datum.text.inj (Except.ok.inj (htemplate.symm.trans htemplate'))
  obtain ⟨hargument, hbelow, habove⟩ := hplaces.shows_callText argument (scriptText .super s above) (scriptText .sub t below)
  refine ⟨_, h, fun p hp => ?_⟩
  rcases List.mem_append.mp hp with hp | hp
  · obtain ⟨part, hpart, hshows⟩ := hparts p hp
    exact ⟨part, hpart, hargument.trans hshows⟩
  · simp only [List.mem_cons, List.not_mem_nil, or_false] at hp
    rcases hp with rfl | rfl
    · by_cases hname : name = "\\"
      · rw [hslash hname] at hs ⊢
        exact ⟨above, hs, Except.ok.inj hs ▸ .empty _⟩
      · exact ⟨above, hs, (habove (hsuper hname)).trans (shows_scriptText .super hs)⟩
    · exact ⟨below, ht, hbelow.trans (shows_scriptText .sub ht)⟩

/-- **A function of one argument**, which has to tell a loose function whether it is bare. -/
theorem writes_call {name l r : String} (hone : ∀ items, e ≠ tuple items) (he : e.latex {} .builtin = .ok left)
    (hbare : name ∈ looseFunctions → ∃ bare, e.isBareArgument {} = .ok bare) (hslash : name = "\\" → s = missing) :
    Writes (call (.text name) e (.tuple [.text l, .text r]) s t) ([e] ++ [s, t]) := by
  obtain ⟨template, htemplate, -⟩ := Format.functionTemplateOf_places name
  obtain ⟨argument, hargument, hshows⟩ := shows_argument l r hbare template left
  refine .of_call hs ht htemplate hslash
    (latex_call_scripts hone htemplate (he ▸ hargument) (scriptsLatex_super hs) (scriptsLatex_sub ht)) fun p hp => ?_
  obtain rfl := List.mem_singleton.mp hp
  exact ⟨left, he, hshows⟩

/-- **A function of several arguments.** -/
theorem writes_several {name l r : String} {items : List Expr} (hitems : ∀ e ∈ items, ∃ text, e.latex {} .builtin = .ok text)
    (hpower : name = "pow" → ∀ base exponent, items ≠ [base, exponent]) (hslash : name = "\\" → s = missing) :
    Writes (call (.text name) (tuple items) (.tuple [.text l, .text r]) s t) (items ++ [s, t]) := by
  obtain ⟨template, htemplate, -⟩ := Format.functionTemplateOf_places name
  obtain ⟨argument, hargument, hshows⟩ := shows_arguments l r hitems
  have hparts : powerParts? (.text name) (tuple items) (latexEach {} .builtin items) = none := by
    unfold powerParts?
    split
    · next hbase _ =>
      rw [if_neg]
      exact fun hname => hpower (eq_of_beq hname) _ _ (tuple.inj hbase)
    · rfl
  exact .of_call hs ht htemplate hslash
    (latex_several_scripts hparts htemplate hargument (scriptsLatex_super hs) (scriptsLatex_sub ht)) hshows

end

end Expr

end Formula
