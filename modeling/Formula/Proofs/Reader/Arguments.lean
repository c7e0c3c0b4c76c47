import Formula.Expr.Query
import Formula.Proofs.Reader.FenceForms
import Formula.Proofs.Reader.Fences

/-!
# Arguments of a call

The parentheses behind `f` or `g` hold a list of arguments, with commas between them.  `CommaRows` says what the arguments
are, and the reader finds them: it looks for the end of the list and for the commas by two counts of brackets, which agree
on every row that does not close more brackets than it opens.

The main results are that a call has one argument for every row between the commas, whether its parentheses are two atoms
or one (`ofAtoms_call_arguments`), and that a sequence of nothing but such a name and parentheses is a call
(`ofAtoms_call`).
-/

namespace Formula

open Atom Expr Outcome Grammar

/-! ### Rows between commas -/

/-- The spelling can be looked up, as every text can. -/
def Atom.IsSpelled (a : Atom) : Prop := ∃ d k, a.text = .ok d ∧ d.key = .ok k

theorem Atom.IsSpelled.keyed {a : Atom} (h : a.IsSpelled) {F : Fault → Prop} : a.Keyed F := by
  obtain ⟨d, k, htext, hkey⟩ := h
  exact .of_eq_ok htext (.of_eq_ok hkey trivial)

/-- No comma of a row that starts within `depth` brackets stands outside of all brackets. -/
def HidesCommas (depth : Nat) (row : List Atom) : Prop :=
  ∀ front a behind, row = front ++ a :: behind → levelAfter depth front = some 0 → a.type = .punctuation →
    a.spelled "," = false

/-- A row that starts within `depth` brackets closes them and all of its own, and no comma of it stands outside of all
brackets. -/
structure IsArgument (depth : Nat) (row : List Atom) : Prop where
  balanced : levelAfter depth row = some 0
  commas : HidesCommas depth row

/-- The rows are what stands between the commas outside of all brackets. -/
inductive CommaRows : List (List Atom) → List Atom → Prop
  | last {row : List Atom} : IsArgument 0 row → CommaRows [row] row
  | cons {row more : List Atom} {rows : List (List Atom)} {comma : Atom} : IsArgument 0 row →
      comma.type = .punctuation → comma.text = .ok (.text ",") → CommaRows rows more →
      CommaRows (row :: rows) (row ++ comma :: more)

theorem levelBehind_punctuation {a : Atom} (h : a.type = .punctuation) (depth : Nat) : levelBehind depth a = some depth := by
  unfold levelBehind
  rw [if_neg (by rw [h]; decide), if_neg (by rw [h]; decide)]

/-- Spaces are no brackets. -/
theorem levelAfter_unspaced (row : List Atom) : ∀ depth, levelAfter depth (unspaced row) = levelAfter depth row := by
  induction row with
  | nil => exact fun _ => rfl
  | cons a row ih =>
    intro depth
    by_cases hs : a.type = .spacing
    · have hbehind : levelBehind depth a = some depth := by
        unfold levelBehind
        rw [if_neg (by rw [hs]; decide), if_neg (by rw [hs]; decide)]
      rw [unspaced_cons_of_spacing hs, levelAfter, hbehind]
      exact ih depth
    · rw [unspaced_cons_of_ne hs, levelAfter, levelAfter]
      exact Option.bind_congr fun next _ => ih next

theorem CommaRows.balanced {rows : List (List Atom)} {body : List Atom} (h : CommaRows rows body) :
    levelAfter 0 body = some 0 := by
  induction h with
  | last hrow => exact hrow.balanced
  | cons hrow hcomma _ _ ih =>
    rw [levelAfter_append, hrow.balanced]
    show (levelBehind 0 _).bind _ = _
    rw [levelBehind_punctuation hcomma]
    exact ih

theorem hidesCommas_nil (depth : Nat) : HidesCommas depth [] := fun front a behind heq => by cases front <;> cases heq

/-- A row hides its commas if its first atom is none that stands outside of all brackets, and the atoms behind it hide
theirs. -/
theorem hidesCommas_cons {depth : Nat} {a : Atom} {row : List Atom} : HidesCommas depth (a :: row) ↔
    (depth = 0 → a.type = .punctuation → a.spelled "," = false) ∧
      ∀ next, levelBehind depth a = some next → HidesCommas next row := by
  constructor
  · intro h
    refine ⟨fun hzero htype => h [] a row rfl (by rw [hzero]; rfl) htype, fun next hnext front b behind heq hfront => ?_⟩
    refine h (a :: front) b behind (by rw [heq]; rfl) ?_
    rw [levelAfter, hnext]
    exact hfront
  · rintro ⟨hfirst, hrest⟩ front b behind heq hfront htype
    cases front with
    | nil =>
      cases heq
      exact hfirst (Option.some.inj hfront) htype
    | cons f front =>
      cases heq
      obtain ⟨next, hnext, hlevel⟩ := Option.bind_eq_some_iff.mp hfront
      exact hrest next hnext front b behind rfl hlevel htype

/-- A row with one more atom hides its commas if the atom is no comma outside of all brackets. -/
theorem HidesCommas.concat {depth : Nat} {row : List Atom} (h : HidesCommas depth row) {a : Atom}
    (ha : levelAfter depth row = some 0 → a.type = .punctuation → a.spelled "," = false) : HidesCommas depth (row ++ [a]) := by
  intro front b behind heq hfront htype
  rcases List.eq_nil_or_concat behind with rfl | ⟨more, x, rfl⟩
  · obtain ⟨rfl, hb⟩ := List.append_inj' heq rfl
    cases hb
    exact ha hfront htype
  · have heq : row ++ [a] = (front ++ b :: more) ++ [x] := by
      rw [heq, List.concat_eq_append, List.append_assoc]
      rfl
    exact h front b more (List.append_inj' heq rfl).1 hfront htype

/-! ### Finding the commas -/

namespace Expr

/-- An atom that is no comma outside of all brackets ends no argument. -/
theorem endsPart_false {depth next : Nat} {a : Atom} (hnext : levelBehind depth a = some next) (ha : a.IsSpelled)
    (hcomma : depth = 0 → a.type = .punctuation → a.spelled "," = false) :
    endsPart depth a = .ok false ∧ depthBehind depth a = next := by
  have hdepth := depthBehind_eq hnext 0
  rw [Int.zero_add, Int.zero_add] at hdepth
  refine ⟨?_, hdepth⟩
  unfold endsPart
  split
  · rename_i h
    rw [levelBehind_punctuation h.2] at hnext
    cases hnext
    obtain ⟨d, k, htext, -⟩ := ha
    have hspelled := hcomma (by have := h.1; omega) h.2
    rw [Atom.spelled, htext] at hspelled
    rw [htext]
    exact congrArg Except.ok hspelled
  · rfl

/-- Only a comma outside of all brackets ends an argument. -/
theorem of_endsPart {depth : Int} {a : Atom} (h : endsPart depth a = .ok true) :
    (depthBehind depth a = 0 ∧ a.type = .punctuation) ∧ a.text = .ok (.text ",") := by
  unfold endsPart at h
  split at h
  · rename_i hpoint
    obtain ⟨d, htext, hd⟩ := map_eq_ok.mp h
    exact ⟨hpoint, Datum.eq_text_of_isText hd ▸ htext⟩
  · cases h

/-- A mark outside of all brackets that ends no argument is no comma. -/
theorem spelled_of_endsPart {depth : Int} {a : Atom} (h : endsPart depth a = .ok false) (hdepth : depthBehind depth a = 0)
    (htype : a.type = .punctuation) : a.spelled "," = false := by
  rw [endsPart, if_pos ⟨hdepth, htype⟩] at h
  obtain ⟨d, htext, hd⟩ := map_eq_ok.mp h
  rw [Atom.spelled, htext]
  exact hd

/-- An argument is read up to its end. -/
theorem splitAtCommas_argument {row : List Atom} : ∀ {depth : Nat} (part rest : List Atom), IsArgument depth row →
    (∀ a ∈ row, a.IsSpelled) → splitAtCommas depth part (row ++ rest) = splitAtCommas 0 (row.reverse ++ part) rest := by
  induction row with
  | nil =>
    intro depth part rest h _
    have : depth = 0 := Option.some.inj h.balanced
    rw [this]
    rfl
  | cons a row ih =>
    intro depth part rest h hspelled
    obtain ⟨next, hnext, hbalanced⟩ := Option.bind_eq_some_iff.mp h.balanced
    obtain ⟨hfirst, hcommas⟩ := hidesCommas_cons.mp h.commas
    obtain ⟨hends, hdepth⟩ := endsPart_false hnext (hspelled a List.mem_cons_self) hfirst
    have hrow : IsArgument next row := ⟨hbalanced, hcommas next hnext⟩
    rw [List.cons_append, splitAtCommas_step, hends, hdepth]
    show splitAtCommas next (a :: part) (row ++ rest) = _
    rw [ih _ _ hrow fun b hb => hspelled b (List.mem_cons_of_mem _ hb), List.reverse_cons, List.append_assoc]
    rfl

/-- **The rows between the commas are found.** -/
theorem splitAtCommas_rows {rows : List (List Atom)} {body : List Atom} (h : CommaRows rows body)
    (hspelled : ∀ a ∈ body, a.IsSpelled) : splitAtCommas 0 [] body = .ok rows := by
  induction h with
  | @last row hrow =>
    have hsplit := splitAtCommas_argument [] [] hrow hspelled
    rw [List.append_nil, List.append_nil] at hsplit
    refine hsplit.trans ?_
    rw [splitAtCommas, List.reverse_reverse]
  | @cons row more rows comma hrow htype htext _ ih =>
    have hsplit := splitAtCommas_argument [] (comma :: more) hrow fun a ha => hspelled a (List.mem_append_left _ ha)
    have hdepth : depthBehind 0 comma = 0 := by simp [depthBehind, htype]
    have hends : endsPart 0 comma = .ok true := by
      unfold endsPart
      rw [if_pos ⟨hdepth, htype⟩, htext]
      rfl
    refine hsplit.trans ?_
    rw [splitAtCommas_step, hends, hdepth, List.append_nil]
    show (do return row.reverse.reverse :: (← splitAtCommas 0 [] more)) = _
    rw [ih fun a ha => hspelled a (List.mem_append_right _ (List.mem_cons_of_mem _ ha)), List.reverse_reverse]
    rfl

/-- What is found in a row that closes all its brackets are the rows between its commas. -/
theorem commaRows_of_splitAtCommas {row : List Atom} : ∀ {depth : Nat} {part : List Atom} {rows : List (List Atom)},
    splitAtCommas depth part row = .ok rows → levelAfter depth row = some 0 → levelAfter 0 part.reverse = some depth →
    HidesCommas 0 part.reverse → CommaRows rows (part.reverse ++ row) := by
  induction row with
  | nil =>
    intro depth part rows h hbalanced hpart hcommas
    rw [splitAtCommas] at h
    cases h
    obtain rfl : depth = 0 := Option.some.inj hbalanced
    rw [List.append_nil]
    exact .last ⟨hpart, hcommas⟩
  | cons a row ih =>
    intro depth part rows h hbalanced hpart hcommas
    obtain ⟨next, hnext, hbalanced⟩ := Option.bind_eq_some_iff.mp hbalanced
    have hdepth := depthBehind_eq hnext 0
    rw [Int.zero_add, Int.zero_add] at hdepth
    rw [splitAtCommas_step] at h
    obtain ⟨ends, hends, h⟩ := bind_eq_ok.mp h
    rw [hdepth] at h
    cases ends with
    | true =>
      obtain ⟨more, hmore, h⟩ := bind_eq_ok.mp h
      cases h
      obtain ⟨⟨hzero, htype⟩, htext⟩ := of_endsPart hends
      rw [hdepth] at hzero
      rw [levelBehind_punctuation htype] at hnext
      cases hnext
      obtain rfl : depth = 0 := by omega
      have hrest := ih hmore hbalanced rfl (hidesCommas_nil 0)
      exact .cons ⟨hpart, hcommas⟩ htype htext hrest
    | false =>
      have hreverse : (a :: part).reverse = part.reverse ++ [a] := List.reverse_cons
      have hlevel : levelAfter 0 (a :: part).reverse = some next := by
        rw [hreverse, levelAfter_append, hpart]
        show (levelBehind depth a).bind _ = _
        rw [hnext]
        rfl
      have hrows := ih h hbalanced hlevel ?_
      · rwa [hreverse, List.append_assoc] at hrows
      · rw [hreverse]
        refine hcommas.concat fun hzero htype => ?_
        rw [hpart] at hzero
        cases hzero
        rw [levelBehind_punctuation htype] at hnext
        cases hnext
        exact spelled_of_endsPart hends hdepth htype

end Expr

/-! ### Reading a call -/

namespace Grammar

variable {c : Catalog}

/-- Arguments are read one by one, each as a sequence of its own. -/
theorem parts_eq_ok_iff {rows : List (List Atom)} {items : List Expr} :
    parts c rows = .ok items ↔ List.Forall₂ (fun row e => ofAtoms c row = .ok e) rows items := by
  induction rows generalizing items with
  | nil =>
    rw [parts_nil, List.forall₂_nil_left_iff]
    exact ⟨fun h => (Except.ok.inj h).symm, fun h => congrArg Except.ok h.symm⟩
  | cons row rows ih =>
    rw [parts_cons, nested_eq, ← ofAtoms_eq, List.forall₂_cons_left_iff]
    constructor
    · intro h
      obtain ⟨e, he, h⟩ := bind_eq_ok.mp h
      obtain ⟨more, hmore, h⟩ := bind_eq_ok.mp h
      cases h
      exact ⟨e, more, he, ih.mp hmore, rfl⟩
    · rintro ⟨e, more, he, hmore, rfl⟩
      rw [Option.getD_some, he]
      show (parts c rows >>= _) = _
      rw [ih.mpr hmore]
      rfl

/-- Reads the arguments of a list. -/
def arguments (c : Catalog) (inner : List Atom) : Outcome (List Expr) := do
  parts c (← splitAtCommas 0 [] inner)

/-- The spaces of an argument are passed over. -/
theorem parts_unspaced (rows : List (List Atom)) : parts c (rows.map unspaced) = parts c rows := by
  induction rows with
  | nil => rfl
  | cons row rows ih =>
    have hrow : nested c (some (unspaced row)) = nested c (some row) := by
      rw [nested_eq, nested_eq, Option.getD_some, Option.getD_some, whole_eq, whole_eq, unspaced_unspaced]
    rw [List.map_cons, parts_cons, parts_cons, ih, hrow]

theorem arguments_unspaced (inner : List Atom) : arguments c (unspaced inner) = arguments c inner := by
  have hsplit : splitAtCommas 0 [] (unspaced inner) = (splitAtCommas 0 [] inner).map (List.map unspaced) :=
    splitAtCommas_unspaced inner 0 []
  unfold arguments
  rw [hsplit]
  cases splitAtCommas 0 [] inner with
  | error f => rfl
  | ok rows => exact parts_unspaced rows

/-- The rows between the commas are the arguments. -/
theorem arguments_rows {rows : List (List Atom)} {body : List Atom} (h : CommaRows rows body)
    (hspelled : ∀ a ∈ body, a.IsSpelled) : arguments c body = parts c rows := by
  unfold arguments
  rw [splitAtCommas_rows h hspelled]
  rfl

/-- The arguments of a row that closes all its brackets are what stands between its commas. -/
theorem of_arguments {body : List Atom} {items : List Expr} (h : arguments c body = .ok items)
    (hbody : levelAfter 0 body = some 0) :
    ∃ rows, CommaRows rows body ∧ List.Forall₂ (fun row e => ofAtoms c row = .ok e) rows items := by
  obtain ⟨rows, hrows, hparts⟩ := bind_eq_ok.mp h
  have hcommas : CommaRows rows (([] : List Atom).reverse ++ body) :=
    commaRows_of_splitAtCommas (show splitAtCommas ((0 : Nat) : Int) [] body = .ok rows from hrows) hbody rfl (hidesCommas_nil 0)
  exact ⟨rows, hcommas, parts_eq_ok_iff.mp hparts⟩

/-- Behind a bracket nothing is a postfix mark. -/
theorem marks_bracket {b : Atom} (hb : IsBracket b) (e : Expr) (rest : List Atom) :
    marks c e (b :: rest) =
      (startsWithDigraph? Glyph.postfixDigraphs (b :: rest)).map fun _ => (⟨b :: rest, e⟩ : Reading) := by
  have hnone := startsWithDigraph?_bracket hb (fun a (_ : a ∈ rest) => keyed_true a) Glyph.postfixDigraphs
  rw [marks_cons]
  cases hfound : startsWithDigraph? Glyph.postfixDigraphs (b :: rest) with
  | error f => rfl
  | ok found =>
    rw [hfound] at hnone
    cases (show found = none from hnone)
    show (b.postfixFunction? >>= _) = _
    rw [hb.postfixFunction?]
    rfl

/-- In front of a bracket a letter is a symbol. -/
theorem operand_letter_bracket {d : Char} (hd : d.isAlpha = true) (closers : List Closer) {b : Atom} (hb : IsBracket b)
    (rest : List Atom) :
    operand .builtin closers (ofCharacter d) (b :: rest) = marks .builtin (ofSymbol (.text d.toString) .null) (b :: rest) := by
  have hd' := isLetterOrDigit_of_isAlpha hd
  have hplain : operand .builtin closers (ofCharacter d) (b :: rest) = marked .builtin (ofCharacter d) (b :: rest) := by
    refine operand_symbol (startsNoun_character hd' none none) rfl (startsNumber_letter (isLetter_of_isAlpha hd) none none _)
      (isFunction_ofCharacter hd') (precedence_ofCharacter hd') ?_
    rintro _ ⟨⟩
    obtain ⟨t, htext, -⟩ := hb.text
    exact ⟨t, htext⟩
  have hatom : atom .builtin (ofCharacter d) = .ok (ofSymbol (.text d.toString) .null) := by
    rw [atom_eq]
    exact symbol_letter (isLetter_of_isAlpha hd) none none
  have hplaceholder : (b.isPlaceholder && b.hasScripts) = false := by rw [hb.isPlaceholder, Bool.false_and]
  rw [hplain, marked_eq, hatom]
  show (scripts .builtin (some (ofCharacter d)) _ (b :: rest) >>= _) = _
  rw [scripts_some, if_neg (by exact Bool.false_ne_true), placeholders, hplaceholder]
  rfl

/-- A bracket that opens or holds a fence starts an operand. -/
theorem startsOperand_bracket {b : Atom} (hb : IsBracket b) (hopen : b.type = .opening ∨ b.type = .fenced) :
    b.startsOperand c [] = .ok true := by
  have htype : operandTypes.contains b.type = true := by rcases hopen with h | h <;> (rw [h]; rfl)
  unfold Atom.startsOperand
  rw [hb.precedence]
  show (if operandTypes.contains b.type = true then _ else _) = _
  rw [if_pos htype, hb.isPlaceholder]
  rfl

theorem isCallName {d : Char} (hd : d.toString ∈ callNames) : d = 'f' ∨ d = 'g' := by
  simp only [callNames, List.mem_cons, List.not_mem_nil, or_false] at hd
  exact hd.imp (fun h => by simpa [Char.toString] using congrArg String.toList h)
    fun h => by simpa [Char.toString] using congrArg String.toList h

/-- A name takes the list of arguments behind it. -/
theorem neighbours_callName {d : Char} (hd : d.toString ∈ callNames) {b : Atom} {rest inner : List Atom} {last : Atom}
    (hb : IsBracket b) (hopen : b.type = .opening ∨ b.type = .fenced)
    (hgroup : callArguments? (b :: rest) = .ok (some (inner, last, []))) (hbare : last.hasScripts = false) :
    neighbours .builtin [] (ofSymbol (.text d.toString) .null) (b :: rest) = (arguments .builtin inner).map fun items =>
      ⟨[], call (.text d.toString) (argumentsOf items) parentheses missing missing⟩ := by
  have hname : callName? (ofSymbol (.text d.toString) .null) = .ok true :=
    congrArg Except.ok (List.contains_iff_mem.mpr hd)
  rw [neighbours_cons, startsOperand_bracket hb hopen]
  show (application .builtin _ (b :: rest) >>= _) = _
  rw [application_eq, hname, hgroup]
  unfold arguments
  show ((splitAtCommas 0 [] inner >>= _) >>= _) = _
  cases splitAtCommas 0 [] inner with
  | error f => rfl
  | ok rows =>
    show ((parts .builtin rows >>= _) >>= _) = (parts .builtin rows).map _
    cases parts .builtin rows with
    | error f => rfl
    | ok items =>
      show ((scripts .builtin (some last) _ [] >>= _) >>= _) = _
      rw [scripts_some, hbare]
      show ((marks .builtin _ [] >>= _) >>= _) = _
      rw [marks_nil]
      exact neighbours_nil .builtin [] _

/-- Behind a name a list of arguments that ends the row makes a call. -/
theorem whole_callName {d : Char} (hd : d.toString ∈ callNames) {b : Atom} {rest inner : List Atom} {last : Atom}
    (hb : IsBracket b) (hopen : b.type = .opening ∨ b.type = .fenced) (hrest : ∀ a ∈ rest, a.type ≠ .spacing)
    (hgroup : callArguments? (b :: rest) = .ok (some (inner, last, []))) (hbare : last.hasScripts = false) :
    whole .builtin (ofCharacter d :: b :: rest) = (do
      let _ ← startsWithDigraph? Glyph.postfixDigraphs (b :: rest)
      let items ← arguments .builtin inner
      return call (.text d.toString) (argumentsOf items) parentheses missing missing) := by
  have hspaces : unspaced (ofCharacter d :: b :: rest) = ofCharacter d :: b :: rest := by
    refine unspaced_eq_self fun a ha => ?_
    rcases List.mem_cons.mp ha with rfl | ha
    · exact fun h => by cases h
    rcases List.mem_cons.mp ha with rfl | ha
    · rcases hopen with h | h <;> (rw [h]; decide)
    · exact hrest a ha
  have halpha : d.isAlpha = true := by
    rcases isCallName hd with rfl | rfl <;> rfl
  rw [whole_eq, hspaces, sequence_eq, primary_cons]
  show (((operand .builtin [] (ofCharacter d) (b :: rest) >>= _) >>= _) >>= _) = _
  rw [operand_letter_bracket halpha [] hb, marks_bracket hb]
  cases startsWithDigraph? Glyph.postfixDigraphs (b :: rest) with
  | error f => rfl
  | ok found =>
    show ((neighbours .builtin [] (ofSymbol (.text d.toString) .null) (b :: rest) >>= _) >>= _) = _
    rw [neighbours_callName hd hb hopen hgroup hbare]
    show _ = (arguments .builtin inner >>= _)
    cases arguments .builtin inner with
    | error f => rfl
    | ok items =>
      show ((expression .builtin [] 0 _ [] >>= _) >>= _) = _
      rw [expression_nil]
      show (stray .builtin [] _ [] >>= _) = _
      rw [stray_nil]
      rfl

end Grammar

/-! ### Parentheses in their two forms -/

/-- Two atoms are parentheses. -/
structure AreParentheses (first last : Atom) : Prop where
  opening : first.type = .opening ∧ first.text = .ok (.text "(")
  closing : last.type = .closing ∧ last.text = .ok (.text ")")

namespace AreParentheses

variable {first last : Atom} {body : List Atom}

theorem isBracket (h : AreParentheses first last) : IsBracket first := ⟨.inl h.opening.1, "(", h.opening.2, by decide⟩

theorem callArguments? (h : AreParentheses first last) (hbody : levelAfter 0 body = some 0) :
    Expr.callArguments? (first :: (body ++ [last])) = .ok (some (body, last, [])) := by
  rw [Expr.callArguments?, h.opening.1, h.opening.2]
  show Except.ok (splitAtCloser 0 (body ++ [last])) = _
  rw [splitAtCloser_through hbody, splitAtCloser_closing h.closing.1]
  show Except.ok (some (body ++ [], last, [])) = _
  rw [List.append_nil]

/-- A name and parentheses behind it are a call. -/
theorem whole_call (h : AreParentheses first last) (hbare : last.hasScripts = false) (hbody : levelAfter 0 body = some 0)
    {d : Char} (hd : d.toString ∈ callNames) :
    Grammar.whole .builtin (ofCharacter d :: first :: (body ++ [last])) = (do
      let _ ← startsWithDigraph? Glyph.postfixDigraphs (first :: (unspaced body ++ [last]))
      let items ← Grammar.arguments .builtin body
      return call (.text d.toString) (argumentsOf items) parentheses missing missing) := by
  have hspaces : unspaced (ofCharacter d :: first :: (body ++ [last])) =
      ofCharacter d :: first :: (unspaced body ++ [last]) := by
    have hfirst : unspaced [ofCharacter d, first] = [ofCharacter d, first] := unspaced_eq_self fun a ha => by
      simp only [List.mem_cons, List.not_mem_nil, or_false] at ha
      rcases ha with rfl | rfl
      · exact fun h => by cases h
      · rw [h.opening.1]
        decide
    have hlast : unspaced [last] = [last] := unspaced_singleton (by simp [h.closing.1])
    rw [show ofCharacter d :: first :: (body ++ [last]) = [ofCharacter d, first] ++ (body ++ [last]) from rfl,
      unspaced_append, unspaced_append, hfirst, hlast]
    rfl
  have hwhole : Grammar.whole .builtin (ofCharacter d :: first :: (body ++ [last])) =
      Grammar.whole .builtin (ofCharacter d :: first :: (unspaced body ++ [last])) := by
    rw [Grammar.whole_eq, Grammar.whole_eq, hspaces, ← hspaces, unspaced_unspaced]
  have hrest : ∀ a ∈ unspaced body ++ [last], a.type ≠ .spacing := by
    intro a ha
    rcases List.mem_append.mp ha with ha | ha
    · exact ne_spacing_of_mem_unspaced ha
    · rw [List.mem_singleton.mp ha, h.closing.1]
      decide
  rw [hwhole, Grammar.whole_callName hd h.isBracket (.inl h.opening.1) hrest
    (h.callArguments? (by rw [levelAfter_unspaced, hbody])) hbare, Grammar.arguments_unspaced]

end AreParentheses

theorem IsFence.areParentheses {body : List Atom} {first last one : Atom} (h : IsFence "(" ")" body first last one) :
    AreParentheses first last := ⟨h.opening, h.closing⟩

/-- A name and one atom that holds the arguments are a call. -/
theorem IsFence.whole_call {body : List Atom} {first last one : Atom} (h : IsFence "(" ")" body first last one)
    (hbare : one.hasScripts = false) {d : Char} (hd : d.toString ∈ callNames) :
    Grammar.whole .builtin [ofCharacter d, one] = (do
      let items ← Grammar.arguments .builtin body
      return call (.text d.toString) (argumentsOf items) parentheses missing missing) := by
  have hone : IsBracket one := ⟨.inr (.inr h.fenced.1), "", h.fenced.2.1, by decide⟩
  have hgroup : callArguments? [one] = .ok (some (body, one, [])) := by
    rw [callArguments?, h.fenced.1, h.delimiters.1, h.delimiters.2, h.fenced.2.2]
    rfl
  rw [Grammar.whole_callName hd hone (.inr h.fenced.1) (fun a ha => by cases ha) hgroup hbare]
  rfl

/-- In parentheses whose spellings can be looked up no digraph begins. -/
theorem AreParentheses.digraph {first last : Atom} (h : AreParentheses first last) {body : List Atom}
    (hspelled : ∀ a ∈ body, a.IsSpelled) (names : List String) :
    startsWithDigraph? names (first :: (unspaced body ++ [last])) = .ok none := by
  have hkeyed : ∀ a ∈ unspaced body ++ [last], a.Keyed fun _ => False := by
    intro a ha
    rcases List.mem_append.mp ha with ha | ha
    · exact (hspelled a (List.mem_filter.mp ha).1).keyed
    · rw [List.mem_singleton.mp ha]
      exact keyed_of_text h.closing.2
  obtain ⟨_, hfound, rfl⟩ := (startsWithDigraph?_bracket h.isBracket hkeyed names).exists_ok
  exact hfound

/-- Several expressions that are there are the arguments as they are. -/
theorem argumentsOf_several {items : List Expr} (htwo : 2 ≤ items.length) (h : ∀ e ∈ items, e.isMissing = false) :
    argumentsOf items = tuple items := by
  have hfilter : items.filter (fun e => !e.isMissing) = items := List.filter_eq_self.mpr fun e he => by rw [h e he]; rfl
  rcases items with _ | ⟨e, _ | ⟨e', rest⟩⟩
  · exact absurd htwo (by decide)
  · exact absurd htwo (by simp)
  · exact congrArg tuple hfilter

/-- Rows with something to read have expressions. -/
theorem isMissing_of_filled {c : Catalog} {rows : List (List Atom)} {items : List Expr}
    (hitems : List.Forall₂ (fun row e => ofAtoms c row = .ok e) rows items)
    (hfilled : ∀ row ∈ rows, ∃ a ∈ row, a.type ≠ .spacing) : ∀ e ∈ items, e.isMissing = false := by
  induction hitems with
  | nil => exact fun e he => by cases he
  | @cons row e rows items hread _ ih =>
    refine List.forall_mem_cons.mpr ⟨?_, ih fun row hrow => hfilled row (List.mem_cons_of_mem _ hrow)⟩
    obtain ⟨a, ha, htype⟩ := hfilled row List.mem_cons_self
    cases e with
    | missing =>
      have hnil := (ofAtoms_missing_iff c row).mp hread
      exact absurd (List.mem_filter.mpr ⟨ha, decide_eq_true htype⟩) (hnil ▸ List.not_mem_nil)
    | _ => rfl

/-- **The arguments of a call are what stands between its commas.**  Parentheses behind `f` or `g` hold two or more
rows, with a comma between each two of them: rows with something to read, whose brackets are all closed, and with no comma
outside of their brackets.  Then the expression is the call whose arguments are the expressions of the rows, whether the
parentheses are two atoms or one. -/
theorem ofAtoms_call_arguments {d : Char} (hd : d.toString ∈ callNames) {rows : List (List Atom)} {body : List Atom}
    {first last one : Atom} (hfence : IsFence "(" ")" body first last one) (hbare : one.hasScripts = false)
    (hrows : CommaRows rows body) (htwo : 2 ≤ rows.length) (hfilled : ∀ row ∈ rows, ∃ a ∈ row, a.type ≠ .spacing)
    (hspelled : ∀ a ∈ body, a.IsSpelled) {items : List Expr}
    (hitems : List.Forall₂ (fun row e => ofAtoms .builtin row = .ok e) rows items) :
    ofAtoms .builtin (ofCharacter d :: first :: (body ++ [last])) =
        .ok (call (.text d.toString) (tuple items) parentheses missing missing) ∧
      ofAtoms .builtin [ofCharacter d, one] = .ok (call (.text d.toString) (tuple items) parentheses missing missing) := by
  have harguments : Grammar.arguments .builtin body = .ok items := by
    rw [Grammar.arguments_rows hrows hspelled]
    exact Grammar.parts_eq_ok_iff.mpr hitems
  have hseveral := argumentsOf_several (hitems.length_eq ▸ htwo) (isMissing_of_filled hitems hfilled)
  have hlast : last.hasScripts = false := by
    rw [Atom.hasScripts, ← hfence.scripts.1, ← hfence.scripts.2]
    exact hbare
  have hparentheses := hfence.areParentheses
  rw [ofAtoms_eq, ofAtoms_eq, hparentheses.whole_call hlast hrows.balanced hd, hparentheses.digraph hspelled,
    hfence.whole_call hbare hd, harguments]
  show Except.ok (call _ (argumentsOf items) _ _ _) = _ ∧ Except.ok (call _ (argumentsOf items) _ _ _) = _
  rw [hseveral]
  exact ⟨rfl, rfl⟩

/-- The call `g(x, y)`. -/
def innerCall : List Atom := [ofCharacter 'g', openingAtom, ofCharacter 'x', { type := .punctuation, value := .text "," },
  ofCharacter 'y', closingAtom]

/-- The call `f(g(x, y), z)` with its parentheses as two atoms and as one. -/
theorem ofAtoms_call_arguments_nested : ∃ rows body first last one, IsFence "(" ")" body first last one ∧
    one.hasScripts = false ∧ CommaRows rows body ∧ 2 ≤ rows.length ∧ (∀ row ∈ rows, ∃ a ∈ row, a.type ≠ .spacing) ∧
      (∀ a ∈ body, a.IsSpelled) ∧ ∃ items, List.Forall₂ (fun row e => ofAtoms .builtin row = .ok e) rows items ∧
        ofAtoms .builtin (ofCharacter 'f' :: first :: (body ++ [last])) =
            .ok (call (.text "f") (tuple items) parentheses missing missing) ∧
          ofAtoms .builtin [ofCharacter 'f', one] = .ok (call (.text "f") (tuple items) parentheses missing missing) := by
  let body : List Atom := innerCall ++ { type := .punctuation, value := .text "," } :: [ofCharacter 'z']
  have hfence : IsFence "(" ")" body openingAtom closingAtom
      { type := .fenced, body := some body, leftDelim := .text "(", rightDelim := .text ")" } :=
    ⟨rfl, ⟨rfl, rfl⟩, ⟨rfl, rfl⟩, ⟨rfl, rfl, rfl⟩, ⟨rfl, rfl⟩, ⟨rfl, rfl⟩⟩
  have hcommas : HidesCommas 0 innerCall := by
    simp [innerCall, hidesCommas_cons, hidesCommas_nil, levelBehind, ofCharacter, openingAtom, closingAtom]
  have hz : HidesCommas 0 [ofCharacter 'z'] := by
    simp [hidesCommas_cons, hidesCommas_nil, ofCharacter]
  have hrows : CommaRows [innerCall, [ofCharacter 'z']] body := .cons ⟨rfl, hcommas⟩ rfl rfl (.last ⟨rfl, hz⟩)
  have hfilled : ∀ row ∈ [innerCall, [ofCharacter 'z']], ∃ a ∈ row, a.type ≠ .spacing := by
    intro row hrow
    simp only [List.mem_cons, List.not_mem_nil, or_false] at hrow
    rcases hrow with rfl | rfl
    all_goals exact ⟨_, List.mem_cons_self, by decide⟩
  have hspelled : ∀ a ∈ body, a.IsSpelled := by
    intro a ha
    simp only [body, innerCall, List.cons_append, List.nil_append, List.mem_cons, List.not_mem_nil, or_false] at ha
    rcases ha with rfl | rfl | rfl | rfl | rfl | rfl | rfl | rfl
    all_goals exact ⟨_, _, rfl, rfl⟩
  have hitems : List.Forall₂ (fun row e => ofAtoms .builtin row = .ok e) [innerCall, [ofCharacter 'z']]
      [apply (.text "g") (tuple [ofSymbol (.text "x") .null, ofSymbol (.text "y") .null]), ofSymbol (.text "z") .null] :=
    .cons rfl (.cons rfl .nil)
  exact ⟨_, body, _, _, _, hfence, rfl, hrows, by decide, hfilled, hspelled, _, hitems,
    ofAtoms_call_arguments (d := 'f') (by decide) hfence rfl hrows (by decide) hfilled hspelled hitems⟩

/-- **A name in front of parentheses is a call.**  If nothing stands in front of `f` or `g` and parentheses whose brackets
are all closed behind it, and the sequence can be read, its expression is the call of the name with the expressions of
what stands between the commas. -/
theorem ofAtoms_call {d : Char} (hd : d.toString ∈ callNames) {first last : Atom} {body : List Atom}
    (h : AreParentheses first last) (hbare : last.hasScripts = false) (hbody : Atom.nests [] body = true) {e : Expr}
    (hread : ofAtoms .builtin (ofCharacter d :: first :: (body ++ [last])) = .ok e) :
    ∃ rows items, CommaRows rows body ∧ List.Forall₂ (fun row e => ofAtoms .builtin row = .ok e) rows items ∧
      e = call (.text d.toString) (argumentsOf items) parentheses missing missing := by
  have hlevel := levelAfter_of_nests hbody
  rw [ofAtoms_eq, h.whole_call hbare hlevel hd] at hread
  obtain ⟨_, -, hread⟩ := bind_eq_ok.mp hread
  obtain ⟨items, hitems, hread⟩ := bind_eq_ok.mp hread
  obtain ⟨rows, hrows, hparts⟩ := Grammar.of_arguments hitems hlevel
  exact ⟨rows, items, hrows, hparts, (Except.ok.inj hread).symm⟩

/-- The call `f([x], y)`. -/
theorem ofAtoms_call_nested : ∃ body e, AreParentheses openingAtom closingAtom ∧ Atom.nests [] body = true ∧
    ofAtoms .builtin (ofCharacter 'f' :: openingAtom :: (body ++ [closingAtom])) = .ok e ∧
      ∃ rows items, CommaRows rows body ∧ List.Forall₂ (fun row e => ofAtoms .builtin row = .ok e) rows items ∧
        e = call (.text "f") (argumentsOf items) parentheses missing missing := by
  let body : List Atom := [{ type := .opening, value := .text "[" }, ofCharacter 'x', { type := .closing, value := .text "]" },
    { type := .punctuation, value := .text "," }, ofCharacter 'y']
  have h : AreParentheses openingAtom closingAtom := ⟨⟨rfl, rfl⟩, ⟨rfl, rfl⟩⟩
  have hread : ofAtoms .builtin (ofCharacter 'f' :: openingAtom :: (body ++ [closingAtom])) =
      .ok (call (.text "f") (tuple [fenced (ofSymbol (.text "x") .null) (.tuple [.text "[", .text "]"]),
        ofSymbol (.text "y") .null]) parentheses missing missing) := rfl
  exact ⟨body, _, h, rfl, hread, ofAtoms_call (d := 'f') (by decide) h rfl rfl hread⟩

/-- Behind a letter the same name and parentheses are no call: `xf(y)` is a product of three. -/
theorem ofAtoms_call_behind_letter : ∃ e nodes,
    ofAtoms .builtin ([ofCharacter 'x'] ++ ofCharacter 'f' :: openingAtom :: ([ofCharacter 'y'] ++ [closingAtom])) = .ok e ∧
      e.walk = .ok nodes ∧ ∀ k ∈ nodes, k.kindName ≠ "FunctionCall" := by
  let x := ofSymbol (.text "x") .null
  let f := ofSymbol (.text "f") .null
  let y := ofSymbol (.text "y") .null
  let product := between (.text "*") x f
  let whole := between (.text "*") product (fenced y parentheses)
  have hwalk : whole.walk = .ok [whole, product, x, f, fenced y parentheses, y] := by
    simp [whole, product, x, f, y, between, fenced, ofSymbol, Expr.walk, walkFrom, isMissing, isNode, children, sup, sub]
  exact ⟨whole, _, rfl, hwalk, by simp [whole, product, x, f, y, between, fenced, ofSymbol, kindName]⟩

end Formula
