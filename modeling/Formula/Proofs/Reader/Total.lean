import Formula.Proofs.Reader.Follow
import Formula.Proofs.Reader.Numeral

/-!
# Which rows are read

On worded atoms the reader asks no question that has no answer, whatever stands where.  Only one thing can go wrong: the
text of a numeral is no number.  By `scanNumeral_form` that is so for one kind of numeral alone, one that ends behind the
sign of its exponent since the sign carries scripts.  A row that begins with such a numeral trips the reader; the rows of
a formula are all read if and only if none of them does.
-/

namespace Formula

open Text Number Atom Expr

/-! ### Rows inside of rows -/

namespace Atom

/-- The atom stands in the row or in a sequence inside of one of its atoms, at any depth. -/
inductive Inside (atoms : List Atom) : Atom → Prop
  | here {a : Atom} : a ∈ atoms → Inside atoms a
  | deeper {a b : Atom} {field : Option (List Atom)} : Inside atoms b → field ∈ b.fields → a ∈ field.getD [] →
    Inside atoms a

/-- A row of neighbours in a formula: in the formula itself or in a sequence inside of it, without its spaces. -/
inductive Part (atoms : List Atom) : List Atom → Prop
  | whole : Part atoms (unspaced atoms)
  | run {row s : List Atom} : Part atoms row → s <:+: row → Part atoms s
  | nested {row : List Atom} {a : Atom} {field : Option (List Atom)} : Part atoms row → a ∈ row → field ∈ a.fields →
    Part atoms (unspaced (field.getD []))

theorem mem_of_mem_unspaced {atoms : List Atom} {a : Atom} (h : a ∈ unspaced atoms) : a ∈ atoms :=
  (List.mem_filter.mp h).1

theorem Part.inside {atoms row : List Atom} (h : Part atoms row) : ∀ a ∈ row, Inside atoms a := by
  induction h with
  | whole => exact fun a ha => .here (mem_of_mem_unspaced ha)
  | run _ hs ih => exact fun a ha => ih a (hs.subset ha)
  | nested _ hb hfield ih => exact fun a ha => .deeper (ih _ hb) hfield (mem_of_mem_unspaced ha)

/-- There are no spaces in such a row. -/
theorem Part.unspaced_eq {atoms row : List Atom} (h : Part atoms row) : unspaced row = row := by
  refine unspaced_eq_self ?_
  induction h with
  | whole => exact fun a ha => ne_spacing_of_mem_unspaced ha
  | run _ hs ih => exact fun a ha => ih a (hs.subset ha)
  | nested _ _ _ _ => exact fun a ha => ne_spacing_of_mem_unspaced ha

/-! ### Numerals that trip the reader -/

/-- The row begins with a numeral that ends behind the sign of its exponent, `text`. -/
structure Trips (row : List Atom) (text : String) : Prop where
  operand : ∀ a, row.head? = some a → a.isPlaceholder = false
  starts : Expr.startsNumber row = .ok true
  numeral : ∃ numeral s, scanNumeral row = .ok numeral ∧ numeral.chars.getLast? = some s ∧ (s = '+' ∨ s = '-') ∧
    text = String.ofList numeral.chars

end Atom

/-- The end of a number is no sign. -/
theorem getLast?_of_isExponent {pointed : Bool} {m x : List Char} (hm : IsMantissa pointed m) (hd : m.any Char.isDigit = true)
    (hx : IsExponent x) {s : Char} (hs : (m ++ x).getLast? = some s) : s ≠ '+' ∧ s ≠ '-' := by
  have hmem : s.isDigit = true ∨ s = '.' := by
    obtain rfl | ⟨ds, hne, hds, hx⟩ := hx
    · rw [List.append_nil] at hs
      have hs : s ∈ m := List.mem_of_getLast? hs
      cases pointed with
      | false => exact .inl (List.all_eq_true.mp hm s hs)
      | true =>
        obtain ⟨w, f, hw, hf, rfl⟩ := hm
        rcases List.mem_append.mp hs with h | h
        · exact .inl (List.all_eq_true.mp hw s h)
        · rcases List.mem_cons.mp h with rfl | h
          · exact .inr rfl
          · exact .inl (List.all_eq_true.mp hf s h)
    · have hlast : ds.getLast? = some s := by
        obtain ⟨d, ds, rfl⟩ := List.exists_cons_of_ne_nil hne
        rcases hx with rfl | rfl | rfl
        · simpa using hs
        · simpa using hs
        · simpa using hs
      exact .inl (List.all_eq_true.mp hds s (List.mem_of_getLast? hlast))
  rcases hmem with h | rfl
  · constructor <;> (rintro rfl; exact absurd h (by decide))
  · constructor <;> decide

/-- A numeral is read, or the row trips the reader. -/
theorem literalOf_numeral {row : List Atom} {numeral : NumeralReading} (hw : ∀ a ∈ row, a.Worded)
    (hplace : ∀ a, row.head? = some a → a.isPlaceholder = false) (hstart : Expr.startsNumber row = .ok true)
    (h : scanNumeral row = .ok numeral) :
    (∃ x, literalOf numeral.chars = .ok (ofNumber (.float x))) ∨
      (Trips row (String.ofList numeral.chars) ∧
        literalOf numeral.chars = .error (.unreadableNumber (quoted (String.ofList numeral.chars)))) := by
  obtain ⟨pointed, m, x, hm, hd, heq, hx | ⟨s, hs, rfl⟩⟩ := scanNumeral_form hw hstart h
  · obtain ⟨d, hread⟩ := readDouble_isSome hm hd hx
    rw [← heq] at hread
    exact .inl ⟨d, literalOf_of_readDouble hread⟩
  · have hread := readDouble_bare_exponent hm hd hs
    rw [← heq] at hread
    refine .inr ⟨⟨hplace, hstart, numeral, s, h, ?_, hs, rfl⟩, literalOf_of_none hread⟩
    rw [heq]
    simp

/-! ### The discipline of worded rows -/

namespace Expr

/-- A number that a sign may be folded into and that may be compared with minus one. -/
def IsLegible (value : Datum) : Prop := (∃ x, value = .float x) ∨ value = .int 1 ∨ value = .int (-1)

/-- An expression of which the reader may ask for a name, which is in `N`, or for a value. -/
def IsTame (N : Datum → Prop) : Expr → Prop
  | foreign _ | tuple _ => False
  | number value _ _ => IsLegible value
  | symbol name _ sup _ | call name _ _ sup _ => N name ∧ ∀ value s t, sup = number value s t → IsLegible value
  | _ => True

variable {N : Datum → Prop}

/-- Such an expression is a node, or there is none. -/
theorem IsTame.isNode {e : Expr} (h : e.IsTame N) : e = missing ∨ e.isNode = true := by
  cases e with
  | missing => exact .inl rfl
  | foreign _ | tuple _ => exact h.elim
  | _ => exact .inr rfl

theorem IsTame.sup_of {e : Expr} (h : e.IsTame N) : ∀ value s t, e = number value s t → IsLegible value := by
  rintro value s t rfl
  exact h

theorem isTame_apply {name : Datum} (h : N name) (e : Expr) : (apply name e).IsTame N := ⟨h, fun _ _ _ h => by cases h⟩

/-- A number with a sign in front has a value that may be asked for if the number has one. -/
theorem IsLegible.signed {sign v v' : Datum} (h : IsLegible v) (hv : signed? sign v = some v') : IsLegible v' := by
  obtain ⟨x, rfl⟩ | rfl | rfl := h
  · cases hv
    split
    · exact .inl ⟨_, rfl⟩
    · exact .inl ⟨_, rfl⟩
  · cases hv
    split
    · exact .inr (.inl rfl)
    · exact .inr (.inr rfl)
  · cases hv
    split
    · exact .inr (.inr rfl)
    · exact .inr (.inl rfl)

theorem isTame_of_takesSign {sign : Datum} {e e' : Expr} (h : TakesSign sign e e') (he : e.IsTame N) : e'.IsTame N := by
  cases h with
  | number hv => exact IsLegible.signed he hv
  | product r _ => exact trivial

theorem isTame_withSign {sign : Datum} {e : Expr} (he : e.IsTame N) : (withSign sign e).IsTame N := by
  obtain h | h := withSign_cases sign e
  · exact isTame_of_takesSign h he
  · rw [h]
    exact trivial

theorem isTame_juxtapose {l r : Expr} (hl : l.IsTame N) (hr : r.IsTame N) : (juxtapose l r).IsTame N := by
  unfold juxtapose
  split
  · exact hr
  · split
    · exact hl
    · exact trivial

theorem isTame_attach {e s t : Expr} (he : e.IsTame N) (hs : s.IsTame N) : (e.attach s t).IsTame N := by
  unfold attach
  split
  · exact he
  · split
    · have hsup : ∀ s' : Expr, (∀ value u v, s' = number value u v → IsLegible value) →
          ∀ value u v, (if s.isMissing then s' else s) = number value u v → IsLegible value := by
        intro s' hs'
        split
        · exact hs'
        · exact hs.sup_of
      cases e with
      | symbol name variant s' t' => exact ⟨he.1, hsup s' he.2⟩
      | call name argument fence s' t' => exact ⟨he.1, hsup s' he.2⟩
      | _ => exact he
    · exact trivial

/-- The value of a legible literal can be compared. -/
theorem isMinusOne_ok {e : Expr} (h : ∀ value s t, e = number value s t → IsLegible value) : ∃ is, e.isMinusOne = .ok is := by
  unfold isMinusOne
  split
  · rename_i value
    obtain ⟨x, rfl⟩ | rfl | rfl := h value _ _ rfl
    all_goals exact ⟨_, rfl⟩
  · exact ⟨_, rfl⟩
  · exact ⟨_, rfl⟩

theorem applyInverse_ok {name fence : Datum} {e e' s t : Expr} (h : (call name e fence s t).IsTame Datum.IsText) :
    ∃ e'', applyInverse (call name e' fence s t) = .ok e'' ∧ e''.IsTame Datum.IsText := by
  obtain ⟨hname, hsup⟩ := h
  obtain ⟨found, hfound⟩ := hname.lookup inverses
  obtain ⟨is, his⟩ := isMinusOne_ok hsup
  rw [applyInverse, inverseName?, hfound, his]
  cases found with
  | none => exact ⟨_, rfl, hname, hsup⟩
  | some inverse =>
    cases is with
    | true => exact ⟨_, rfl, ⟨inverse, rfl⟩, fun _ _ _ h => by cases h⟩
    | false => exact ⟨_, rfl, hname, hsup⟩

theorem delimited_ok {left right : Datum} (hl : left.IsText) (hr : right.IsText) (e : Expr) :
    ∃ e', delimited left right e = .ok e' ∧ e'.IsTame Datum.IsText := by
  obtain ⟨name, hname⟩ := delimiterFunction?_text hl hr
  unfold delimited
  rw [hname]
  cases name with
  | none => exact ⟨_, rfl, trivial⟩
  | some name => exact ⟨_, rfl, isTame_apply ⟨name, rfl⟩ e⟩

theorem mixedNumber_ok (x : Double) (e : Expr) : ∃ found, mixedNumber (ofNumber (.float x)) e = .ok found := by
  unfold mixedNumber
  cases e with
  | fraction _ _ _ _ => exact ⟨_, rfl⟩
  | _ => exact ⟨_, rfl⟩

theorem splitAtCommas_ok : ∀ {row : List Atom} {depth : Int} {part : List Atom}, (∀ a ∈ unspaced row, a.Worded) →
    ∃ parts, splitAtCommas depth part row = .ok parts
  | [], _, _, _ => ⟨_, rfl⟩
  | a :: rest, depth, part, h => by
    have hrest : ∀ b ∈ unspaced rest, b.Worded := by
      intro b hb
      obtain ⟨hmem, hspace⟩ := List.mem_filter.mp hb
      exact h b (List.mem_filter.mpr ⟨List.mem_cons_of_mem _ hmem, hspace⟩)
    rw [splitAtCommas]
    dsimp only
    generalize (if a.type = .opening then depth + 1 else if a.type = .closing then depth - 1 else depth) = next
    obtain ⟨more, hmore⟩ := @splitAtCommas_ok rest next [] hrest
    obtain ⟨on, hon⟩ := @splitAtCommas_ok rest next (a :: part) hrest
    split
    · rename_i hcomma
      have hmem : a ∈ unspaced (a :: rest) :=
        List.mem_filter.mpr ⟨List.mem_cons_self, by rw [hcomma.2]; rfl⟩
      obtain ⟨t, ht⟩ := (h a hmem).text
      rw [ht, hmore, hon]
      show ∃ parts, (if (Datum.text t).isText "," = true then _ else _) = _
      split
      · exact ⟨_, rfl⟩
      · exact ⟨_, rfl⟩
    · exact ⟨on, hon⟩

theorem callArguments?_ok : ∀ {row : List Atom}, (∀ a ∈ row, a.Worded) → ∃ found, callArguments? row = .ok found
  | [], _ => ⟨_, rfl⟩
  | a :: rest, h => by
    obtain ⟨t, ht⟩ := (h a List.mem_cons_self).text
    rw [callArguments?]
    split
    · split
      · exact ⟨_, rfl⟩
      · exact ⟨_, rfl⟩
    · rw [ht]
      show ∃ found, (if (Datum.text t).isText "(" = true then _ else _) = _
      split
      · exact ⟨_, rfl⟩
      · exact ⟨_, rfl⟩
    · exact ⟨_, rfl⟩

end Expr

/-- The fault of a formula in which some row trips the reader. -/
def TrippedBy (atoms : List Atom) (f : Fault) : Prop :=
  ∃ row text, Part atoms row ∧ Trips row text ∧ f = .unreadableNumber (quoted text)

namespace Atom

theorem Part.worded {atoms row : List Atom} (hw : ∀ a, Inside atoms a → a.Worded) (h : Part atoms row) :
    ∀ a ∈ row, a.Worded := fun a ha => hw a (h.inside a ha)

theorem Part.head_worded {atoms : List Atom} {a : Atom} (hw : ∀ a, Inside atoms a → a.Worded) (h : Part atoms [a]) :
    a.Worded := h.worded hw a (List.mem_singleton.mpr rfl)

theorem Part.plainText {atoms : List Atom} {a : Atom} (hw : ∀ a, Inside atoms a → a.Worded) (h : Part atoms [a]) :
    ∃ s, Atom.plainText (a.body.getD []) = .ok s := by
  have hbody : a.body ∈ a.fields := by simp [fields]
  exact plainText_worded ((h.nested (List.mem_singleton.mpr rfl) hbody).worded hw)

theorem Part.inFont {atoms : List Atom} {a : Atom} (hw : ∀ a, Inside atoms a → a.Worded) (h : Part atoms [a]) :
    ∃ e, a.inFont = .ok e ∧ e.IsTame Datum.IsText := by
  obtain ⟨s, hs⟩ := h.plainText hw
  obtain ⟨is, his⟩ := (h.head_worded hw).font.isOneOf textFonts
  obtain ⟨v, hv⟩ := (h.head_worded hw).variant
  unfold Atom.inFont
  rw [hs, his, hv]
  cases is with
  | true => exact ⟨_, rfl, trivial⟩
  | false => exact ⟨_, rfl, ⟨s, rfl⟩, fun _ _ _ h => by cases h⟩

theorem Part.asText {atoms : List Atom} {a : Atom} (hw : ∀ a, Inside atoms a → a.Worded) (h : Part atoms [a]) :
    ∃ e, a.asText = .ok e ∧ e.IsTame Datum.IsText := by
  obtain ⟨s, hs⟩ := h.plainText hw
  unfold Atom.asText
  rw [hs]
  split
  · exact ⟨_, rfl, trivial⟩
  · exact ⟨_, rfl, trivial⟩

end Atom

/-- Worded formulas are read without a fault but that of a row which trips the reader. -/
theorem Discipline.worded {c : Catalog} (hc : c.Worded) {atoms : List Atom} (hw : ∀ a, Inside atoms a → a.Worded) :
    Discipline c (TrippedBy atoms) (Part atoms) (IsTame Datum.IsText) where
  part h hs := h.run hs
  unspaced h := by
    rw [h.unspaced_eq]
    exact h
  nested h hfield := h.nested (List.mem_singleton.mpr rfl) hfield
  precedence h := by
    obtain ⟨p, hp⟩ := (h.head_worded hw).precedence hc
    exact .of_eq_ok hp trivial
  operation h _ := by
    obtain ⟨name, hname⟩ := (h.head_worded hw).name hc
    exact .of_eq_ok hname fun _ _ _ _ => trivial
  sign h := by
    obtain ⟨s, hs⟩ := (h.head_worded hw).sign? hc
    exact .of_eq_ok hs fun _ _ _ => isTame_withSign
  product _ _ := trivial
  sum _ _ := trivial
  juxtapose hl hr := isTame_juxtapose hl hr
  missing := trivial
  startsOperand h := by
    obtain ⟨is, his⟩ := (h.head_worded hw).startsOperand hc _
    exact .of_eq_ok his trivial
  placeholder _ _ := trivial
  symbol h _ := by
    obtain ⟨name, v, hsymbol⟩ := (h.head_worded hw).symbol hc
    exact .of_eq_ok hsymbol ⟨⟨name, rfl⟩, fun _ _ _ h => by cases h⟩
  inFont h _ := by
    obtain ⟨e, he, htame⟩ := h.inFont hw
    exact .of_eq_ok he htame
  asText h _ := by
    obtain ⟨e, he, htame⟩ := h.asText hw
    exact .of_eq_ok he htame
  quotient _ _ := trivial
  squareRoot _ := trivial
  power _ _ := isTame_apply ⟨"pow", rfl⟩ _
  attach he hs _ := isTame_attach he hs
  unexpected h := by
    obtain ⟨t, ht⟩ := (h.head_worded hw).text
    unfold Atom.unexpected
    rw [ht]
    exact trivial
  startsNumber h := by
    obtain ⟨is, his⟩ := startsNumber_worded (h.worded hw)
    exact .of_eq_ok his trivial
  numeral h _ := by
    obtain ⟨numeral, hnumeral⟩ := scanNumeral_worded (h.worded hw)
    exact .of_eq_ok hnumeral trivial
  literal h hplace hstart hscan _ := by
    rcases literalOf_numeral (h.worded hw) (by rintro b ⟨⟩; exact hplace) hstart hscan with ⟨x, hx⟩ | ⟨htrips, hx⟩
    · exact .of_eq_ok hx (.inl ⟨x, rfl⟩)
    · exact .of_eq_error hx ⟨_, _, h, htrips, rfl⟩
  mixed hliteral _ := by
    obtain ⟨x, hx⟩ := literalOf_eq_ok hliteral
    obtain ⟨found, hfound⟩ := mixedNumber_ok x _
    rw [hx]
    exact .of_eq_ok hfound trivial
  digraph h := by
    obtain ⟨name, hname⟩ := startsWithDigraph?_worded _ (h.worded hw)
    exact .of_eq_ok hname fun name _ e _ => isTame_apply ⟨name, rfl⟩ e
  postfix? h := by
    obtain ⟨name, hname⟩ := (h.head_worded hw).postfixFunction?
    exact .of_eq_ok hname fun name _ e _ => isTame_apply ⟨name, rfl⟩ e
  isFunction h _ := by
    obtain ⟨is, his⟩ := (h.head_worded hw).isFunction hc
    exact .of_eq_ok his trivial
  functionName h _ := by
    obtain ⟨name, hname⟩ := (h.head_worded hw).name hc
    exact .of_eq_ok hname (isTame_apply ⟨name, rfl⟩ .missing)
  argument h _ := by
    obtain ⟨e, he, htame⟩ := applyInverse_ok h
    exact .of_eq_ok he htame
  closesAny h := by
    obtain ⟨is, his⟩ := (h.head_worded hw).closesAny _
    exact .of_eq_ok his trivial
  closes h := by
    obtain ⟨is, his⟩ := (h.head_worded hw).closes _
    exact .of_eq_ok his trivial
  opener h := by
    obtain ⟨found, hfound⟩ := (h.head_worded hw).opener?
    exact .of_eq_ok hfound trivial
  fenced h _ _ := by
    obtain ⟨e, he, htame⟩ := delimited_ok ((h.head_worded hw).leftDelim.orElse ".") ((h.head_worded hw).rightDelim.orElse ".") _
    exact .of_eq_ok he htame
  unclosed h hopen _ := by
    obtain ⟨e, he, htame⟩ := delimited_ok ((h.head_worded hw).isText_of_opener? hopen).1 ⟨_, rfl⟩ _
    exact .of_eq_ok he htame
  closed h hopen h' hcloses _ := by
    obtain ⟨hleft, hsized⟩ := (h.head_worded hw).isText_of_opener? hopen
    obtain ⟨s, hs⟩ := (h'.head_worded hw).glyph_of_closes hsized hcloses
    obtain ⟨e, he, htame⟩ := delimited_ok hleft ⟨s, rfl⟩ _
    exact .of_eq_ok hs (.of_eq_ok he htame)
  callName he := by
    cases ‹Expr› with
    | symbol name _ _ _ =>
      obtain ⟨is, his⟩ := he.1.isOneOf callNames
      exact .of_eq_ok his trivial
    | _ => exact trivial
  arguments h := by
    obtain ⟨found, hfound⟩ := callArguments?_ok (h.worded hw)
    exact .of_eq_ok hfound trivial
  commas h := by
    obtain ⟨parts, hparts⟩ := splitAtCommas_ok (h.worded hw)
    exact .of_eq_ok hparts trivial
  callOf h _ _ := h

/-! ### Rows that trip the reader -/

/-- The first atom of a number is a digit or a point. -/
theorem Expr.spelling_of_startsNumber {a : Atom} {rest : List Atom} (hw : a.Worded)
    (h : Expr.startsNumber (a :: rest) = .ok true) :
    a.type = .ordinary ∧ ∃ t, a.text = .ok (.text t) ∧ t ≠ "\\nabla" ∧ t ≠ "!" := by
  obtain ⟨t, ht⟩ := hw.text
  obtain ⟨digit, hd⟩ := hw.isDigit
  cases digit with
  | true =>
    obtain ⟨htype, d, hdigit, hchars⟩ := chars_of_isDigit ht hd
    refine ⟨htype, t, ht, ?_, ?_⟩
    · rintro rfl
      cases hchars
    · rintro rfl
      cases hchars
      exact absurd hdigit (by decide)
  | false =>
    obtain ⟨htype, rfl, -⟩ := point_of_startsNumber ht h hd
    exact ⟨htype, ".", ht, by decide, by decide⟩

/-- A row that begins with a numeral which ends behind the sign of its exponent is not read. -/
theorem Atom.Trips.fails {c : Catalog} {row : List Atom} {text : String} (hw : ∀ a ∈ row, a.Worded)
    (hspace : unspaced row = row) (h : Trips row text) :
    ofAtoms c row = .error (.unreadableNumber (quoted text)) := by
  obtain ⟨hplace, hstart, numeral, s, hscan, hlast, hs, rfl⟩ := h
  cases row with
  | nil => cases hstart
  | cons a rest =>
    have hliteral : literalOf numeral.chars = .error (.unreadableNumber (quoted (String.ofList numeral.chars))) := by
      obtain ⟨pointed, m, x, hm, hd, heq, hx | ⟨s', hs', rfl⟩⟩ := scanNumeral_form hw hstart hscan
      · rw [heq] at hlast
        obtain ⟨h1, h2⟩ := getLast?_of_isExponent hm hd hx hlast
        exact (hs.elim h1 h2).elim
      · have hread := readDouble_bare_exponent hm hd hs'
        rw [← heq] at hread
        exact literalOf_of_none hread
    have hdigit : numeral.chars.any Char.isDigit = true := by
      obtain ⟨-, m, x, -, hd, heq, -⟩ := scanNumeral_form hw hstart hscan
      rw [heq]
      exact any_append_left hd
    obtain ⟨htype, t, ht, hn, he⟩ := spelling_of_startsNumber (hw a List.mem_cons_self) hstart
    have hdigraph := @startsWithDigraph?_none Glyph.prefixDigraphs _ _ _
      (fun b hb => (hw b (List.mem_cons_of_mem _ (List.mem_of_head? hb))).text) ht hn he
    have hsign : a.sign? c = .ok none := by
      unfold Atom.sign?
      rw [if_neg (by rw [htype]; decide)]
      rfl
    have hnumber : Grammar.number c a rest = .error (.unreadableNumber (quoted (String.ofList numeral.chars))) := by
      rw [Grammar.number_eq c (hplace a rfl) hstart, hscan]
      show (if (!numeral.chars.any Char.isDigit) = true then _ else _) = _
      rw [hdigit, hliteral]
      rfl
    have hoperand : Grammar.operand c [] a rest = .error (.unreadableNumber (quoted (String.ofList numeral.chars))) := by
      rw [Grammar.operand_eq, hdigraph, hsign, hplace a rfl, hstart, hnumber]
      rfl
    rw [ofAtoms_eq, Grammar.whole_eq, hspace, Grammar.sequence_eq, Grammar.primary_cons, hoperand]
    rfl

/-- **A formula in words is read unless some row of it trips the reader**: no other fault can happen, a row that begins
with such a numeral is never read, and all the rows of the formula are read if and only if none begins so. -/
theorem ofAtoms_total_iff {c : Catalog} (hc : c.Worded) {atoms : List Atom} (hw : ∀ a, Inside atoms a → a.Worded) :
    (∀ f, ofAtoms c atoms = .error f →
      ∃ row text, Part atoms row ∧ Trips row text ∧ f = .unreadableNumber (quoted text)) ∧
    (∀ row text, Part atoms row → Trips row text → ofAtoms c row = .error (.unreadableNumber (quoted text))) ∧
    ((∀ row, Part atoms row → ∃ e, ofAtoms c row = .ok e) ↔ ∀ row text, Part atoms row → ¬Trips row text) := by
  have D := Discipline.worded hc hw
  have fails : ∀ row text, Part atoms row → Trips row text → ofAtoms c row = .error (.unreadableNumber (quoted text)) :=
    fun row text h htrips => htrips.fails (h.worded hw) h.unspaced_eq
  refine ⟨fun f hf => ?_, fails, fun hread row text h htrips => ?_, fun hnone row h => ?_⟩
  · rw [ofAtoms_eq] at hf
    exact (Call.settled D (.whole atoms) .whole).within.of_error hf
  · obtain ⟨e, he⟩ := hread row h
    rw [fails row text h htrips] at he
    cases he
  · have hwithin := (Call.settled D (.whole row) (by rw [h.unspaced_eq]; exact h)).within
    rw [← ofAtoms_eq] at hwithin
    cases hr : ofAtoms c row with
    | ok e => exact ⟨e, rfl⟩
    | error f =>
      obtain ⟨row', text, hpart, htrips, -⟩ := hwithin.of_error hr
      exact absurd htrips (hnone row' text hpart)

/-- The row `1e+2`, with scripts on the sign if there are any. -/
def exponentRow (scripts : Option (List Atom)) : List Atom := [
  { type := .ordinary, value := .text "1" }, { type := .ordinary, value := .text "e" },
  { type := .binary, value := .text "+", superscript := scripts }, { type := .ordinary, value := .text "2" }]

theorem worded_of_plain {type : AtomType} {s : String} {scripts : Option (List Atom)} :
    Atom.Worded { type := type, value := .text s, superscript := scripts } :=
  ⟨⟨s, rfl⟩, .inl rfl, .inl rfl, .inl rfl, .inl rfl, .inl rfl⟩

theorem exponentRow_worded {scripts : Option (List Atom)} (h : ∀ a, Inside (scripts.getD []) a → a.Worded) :
    ∀ a, Inside (exponentRow scripts) a → a.Worded := by
  have each : ∀ a, Inside (exponentRow scripts) a → a ∈ exponentRow scripts ∨ Inside (scripts.getD []) a := by
    intro a ha
    induction ha with
    | here hmem => exact .inl hmem
    | deeper _ hfield hmem ih =>
      rcases ih with hb | hb
      · simp only [exponentRow, List.mem_cons, List.not_mem_nil, or_false] at hb
        rcases hb with rfl | rfl | rfl | rfl
        all_goals
          simp only [fields, List.mem_cons, List.not_mem_nil, or_false] at hfield
          rcases hfield with rfl | rfl | rfl | rfl | rfl | rfl
        all_goals first
          | exact .inr (.here hmem)
          | cases hmem
      · exact .inr (.deeper hb hfield hmem)
  intro a ha
  rcases each a ha with hmem | hin
  · simp only [exponentRow, List.mem_cons, List.not_mem_nil, or_false] at hmem
    rcases hmem with rfl | rfl | rfl | rfl
    all_goals exact worded_of_plain
  · exact h a hin

/-- Inside of a row without nested sequences there is nothing else. -/
theorem mem_of_inside {atoms : List Atom} (h : ∀ a ∈ atoms, ∀ field ∈ a.fields, field.getD [] = []) {a : Atom}
    (ha : Inside atoms a) : a ∈ atoms := by
  induction ha with
  | here hmem => exact hmem
  | deeper _ hfield hmem ih =>
    rw [h _ ih _ hfield] at hmem
    cases hmem

/-- With a plain sign there is nothing but a numeral that could be at fault. -/
theorem ofAtoms_total_iff_exponentRow :
    (∀ a, Inside (exponentRow none) a → a.Worded) ∧
      ∀ f, ofAtoms .builtin (exponentRow none) = .error f →
        ∃ row text, Part (exponentRow none) row ∧ Trips row text ∧ f = .unreadableNumber (quoted text) := by
  have hw : ∀ a, Inside (exponentRow none) a → a.Worded := by
    refine exponentRow_worded fun a ha => ?_
    have hmem := mem_of_inside (fun _ h => by cases h) ha
    cases hmem
  exact ⟨hw, (ofAtoms_total_iff Catalog.worded_builtin hw).1⟩

/-- With a square on the sign the row is not read: what is left of the numeral is `1e+`. -/
theorem ofAtoms_scripted_sign :
    (∀ a, Inside (exponentRow (some [{ type := .ordinary, value := .text "2" }])) a → a.Worded) ∧
      ofAtoms .builtin (exponentRow (some [{ type := .ordinary, value := .text "2" }])) =
        .error (.unreadableNumber "'1e+'") := by
  refine ⟨exponentRow_worded fun a ha => ?_, by rfl⟩
  have hmem := mem_of_inside (fun b hb field hfield => by
    rw [List.mem_singleton.mp hb] at hfield
    simp only [fields, List.mem_cons, List.not_mem_nil, or_false] at hfield
    rcases hfield with rfl | rfl | rfl | rfl | rfl | rfl <;> rfl) ha
  rw [List.mem_singleton.mp hmem]
  exact worded_of_plain

end Formula
