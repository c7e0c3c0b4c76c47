import Formula.Proofs.Catalog.Characters
import Formula.Proofs.Number.WholeDouble
import Formula.Proofs.Reader.Numeral
import Formula.Proofs.Reader.Rows

/-!
# Operands and primaries

The rows from which formulas are made: symbols, digits, fractions, roots, fences of both kinds, operands with an
exclamation mark, and primaries with a sign or the name of a function in front.  Where an atom carries scripts, the
expression carries what the scripts are read as (`Carries`).
-/

namespace Formula

open Number Text Atom Expr

variable {c : Catalog}

/-! ### Scripts -/

/-- The atom with other scripts. -/
def Atom.scripted (a : Atom) (sup sub : Option (List Atom)) : Atom := { a with superscript := sup, subscript := sub }

/-- With the scripts of the atom the expression `e` becomes `e'`. -/
def Carries (c : Catalog) (a : Atom) (e e' : Expr) : Prop :=
  (if a.hasScripts then Grammar.attached c a e else .ok e) = .ok e'

theorem Carries.plain {a : Atom} (h : a.hasScripts = false) (e : Expr) : Carries c a e e := by
  unfold Carries
  rw [h]
  rfl

/-- What the scripts are read as is attached. -/
theorem Carries.both {a : Atom} {s t : Expr} (hsup : Grammar.nested c a.superscript = .ok s)
    (hsub : Grammar.nested c a.subscript = .ok t) (e : Expr) : Carries c a e (e.attach s t) := by
  unfold Carries
  split
  · rw [Grammar.attached_eq, hsup, hsub]
    rfl
  · rename_i hscripts
    -- without scripts there is nothing to attach
    have hnone : a.superscript = none ∧ a.subscript = none := by
      rw [Atom.hasScripts, Bool.or_eq_true, not_or] at hscripts
      exact ⟨Option.not_isSome_iff_eq_none.mp hscripts.1, Option.not_isSome_iff_eq_none.mp hscripts.2⟩
    rw [hnone.1, Grammar.nested_none] at hsup
    rw [hnone.2, Grammar.nested_none] at hsub
    cases hsup
    cases hsub
    rfl

/-- A superscript that is read as a whole is attached. -/
theorem Carries.super {a : Atom} {row : List Atom} {s : Expr} (hsup : a.superscript = some row) (hsub : a.subscript = none)
    (h : IsWhole c row s) (e : Expr) : Carries c a e (e.attach s missing) := by
  have hnested : Grammar.nested c a.superscript = .ok s := by
    obtain ⟨b, rest, rfl⟩ := List.exists_cons_of_ne_nil h.ne_nil
    rw [hsup, Grammar.nested_cons, h.read]
  exact .both hnested (by rw [hsub, Grammar.nested_none]) e

namespace Grammar

theorem placeholders_trailing {e : Expr} {rest : List Atom} (h : Trailing rest) :
    placeholders c e rest = .ok ⟨rest, e⟩ := by
  cases rest with
  | nil => rfl
  | cons a rest =>
    have hplace : a.isPlaceholder = false := by
      unfold Atom.isPlaceholder
      rcases h.type a rfl with h | h | h | h <;> (rw [h]; rfl)
    rw [placeholders, hplace]
    rfl

theorem scripts_trailing {a : Atom} {e e' : Expr} {rest : List Atom} (hcarries : Carries c a e e') (h : Trailing rest) :
    scripts c (some a) e rest = .ok ⟨rest, e'⟩ := by
  unfold Carries at hcarries
  rw [scripts_some]
  by_cases hs : a.hasScripts = true
  · rw [if_pos hs] at hcarries ⊢
    rw [hcarries]
    exact placeholders_trailing h
  · rw [if_neg hs] at hcarries ⊢
    rw [Except.ok.inj hcarries]
    exact placeholders_trailing h

theorem marked_trailing {a : Atom} {e e' : Expr} {rest : List Atom} (hatom : atom c a = .ok e)
    (hcarries : Carries c a e e') (h : Trailing rest) : marked c a rest = marks c e' rest := by
  rw [marked_eq, hatom]
  show (scripts c (some a) e rest >>= _) = _
  rw [scripts_trailing hcarries h]
  rfl

end Grammar

/-! ### Single atoms -/

/-- The atom begins no digraph, puts no sign in front of an operand and is no placeholder. -/
structure StartsNoun (a : Atom) : Prop where
  worded : a.Worded
  spelling : ∀ t, a.text = .ok (.text t) → t ≠ "\\nabla" ∧ t ≠ "!"
  type : a.type ≠ .binary ∧ a.type ≠ .closing
  placeholder : a.isPlaceholder = false

theorem StartsNoun.begins {a : Atom} (h : StartsNoun a) : Begins [a] where
  worded := by
    intro b hb
    rw [List.mem_singleton.mp hb]
    exact h.worded
  head := ⟨a, [], rfl, h.type.2, h.placeholder⟩

theorem StartsNoun.digraph {a : Atom} (h : StartsNoun a) {names : List String} {rest : List Atom}
    (hrest : ∀ b, rest.head? = some b → ∃ u, b.text = .ok (.text u)) :
    startsWithDigraph? names (a :: rest) = .ok none := by
  obtain ⟨t, ht⟩ := h.worded.text
  obtain ⟨hnabla, hmark⟩ := h.spelling t ht
  exact startsWithDigraph?_none hrest ht hnabla hmark

theorem StartsNoun.sign {a : Atom} (h : StartsNoun a) : a.sign? c = .ok none := by
  unfold Atom.sign?
  rw [if_neg h.type.1]
  rfl

/-- Only an ordinary atom starts a number. -/
theorem startsNumber_of_ne {a : Atom} (h : a.type ≠ .ordinary) (rest : List Atom) :
    Expr.startsNumber (a :: rest) = .ok false := by
  have hdigit : a.isDigit = .ok false := by
    unfold Atom.isDigit
    rw [if_neg h]
    rfl
  rw [Expr.startsNumber, hdigit]
  show (if a.type = .ordinary then _ else _) = _
  rw [if_neg h]
  rfl

/-- An atom with parts of its own is read as it is. -/
theorem operand_construct {a : Atom} (h : StartsNoun a) (htype : a.type ∈ [.fraction, .radical, .font, .text])
    (closers : List Closer) {rest : List Atom} (hrest : ∀ b, rest.head? = some b → ∃ u, b.text = .ok (.text u)) :
    Grammar.operand c closers a rest = Grammar.marked c a rest := by
  have hne : a.type ≠ .ordinary := fun heq => by
    rw [heq] at htype
    exact absurd htype (by decide)
  rw [Grammar.operand_eq, h.digraph hrest, h.sign, h.placeholder, startsNumber_of_ne hne]
  simp only [List.mem_cons, List.not_mem_nil, or_false] at htype
  rcases htype with h | h | h | h <;> (rw [h]; rfl)

/-- An atom with parts of its own is an operand, with its scripts. -/
theorem isOperand_construct {a : Atom} {e e' : Expr} (h : StartsNoun a)
    (htype : a.type ∈ [.fraction, .radical, .font, .text]) (hatom : Grammar.atom c a = .ok e) (hcarries : Carries c a e e')
    (hnode : e'.isMissing = false) : IsOperand c [a] e' := by
  refine ⟨h.begins, hnode, fun closers rest hclosers hrest => ⟨a, [], rfl, ?_⟩⟩
  rw [List.nil_append, ← Grammar.marked_trailing hatom hcarries hrest]
  exact operand_construct h htype closers hrest.text

/-- A symbol is read as it is. -/
theorem operand_symbol {a : Atom} {closers : List Closer} {rest : List Atom} (h : StartsNoun a) (htype : a.type = .ordinary)
    (hnumber : Expr.startsNumber (a :: rest) = .ok false) (hfunction : a.isFunction c = .ok false)
    (hop : a.precedence c = .ok none) (hrest : ∀ b, rest.head? = some b → ∃ u, b.text = .ok (.text u)) :
    Grammar.operand c closers a rest = Grammar.marked c a rest := by
  have hsymbol : Grammar.symbol c a rest = Grammar.marked c a rest := by
    rw [Grammar.symbol_eq, hop]
    show (if a.type = .ordinary ∨ a.type = .textual then _ else _) = _
    rw [if_pos (.inl htype)]
  rw [← hsymbol, Grammar.operand_eq, h.digraph hrest, h.sign, h.placeholder, hnumber, htype, hfunction]
  rfl

/-- A symbol is an operand, with its scripts. -/
theorem isOperand_symbol {a : Atom} {e e' : Expr} (h : StartsNoun a) (htype : a.type = .ordinary)
    (hnumber : ∀ rest, Expr.startsNumber (a :: rest) = .ok false) (hfunction : a.isFunction c = .ok false)
    (hop : a.precedence c = .ok none) (hatom : a.symbol c = .ok e) (hcarries : Carries c a e e')
    (hnode : e'.isMissing = false) : IsOperand c [a] e' := by
  refine ⟨h.begins, hnode, fun closers rest hclosers hrest => ⟨a, [], rfl, ?_⟩⟩
  have hatom' : Grammar.atom c a = .ok e := by
    rw [Grammar.atom_eq, htype]
    exact hatom
  rw [List.nil_append, ← Grammar.marked_trailing hatom' hcarries hrest]
  exact operand_symbol h htype (hnumber rest) hfunction hop hrest.text

/-! ### Letters -/

section

variable {d : Char}

theorem startsNoun_character (hd : isLetterOrDigit d = true) (sup sub : Option (List Atom)) :
    StartsNoun ((ofCharacter d).scripted sup sub) := by
  have hne : ∀ s : String, AreLong [s] → d.toString ≠ s := by
    intro s hs heq
    exact hs.not_mem hd (List.mem_singleton.mpr heq)
  refine ⟨⟨⟨_, rfl⟩, .inl rfl, .inl rfl, .inl rfl, .inl rfl, .inl rfl⟩, fun t ht => ?_,
    ⟨fun h => (by cases h), fun h => (by cases h)⟩, ?_⟩
  · have : t = d.toString := (Datum.text.inj (Except.ok.inj ht)).symm
    rw [this]
    exact ⟨hne _ (by decide), hne _ (by decide)⟩
  · have : (d.toString == zeroWidth) = false := beq_eq_false_iff_ne.mpr (hne _ (by decide +kernel))
    show (true && (d.toString == zeroWidth)) = false
    rw [this]
    rfl

/-- A letter is no digit. -/
theorem isDigit_letter (hd : isLetter d = true) (sup sub : Option (List Atom)) :
    ((ofCharacter d).scripted sup sub).isDigit = .ok false := by
  cases hdigit : digits.contains d.toString with
  | false => exact congrArg Except.ok hdigit
  | true =>
    have hdigit : ((ofCharacter d).scripted sup sub).isDigit = .ok true := congrArg Except.ok hdigit
    obtain ⟨-, e, he, heq⟩ := chars_of_isDigit rfl hdigit
    rw [Char.toString, String.toList_singleton] at heq
    obtain ⟨rfl, -⟩ := List.cons.inj heq
    rw [isDigit_of_isLetter hd] at he
    cases he

theorem startsNumber_letter (hd : isLetter d = true) (sup sub : Option (List Atom)) (rest : List Atom) :
    Expr.startsNumber ((ofCharacter d).scripted sup sub :: rest) = .ok false := by
  have hpoint : (d.toString == ".") = false :=
    beq_eq_false_iff_ne.mpr fun heq =>
      @AreLong.not_mem _ ["."] (by decide) (isLetterOrDigit_of_isLetter hd) (List.mem_singleton.mpr heq)
  rw [Expr.startsNumber, isDigit_letter hd]
  show (if ((d.toString == ".") && _) = true then _ else Except.ok false) = _
  rw [hpoint, Bool.false_and]
  rfl

/-- An atom with the name of a letter, in no font, is a symbol of that name. -/
theorem symbol_of_name {a : Atom} (hd : isLetter d = true) (hname : a.name .builtin = .ok (.text d.toString))
    (hvariant : a.variant = .ok .null) : a.symbol .builtin = .ok (ofSymbol (.text d.toString) .null) := by
  have hslash : beginsWith d.toString "\\" = false := by
    refine beginsWith_character (e := '\\') ?_ ⟨_, rfl⟩
    rintro rfl
    exact absurd hd (by decide)
  unfold Atom.symbol
  rw [hname]
  show (do
    let name ← if (beginsWith d.toString "\\" && _) = true then _ else pure (Datum.text d.toString)
    return Expr.ofSymbol name (← a.variant)) = _
  rw [hslash, Bool.false_and, hvariant]
  rfl

/-- A letter is a symbol of its own name. -/
theorem symbol_letter (hd : isLetter d = true) (sup sub : Option (List Atom)) :
    ((ofCharacter d).scripted sup sub).symbol .builtin = .ok (ofSymbol (.text d.toString) .null) :=
  symbol_of_name hd (name_ofCharacter (isLetterOrDigit_of_isLetter hd)) rfl

/-- **A letter is an operand, with its scripts.** -/
theorem isOperand_letter (hd : isLetter d = true) {sup sub : Option (List Atom)} {e : Expr}
    (h : Carries c ((ofCharacter d).scripted sup sub) (ofSymbol (.text d.toString) .null) e) (hnode : e.isMissing = false)
    (hc : c = .builtin) : IsOperand c [(ofCharacter d).scripted sup sub] e := by
  subst hc
  have hd' := isLetterOrDigit_of_isLetter hd
  exact isOperand_symbol (startsNoun_character hd' sup sub) rfl (startsNumber_letter hd sup sub)
    (isFunction_ofCharacter hd') (precedence_ofCharacter hd') (symbol_letter hd sup sub) h hnode

end

/-! ### Digits -/

section

variable {d : Char}

theorem isDigit_digit (hd : d.isDigit = true) (sup sub : Option (List Atom)) :
    ((ofCharacter d).scripted sup sub).isDigit = .ok true := by
  have each : ∀ k < 10, digits.contains (Nat.digitChar k).toString = true := by decide
  have := each (d.toNat - 48) (by have := toNat_of_isDigit hd; omega)
  rw [digitChar_of_isDigit hd] at this
  exact congrArg Except.ok this

/-- A digit goes on with the mantissa of a numeral. -/
theorem numeralStep_digit (hd : d.isDigit = true) (sup sub : Option (List Atom)) (pointed before : Bool)
    (behind : List Atom) : numeralStep (.mantissa pointed) before ((ofCharacter d).scripted sup sub) behind =
      .ok (some ([d], .mantissa pointed)) := by
  rw [numeralStep_eq (t := d.toString) rfl (isDigit_digit hd sup sub)]
  show Except.ok (some (d.toString.toList, _)) = _
  rw [Char.toString, String.toList_singleton]

/-- A numeral that has begun ends in front of the row. -/
def EndsMantissa (pointed : Bool) (rest : List Atom) : Prop :=
  ∀ (chars : List Char) (last : Option Atom), chars ≠ [] →
    scanNumeralFrom (.mantissa pointed) chars last rest = .ok ⟨chars.reverse, last, rest⟩

theorem EndsMantissa.nil (pointed : Bool) : EndsMantissa pointed [] := fun _ _ _ => rfl

theorem EndsMantissa.of_step {pointed : Bool} {a : Atom} {rest : List Atom}
    (h : numeralStep (.mantissa pointed) true a rest = .ok none) : EndsMantissa pointed (a :: rest) := by
  intro chars last hne
  have hbegun : (!chars.isEmpty) = true := by rw [List.isEmpty_eq_false_iff.mpr hne]; rfl
  rw [scanNumeralFrom, hbegun, h]
  rfl

/-- A numeral ends in front of what cannot go on with a number. -/
theorem Trailing.endsMantissa {rest : List Atom} (h : Trailing rest) (pointed : Bool) : EndsMantissa pointed rest := by
  cases rest with
  | nil => exact .nil pointed
  | cons a rest =>
    obtain ⟨t, ht⟩ := h.text a rfl
    have htype := h.type a rfl
    have hdigit : a.isDigit = .ok false := by
      unfold Atom.isDigit
      rw [if_neg (by rcases htype with h | h | h | h <;> (rw [h]; decide))]
      rfl
    refine .of_step ?_
    rw [numeralStep_eq ht hdigit]
    rcases htype with h | h | h | h <;> simp [h]

/-- The digits at the end of a numeral. -/
theorem scanNumeralFrom_digits (hd : d.isDigit = true) (sup sub : Option (List Atom)) (pointed : Bool) {rest : List Atom}
    (hrest : EndsMantissa pointed rest) : ∀ {ds : List Char} (chars : List Char) (last : Option Atom),
    (∀ e ∈ ds, e.isDigit = true) →
    scanNumeralFrom (.mantissa pointed) chars last
        (ds.map ofCharacter ++ (ofCharacter d).scripted sup sub :: rest) =
      .ok ⟨chars.reverse ++ ds ++ [d], some ((ofCharacter d).scripted sup sub), rest⟩
  | [], chars, last, _ => by
    rw [List.map_nil, List.nil_append, List.append_nil, scanNumeralFrom, numeralStep_digit hd]
    show (if ((ofCharacter d).scripted sup sub).hasScripts = true then _ else _) = _
    rw [← List.reverse_cons]
    split
    · rfl
    · exact hrest (d :: chars) _ (List.cons_ne_nil _ _)
  | e :: ds, chars, last, h => by
    have hstep := numeralStep_digit (h e List.mem_cons_self) none none pointed (!chars.isEmpty)
      (ds.map ofCharacter ++ (ofCharacter d).scripted sup sub :: rest)
    have hmore := scanNumeralFrom_digits hd sup sub pointed hrest (e :: chars) (some (ofCharacter e))
      fun f hf => h f (List.mem_cons_of_mem _ hf)
    rw [List.reverse_cons, List.append_assoc chars.reverse, List.singleton_append] at hmore
    rw [List.map_cons, List.cons_append, scanNumeralFrom, show ofCharacter e = (ofCharacter e).scripted none none from rfl,
      hstep]
    exact hmore

/-- The digits in front of a point, and the point. -/
theorem scanNumeralFrom_point (behind : List Atom) : ∀ {ds : List Char} (chars : List Char) (last : Option Atom),
    (∀ e ∈ ds, e.isDigit = true) →
    scanNumeralFrom (.mantissa false) chars last (ds.map ofCharacter ++ ofCharacter '.' :: behind) =
      scanNumeralFrom (.mantissa true) ('.' :: (ds.reverse ++ chars)) (some (ofCharacter '.')) behind
  | [], chars, last, _ => by
    have hstep : numeralStep (.mantissa false) (!chars.isEmpty) (ofCharacter '.') behind =
        .ok (some (['.'], .mantissa true)) := rfl
    rw [List.map_nil, List.nil_append, scanNumeralFrom, hstep]
    rfl
  | e :: ds, chars, last, h => by
    have hstep := numeralStep_digit (h e List.mem_cons_self) none none false (!chars.isEmpty)
      (ds.map ofCharacter ++ ofCharacter '.' :: behind)
    have hmore := scanNumeralFrom_point behind (e :: chars) (some (ofCharacter e)) fun f hf => h f (List.mem_cons_of_mem _ hf)
    rw [List.map_cons, List.cons_append, scanNumeralFrom, show ofCharacter e = (ofCharacter e).scripted none none from rfl,
      hstep, List.reverse_cons, List.append_assoc, List.singleton_append]
    exact hmore

theorem scanNumeral_digits {ds : List Char} (hds : ∀ f ∈ ds, f.isDigit = true) (hd : d.isDigit = true)
    (sup sub : Option (List Atom)) {rest : List Atom} (hrest : EndsMantissa false rest) :
    scanNumeral (ds.map ofCharacter ++ [(ofCharacter d).scripted sup sub] ++ rest) =
      .ok ⟨ds ++ [d], some ((ofCharacter d).scripted sup sub), rest⟩ := by
  rw [List.append_assoc, List.singleton_append]
  exact scanNumeralFrom_digits hd sup sub false hrest [] none hds

theorem scanNumeral_pointed {ws ds : List Char} (hws : ∀ f ∈ ws, f.isDigit = true) (hds : ∀ f ∈ ds, f.isDigit = true)
    (hd : d.isDigit = true) (sup sub : Option (List Atom)) {rest : List Atom} (hrest : EndsMantissa true rest) :
    scanNumeral (ws.map ofCharacter ++ ofCharacter '.' :: (ds.map ofCharacter ++ [(ofCharacter d).scripted sup sub]) ++ rest) =
      .ok ⟨ws ++ '.' :: (ds ++ [d]), some ((ofCharacter d).scripted sup sub), rest⟩ := by
  rw [List.append_assoc, List.cons_append, List.append_assoc, List.singleton_append]
  refine (scanNumeralFrom_point _ [] none hws).trans ((scanNumeralFrom_digits hd sup sub true hrest _ _ hds).trans ?_)
  simp

theorem mixed_trailing {literal : Expr} {numeral : NumeralReading} (hliteral : literalOf numeral.chars = .ok literal)
    (h : Trailing numeral.rest) : Grammar.mixed c literal numeral = .ok none := by
  cases hr : numeral.rest with
  | nil => exact Grammar.mixed_nil c literal hr
  | cons a rest =>
    have htype := h.type a (by rw [hr]; rfl)
    rw [Grammar.mixed_cons c hr hliteral, if_neg]
    rintro ⟨hf, -⟩
    rcases htype with h | h | h | h <;> (rw [h] at hf; cases hf)

/-- What is scanned as a numeral in front of a row is a number, and no part of a mixed one. -/
theorem operand_scanned {first last : Atom} {behind rest : List Atom} {closers : List Closer} (hnoun : StartsNoun first)
    (hwords : ∀ b, behind.head? = some b → ∃ u, b.text = .ok (.text u))
    (hstarts : Expr.startsNumber (first :: behind) = .ok true) {chars : List Char}
    (hscan : scanNumeral (first :: behind) = .ok ⟨chars, some last, rest⟩) (hany : chars.any Char.isDigit = true)
    {literal : Expr} (hliteral : literalOf chars = .ok literal)
    (hmixed : Grammar.mixed c literal ⟨chars, some last, rest⟩ = .ok none) :
    Grammar.operand c closers first behind = (do
      let read ← Grammar.scripts c (some last) literal rest
      Grammar.marks c read.expr read.rest) := by
  rw [Grammar.operand_eq, hnoun.digraph hwords, hnoun.sign, hnoun.placeholder, hstarts]
  show Grammar.number c first behind = _
  rw [Grammar.number_eq c hnoun.placeholder hstarts, hscan]
  show (if (!chars.any Char.isDigit) = true then _ else _) = _
  rw [hany]
  show (literalOf chars >>= _) = _
  rw [hliteral]
  show (Grammar.mixed c literal ⟨chars, some last, rest⟩ >>= _) = _
  rw [hmixed]
  rfl

/-- What is scanned as a numeral is an operand, with the scripts of the last atom. -/
theorem isOperand_scanned {row : List Atom} {first last : Atom} {more : List Atom} (hrow : row = first :: more)
    (hnoun : StartsNoun first) (hworded : ∀ a ∈ row, a.Worded)
    (hstarts : ∀ rest, Expr.startsNumber (first :: rest) = .ok true) {chars : List Char}
    (hscan : ∀ rest, Trailing rest → scanNumeral (row ++ rest) = .ok ⟨chars, some last, rest⟩)
    (hany : chars.any Char.isDigit = true) {literal e : Expr} (hliteral : literalOf chars = .ok literal)
    (h : Carries c last literal e) (hnode : e.isMissing = false) : IsOperand c row e := by
  refine ⟨⟨hworded, _, more, hrow, hnoun.type.2, hnoun.placeholder⟩, hnode, fun closers rest hclosers hrest =>
    ⟨_, more, hrow, ?_⟩⟩
  have hscan := hscan rest hrest
  rw [hrow, List.cons_append] at hscan
  have hwords : ∀ b, (more ++ rest).head? = some b → ∃ u, b.text = .ok (.text u) := by
    intro b hb
    have hmem := List.mem_of_mem_head? hb
    rcases List.mem_append.mp hmem with hb | hb
    · exact (hworded b (by rw [hrow]; exact List.mem_cons_of_mem _ hb)).text
    · exact (hrest.worded b hb).text
  rw [operand_scanned hnoun hwords (hstarts _) hscan hany hliteral (mixed_trailing hliteral hrest),
    Grammar.scripts_trailing h hrest]
  rfl

theorem worded_character (d : Char) (sup sub : Option (List Atom)) : ((ofCharacter d).scripted sup sub).Worded :=
  ⟨⟨_, rfl⟩, .inl rfl, .inl rfl, .inl rfl, .inl rfl, .inl rfl⟩

/-- Characters of which the first is a digit without scripts, unless it is the last one. -/
theorem digit_first {ds : List Char} (hds : ∀ f ∈ ds.head?, f.isDigit = true) (hd : ds = [] → d.isDigit = true)
    (sup sub : Option (List Atom)) : ∃ first sup' sub' more, first.isDigit = true ∧
      ds.map ofCharacter ++ [(ofCharacter d).scripted sup sub] = (ofCharacter first).scripted sup' sub' :: more := by
  cases ds with
  | nil => exact ⟨d, sup, sub, [], hd rfl, rfl⟩
  | cons f ds => exact ⟨f, none, none, _, hds f rfl, rfl⟩

theorem startsNumber_digit (hd : d.isDigit = true) (sup sub : Option (List Atom)) (rest : List Atom) :
    Expr.startsNumber ((ofCharacter d).scripted sup sub :: rest) = .ok true := by
  rw [Expr.startsNumber, isDigit_digit hd]
  rfl

/-- Digits are an operand, with the scripts of the last one. -/
theorem isOperand_numeral {ds : List Char} {literal : Expr} (hds : ∀ f ∈ ds, f.isDigit = true) (hd : d.isDigit = true)
    (hliteral : literalOf (ds ++ [d]) = .ok literal) {sup sub : Option (List Atom)} {e : Expr}
    (h : Carries c ((ofCharacter d).scripted sup sub) literal e) (hnode : e.isMissing = false) :
    IsOperand c (ds.map ofCharacter ++ [(ofCharacter d).scripted sup sub]) e := by
  obtain ⟨first, sup', sub', more, hfirst, hrow⟩ :=
    @digit_first d ds (fun f hf => hds f (List.mem_of_mem_head? hf)) (fun _ => hd) sup sub
  have hworded : ∀ a ∈ ds.map ofCharacter ++ [(ofCharacter d).scripted sup sub], a.Worded := by
    intro a ha
    rcases List.mem_append.mp ha with ha | ha
    · obtain ⟨f, hf, rfl⟩ := List.mem_map.mp ha
      exact worded_character f none none
    · rw [List.mem_singleton.mp ha]
      exact worded_character d sup sub
  have hany : (ds ++ [d]).any Char.isDigit = true := by
    rw [List.any_append, List.any_cons, hd, Bool.true_or, Bool.or_true]
  refine isOperand_scanned hrow (startsNoun_character (isLetterOrDigit_of_isDigit hfirst) sup' sub') hworded
    (startsNumber_digit hfirst sup' sub') (fun rest hrest => scanNumeral_digits hds hd sup sub (hrest.endsMantissa false)) hany hliteral h hnode

/-- Digits around a point are an operand, with the scripts of the last one. -/
theorem isOperand_pointed {ws ds : List Char} {literal : Expr} (hne : ws ≠ []) (hws : ∀ f ∈ ws, f.isDigit = true)
    (hds : ∀ f ∈ ds, f.isDigit = true) (hd : d.isDigit = true)
    (hliteral : literalOf (ws ++ '.' :: (ds ++ [d])) = .ok literal) {sup sub : Option (List Atom)} {e : Expr}
    (h : Carries c ((ofCharacter d).scripted sup sub) literal e) (hnode : e.isMissing = false) :
    IsOperand c (ws.map ofCharacter ++ ofCharacter '.' :: (ds.map ofCharacter ++ [(ofCharacter d).scripted sup sub])) e := by
  obtain ⟨first, more, rfl⟩ := List.exists_cons_of_ne_nil hne
  have hfirst := hws first List.mem_cons_self
  have hworded : ∀ a ∈ (first :: more).map ofCharacter ++
      ofCharacter '.' :: (ds.map ofCharacter ++ [(ofCharacter d).scripted sup sub]), a.Worded := by
    intro a ha
    simp only [List.mem_append, List.mem_map, List.mem_cons, List.not_mem_nil, or_false] at ha
    rcases ha with ⟨f, -, rfl⟩ | rfl | ⟨f, -, rfl⟩ | rfl
    · exact worded_character f none none
    · exact worded_character '.' none none
    · exact worded_character f none none
    · exact worded_character d sup sub
  have hany : (first :: more ++ '.' :: (ds ++ [d])).any Char.isDigit = true := by
    rw [List.cons_append, List.any_cons, hfirst, Bool.true_or]
  have hrow : (first :: more).map ofCharacter ++ ofCharacter '.' :: (ds.map ofCharacter ++ [(ofCharacter d).scripted sup sub]) =
      ofCharacter first ::
        (more.map ofCharacter ++ ofCharacter '.' :: (ds.map ofCharacter ++ [(ofCharacter d).scripted sup sub])) := rfl
  exact isOperand_scanned hrow (startsNoun_character (isLetterOrDigit_of_isDigit hfirst) none none) hworded
    (startsNumber_digit hfirst none none) (fun rest hrest =>
      scanNumeral_pointed hws hds hd sup sub (hrest.endsMantissa true)) hany hliteral h hnode

/-- **The digits of a whole number are an operand, with the scripts of the last one.** -/
theorem isOperand_digits {n : Nat} (hlt : n < tenTo 100) {ds : List Char} (hdigits : Nat.toDigits 10 n = ds ++ [d])
    {sup sub : Option (List Atom)} {e : Expr}
    (h : Carries c ((ofCharacter d).scripted sup sub) (ofNumber (.float (.ofInt n))) e) (hnode : e.isMissing = false) :
    IsOperand c (ds.map ofCharacter ++ [(ofCharacter d).scripted sup sub]) e := by
  have hall : ∀ f ∈ ds ++ [d], f.isDigit = true := by
    intro f hf
    rw [← hdigits] at hf
    exact Nat.isDigit_of_mem_toDigits (by decide) (by decide) hf
  have hliteral : literalOf (ds ++ [d]) = .ok (ofNumber (.float (.ofInt n))) := by
    rw [← hdigits]
    exact literalOf_of_readDouble (Double.readDouble_toDigits hlt)
  exact isOperand_numeral (fun f hf => hall f (List.mem_append_left _ hf))
    (hall d (List.mem_append_right _ (List.mem_singleton_self d))) hliteral h hnode

end

end Formula
