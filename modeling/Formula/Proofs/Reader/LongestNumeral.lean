import Formula.Proofs.Reader.Numeral

/-!
# The longest numeral

A numeral is a mantissa of digits with at most one point among them, and perhaps an exponent: a marker, a sign if there is
one, and digits.  Commas in a mantissa stand directly in front of a digit and are not written.  The scan of a row of atoms
takes the longest numeral in front of it, and gives what that is written as.

A scan looks at one atom after another and knows no more of those before it than its state.  `NumeralTail` is what may
stand in a numeral from a state on.  The scan takes such a tail from its state (`tail_of_scan`), and every such tail is
taken as a whole (`NumeralTail.scan`), so that none is longer than what it takes.
-/

namespace Formula

open Outcome

namespace Atom

variable {a b : Atom} {row rest behind : List Atom} {cs added : List Char} {d : Char} {state next : NumeralState} {before : Bool}

/-! ### The grammar of numerals -/

/-- The atom is of the type, and the character is all it shows. -/
def Shows (a : Atom) (type : AtomType) (x : Char) : Prop := a.type = type ∧ ∃ t, a.text = .ok (.text t) ∧ t.toList = [x]

/-- The atom is the digit. -/
def ShowsDigit (a : Atom) (d : Char) : Prop := d.isDigit = true ∧ a.Shows .ordinary d

/-- The atom is a comma. -/
def ShowsComma (a : Atom) : Prop := a.Shows .punctuation ',' ∨ a.Shows .ordinary ','

/-- The atom is a letter that marks an exponent. -/
def ShowsMarker (a : Atom) : Prop := ∃ m ∈ ['e', 'E', 'd', 'D'], a.Shows .ordinary m

/-- The atom is a sign, which is written so. -/
def ShowsSign (a : Atom) (s : Char) : Prop :=
  s = '+' ∧ a.Shows .binary '+' ∨ s = '-' ∧ (a.Shows .binary '-' ∨ a.Shows .binary '−')

/-- Digits, and how they are written. -/
inductive DigitRow : List Atom → List Char → Prop
  | nil : DigitRow [] []
  | cons {a : Atom} {d : Char} {row : List Atom} {text : List Char} : a.ShowsDigit d → DigitRow row text →
    DigitRow (a :: row) (d :: text)

/-- Digits, points and commas, each comma directly in front of a digit, and how they are written. -/
inductive MantissaRow : List Atom → List Char → Prop
  | nil : MantissaRow [] []
  | digit {a : Atom} {d : Char} {row : List Atom} {text : List Char} : a.ShowsDigit d → MantissaRow row text →
    MantissaRow (a :: row) (d :: text)
  | point {a : Atom} {row : List Atom} {text : List Char} : a.Shows .ordinary '.' → MantissaRow row text →
    MantissaRow (a :: row) ('.' :: text)
  | comma {a b : Atom} {d : Char} {row : List Atom} {text : List Char} : a.ShowsComma → b.ShowsDigit d →
    MantissaRow (b :: row) text → MantissaRow (a :: b :: row) text

/-- A marker, perhaps a sign, and at least one digit, and how they are written. -/
inductive ExponentRow : List Atom → List Char → Prop
  | unsigned {a : Atom} {row : List Atom} {text : List Char} : a.ShowsMarker → DigitRow row text → text ≠ [] →
    ExponentRow (a :: row) ('e' :: text)
  | signed {a b : Atom} {s : Char} {row : List Atom} {text : List Char} : a.ShowsMarker → b.ShowsSign s →
    DigitRow row text → text ≠ [] → ExponentRow (a :: b :: row) ('e' :: s :: text)

/-- The row is a numeral, which is written so: a mantissa with a digit and at most one point, and perhaps an exponent. -/
def IsNumeral (row : List Atom) (text : List Char) : Prop :=
  ∃ (mantissa exponent : List Atom) (m x : List Char), row = mantissa ++ exponent ∧ text = m ++ x ∧
    MantissaRow mantissa m ∧ m.any Char.isDigit = true ∧ m.count '.' ≤ 1 ∧
    (exponent = [] ∧ x = [] ∨ ExponentRow exponent x)

/-- A numeral may start here: with a digit, or with a point in front of a digit. -/
def StartsNumeral (row : List Atom) : Prop :=
  (∃ a rest d, row = a :: rest ∧ a.ShowsDigit d) ∨
    ∃ a b rest d, row = a :: b :: rest ∧ a.Shows .ordinary '.' ∧ b.ShowsDigit d

/-- What may stand in a numeral from a state of the scan on. -/
inductive NumeralTail : NumeralState → List Atom → List Char → Prop
  | nil (pointed : Bool) : NumeralTail (.mantissa pointed) [] []
  | digit {pointed : Bool} {a : Atom} {d : Char} {row : List Atom} {text : List Char} : a.ShowsDigit d →
    NumeralTail (.mantissa pointed) row text → NumeralTail (.mantissa pointed) (a :: row) (d :: text)
  | point {a : Atom} {row : List Atom} {text : List Char} : a.Shows .ordinary '.' →
    NumeralTail (.mantissa true) row text → NumeralTail (.mantissa false) (a :: row) ('.' :: text)
  | comma {pointed : Bool} {a b : Atom} {d : Char} {row : List Atom} {text : List Char} : a.ShowsComma → b.ShowsDigit d →
    NumeralTail (.mantissa pointed) (b :: row) text → NumeralTail (.mantissa pointed) (a :: b :: row) text
  | marker {pointed : Bool} {a : Atom} {row : List Atom} {text : List Char} : a.ShowsMarker → NumeralTail .sign row text →
    NumeralTail (.mantissa pointed) (a :: row) ('e' :: text)
  | unsigned {row : List Atom} {text : List Char} : DigitRow row text → text ≠ [] → NumeralTail .sign row text
  | signed {a : Atom} {s : Char} {row : List Atom} {text : List Char} : a.ShowsSign s → DigitRow row text → text ≠ [] →
    NumeralTail .sign (a :: row) (s :: text)
  | exponent {row : List Atom} {text : List Char} : DigitRow row text → NumeralTail .exponent row text

/-! ### What an atom shows -/

theorem Shows.unique {type type' : AtomType} {x y : Char} (h : a.Shows type x) (h' : a.Shows type' y) :
    type = type' ∧ x = y := by
  obtain ⟨rfl, t, ht, hx⟩ := h
  obtain ⟨rfl, t', ht', hy⟩ := h'
  obtain rfl : t = t' := Datum.text.inj (Except.ok.inj (ht.symm.trans ht'))
  exact ⟨rfl, List.head_eq_of_cons_eq (hx.symm.trans hy)⟩

/-- The spelling of an atom that shows a character. -/
theorem Shows.spelling {type : AtomType} {x : Char} (h : a.Shows type x) :
    a.type = type ∧ a.text = .ok (.text (String.ofList [x])) := by
  obtain ⟨htype, t, ht, hx⟩ := h
  rw [← hx, String.ofList_toList]
  exact ⟨htype, ht⟩

theorem mem_digits (h : d.isDigit = true) : String.ofList [d] ∈ digits := by
  have hall : ∀ n < 10, String.ofList [Nat.digitChar n] ∈ digits := by decide
  have hlt := (Number.toNat_of_isDigit h).2
  rw [← Number.digitChar_of_isDigit h]
  exact hall _ (by omega)

/-- The reader's digits are the atoms that show one. -/
theorem isDigit_iff : a.isDigit = .ok true ↔ ∃ d, a.ShowsDigit d := by
  constructor
  · intro h
    obtain ⟨htype, t, -, ht⟩ := text_of_isDigit h
    obtain ⟨-, d, hd, hchars⟩ := chars_of_isDigit ht h
    exact ⟨d, hd, htype, t, ht, hchars⟩
  · rintro ⟨d, hd, hshows⟩
    obtain ⟨htype, ht⟩ := hshows.spelling
    unfold isDigit
    rw [if_pos htype, ht]
    exact congrArg Except.ok (List.contains_iff_mem.mpr (mem_digits hd))

/-- An atom that shows something besides a digit is none to the reader. -/
theorem Shows.isDigit_eq_false {type : AtomType} {x : Char} (h : a.Shows type x) (hx : x.isDigit = false) :
    a.isDigit = .ok false := by
  obtain ⟨-, ht⟩ := h.spelling
  have hsome : ∃ is, a.isDigit = .ok is := by
    unfold isDigit
    rw [ht]
    split
    · exact ⟨_, rfl⟩
    · exact ⟨_, rfl⟩
  obtain ⟨_ | _, his⟩ := hsome
  · exact his
  · obtain ⟨d, hd, hshows⟩ := isDigit_iff.mp his
    rw [(h.unique hshows).2, hd] at hx
    cases hx

theorem marker_cases : ∀ m ∈ ['e', 'E', 'd', 'D'], m.isDigit = false ∧ m ≠ '.' ∧ String.ofList [m] ∈ exponentMarkers := by
  decide

/-- The reader's signs are the atoms that show one. -/
theorem signOf?_iff {x : Char} : (∃ s, a.signOf? = .ok (some s) ∧ s.toList = [x]) ↔ a.ShowsSign x := by
  constructor
  · rintro ⟨s, hs, hx⟩
    have htype := type_of_signOf? hs
    unfold signOf? at hs
    rw [if_pos htype, bind_eq_ok] at hs
    obtain ⟨text, htext, hs⟩ := hs
    obtain ⟨t, rfl, hmem⟩ := Datum.mem_of_lookup hs
    simp only [signs, List.mem_cons, List.not_mem_nil, or_false, Prod.mk.injEq] at hmem
    rcases hmem with ⟨rfl, rfl⟩ | ⟨rfl, rfl⟩ | ⟨rfl, rfl⟩
    · cases hx
      exact .inl ⟨rfl, htype, _, htext, rfl⟩
    · cases hx
      exact .inr ⟨rfl, .inl ⟨htype, _, htext, rfl⟩⟩
    · cases hx
      exact .inr ⟨rfl, .inr ⟨htype, _, htext, rfl⟩⟩
  · have found : ∀ {y : Char} {s : String}, a.Shows .binary y → signs.lookup (String.ofList [y]) = some s →
        a.signOf? = .ok (some s) := by
      intro y s hshows hlookup
      obtain ⟨htype, ht⟩ := hshows.spelling
      unfold signOf?
      rw [if_pos htype, ht]
      exact congrArg Except.ok hlookup
    rintro (⟨rfl, h⟩ | ⟨rfl, h | h⟩)
    · exact ⟨"+", found h (by decide), rfl⟩
    · exact ⟨"-", found h (by decide), rfl⟩
    · exact ⟨"-", found h (by decide), rfl⟩

theorem startsWithDigit_iff : startsWithDigit row = .ok true ↔ ∃ a rest d, row = a :: rest ∧ a.ShowsDigit d := by
  cases row with
  | nil => simp [startsWithDigit]
  | cons a rest =>
    rw [startsWithDigit, isDigit_iff]
    constructor
    · rintro ⟨d, hd⟩
      exact ⟨a, rest, d, rfl, hd⟩
    · rintro ⟨b, rest, d, heq, hd⟩
      cases heq
      exact ⟨d, hd⟩

/-- An exponent starts with a digit, or with a sign in front of one. -/
theorem startsWithExponent_iff : startsWithExponent row = .ok true ↔ startsWithDigit row = .ok true ∨
    ∃ a rest s, row = a :: rest ∧ a.ShowsSign s ∧ startsWithDigit rest = .ok true := by
  constructor
  · intro h
    obtain ⟨_ | _, hdigit, -⟩ := bind_eq_ok.mp h
    · cases row with
      | nil => cases h
      | cons a rest =>
        obtain ⟨s, hs, hrest⟩ := sign_of_startsWithExponent h hdigit
        obtain ⟨-, x, -, hx⟩ := chars_of_signOf? hs
        exact .inr ⟨a, rest, x, rfl, signOf?_iff.mp ⟨s, hs, hx⟩, hrest⟩
    · exact .inl hdigit
  · rintro (hdigit | ⟨a, rest, x, rfl, hsign, hrest⟩)
    · unfold startsWithExponent
      rw [hdigit]
      rfl
    · obtain ⟨s, hs, -⟩ := signOf?_iff.mpr hsign
      have hdigit : startsWithDigit (a :: rest) = .ok false :=
        isDigit_of_ne_ordinary (by rw [type_of_signOf? hs]; decide)
      unfold startsWithExponent
      rw [hdigit]
      change (a.signOf? >>= _) = _
      rw [hs]
      exact hrest

/-! ### Steps -/

/-- An atom that is part of a numeral is taken. -/
theorem numeralStep_of_part (h : NumeralPart before a behind state added next) :
    numeralStep state before a behind = .ok (some (added, next)) := by
  cases h with
  | digit pointed hd ht =>
    rw [numeralStep_eq ht hd]
    rfl
  | point hd htype ht =>
    rw [numeralStep_eq ht hd]
    simp [htype]
  | comma pointed hd htype ht hbefore hstarts =>
    rw [numeralStep_eq ht hd, hstarts]
    rcases htype with htype | htype
    · simp [htype, hbefore, Except.map]
    · simp [htype, hbefore, Except.map]
  | @marker t pointed hd htype hmem ht hbefore hbare hstarts =>
    have hnone : ∀ t ∈ exponentMarkers, (t == ".") = false ∧ (t == ",") = false := by decide
    rw [numeralStep_eq ht hd, hstarts]
    simp [htype, hbefore, hbare, hnone t hmem, hmem, Except.map]
  | sign hs =>
    have htype := type_of_signOf? hs
    have hd : a.isDigit = .ok false := isDigit_of_ne_ordinary (by rw [htype]; decide)
    have ht : ∃ t, a.text = .ok (.text t) := by
      unfold signOf? at hs
      rw [if_pos htype, bind_eq_ok] at hs
      obtain ⟨text, htext, hs⟩ := hs
      obtain ⟨t, rfl, -⟩ := Datum.mem_of_lookup hs
      exact ⟨t, htext⟩
    obtain ⟨t, ht⟩ := ht
    rw [numeralStep_eq ht hd, hs]
    rfl
  | exponent hstate hd ht =>
    have hnone := signOf?_of_ne_binary (a := a) (by rw [(text_of_isDigit hd).1]; decide)
    rw [numeralStep_eq ht hd, hnone]
    cases state with
    | mantissa pointed => exact absurd rfl (hstate pointed)
    | sign => rfl
    | exponent => rfl

/-- A digit is taken in every state. -/
theorem numeralPart_of_digit (before : Bool) (behind : List Atom) (state : NumeralState) (h : a.ShowsDigit d) :
    ∃ next, NumeralPart before a behind state [d] next ∧ (∀ pointed, state = .mantissa pointed → next = state) ∧
      ((∀ pointed, state ≠ .mantissa pointed) → next = .exponent) := by
  have hd := isDigit_iff.mpr ⟨d, h⟩
  obtain ⟨-, t, ht, hchars⟩ := h.2
  rw [← hchars]
  cases state with
  | mantissa pointed => exact ⟨_, .digit pointed hd ht, fun _ _ => rfl, fun hne => absurd rfl (hne pointed)⟩
  | sign => exact ⟨_, .exponent nofun hd ht, nofun, fun _ => rfl⟩
  | exponent => exact ⟨_, .exponent nofun hd ht, nofun, fun _ => rfl⟩

/-! ### What a scan takes -/

theorem NumeralTail.ne_nil {taken : List Atom} {pointed : Bool} (h : NumeralTail (.mantissa pointed) taken cs) (hcs : cs ≠ []) :
    taken ≠ [] := by
  rintro rfl
  cases h
  exact hcs rfl

/-- A part of a numeral in front of a tail is a tail again.  What has to stand behind a comma or a sign is in the tail that
was taken, since digits are always taken. -/
theorem NumeralTail.cons {taken : List Atom} (hpart : NumeralPart before a behind state added next)
    (hstate : state = .sign → startsWithExponent (a :: behind) = .ok true) (htail : NumeralTail next taken cs)
    (hbehind : behind = taken ++ rest) (hdigit : startsWithDigit behind = .ok true → cs ≠ []) :
    NumeralTail state (a :: taken) (added ++ cs) := by
  cases hpart with
  | @digit t pointed hd ht =>
    obtain ⟨htype, d, hdigit, hchars⟩ := chars_of_isDigit ht hd
    rw [hchars]
    exact .digit ⟨hdigit, htype, t, ht, hchars⟩ htail
  | point hd htype ht => exact .point ⟨htype, _, ht, rfl⟩ htail
  | comma pointed hd htype ht hbefore hstarts =>
    obtain ⟨b, taken, rfl⟩ := List.exists_cons_of_ne_nil (htail.ne_nil (hdigit hstarts))
    obtain ⟨b, _, d, heq, hd⟩ := startsWithDigit_iff.mp hstarts
    cases hbehind ▸ heq
    refine .comma ?_ hd htail
    rcases htype with htype | htype
    · exact .inl ⟨htype, _, ht, rfl⟩
    · exact .inr ⟨htype, _, ht, rfl⟩
  | @marker t pointed hd htype hmem ht hbefore hbare hstarts =>
    refine .marker ?_ htail
    simp only [exponentMarkers, List.mem_cons, List.not_mem_nil, or_false] at hmem
    rcases hmem with rfl | rfl | rfl | rfl
    · exact ⟨'e', by simp, htype, _, ht, rfl⟩
    · exact ⟨'E', by simp, htype, _, ht, rfl⟩
    · exact ⟨'d', by simp, htype, _, ht, rfl⟩
    · exact ⟨'D', by simp, htype, _, ht, rfl⟩
  | @sign s hs =>
    obtain ⟨htype, x, -, hx⟩ := chars_of_signOf? hs
    have hd : a.isDigit = .ok false := isDigit_of_ne_ordinary (by rw [htype]; decide)
    obtain ⟨-, -, hnext⟩ := sign_of_startsWithExponent (hstate rfl) hd
    rw [hx]
    cases htail with
    | exponent hrow => exact .signed (signOf?_iff.mp ⟨s, hs, hx⟩) hrow (hdigit hnext)
  | @exponent _ t hne hd ht =>
    obtain ⟨htype, d, hdigit, hchars⟩ := chars_of_isDigit ht hd
    rw [hchars]
    cases htail with
    | exponent hrow =>
      have hdigits : DigitRow (a :: taken) (d :: cs) := .cons ⟨hdigit, htype, t, ht, hchars⟩ hrow
      cases state with
      | mantissa pointed => exact absurd rfl (hne pointed)
      | sign => exact .unsigned hdigits (List.cons_ne_nil d cs)
      | exponent => exact .exponent hdigits

/-- **What a scan takes from a state on may stand in a numeral from there.** -/
theorem tail_of_scan {atoms : List Atom} (hbare : ∀ a ∈ atoms, a.hasScripts = false) : ∀ {state : NumeralState}
    {chars : List Char} {last : Option Atom} {numeral : NumeralReading},
    (state = .sign → startsWithExponent atoms = .ok true) → scanNumeralFrom state chars last atoms = .ok numeral →
    ∃ taken cs, atoms = taken ++ numeral.rest ∧ numeral.chars = chars.reverse ++ cs ∧ NumeralTail state taken cs ∧
      (startsWithDigit atoms = .ok true → cs ≠ []) := by
  induction atoms with
  | nil =>
    intro state chars last numeral hstate h
    rw [scanNumeralFrom] at h
    cases h
    refine ⟨[], [], rfl, (List.append_nil _).symm, ?_, fun h => by cases h⟩
    cases state with
    | mantissa pointed => exact .nil pointed
    | sign => cases hstate rfl
    | exponent => exact .exponent .nil
  | cons a rest ih =>
    intro state chars last numeral hstate h
    rw [scanNumeralFrom] at h
    obtain ⟨found, hstep, h⟩ := bind_eq_ok.mp h
    cases found with
    | none =>
      have hno : ∀ {added next}, ¬NumeralPart (!chars.isEmpty) a rest state added next := fun hpart => by
        rw [numeralStep_of_part hpart] at hstep
        cases hstep
      have hnodigit : startsWithDigit (a :: rest) ≠ .ok true := fun hdigit => by
        obtain ⟨d, hd⟩ := isDigit_iff.mp hdigit
        obtain ⟨next, hpart, -⟩ := numeralPart_of_digit _ _ state hd
        exact hno hpart
      cases h
      refine ⟨[], [], rfl, (List.append_nil _).symm, ?_, fun hdigit => absurd hdigit hnodigit⟩
      cases state with
      | mantissa pointed => exact .nil pointed
      | sign =>
        rcases startsWithExponent_iff.mp (hstate rfl) with hdigit | ⟨_, _, s, heq, hsign, -⟩
        · exact absurd hdigit hnodigit
        · cases heq
          obtain ⟨t, ht, -⟩ := signOf?_iff.mpr hsign
          exact absurd (.sign ht) hno
      | exponent => exact .exponent .nil
    | some found =>
      obtain ⟨added, next⟩ := found
      have hpart := numeralPart_of_step hstep
      change (if a.hasScripts = true then _ else _) = _ at h
      rw [if_neg (by rw [hbare a List.mem_cons_self]; exact Bool.false_ne_true)] at h
      obtain ⟨taken, cs, hrest, hchars, htail, hdigit⟩ :=
        ih (fun b hb => hbare b (List.mem_cons_of_mem _ hb)) hpart.startsWithExponent h
      refine ⟨a :: taken, added ++ cs, by rw [List.cons_append, ← hrest], ?_, htail.cons hpart hstate hrest hdigit, ?_⟩
      · rw [hchars, List.reverse_append, List.reverse_reverse, List.append_assoc]
      · intro hstarts
        obtain ⟨d, hd⟩ := isDigit_iff.mp hstarts
        obtain ⟨next', hpart', -⟩ := numeralPart_of_digit (!chars.isEmpty) rest state hd
        have hsame := hstep.symm.trans (numeralStep_of_part hpart')
        cases hsame
        exact List.cons_ne_nil d cs

/-! ### What a scan does not leave -/

theorem scanNumeralFrom_cons {chars : List Char} {last : Option Atom} (hbare : a.hasScripts = false)
    (h : NumeralPart (!chars.isEmpty) a rest state added next) :
    scanNumeralFrom state chars last (a :: rest) = scanNumeralFrom next (added.reverse ++ chars) (some a) rest := by
  rw [scanNumeralFrom, numeralStep_of_part h]
  show (if a.hasScripts = true then _ else _) = _
  rw [if_neg (by rw [hbare]; exact Bool.false_ne_true)]

/-- Digits are taken in an exponent. -/
theorem DigitRow.scan {digits : List Atom} (h : DigitRow digits cs) : ∀ {state : NumeralState} {chars : List Char}
    {last : Option Atom}, (∀ a ∈ digits, a.hasScripts = false) → (∀ pointed, state ≠ .mantissa pointed) →
    ∃ state' last', scanNumeralFrom state chars last (digits ++ rest) =
      scanNumeralFrom state' (cs.reverse ++ chars) last' rest := by
  induction h with
  | nil => exact fun _ _ => ⟨_, _, rfl⟩
  | @cons a d row text hd _ ih =>
    intro state chars last hbare hstate
    obtain ⟨next, hpart, -, hnext⟩ := numeralPart_of_digit (!chars.isEmpty) (row ++ rest) state hd
    obtain rfl := hnext hstate
    obtain ⟨state', last', hscan⟩ := @ih .exponent (d :: chars) (some a) (fun b hb => hbare b (List.mem_cons_of_mem _ hb)) nofun
    refine ⟨state', last', ?_⟩
    rw [List.cons_append, scanNumeralFrom_cons (hbare a List.mem_cons_self) hpart]
    refine Eq.trans hscan ?_
    rw [List.reverse_cons, List.append_assoc]
    rfl

/-- A numeral starts with neither a comma nor a marker. -/
theorem StartsNumeral.head (h : StartsNumeral (a :: rest)) : ¬a.ShowsComma ∧ ¬a.ShowsMarker := by
  have hshown : ∃ x, a.Shows .ordinary x ∧ (x.isDigit = true ∨ x = '.') := by
    rcases h with ⟨_, _, d, heq, hd, hshows⟩ | ⟨_, _, _, _, heq, hshows, -⟩
    · cases heq
      exact ⟨d, hshows, .inl hd⟩
    · cases heq
      exact ⟨'.', hshows, .inr rfl⟩
  obtain ⟨x, hshows, hx⟩ := hshown
  constructor
  · rintro (h | h)
    · cases (hshows.unique h).1
    · obtain rfl := (hshows.unique h).2
      revert hx
      decide
  · rintro ⟨m, hm, h⟩
    obtain rfl := (hshows.unique h).2
    obtain ⟨hdigit, hpoint, -⟩ := marker_cases x hm
    rcases hx with hx | hx
    · rw [hdigit] at hx
      cases hx
    · exact hpoint hx

/-- What goes on behind a marker is an exponent to the reader, whatever follows. -/
theorem NumeralTail.startsWithExponent {row : List Atom} (h : NumeralTail .sign row cs) :
    Atom.startsWithExponent (row ++ rest) = .ok true := by
  have digits : ∀ {row : List Atom} {cs : List Char}, DigitRow row cs → cs ≠ [] →
      startsWithDigit (row ++ rest) = .ok true := by
    intro row cs h hne
    cases h with
    | nil => exact absurd rfl hne
    | cons hd _ => exact isDigit_iff.mpr ⟨_, hd⟩
  cases h with
  | unsigned h hne => exact startsWithExponent_iff.mpr (.inl (digits h hne))
  | signed hs h hne => exact startsWithExponent_iff.mpr (.inr ⟨_, _, _, rfl, hs, digits h hne⟩)

/-- **A scan takes all of what may stand in a numeral from its state on.** -/
theorem NumeralTail.scan {row : List Atom} (h : NumeralTail state row cs) : ∀ {chars : List Char} {last : Option Atom},
    (∀ a ∈ row, a.hasScripts = false) → (chars = [] → StartsNumeral (row ++ rest)) →
    ∃ state' last', scanNumeralFrom state chars last (row ++ rest) =
      scanNumeralFrom state' (cs.reverse ++ chars) last' rest := by
  induction h with
  | nil pointed => exact fun _ _ => ⟨_, _, rfl⟩
  | @digit pointed a d row text hd _ ih =>
    intro chars last hbare _
    obtain ⟨next, hpart, hnext, -⟩ := numeralPart_of_digit (!chars.isEmpty) (row ++ rest) (.mantissa pointed) hd
    obtain rfl := hnext pointed rfl
    obtain ⟨state', last', hscan⟩ := @ih (d :: chars) (some a) (fun b hb => hbare b (List.mem_cons_of_mem _ hb)) nofun
    refine ⟨state', last', ?_⟩
    rw [List.cons_append, scanNumeralFrom_cons (hbare a List.mem_cons_self) hpart]
    refine Eq.trans hscan ?_
    simp
  | @point a row text hp _ ih =>
    intro chars last hbare _
    have hpart : NumeralPart (!chars.isEmpty) a (row ++ rest) (.mantissa false) ['.'] (.mantissa true) :=
      .point (hp.isDigit_eq_false (by decide)) hp.1 hp.spelling.2
    obtain ⟨state', last', hscan⟩ := @ih ('.' :: chars) (some a) (fun b hb => hbare b (List.mem_cons_of_mem _ hb)) nofun
    refine ⟨state', last', ?_⟩
    rw [List.cons_append, scanNumeralFrom_cons (hbare a List.mem_cons_self) hpart]
    refine Eq.trans hscan ?_
    simp
  | @comma pointed a b d row text hc hd _ ih =>
    intro chars last hbare hstart
    have hchars : chars ≠ [] := fun h => (hstart h).head.1 hc
    have hpart : NumeralPart (!chars.isEmpty) a (b :: row ++ rest) (.mantissa pointed) [] (.mantissa pointed) := by
      refine .comma pointed ?_ ?_ ?_ (by simpa using hchars) (isDigit_iff.mpr ⟨d, hd⟩)
      · exact hc.elim (·.isDigit_eq_false (by decide)) (·.isDigit_eq_false (by decide))
      · exact hc.imp (·.1) (·.1)
      · exact hc.elim (·.spelling.2) (·.spelling.2)
    obtain ⟨state', last', hscan⟩ := @ih chars (some a) (fun b hb => hbare b (List.mem_cons_of_mem _ hb)) (absurd · hchars)
    refine ⟨state', last', ?_⟩
    rw [List.cons_append, scanNumeralFrom_cons (hbare a List.mem_cons_self) hpart]
    exact hscan
  | @marker pointed a row text hm hrow ih =>
    intro chars last hbare hstart
    have hchars : chars ≠ [] := fun h => (hstart h).head.2 hm
    have hpart : NumeralPart (!chars.isEmpty) a (row ++ rest) (.mantissa pointed) ['e'] .sign := by
      obtain ⟨m, hmem, hshows⟩ := hm
      obtain ⟨hdigit, -, hmarker⟩ := marker_cases m hmem
      exact .marker pointed (hshows.isDigit_eq_false hdigit) hshows.1 hmarker hshows.spelling.2 (by simpa using hchars)
        (hbare a List.mem_cons_self) hrow.startsWithExponent
    obtain ⟨state', last', hscan⟩ := @ih ('e' :: chars) (some a) (fun b hb => hbare b (List.mem_cons_of_mem _ hb)) nofun
    refine ⟨state', last', ?_⟩
    rw [List.cons_append, scanNumeralFrom_cons (hbare a List.mem_cons_self) hpart]
    refine Eq.trans hscan ?_
    simp
  | unsigned hrow _ => exact fun hbare _ => hrow.scan hbare nofun
  | @signed a s row text hs hrow _ =>
    intro chars last hbare _
    obtain ⟨t, ht, hchars⟩ := signOf?_iff.mpr hs
    obtain ⟨state', last', hscan⟩ := @DigitRow.scan rest text row hrow .exponent (s :: chars) (some a)
      (fun b hb => hbare b (List.mem_cons_of_mem _ hb)) nofun
    refine ⟨state', last', ?_⟩
    rw [List.cons_append, scanNumeralFrom_cons (hbare a List.mem_cons_self) (.sign ht), hchars]
    refine Eq.trans hscan ?_
    simp
  | exponent hrow => exact fun hbare _ => hrow.scan hbare nofun

/-! ### Numerals and tails -/

/-- An exponent, or none, may stand behind every mantissa. -/
theorem tail_of_exponent {row : List Atom} (h : row = [] ∧ cs = [] ∨ ExponentRow row cs) (pointed : Bool) :
    NumeralTail (.mantissa pointed) row cs := by
  rcases h with ⟨rfl, rfl⟩ | h
  · exact .nil pointed
  · cases h with
    | unsigned hm hrow hne => exact .marker hm (.unsigned hrow hne)
    | signed hm hs hrow hne => exact .marker hm (.signed hs hrow hne)

/-- A mantissa goes on with what stands behind it. -/
theorem MantissaRow.tail {row exponent : List Atom} {m x : List Char} (h : MantissaRow row m)
    (hx : ∀ pointed, NumeralTail (.mantissa pointed) exponent x) : ∀ pointed : Bool, m.count '.' ≤ (if pointed then 0 else 1) →
      NumeralTail (.mantissa pointed) (row ++ exponent) (m ++ x) := by
  induction h with
  | nil => exact fun pointed _ => hx pointed
  | @digit a d row m hd _ ih =>
    intro pointed hcount
    have hne : d ≠ '.' := by
      rintro rfl
      exact absurd hd.1 (by decide)
    rw [List.count_cons_of_ne hne] at hcount
    exact .digit hd (ih pointed hcount)
  | point hp _ ih =>
    intro pointed hcount
    rw [List.count_cons_self] at hcount
    cases pointed with
    | true => simp at hcount
    | false => exact .point hp (ih true (by simpa using hcount))
  | comma hc hd _ ih => exact fun pointed hcount => .comma hc hd (ih pointed hcount)

theorem IsNumeral.tail {row : List Atom} (h : IsNumeral row cs) : NumeralTail (.mantissa false) row cs := by
  obtain ⟨mantissa, exponent, m, x, rfl, rfl, hm, -, hcount, hx⟩ := h
  exact hm.tail (tail_of_exponent hx) false (by simpa using hcount)

/-- A tail of a mantissa is the rest of a mantissa and an exponent, and a digit in front belongs to the mantissa. -/
theorem NumeralTail.split {row : List Atom} (h : NumeralTail state row cs) : ∀ {pointed : Bool}, state = .mantissa pointed →
    ∃ (mantissa exponent : List Atom) (m x : List Char), row = mantissa ++ exponent ∧ cs = m ++ x ∧
      MantissaRow mantissa m ∧ m.count '.' ≤ (if pointed then 0 else 1) ∧
      (exponent = [] ∧ x = [] ∨ ExponentRow exponent x) ∧
      (startsWithDigit row = .ok true → m.any Char.isDigit = true) := by
  induction h with
  | nil => exact fun _ => ⟨[], [], [], [], rfl, rfl, .nil, Nat.zero_le _, .inl ⟨rfl, rfl⟩, nofun⟩
  | @digit _ a d row text hd _ ih =>
    intro pointed hstate
    obtain ⟨mantissa, exponent, m, x, rfl, rfl, hm, hcount, hx, -⟩ := ih hstate
    have hne : d ≠ '.' := by
      rintro rfl
      exact absurd hd.1 (by decide)
    refine ⟨a :: mantissa, exponent, d :: m, x, rfl, rfl, .digit hd hm, ?_, hx, fun _ => by simp [hd.1]⟩
    rwa [List.count_cons_of_ne hne]
  | @point a row text hp _ ih =>
    intro pointed hstate
    cases hstate
    obtain ⟨mantissa, exponent, m, x, rfl, rfl, hm, hcount, hx, -⟩ := ih rfl
    refine ⟨a :: mantissa, exponent, '.' :: m, x, rfl, rfl, .point hp hm, ?_, hx, fun hdigit => ?_⟩
    · rw [List.count_cons_self]
      exact Nat.succ_le_succ hcount
    · have hno : a.isDigit = .ok true := hdigit
      rw [hp.isDigit_eq_false (by decide)] at hno
      cases hno
  | @comma _ a b d row text hc hd _ ih =>
    intro pointed hstate
    obtain ⟨mantissa, exponent, m, x, hrow, rfl, hm, hcount, hx, hany⟩ := ih hstate
    have hdigit := hany (isDigit_iff.mpr ⟨d, hd⟩)
    -- the digit behind the comma is in the mantissa
    cases mantissa with
    | nil =>
      cases hm
      cases hdigit
    | cons b' mantissa =>
      cases hrow
      exact ⟨a :: b :: mantissa, exponent, m, x, rfl, rfl, .comma hc hd hm, hcount, hx, fun _ => hdigit⟩
  | @marker _ a row text hm hrow ih =>
    intro pointed hstate
    refine ⟨[], a :: row, [], 'e' :: text, rfl, rfl, .nil, Nat.zero_le _, .inr ?_, fun hdigit => ?_⟩
    · cases hrow with
      | unsigned hrow hne => exact .unsigned hm hrow hne
      | signed hs hrow hne => exact .signed hm hs hrow hne
    · obtain ⟨m, hmem, hshows⟩ := hm
      have hno : a.isDigit = .ok true := hdigit
      rw [hshows.isDigit_eq_false (marker_cases m hmem).1] at hno
      cases hno
  | unsigned | signed | exponent => exact nofun

/-- **What may stand in a numeral from its start on is one**, if a numeral may start there. -/
theorem NumeralTail.isNumeral {row : List Atom} (h : NumeralTail (.mantissa false) row cs) (hstart : StartsNumeral row) :
    IsNumeral row cs := by
  rcases hstart with ⟨a, rest, d, rfl, hd⟩ | ⟨a, b, rest, d, rfl, hp, hd⟩
  · obtain ⟨mantissa, exponent, m, x, hrow, hcs, hm, hcount, hx, hany⟩ := h.split rfl
    exact ⟨mantissa, exponent, m, x, hrow, hcs, hm, hany (isDigit_iff.mpr ⟨d, hd⟩), by simpa using hcount, hx⟩
  · have hhead := StartsNumeral.head (.inr ⟨a, b, rest, d, rfl, hp, hd⟩)
    cases h with
    | digit hd' _ =>
      obtain rfl := (hp.unique hd'.2).2
      exact absurd hd'.1 (by decide)
    | comma hc => exact absurd hc hhead.1
    | marker hm => exact absurd hm hhead.2
    | point _ htail =>
      obtain ⟨mantissa, exponent, m, x, hrow, rfl, hm, hcount, hx, hany⟩ := htail.split rfl
      have hany := hany (isDigit_iff.mpr ⟨d, hd⟩)
      refine ⟨a :: mantissa, exponent, '.' :: m, x, by rw [hrow]; rfl, rfl, .point hp hm, ?_, ?_, hx⟩
      · rw [List.any_cons, hany, Bool.or_true]
      · rw [List.count_cons_self]
        exact Nat.succ_le_succ hcount

/-! ### The longest numeral -/

/-- The atoms taken are a numeral in front of the row, which is written so, and no longer one is there. -/
structure TakesNumeral (row taken : List Atom) (text : List Char) : Prop where
  front : taken <+: row
  numeral : IsNumeral taken text
  longest : ∀ {other : List Atom} {text' : List Char}, other <+: row → IsNumeral other text' → other.length ≤ taken.length

theorem length_rest_le {atoms : List Atom} {chars : List Char} {last : Option Atom} {numeral : NumeralReading}
    (h : scanNumeralFrom state chars last atoms = .ok numeral) : numeral.rest.length ≤ atoms.length := by
  rcases scanNumeralFrom_rest atoms h with rfl | ⟨b, -, hs⟩
  · exact Nat.le_refl _
  · exact Nat.le_of_succ_le hs.length_le

/-- **The scan takes the longest numeral.** -/
theorem scanNumeral_takes (hworded : ∀ a ∈ row, a.Worded) (hbare : ∀ a ∈ row, a.hasScripts = false)
    (hstart : StartsNumeral row) : ∃ numeral taken, scanNumeral row = .ok numeral ∧ row = taken ++ numeral.rest ∧
      TakesNumeral row taken numeral.chars := by
  obtain ⟨numeral, hscan⟩ := scanNumeral_worded hworded
  change scanNumeralFrom (.mantissa false) [] none row = .ok numeral at hscan
  obtain ⟨taken, cs, hrow, hchars, htail, -⟩ := tail_of_scan hbare (fun h => by cases h) hscan
  rw [List.reverse_nil, List.nil_append] at hchars
  have htaken : ∀ {other : List Atom} {text' : List Char}, other <+: row → NumeralTail (.mantissa false) other text' →
      other.length ≤ taken.length := by
    rintro other text' ⟨rest, rfl⟩ hother
    obtain ⟨state, last, hsame⟩ := @NumeralTail.scan rest _ _ _ hother [] none
      (fun a ha => hbare a (List.mem_append_left _ ha)) fun _ => hstart
    have hrest := length_rest_le (hsame.symm.trans hscan)
    have hlength := congrArg List.length hrow
    simp only [List.length_append] at hlength
    omega
  -- the atoms at which the numeral starts are taken, so that it starts there as well
  have hstart' : StartsNumeral taken := by
    rcases hstart with ⟨a, rest, d, rfl, hd⟩ | ⟨a, b, rest, d, rfl, hp, hd⟩
    · have hlength : [a].length ≤ taken.length := htaken ⟨rest, rfl⟩ (.digit hd (.nil false))
      obtain _ | ⟨a', taken⟩ := taken
      · simp at hlength
      · cases hrow
        exact .inl ⟨a, taken, d, rfl, hd⟩
    · have hlength : [a, b].length ≤ taken.length := htaken ⟨rest, rfl⟩ (.point hp (.digit hd (.nil true)))
      obtain _ | ⟨a', _ | ⟨b', taken⟩⟩ := taken
      · simp at hlength
      · simp at hlength
      · cases hrow
        exact .inr ⟨a, b, taken, d, rfl, hp, hd⟩
  refine ⟨numeral, taken, hscan, hrow, ⟨numeral.rest, hrow.symm⟩, ?_, fun hother hnumeral => htaken hother hnumeral.tail⟩
  rw [hchars]
  exact htail.isNumeral hstart'

/-- The items from a place on are items of the row. -/
theorem mem_of_onward? {atoms : List Atom} {place : Int} (h : Places.onward? atoms place = some row) (ha : a ∈ row) :
    a ∈ atoms := by
  unfold Places.onward? at h
  dsimp only at h
  split at h
  · cases h
  · cases h
    rcases List.mem_append.mp ha with ha | ha
    · exact List.mem_of_mem_drop ha
    · split at ha
      · exact ha
      · cases ha

/-- **From every place at which a numeral may start the longest one is taken**, and the place behind it is given. -/
theorem scanNumeralAt_takes {atoms : List Atom} {place : Int} (hworded : ∀ a ∈ atoms, a.Worded)
    (hbare : ∀ a ∈ atoms, a.hasScripts = false) (hrow : Places.onward? atoms place = some row)
    (hstart : StartsNumeral row) : ∃ taken text,
      scanNumeralAt atoms place = .ok (String.ofList text, place + taken.length) ∧ TakesNumeral row taken text := by
  have hmem : ∀ a ∈ row, a ∈ atoms := fun a => mem_of_onward? hrow
  obtain ⟨numeral, taken, hscan, hsplit, htakes⟩ :=
    scanNumeral_takes (fun a ha => hworded a (hmem a ha)) (fun a ha => hbare a (hmem a ha)) hstart
  refine ⟨taken, numeral.chars, ?_, htakes⟩
  have hlength : row.length - numeral.rest.length = taken.length := by
    rw [hsplit, List.length_append, Nat.add_sub_cancel]
  unfold scanNumeralAt
  rw [hrow]
  show (do
    let read ← scanNumeral row
    return (String.ofList read.chars, place + ((row.length - read.rest.length : Nat) : Int))) = _
  rw [hscan]
  show Except.ok _ = _
  rw [hlength]

/-- A letter, a grouped mantissa that ends in a point, an exponent with a long minus, and a comma behind it. -/
def numeralRow : List Atom :=
  [(.ordinary, "x"), (.ordinary, "1"), (.punctuation, ","), (.ordinary, "2"), (.ordinary, "."), (.ordinary, "E"),
    (.binary, "−"), (.ordinary, "5"), (.ordinary, ","), (.ordinary, "0")].map fun p => { type := p.1, value := .text p.2 }

theorem scanNumeralAt_takes_grouped :
    (∀ a ∈ numeralRow, a.Worded) ∧ (∀ a ∈ numeralRow, a.hasScripts = false) ∧
      Places.onward? numeralRow 1 = some (numeralRow.drop 1) ∧ StartsNumeral (numeralRow.drop 1) ∧
      ∃ taken text, scanNumeralAt numeralRow 1 = .ok (String.ofList text, 1 + taken.length) ∧
        TakesNumeral (numeralRow.drop 1) taken text ∧ String.ofList text = "12.e-5" ∧ taken.length = 7 := by
  have hplain : ∀ a ∈ numeralRow, a.Worded ∧ a.hasScripts = false := by
    intro a ha
    obtain ⟨p, -, rfl⟩ := List.mem_map.mp ha
    exact ⟨⟨⟨_, rfl⟩, .inl rfl, .inl rfl, .inl rfl, .inl rfl, .inl rfl⟩, rfl⟩
  have hworded : ∀ a ∈ numeralRow, a.Worded := fun a ha => (hplain a ha).1
  have hbare : ∀ a ∈ numeralRow, a.hasScripts = false := fun a ha => (hplain a ha).2
  have hstart : StartsNumeral (numeralRow.drop 1) := .inl ⟨_, _, '1', rfl, by decide, rfl, "1", rfl, rfl⟩
  have honward : Places.onward? numeralRow 1 = some (numeralRow.drop 1) := rfl
  obtain ⟨taken, text, hscan, htakes⟩ := scanNumeralAt_takes hworded hbare honward hstart
  have hread : scanNumeralAt numeralRow 1 = .ok ("12.e-5", 8) := by rfl
  have hsame := Prod.mk.inj (Except.ok.inj (hscan.symm.trans hread))
  exact ⟨hworded, hbare, honward, hstart, taken, text, hscan, htakes, hsame.1, by omega⟩

end Atom

end Formula
