import Formula.Proofs.Expr.Form
import Formula.Proofs.Reader.Total

/-!
# The form of what is read

The reader keeps its trees orderly, so that an orderly tree is all that can come of a formula in words, in any catalog.  That
is a discipline of its rows: whatever faults a question may have, an answer leads to orderly trees again.
-/

namespace Formula

open Atom Expr Outcome

variable {c : Catalog} {atoms : List Atom}

/-- What is said of the values of an outcome, if nothing is of its faults. -/
theorem Outcome.Within.of_values {α : Type} {P : α → Prop} {r : Outcome α} (h : ∀ v, r = .ok v → P v) :
    r.Within (fun _ => True) P := by
  cases r with
  | ok v => exact h v rfl
  | error f => exact trivial

/-- The delimiters of a fence in words are texts. -/
theorem Expr.orderly_delimited {left right : Datum} {e e' : Expr} (hl : left.IsText) (hr : right.IsText) (he : e.Orderly)
    (h : delimited left right e = .ok e') : e'.Orderly := by
  obtain ⟨l, rfl⟩ := hl
  obtain ⟨r, rfl⟩ := hr
  exact he.delimited h

/-- A symbol in front of arguments is one of two. -/
theorem Expr.name_of_callName? {name variant : Datum} {s t : Expr} (h : callName? (symbol name variant s t) = .ok true) :
    name = .text "f" ∨ name = .text "g" := by
  obtain ⟨d, hkey, hname⟩ := map_eq_ok.mp h
  obtain rfl : name = d := by
    unfold Datum.key at hkey
    split at hkey
    · cases hkey
    · exact Except.ok.inj hkey
  cases name with
  | text s =>
    have hmem : s ∈ ["f", "g"] := List.contains_iff_mem.mp hname
    simpa using hmem
  | _ => cases hname

/-- Formulas in words are read as orderly trees. -/
theorem Discipline.orderly (c : Catalog) (hw : ∀ a, Inside atoms a → a.Worded) :
    Discipline c (fun _ => True) (Part atoms) Orderly where
  part h hs := h.run hs
  unspaced h := by
    rw [h.unspaced_eq]
    exact h
  nested h hfield := h.nested (List.mem_singleton.mpr rfl) hfield
  precedence _ := .of_values fun _ _ => trivial
  operation _ _ := .of_values fun op _ _ _ hl hr => hl.binary op hr
  sign _ := .of_values fun _ _ _ _ _ he => he.withSign
  product hl hr := hl.binary _ hr
  sum hl hr := hl.binary _ hr
  juxtapose hl hr := hl.juxtapose hr
  missing := .missing
  startsOperand _ := .of_values fun _ _ => trivial
  placeholder _ _ := .unreadable _ _
  symbol _ _ := .of_values fun e h => by
    obtain ⟨name, v, rfl⟩ := symbol_eq_ok h
    exact .symbol name v .missing .missing
  inFont _ _ := .of_values fun e h => by
    obtain ⟨content, rfl | ⟨v, rfl⟩⟩ := inFont_eq_ok h
    · exact .ofText _
    · exact .symbol _ v .missing .missing
  asText _ _ := .of_values fun e h => by
    obtain ⟨content, rfl⟩ := asText_eq_ok h
    exact .ofText content
  quotient hl hr := hl.quotient hr
  squareRoot he := he.squareRoot
  power he hi := he.power hi
  attach he hs ht := he.attach hs ht
  unexpected _ := .of_values fun e h => by
    obtain ⟨placeholder, message, -, rfl⟩ := unexpected_eq_ok h
    exact .unreadable placeholder _
  startsNumber _ := .of_values fun _ _ => trivial
  numeral _ _ := .of_values fun _ _ => trivial
  literal _ _ _ _ _ := .of_values fun e h => by
    obtain ⟨x, rfl⟩ := literalOf_eq_ok h
    exact .number _ .missing .missing
  mixed _ _ := .of_values fun _ _ => trivial
  digraph _ := .of_values fun _ _ _ _ _ he => he.apply _
  postfix? _ := .of_values fun _ _ _ _ _ he => he.apply _
  isFunction _ _ := .of_values fun _ _ => trivial
  functionName _ _ := .of_values fun name _ => Orderly.missing.apply name
  argument h he' := .of_values fun _ hinverse => h.applyInverse he' hinverse
  closesAny _ := .of_values fun _ _ => trivial
  closes _ := .of_values fun _ _ => trivial
  opener _ := .of_values fun _ _ => trivial
  fenced h _ he := .of_values fun _ hdelimited =>
    orderly_delimited ((h.head_worded hw).leftDelim.orElse ".") ((h.head_worded hw).rightDelim.orElse ".") he hdelimited
  unclosed h hopen he := .of_values fun _ hdelimited =>
    orderly_delimited ((h.head_worded hw).isText_of_opener? hopen).1 ⟨_, rfl⟩ he hdelimited
  closed h hopen h' hcloses he := .of_values fun _ hglyph => .of_values fun _ hdelimited => by
    obtain ⟨hleft, hsized⟩ := (h.head_worded hw).isText_of_opener? hopen
    obtain ⟨s, hs⟩ := (h'.head_worded hw).glyph_of_closes hsized hcloses
    rw [hs] at hglyph
    cases hglyph
    exact orderly_delimited hleft ⟨s, rfl⟩ he hdelimited
  callName _ := .of_values fun _ _ => trivial
  arguments _ := .of_values fun _ _ => trivial
  commas _ := .of_values fun _ _ => trivial
  callOf h hname hitems := .callOf (name_of_callName? hname) hitems h.sup h.sub

/-- **The reader builds trees of one form.**  Whatever catalog a formula in words is read with, all nodes of its tree are
regular: scripts stand on numbers, symbols, groups and calls alone, roots have no index, the arguments of a call come as
several expressions only for `f` and `g`, without empty places, and for the power that a root with an index is, and the
delimiters of a group are two texts. -/
theorem regular_of_ofAtoms {c : Catalog} {atoms : List Atom} {e : Expr} (hw : ∀ a, Inside atoms a → a.Worded)
    (h : ofAtoms c atoms = .ok e) : ∃ nodes, e.walk = .ok nodes ∧ ∀ k ∈ nodes, Regular k := by
  rw [ofAtoms_eq] at h
  have horderly : e.Orderly := (Call.settled (Discipline.orderly c hw) (.whole atoms) .whole).within.of_ok h
  exact horderly.walk

/-- The call of a function with two arguments, letter by letter. -/
def callRow : List Atom := [
  { type := .ordinary, value := .text "f" }, { type := .opening, value := .text "(" },
  { type := .ordinary, value := .text "x" }, { type := .punctuation, value := .text "," },
  { type := .ordinary, value := .text "y" }, { type := .closing, value := .text ")" }]

/-- What it is read as. -/
def callTree : Expr := apply (.text "f") (tuple [ofSymbol (.text "x") .null, ofSymbol (.text "y") .null])

theorem regular_of_ofAtoms_callRow :
    (∀ a, Inside callRow a → a.Worded) ∧ ofAtoms .builtin callRow = .ok callTree ∧
      ∃ nodes, callTree.walk = .ok nodes ∧ ∀ k ∈ nodes, Regular k := by
  have hw : ∀ a, Inside callRow a → a.Worded := by
    intro a ha
    have hmem := mem_of_inside (fun b hb field hfield => by
      simp only [callRow, List.mem_cons, List.not_mem_nil, or_false] at hb
      rcases hb with rfl | rfl | rfl | rfl | rfl | rfl
      all_goals
        simp only [fields, List.mem_cons, List.not_mem_nil, or_false, or_self] at hfield
        rw [hfield]
        rfl) ha
    simp only [callRow, List.mem_cons, List.not_mem_nil, or_false] at hmem
    rcases hmem with rfl | rfl | rfl | rfl | rfl | rfl
    all_goals exact worded_of_plain
  have hread : ofAtoms .builtin callRow = .ok callTree := by rfl
  exact ⟨hw, hread, regular_of_ofAtoms hw hread⟩

end Formula
