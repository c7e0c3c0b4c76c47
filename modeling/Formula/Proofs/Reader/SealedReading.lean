import Formula.Proofs.Expr.Sealed
import Formula.Proofs.Reader.HeightLimits
import Formula.Proofs.Reader.TreeForm

/-!
# Braces of converted sources

The texts that atoms bring along become labels of the tree, or names of its symbols.  If they are sealed, `SealedTexts`, the
tree is tidy, and what is written of it is sealed as long as the names of its symbols are.  This cannot be left out: a mark
whose canonical name is a command, such as `\dag`, is read as a symbol by the first character of its value, which is the
backslash, and a font may put a reference to a character together.
-/

namespace Formula

open Atom Expr Outcome Format

/-! ### Delimiters -/

namespace Expr

/-- A sealed text is written as a sealed delimiter. -/
theorem isSealedDelimiter_of_isSealed {d : Datum} (h : d.IsSealed) : IsSealedDelimiter d := by
  obtain ⟨s, rfl, hs⟩ := h
  unfold IsSealedDelimiter delimiterLatex
  split
  · exact show IsSealed "\\\x7b" by decide
  · exact show IsSealed "\\\x7d" by decide
  · exact within_ok isSealed_empty
  · rename_i heq
    obtain rfl := Datum.text.inj heq
    exact within_ok hs
  · rename_i hother
    exact absurd rfl (hother s)

/-- The fence of the reader for two sealed delimiters, or the call that stands for it. -/
theorem within_delimited {left right : Datum} (hl : IsSealedDelimiter left) (hr : IsSealedDelimiter right) {e : Expr}
    (h : Tidy e) : (delimited left right e).Within (fun _ => True) Tidy := by
  have hfunctions : ∀ e ∈ Glyph.delimiterFunctions, IsSealed e.2 := by decide
  exact .of_values fun _ heq =>
    h.delimited (fun e he => isTidy_function (hfunctions e he)) (isTidy_fence hl hr) isTidy_parentheses heq

theorem isSealedDelimiter_partners : ∀ e ∈ Glyph.partners,
    IsSealedDelimiter (.text e.1) ∧ IsSealedDelimiter (.text e.2) := by decide

end Expr

/-! ### Texts of atoms -/

namespace Atom

/-- The texts that the atom brings along are sealed: its spelling, its canonical name, its value and, as they are written,
the delimiters of a fence. -/
structure SealedTexts (a : Atom) : Prop where
  text : a.text.Within (fun _ => True) Datum.IsSealed
  name : (a.name .builtin).Within (fun _ => True) Datum.IsSealed
  value : a.value.IsSealed
  left : IsSealedDelimiter (a.leftDelim.orElse ".")
  right : IsSealedDelimiter (a.rightDelim.orElse ".")

instance (a : Atom) : Decidable a.SealedTexts :=
  decidable_of_iff (a.text.Within (fun _ => True) Datum.IsSealed ∧ (a.name .builtin).Within (fun _ => True) Datum.IsSealed ∧
    a.value.IsSealed ∧ IsSealedDelimiter (a.leftDelim.orElse ".") ∧ IsSealedDelimiter (a.rightDelim.orElse "."))
    ⟨fun ⟨htext, hname, hvalue, hleft, hright⟩ => ⟨htext, hname, hvalue, hleft, hright⟩,
      fun h => ⟨h.text, h.name, h.value, h.left, h.right⟩⟩

variable {a b : Atom}

/-- What opens a fence and what closes it are written as sealed delimiters. -/
theorem SealedTexts.opener (h : a.SealedTexts) {left : Datum} {closer : Closer}
    (hopen : a.opener? = .ok (some (left, closer))) :
    IsSealedDelimiter left ∧ (∀ g ∈ closer.glyph, IsSealedDelimiter (.text g)) ∧
      (closer.type = .sized → closer.glyph.isSome = true) := by
  have partner : ∀ {d : Datum} {found : Option String}, d.lookup Glyph.partners = .ok found →
      ∀ g ∈ found, IsSealedDelimiter d ∧ IsSealedDelimiter (.text g) := by
    rintro d _ hlookup g rfl
    obtain ⟨t, rfl, hmem⟩ := Datum.mem_of_lookup hlookup
    exact isSealedDelimiter_partners _ hmem
  cases opens_of_opener? hopen with
  | bracket _ htext hp =>
    exact ⟨isSealedDelimiter_of_isSealed (h.text.of_ok htext), fun g hg => (partner hp g hg).2, fun hs => by cases hs⟩
  | textual _ _ hp => exact ⟨(partner hp _ rfl).1, fun g hg => (partner hp g hg).2, fun hs => by cases hs⟩
  | sized _ hp => exact ⟨(partner hp _ rfl).1, fun g hg => (partner hp g hg).2, fun _ => rfl⟩

/-- The glyph of what closes a fence. -/
theorem SealedTexts.closing (h : b.SealedTexts) {closer : Closer} (hglyph : ∀ g ∈ closer.glyph, IsSealedDelimiter (.text g))
    (hsized : closer.type = .sized → closer.glyph.isSome = true) (hcloses : b.closes closer = .ok true) :
    b.glyph.Within (fun _ => True) IsSealedDelimiter := by
  unfold Atom.closes at hcloses
  unfold Atom.glyph at hcloses ⊢
  by_cases htype : b.type = .sized
  · rw [if_pos htype] at hcloses ⊢
    split at hcloses
    · rename_i hcloser
      obtain ⟨g, hg⟩ := Option.isSome_iff_exists.mp (hsized (hcloser ▸ htype))
      rw [hg] at hcloses
      have hdelim : b.delim = .text g := Datum.eq_text_of_isText (Except.ok.inj hcloses)
      rw [hdelim]
      exact within_ok (hglyph g hg)
    · cases hcloses
  · rw [if_neg htype]
    exact h.text.imp (fun _ hf => hf) fun _ => isSealedDelimiter_of_isSealed

theorem yieldsSealed_joinTexts : ∀ {parts : List Datum} (index : Nat), (∀ d ∈ parts, d.IsSealed) →
    YieldsSealed (joinTexts index parts)
  | [], _, _ => within_ok isSealed_empty
  | d :: parts, index, h => by
    obtain ⟨s, rfl, hs⟩ := h d List.mem_cons_self
    exact Within.bind (P := IsSealed) (yieldsSealed_joinTexts (index + 1) fun e he => h e (List.mem_cons_of_mem _ he))
      fun rest hrest => within_ok (hs.append hrest)

/-- The texts of a row one behind the other. -/
theorem yieldsSealed_plainText {row : List Atom} (h : ∀ a ∈ row, a.type ≠ .spacing → a.SealedTexts) :
    YieldsSealed (plainText row) := by
  refine (Within.mapM fun a ha => ?_).bind fun parts hparts => yieldsSealed_joinTexts 0 hparts
  obtain ⟨hmem, htype⟩ := List.mem_filter.mp ha
  have hsealed := h a hmem fun hspace => by
    rw [hspace] at htype
    exact absurd htype (by decide)
  split
  · exact hsealed.text
  · exact within_ok hsealed.value

end Atom

/-! ### The reader -/

namespace Atom

variable {atoms : List Atom} (hsealed : ∀ a, Inside atoms a → a.type ≠ .spacing → a.SealedTexts)

include hsealed

theorem Part.sealedTexts {a : Atom} (h : Part atoms [a]) : a.SealedTexts := by
  refine hsealed a (h.inside a (List.mem_singleton.mpr rfl)) ?_
  have hmem : a ∈ unspaced [a] := by
    rw [h.unspaced_eq]
    exact List.mem_singleton.mpr rfl
  exact ne_spacing_of_mem_unspaced hmem

theorem Part.sealedBody {a : Atom} (h : Part atoms [a]) : YieldsSealed (Atom.plainText (a.body.getD [])) := by
  have hbody : a.body ∈ a.fields := by simp [fields]
  refine yieldsSealed_plainText fun b hb => hsealed b ?_
  exact .deeper (h.inside a (List.mem_singleton.mpr rfl)) hbody hb

end Atom

/-- The canonical name of an operator is that of a built-in one. -/
theorem Atom.within_operation {a : Atom} {p : Int} (h : a.precedence .builtin = .ok (some p)) :
    (a.name .builtin).Within (fun _ => True) fun name => ∃ op, name = .text op ∧ op ∈ operatorNames := by
  unfold Atom.precedence at h
  split at h
  · obtain ⟨name, hname, h⟩ := bind_eq_ok.mp h
    obtain ⟨key, hkey, hfind⟩ := map_eq_ok.mp h
    rw [Datum.eq_of_key hkey] at hfind
    obtain ⟨e, he, -⟩ := Option.map_eq_some_iff.mp hfind
    obtain ⟨entry, hentry, rfl⟩ := List.mem_map.mp (List.mem_of_find?_eq_some he)
    have hsame : (Datum.text entry.1).same name = true :=
      List.find?_some (p := fun e : Datum × Int => e.1.same name) he
    refine .of_eq_ok hname ⟨entry.1, ?_, List.mem_map.mpr ⟨entry, hentry, rfl⟩⟩
    cases name with
    | text s => rw [eq_of_beq hsame]
    | _ => cases hsame
  · cases h

/-- A sign is one of the two. -/
theorem Atom.eq_of_sign? {a : Atom} {c : Catalog} {found : Option String} (h : a.sign? c = .ok found) {sign : String}
    (hsign : sign ∈ found) : sign = "+" ∨ sign = "-" := by
  unfold Atom.sign? at h
  split at h
  · obtain ⟨name, -, h⟩ := bind_eq_ok.mp h
    cases h
    simpa using (Option.filter_eq_some_iff.mp hsign).2
  · cases h
    cases hsign

theorem isSealed_inverses : ∀ e ∈ inverses, IsSealed e.2 := by decide

theorem isSealed_digraphs : ∀ e ∈ Glyph.digraphs, IsSealed e.2 := by decide

theorem isSealed_postfixFunctions : ∀ e ∈ Glyph.postfixFunctions, IsSealed e.2 := by decide +kernel

/-- Formulas with sealed texts are read as tidy trees. -/
theorem Discipline.tidy {atoms : List Atom} (hsealed : ∀ a, Inside atoms a → a.type ≠ .spacing → a.SealedTexts) :
    Discipline .builtin (fun _ => True) (Part atoms) Tidy where
  part h hs := h.run hs
  unspaced h := by
    rw [h.unspaced_eq]
    exact h
  nested h hfield := h.nested (List.mem_singleton.mpr rfl) hfield
  precedence _ := .of_values fun _ _ => trivial
  operation _ hp := (within_operation hp).imp (fun _ hf => hf) fun name hname l r hl hr => by
    obtain ⟨op, rfl, hop⟩ := hname
    exact hl.between (isTidy_operator hop) hr
  sign _ := .of_values fun found h sign hsign e he => by
    refine he.withSign (isTidy_sign ?_)
    rcases eq_of_sign? h hsign with rfl | rfl <;> decide
  product hl hr := hl.between (isTidy_operator (by decide)) hr
  sum hl hr := hl.between (isTidy_operator (by decide)) hr
  juxtapose hl hr := hl.juxtapose (isTidy_operator (by decide)) hr
  missing := .missing
  startsOperand _ := .of_values fun _ _ => trivial
  placeholder _ _ := .unreadable (isTidy_placeholder isSealed_empty) _
  symbol _ _ := .of_values fun e h => by
    obtain ⟨name, v, rfl⟩ := symbol_eq_ok h
    exact .ofSymbol trivial v
  inFont h _ := Within.bind (P := IsSealed) (h.sealedBody hsealed) fun content hcontent => .of_values fun e he => by
    obtain ⟨isText, -, he⟩ := bind_eq_ok.mp he
    cases isText with
    | true =>
      cases he
      exact .ofText (isTidy_content hcontent)
    | false =>
      obtain ⟨v, -, he⟩ := bind_eq_ok.mp he
      cases he
      exact .ofSymbol trivial v
  asText {a} h _ := .choice
    (fun _ => Within.bind (P := IsSealed) (h.sealedBody hsealed) fun content hcontent =>
      within_ok (.ofText (isTidy_content hcontent)))
    (fun _ => by
      obtain ⟨content, hvalue, hcontent⟩ := (h.sealedTexts hsealed).value
      rw [hvalue]
      exact within_ok (.ofText (isTidy_content hcontent)))
  quotient hl hr := hl.quotient hr
  squareRoot he := he.squareRoot
  power he hi := he.power (isTidy_function (by decide)) isTidy_parentheses hi
  attach he hs ht := he.attach isTidy_parentheses hs ht
  unexpected h := (h.sealedTexts hsealed).text.bind fun text htext => by
    obtain ⟨s, rfl, hs⟩ := htext
    exact within_ok (.unreadable (isTidy_placeholder hs) _)
  startsNumber _ := .of_values fun _ _ => trivial
  numeral _ _ := .of_values fun _ _ => trivial
  literal _ _ _ _ _ := .of_values fun e h => by
    obtain ⟨x, rfl⟩ := literalOf_eq_ok h
    exact .number _ .missing .missing
  mixed _ _ := .of_values fun _ _ => trivial
  digraph _ := .of_values fun found h name hname e he => by
    obtain rfl := Option.mem_def.mp hname
    obtain ⟨a, b, rest, -, hdigraph, -⟩ := digraph_of_startsWithDigraph? h
    obtain ⟨-, l, r, -, -, hmem⟩ := mem_of_digraph? hdigraph
    exact he.apply (isTidy_function (isSealed_digraphs _ hmem)) isTidy_parentheses
  postfix? _ := .of_values fun found h name hname e he => by
    obtain rfl := Option.mem_def.mp hname
    unfold Atom.postfixFunction? at h
    split at h
    · obtain ⟨text, -, h⟩ := bind_eq_ok.mp h
      obtain ⟨key, -, hmem⟩ := Datum.mem_of_lookup h
      exact he.apply (isTidy_function (isSealed_postfixFunctions _ hmem)) isTidy_parentheses
    · cases h
  isFunction _ _ := .of_values fun _ _ => trivial
  functionName h _ := (h.sealedTexts hsealed).name.imp (fun _ hf => hf) fun name hname => by
    obtain ⟨s, rfl, hs⟩ := hname
    exact Labelled.missing.apply (isTidy_function hs) isTidy_parentheses
  argument h he' := .of_values fun _ heq =>
    h.applyInverse (fun e he => isTidy_function (isSealed_inverses e he)) he' heq
  closesAny _ := .of_values fun _ _ => trivial
  closes _ := .of_values fun _ _ => trivial
  opener _ := .of_values fun _ _ => trivial
  fenced h _ he := within_delimited (h.sealedTexts hsealed).left (h.sealedTexts hsealed).right he
  unclosed {a left closer e} h hopen he := by
    obtain ⟨hleft, hglyph, -⟩ := (h.sealedTexts hsealed).opener hopen
    refine within_delimited hleft ?_ he
    cases hg : closer.glyph with
    | none => exact isSealedDelimiter_of_isSealed ⟨"", rfl, isSealed_empty⟩
    | some g => exact hglyph g hg
  closed h hopen h' hcloses he := by
    obtain ⟨hleft, hglyph, hsized⟩ := (h.sealedTexts hsealed).opener hopen
    exact ((h'.sealedTexts hsealed).closing hglyph hsized hcloses).imp (fun _ hf => hf) fun right hright =>
      within_delimited hleft hright he
  callName _ := .of_values fun _ _ => trivial
  arguments _ := .of_values fun _ _ => trivial
  commas _ := .of_values fun _ _ => trivial
  callOf h hname hitems := by
    refine .callOf ?_ isTidy_parentheses hitems h.sup h.sub
    rcases name_of_callName? hname with rfl | rfl <;> exact isTidy_function (by decide)

/-- A formula with sealed texts is read as a tidy tree, if it is read at all. -/
theorem tidy_of_ofAtoms {atoms : List Atom} {e : Expr} (hsealed : ∀ a, Inside atoms a → a.type ≠ .spacing → a.SealedTexts)
    (h : ofAtoms .builtin atoms = .ok e) : Tidy e := by
  rw [ofAtoms_eq] at h
  exact (Call.settled (Discipline.tidy hsealed) (.whole atoms) .whole).within.of_ok h

/-! ### Conversion -/

/-- What is converted is read from the atoms of the source, and written from the tree of the atoms. -/
theorem of_convert {s : Settings} {c : Catalog} {source : String} {out : Conversion}
    (h : convert s c (.text source) = .ok out) : ∃ atoms tree, Source.atoms c source = .ok atoms ∧
      ofAtoms c atoms = .ok tree ∧ tree.latex s.format c = .ok out.latex := by
  obtain ⟨tree, htree, h⟩ := bind_eq_ok.mp h
  obtain ⟨warnings, -, h⟩ := bind_eq_ok.mp h
  obtain ⟨latex, hlatex, h⟩ := bind_eq_ok.mp h
  cases h
  obtain ⟨atoms, hread, -, hatoms⟩ := parseLatex_eq_ok htree
  refine ⟨atoms, tree, ?_, hatoms, hlatex⟩
  obtain ⟨read, hsource, hdepth⟩ := bind_eq_ok.mp hread
  split at hdepth
  · cases hdepth
  · cases hdepth
    exact map_eq_ok.mpr ⟨read, hsource, rfl⟩

end Formula
