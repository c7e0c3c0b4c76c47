import Formula.Proofs.Reader.Discipline

/-!
# Atoms in words

The fields of an atom that ought to be texts are payload values.  An atom is worded if they are texts, or null where
they may be left out.  In a catalog that names its tokens by texts every question about a worded atom has an answer.
-/

namespace Formula

open Text Atom Expr

/-! ### Texts among the values -/

namespace Datum

/-- The value is a text. -/
def IsText (d : Datum) : Prop := ∃ s, d = .text s

/-- The value is a text or left out. -/
def IsOptionalText (d : Datum) : Prop := d = .null ∨ d.IsText

theorem IsText.key {d : Datum} (h : d.IsText) : d.key = .ok d := by
  obtain ⟨s, rfl⟩ := h
  rfl

theorem IsOptionalText.key {d : Datum} (h : d.IsOptionalText) : d.key = .ok d := by
  rcases h with rfl | h
  · rfl
  · exact h.key

theorem IsOptionalText.lookup {α : Type} {d : Datum} (h : d.IsOptionalText) (table : List (String × α)) :
    ∃ found, d.lookup table = .ok found := by
  unfold Datum.lookup
  rw [h.key]
  exact ⟨_, rfl⟩

theorem IsText.lookup {α : Type} {d : Datum} (h : d.IsText) (table : List (String × α)) :
    ∃ found, d.lookup table = .ok found := IsOptionalText.lookup (.inr h) table

theorem IsOptionalText.isOneOf {d : Datum} (h : d.IsOptionalText) (names : List String) :
    ∃ is, d.isOneOf names = .ok is := by
  unfold Datum.isOneOf
  rw [h.key]
  exact ⟨_, rfl⟩

theorem IsText.isOneOf {d : Datum} (h : d.IsText) (names : List String) : ∃ is, d.isOneOf names = .ok is :=
  IsOptionalText.isOneOf (.inr h) names

/-- A text that has an entry is a text. -/
theorem isText_of_lookup {α : Type} {d : Datum} {table : List (String × α)} {v : α}
    (h : d.lookup table = .ok (some v)) : d.IsText := by
  unfold Datum.lookup Datum.key at h
  split at h
  · cases h
  · cases d with
    | text s => exact ⟨s, rfl⟩
    | _ => cases h

/-- A value that has an entry is the text of that entry. -/
theorem mem_of_lookup {α : Type} {d : Datum} {table : List (String × α)} {v : α} (h : d.lookup table = .ok (some v)) :
    ∃ t, d = .text t ∧ (t, v) ∈ table := by
  obtain ⟨t, rfl⟩ := isText_of_lookup h
  have hlookup : table.lookup t = some v := Except.ok.inj h
  obtain ⟨before, behind, heq, -⟩ := List.lookup_eq_some_iff.mp hlookup
  exact ⟨t, rfl, heq ▸ List.mem_append_right _ List.mem_cons_self⟩

theorem eq_of_key {d key : Datum} (h : d.key = .ok key) : key = d := by
  unfold Datum.key at h
  split at h
  · cases h
  · exact (Except.ok.inj h).symm

/-- One of the texts is a text. -/
theorem mem_of_isOneOf {d : Datum} {names : List String} (h : d.isOneOf names = .ok true) : ∃ t ∈ names, d = .text t := by
  obtain ⟨key, hkey, h⟩ := Outcome.map_eq_ok.mp h
  rw [eq_of_key hkey] at h
  cases d with
  | text t => exact ⟨t, List.contains_iff_mem.mp h, rfl⟩
  | _ => cases h

theorem isText_of_isText {d : Datum} {s : String} (h : d.isText s = true) : d.IsText := by
  cases d with
  | text t => exact ⟨t, rfl⟩
  | _ => cases h

/-- What stands for something is not replaced. -/
theorem orElse_of_not_isVoid {d : Datum} (h : d.isVoid = false) (d' : Datum) : d.orElse d' = d := by
  unfold Datum.orElse
  rw [h]
  rfl

theorem IsOptionalText.orElse {d : Datum} (h : d.IsOptionalText) (s : String) : (d.orElse (.text s)).IsText := by
  unfold Datum.orElse
  rcases h with rfl | ⟨t, rfl⟩
  · exact ⟨s, rfl⟩
  · split
    · exact ⟨s, rfl⟩
    · exact ⟨t, rfl⟩

end Datum

/-- The catalog names tokens by texts. -/
structure Catalog.Worded (c : Catalog) : Prop where
  names : ∀ e ∈ c.names, e.2.IsText
  symbols : ∀ e ∈ c.symbols, e.2.IsText

theorem Catalog.worded_builtin : Catalog.builtin.Worded := by
  have table : ∀ entries : List (String × String), ∀ e ∈ textTable entries, e.2.IsText := by
    intro entries e he
    simp only [textTable, Table.ofTexts, List.map_map, List.mem_map, Function.comp_apply] at he
    obtain ⟨p, -, rfl⟩ := he
    exact ⟨p.2, rfl⟩
  exact ⟨table _, table _⟩

theorem Catalog.Worded.nameOfTrimmed {c : Catalog} (hc : c.Worded) (token : String) : (c.nameOfTrimmed token).IsText := by
  have found : ∀ {t : Table Datum} {d : Datum}, (∀ e ∈ t, e.2.IsText) → t.find? token = some d → d.IsText := by
    intro t d ht h
    obtain ⟨e, he, rfl⟩ := Option.map_eq_some_iff.mp h
    exact ht e (List.mem_of_find?_eq_some he)
  unfold Catalog.nameOfTrimmed
  split
  · rename_i name h
    exact found hc.names h
  · split
    · rename_i char h
      exact found hc.symbols h
    · split
      · exact ⟨_, rfl⟩
      · exact ⟨_, rfl⟩

/-! ### Worded atoms -/

namespace Atom

/-- The text fields of the atom are texts, or null where they may be left out. -/
structure Worded (a : Atom) : Prop where
  value : a.value.IsText
  latex : a.latex.IsOptionalText
  delim : a.delim.IsOptionalText
  leftDelim : a.leftDelim.IsOptionalText
  rightDelim : a.rightDelim.IsOptionalText
  font : a.font.IsOptionalText

variable {c : Catalog} {a b : Atom}

theorem Worded.text (h : a.Worded) : ∃ s, a.text = .ok (.text s) := by
  obtain ⟨v, hv⟩ := h.value
  unfold Atom.text
  rcases h.latex with hl | ⟨s, hl⟩
  · rw [hl, hv]
    exact ⟨v, rfl⟩
  · rw [hl, hv]
    split
    · exact ⟨v, rfl⟩
    · dsimp only
      split
      · exact ⟨v, rfl⟩
      · exact ⟨_, rfl⟩

theorem Worded.name (hc : c.Worded) (h : a.Worded) : ∃ s, a.name c = .ok (.text s) := by
  obtain ⟨t, ht⟩ := h.text
  unfold Atom.name Catalog.canonicalNameOf
  rw [ht]
  obtain ⟨s, hs⟩ := hc.nameOfTrimmed ""
  obtain ⟨s', hs'⟩ := hc.nameOfTrimmed (trim t)
  refine ⟨if (Datum.text t).isVoid then s else s', ?_⟩
  show (if (Datum.text t).isVoid = true then _ else _) = _
  split
  · rw [hs]
  · exact congrArg Except.ok hs'

theorem Worded.precedence (hc : c.Worded) (h : a.Worded) : ∃ p, a.precedence c = .ok p := by
  obtain ⟨s, hs⟩ := h.name hc
  unfold Atom.precedence
  rw [hs]
  split
  · exact ⟨_, rfl⟩
  · exact ⟨_, rfl⟩

theorem Worded.sign? (hc : c.Worded) (h : a.Worded) : ∃ s, a.sign? c = .ok s := by
  obtain ⟨s, hs⟩ := h.name hc
  unfold Atom.sign?
  rw [hs]
  split
  · exact ⟨_, rfl⟩
  · exact ⟨_, rfl⟩

theorem Worded.isFunction (hc : c.Worded) (h : a.Worded) : ∃ is, a.isFunction c = .ok is := by
  obtain ⟨s, hs⟩ := h.name hc
  obtain ⟨t, ht⟩ := h.text
  unfold Atom.isFunction
  rw [hs, ht]
  show ∃ is, (if (c.precedence (.text s)).isSome = true then _ else _) = _
  split
  · exact ⟨_, rfl⟩
  · cases a.type with
    | operator => exact ⟨_, rfl⟩
    | _ => exact ⟨_, rfl⟩

theorem Worded.isDigit (h : a.Worded) : ∃ is, a.isDigit = .ok is := by
  obtain ⟨t, ht⟩ := h.text
  unfold Atom.isDigit
  rw [ht]
  split
  · exact ⟨_, rfl⟩
  · exact ⟨_, rfl⟩

theorem Worded.signOf? (h : a.Worded) : ∃ s, a.signOf? = .ok s := by
  obtain ⟨t, ht⟩ := h.text
  unfold Atom.signOf?
  rw [ht]
  split
  · exact ⟨_, rfl⟩
  · exact ⟨_, rfl⟩

/-! ### Fences -/

theorem Worded.closes (h : a.Worded) (closer : Closer) : ∃ is, a.closes closer = .ok is := by
  obtain ⟨t, ht⟩ := h.text
  unfold Atom.closes Atom.glyph
  rw [ht]
  split
  · split
    · exact ⟨_, rfl⟩
    · exact ⟨_, rfl⟩
  · exact ⟨_, rfl⟩

theorem Worded.closesAny (h : a.Worded) : ∀ closers : List Closer, ∃ is, a.closesAny closers = .ok is
  | [] => ⟨_, rfl⟩
  | closer :: rest => by
    obtain ⟨is, his⟩ := h.closes closer
    obtain ⟨any, hany⟩ := h.closesAny rest
    unfold Atom.closesAny
    rw [his, hany]
    cases is with
    | true => exact ⟨_, rfl⟩
    | false => exact ⟨_, rfl⟩

theorem Worded.opener? (h : a.Worded) : ∃ found, a.opener? = .ok found := by
  obtain ⟨t, ht⟩ := h.text
  unfold Atom.opener?
  rw [ht]
  split
  · exact ⟨_, rfl⟩
  · exact ⟨_, rfl⟩
  · obtain ⟨found, hfound⟩ := h.delim.lookup Glyph.partners
    rw [hfound]
    exact ⟨_, rfl⟩
  · exact ⟨_, rfl⟩

/-- The fence that an atom opens: its delimiter and what closes it.  A bracket needs no partner. -/
inductive Opens (a : Atom) : Datum → Closer → Prop
  | bracket {text : Datum} {p : Option String} : a.type = .opening → a.text = .ok text →
    text.lookup Glyph.partners = .ok p → Opens a text ⟨.closing, p⟩
  | textual {text : Datum} {p : String} : a.type = .textual → a.text = .ok text →
    text.lookup Glyph.partners = .ok (some p) → Opens a text ⟨.textual, some p⟩
  | sized {p : String} : a.type = .sized → a.delim.lookup Glyph.partners = .ok (some p) →
    Opens a a.delim ⟨.sized, some p⟩

theorem opener?_of_type (ht : a.type ∉ [.opening, .textual, .sized]) : a.opener? = .ok none := by
  unfold opener?
  split
  · exact absurd (by simp [*]) ht
  · exact absurd (by simp [*]) ht
  · exact absurd (by simp [*]) ht
  · rfl

theorem opens_of_opener? {left : Datum} {closer : Closer} (h : a.opener? = .ok (some (left, closer))) :
    Opens a left closer := by
  unfold opener? at h
  split at h
  · rename_i ht
    obtain ⟨text, htext, h⟩ := Outcome.bind_eq_ok.mp h
    obtain ⟨p, hp, h⟩ := Outcome.bind_eq_ok.mp h
    cases h
    exact .bracket ht htext hp
  · rename_i ht
    obtain ⟨text, htext, h⟩ := Outcome.bind_eq_ok.mp h
    obtain ⟨_ | p, hp, h⟩ := Outcome.bind_eq_ok.mp h
    · cases h
    · cases h
      exact .textual ht htext hp
  · rename_i ht
    obtain ⟨_ | p, hp, h⟩ := Outcome.bind_eq_ok.mp h
    · cases h
    · cases h
      exact .sized ht hp
  · cases h

/-- What opens a fence is a text. -/
theorem Worded.isText_of_opener? (h : a.Worded) {left : Datum} {closer : Closer}
    (hopen : a.opener? = .ok (some (left, closer))) :
    left.IsText ∧ (closer.type = .sized → ∃ s, closer.glyph = some s) := by
  obtain ⟨t, ht⟩ := h.text
  cases opens_of_opener? hopen with
  | bracket _ htext _ =>
    cases ht.symm.trans htext
    exact ⟨⟨t, rfl⟩, fun hs => by cases hs⟩
  | textual _ _ hp => exact ⟨Datum.isText_of_lookup hp, fun hs => by cases hs⟩
  | sized _ hp => exact ⟨Datum.isText_of_lookup hp, fun _ => ⟨_, rfl⟩⟩

/-- What closes a fence is a text. -/
theorem Worded.glyph_of_closes (h : a.Worded) {closer : Closer} (hsized : closer.type = .sized → ∃ s, closer.glyph = some s)
    (hcloses : a.closes closer = .ok true) : ∃ s, a.glyph = .ok (.text s) := by
  obtain ⟨t, ht⟩ := h.text
  unfold Atom.closes at hcloses
  split at hcloses
  · rename_i htype
    by_cases hs : a.type = .sized
    · obtain ⟨s, hglyph⟩ := hsized (htype ▸ hs)
      unfold Atom.glyph at hcloses ⊢
      rw [if_pos hs] at hcloses ⊢
      rw [hglyph] at hcloses
      obtain ⟨u, hu⟩ := Datum.isText_of_isText (Except.ok.inj hcloses)
      exact ⟨u, by rw [hu]⟩
    · unfold Atom.glyph
      rw [if_neg hs, ht]
      exact ⟨t, rfl⟩
  · cases hcloses

theorem Worded.startsOperand (hc : c.Worded) (h : a.Worded) (closers : List Closer) :
    ∃ is, a.startsOperand c closers = .ok is := by
  obtain ⟨closed, hclosed⟩ := h.closesAny closers
  obtain ⟨p, hp⟩ := h.precedence hc
  obtain ⟨t, ht⟩ := h.text
  obtain ⟨partner, hpartner⟩ := h.delim.lookup Glyph.partners
  obtain ⟨closing, hclosing⟩ := h.delim.isOneOf Glyph.closers
  obtain ⟨found, hfound⟩ := Datum.IsText.lookup ⟨t, rfl⟩ Glyph.partners
  unfold Atom.startsOperand
  rw [hclosed, hp, hpartner, hclosing, ht]
  cases closed with
  | true => exact ⟨_, rfl⟩
  | false =>
    cases p with
    | some _ => exact ⟨_, rfl⟩
    | none =>
      show ∃ is, (if operandTypes.contains a.type = true then _ else _) = _
      split
      · exact ⟨_, rfl⟩
      · cases a.type with
        | sized => exact ⟨_, rfl⟩
        | textual =>
          refine ⟨found.isSome, ?_⟩
          show (do return (← (Datum.text t).lookup Glyph.partners).isSome) = _
          rw [hfound]
          rfl
        | _ => exact ⟨_, rfl⟩

theorem delimiterFunction?_text {left right : Datum} (hl : left.IsText) (hr : right.IsText) :
    ∃ name, delimiterFunction? left right = .ok name := by
  obtain ⟨l, rfl⟩ := hl
  obtain ⟨r, rfl⟩ := hr
  exact ⟨_, rfl⟩

/-! ### Digraphs and marks -/

theorem Worded.digraph? (ha : a.Worded) (hb : b.Worded) : ∃ name, Atom.digraph? a b = .ok name := by
  obtain ⟨s, hs⟩ := ha.text
  obtain ⟨t, ht⟩ := hb.text
  unfold Atom.digraph?
  rw [hs, ht]
  split
  · exact ⟨_, rfl⟩
  · exact ⟨_, rfl⟩

/-- Two atoms that are a digraph, of which the first carries no scripts. -/
theorem mem_of_digraph? {name : String} (h : Atom.digraph? a b = .ok (some name)) :
    a.hasScripts = false ∧ ∃ l r, a.text = .ok (.text l) ∧ b.text = .ok (.text r) ∧ ((l, r), name) ∈ Glyph.digraphs := by
  unfold Atom.digraph? at h
  split at h
  · cases h
  · rename_i hbare
    obtain ⟨left, hleft, h⟩ := Outcome.bind_eq_ok.mp h
    obtain ⟨right, hright, h⟩ := Outcome.bind_eq_ok.mp h
    obtain ⟨left', hleft', h⟩ := Outcome.bind_eq_ok.mp h
    obtain ⟨right', hright', h⟩ := Outcome.bind_eq_ok.mp h
    rw [Datum.eq_of_key hleft', Datum.eq_of_key hright'] at h
    cases left with
    | text l =>
      cases right with
      | text r =>
        have hlookup : Glyph.digraphs.lookup (l, r) = some name := Except.ok.inj h
        obtain ⟨before, after, heq, -⟩ := List.lookup_eq_some_iff.mp hlookup
        exact ⟨Bool.eq_false_iff.mpr hbare, l, r, hleft, hright, heq ▸ List.mem_append_right _ List.mem_cons_self⟩
      | _ => cases h
    | _ => cases h

/-- What starts with a digraph starts with two atoms that are one. -/
theorem digraph_of_startsWithDigraph? {names : List String} {row : List Atom} {name : String}
    (h : startsWithDigraph? names row = .ok (some name)) :
    ∃ a b rest, row = a :: b :: rest ∧ Atom.digraph? a b = .ok (some name) ∧ names.contains name = true := by
  match row, h with
  | a :: b :: rest, h =>
    obtain ⟨found, hfound, h⟩ := Outcome.bind_eq_ok.mp h
    cases found with
    | none => cases h
    | some name' =>
      dsimp only at h
      split at h
      · cases h
        exact ⟨a, b, rest, rfl, hfound, ‹_›⟩
      · cases h

theorem startsWithDigraph?_worded (names : List String) : ∀ {row : List Atom}, (∀ a ∈ row, a.Worded) →
    ∃ name, startsWithDigraph? names row = .ok name
  | [], _ => ⟨_, rfl⟩
  | [_], _ => ⟨_, rfl⟩
  | a :: b :: rest, h => by
    obtain ⟨name, hname⟩ := (h a List.mem_cons_self).digraph? (h b (List.mem_cons_of_mem _ List.mem_cons_self))
    rw [startsWithDigraph?, hname]
    cases name with
    | none => exact ⟨_, rfl⟩
    | some name => exact ⟨_, rfl⟩

theorem Worded.postfixFunction? (h : a.Worded) : ∃ name, a.postfixFunction? = .ok name := by
  obtain ⟨t, ht⟩ := h.text
  unfold Atom.postfixFunction?
  rw [ht]
  split
  · exact ⟨_, rfl⟩
  · exact ⟨_, rfl⟩

/-! ### Symbols and texts -/

theorem Worded.variant (h : a.Worded) : ∃ v, a.variant = .ok v := by
  obtain ⟨found, hfound⟩ := (h.font.orElse "").lookup variants
  unfold Atom.variant
  rw [hfound]
  cases found with
  | none => exact ⟨_, rfl⟩
  | some v => exact ⟨_, rfl⟩

theorem Worded.symbol_of_name (h : a.Worded) {s : String} (hs : a.name c = .ok (.text s)) :
    ∃ name v, a.symbol c = .ok (.ofSymbol (.text name) v) := by
  obtain ⟨v, hv⟩ := h.variant
  obtain ⟨t, ht⟩ := h.value
  unfold Atom.symbol
  rw [hs, hv]
  show ∃ name v, (if (beginsWith s "\\" && !a.value.isVoid) = true then _ else _) = _
  split
  · rename_i hcond
    rw [ht] at hcond ⊢
    obtain ⟨d, hd⟩ : ∃ d, (Datum.text t).first = .ok (.text d) := by
      cases hl : t.toList with
      | nil =>
        have : t = "" := String.toList_eq_nil_iff.mp hl
        rw [this] at hcond
        exact absurd hcond (by simp [Datum.isVoid])
      | cons c rest => exact ⟨c.toString, by simp only [Datum.first, hl]⟩
    rw [hd]
    exact ⟨d, v, rfl⟩
  · exact ⟨s, v, rfl⟩

theorem Worded.symbol (hc : c.Worded) (h : a.Worded) : ∃ name v, a.symbol c = .ok (.ofSymbol (.text name) v) := by
  obtain ⟨s, hs⟩ := h.name hc
  exact h.symbol_of_name hs

/-! ### What is made of an atom -/

open Outcome

/-- Symbols are made without scripts. -/
theorem symbol_eq_ok {e : Expr} (h : a.symbol c = .ok e) : ∃ name v, e = ofSymbol name v := by
  obtain ⟨name, -, h⟩ := bind_eq_ok.mp h
  cases name with
  | text s =>
    change (if (beginsWith s "\\" && !a.value.isVoid) = true then _ else _) = _ at h
    split at h
    all_goals
      obtain ⟨d, -, h⟩ := bind_eq_ok.mp h
      obtain ⟨v, -, h⟩ := bind_eq_ok.mp h
      cases h
      exact ⟨d, v, rfl⟩
  | _ => cases h

/-- An atom in a font gives a text or a symbol. -/
theorem inFont_eq_ok {e : Expr} (h : a.inFont = .ok e) :
    ∃ content : String, e = ofText content ∨ ∃ v, e = ofSymbol content v := by
  obtain ⟨content, -, h⟩ := bind_eq_ok.mp h
  obtain ⟨isText, -, h⟩ := bind_eq_ok.mp h
  cases isText with
  | true =>
    cases h
    exact ⟨content, .inl rfl⟩
  | false =>
    obtain ⟨v, -, h⟩ := bind_eq_ok.mp h
    cases h
    exact ⟨content, .inr ⟨v, rfl⟩⟩

theorem asText_eq_ok {e : Expr} (h : a.asText = .ok e) : ∃ content, e = ofText content := by
  unfold Atom.asText at h
  split at h
  · obtain ⟨content, -, h⟩ := bind_eq_ok.mp h
    cases h
    exact ⟨_, rfl⟩
  · cases h
    exact ⟨_, rfl⟩

theorem unexpected_eq_ok {e : Expr} (h : a.unexpected = .ok e) :
    ∃ placeholder message, a.text = .ok placeholder ∧ e = unreadable placeholder (.text message) := by
  obtain ⟨t, ht, h⟩ := bind_eq_ok.mp h
  cases h
  exact ⟨t, _, ht, rfl⟩

/-! ### Rows as texts -/

theorem joinTexts_text : ∀ (parts : List Datum) (index : Nat), (∀ d ∈ parts, d.IsText) →
    ∃ s, joinTexts index parts = .ok s
  | [], _, _ => ⟨_, rfl⟩
  | d :: rest, index, h => by
    obtain ⟨t, rfl⟩ := h d List.mem_cons_self
    obtain ⟨s, hs⟩ := joinTexts_text rest (index + 1) fun d hd => h d (List.mem_cons_of_mem _ hd)
    unfold joinTexts
    rw [hs]
    exact ⟨_, rfl⟩

theorem mapM_ok {α β : Type} {f : α → Outcome β} {P : β → Prop} : ∀ {xs : List α},
    (∀ x ∈ xs, ∃ y, f x = .ok y ∧ P y) → ∃ ys, xs.mapM f = .ok ys ∧ ∀ y ∈ ys, P y
  | [], _ => ⟨[], rfl, fun _ h => by cases h⟩
  | x :: xs, h => by
    obtain ⟨y, hy, hP⟩ := h x List.mem_cons_self
    obtain ⟨ys, hys, hPs⟩ := mapM_ok fun x hx => h x (List.mem_cons_of_mem _ hx)
    refine ⟨y :: ys, ?_, ?_⟩
    · rw [List.mapM_cons, hy, hys]
      rfl
    · intro z hz
      rcases List.mem_cons.mp hz with rfl | hz
      · exact hP
      · exact hPs z hz

/-- The text of a row of worded atoms; spaces have none. -/
theorem plainText_worded {row : List Atom} (h : ∀ a ∈ unspaced row, a.Worded) : ∃ s, plainText row = .ok s := by
  obtain ⟨parts, hparts, htexts⟩ := @mapM_ok _ _
    (fun a : Atom => if a.value.isVoid then a.text else .ok a.value) Datum.IsText
    (row.filter fun a => a.type = .ordinary || a.type = .textual || a.type = .text) (by
      intro a ha
      obtain ⟨hrow, htype⟩ := List.mem_filter.mp ha
      have hspace : a.type ≠ .spacing := by
        intro hs
        rw [hs] at htype
        exact absurd htype (by decide)
      have hw := h a (List.mem_filter.mpr ⟨hrow, decide_eq_true hspace⟩)
      obtain ⟨t, ht⟩ := hw.text
      split
      · exact ⟨_, ht, t, rfl⟩
      · exact ⟨_, rfl, hw.value⟩)
  obtain ⟨s, hs⟩ := joinTexts_text parts 0 htexts
  refine ⟨s, ?_⟩
  unfold plainText
  dsimp only
  rw [hparts]
  exact hs

end Atom

end Formula
