import Formula.Expr.Outline
import Formula.Proofs.Text.Literals

/-!
# The lines of outlines

An outline is read from its start.  A node stands on a line of its own with its kind and its labels, each of which tells its
end; the names of its children follow, each on a line two blanks further to the right than the node, with the outline of the
child behind it four blanks further to the right.  So an outline ends in front of the first line that begins further to the
left, and with something of that kind behind it, it is the outline of one tree only (`IsTree.isReadable`).
-/

namespace Formula

open Number Text

/-! ### Lines -/

/-- There is nothing behind, or a line that begins in front of the column. -/
def EndsBelow (column : Nat) (rest : List Char) : Prop :=
  rest = [] ∨ ∃ k c more, rest = '\n' :: (List.replicate k ' ' ++ c :: more) ∧ c ≠ ' ' ∧ k < column

theorem EndsBelow.mono {column wider : Nat} {rest : List Char} (h : EndsBelow column rest) (hle : column ≤ wider) :
    EndsBelow wider rest := by
  rcases h with rfl | ⟨k, c, more, rfl, hc, hk⟩
  · exact .inl rfl
  · exact .inr ⟨k, c, more, rfl, hc, by omega⟩

theorem endsBelow_line {column k : Nat} {c : Char} (hc : c ≠ ' ') (hk : k < column) (more : List Char) :
    EndsBelow column ('\n' :: (List.replicate k ' ' ++ c :: more)) := .inr ⟨k, c, more, rfl, hc, hk⟩

/-- A line that begins at the column or behind it is not there. -/
theorem EndsBelow.ne_line {column k : Nat} {rest : List Char} (h : EndsBelow column rest) {c : Char} (hc : c ≠ ' ')
    (hk : column ≤ k) (more : List Char) : rest ≠ '\n' :: (List.replicate k ' ' ++ c :: more) := by
  rintro rfl
  rcases h with h | ⟨j, d, other, heq, hd, hj⟩
  · cases h
  · have hblank : ∀ i, ∀ e ∈ List.replicate i ' ', ¬ e ≠ ' ' := fun i e he hne => hne (List.eq_of_mem_replicate he)
    have hlength := congrArg List.length (split_first (hblank k) (hblank j) hc hd (List.cons.inj heq).2).1
    rw [List.length_replicate, List.length_replicate] at hlength
    omega

/-- Behind blanks no line ends. -/
theorem blanks_ne_line {k : Nat} {c : Char} (hc : c ≠ '\n') {x y : List Char} : List.replicate k ' ' ++ c :: x ≠ '\n' :: y := by
  cases k with
  | zero => exact fun h => hc (List.cons.inj h).1
  | succ k => exact fun h => absurd (List.cons.inj h).1 (by decide)

theorem toList_intercalate_cons (separator s : String) (texts : List String) :
    (separator.intercalate (s :: texts)).toList = s.toList ++ texts.flatMap fun t => separator.toList ++ t.toList := by
  induction texts generalizing s with
  | nil => rw [String.intercalate_singleton, List.flatMap_nil, List.append_nil]
  | cons t texts ih =>
    rw [String.intercalate_cons_cons, String.toList_append, String.toList_append, ih, List.flatMap_cons]
    simp only [List.append_assoc]

theorem toList_padding (n : Nat) : (padding n).toList = List.replicate (2 * n) ' ' := by
  rw [padding, String.toList_ofList]
  congr 1

namespace Datum

/-! ### Trees as records -/

/-- The kinds of nodes with the names of their fields other than the scripts. -/
def nodeFields : List (String × List String) := [
  ("NumberLiteral", ["value"]), ("Symbol", ["name", "variant"]), ("Text", ["content"]), ("Group", ["inner", "fence"]),
  ("BinaryOp", ["op", "lhs", "rhs"]), ("UnaryOp", ["op", "operand"]), ("FunctionCall", ["name", "arg", "fence"]),
  ("Fraction", ["numerator", "denominator"]), ("Root", ["radicand", "index"]), ("Complex", ["re", "im"]),
  ("ErrorNode", ["placeholder", "message"])]

/-- The characters are a word, which nothing in an outline but words is made of. -/
def IsWord (cs : List Char) : Prop := cs ≠ [] ∧ ∀ c ∈ cs, c ∉ [' ', '\n', '(', ')', '=', ':']

instance : DecidablePred IsWord := fun _ => inferInstanceAs (Decidable (_ ∧ _))

theorem nodeFields_words : ∀ p ∈ nodeFields, IsWord p.1.toList ∧ p.2.Nodup ∧
    ∀ name ∈ p.2, IsWord name.toList ∧ name ≠ "sup" ∧ name ≠ "sub" := by decide

/-- The fields of a node are known by its kind. -/
theorem nodeFields_unique : ∀ p ∈ nodeFields, ∀ q ∈ nodeFields, p.1 = q.1 → p.2 = q.2 := by decide

/-- The value is a node or an empty place. -/
def isPlace : Datum → Bool
  | null | record .. => true
  | _ => false

/-- The field has lines of its own. -/
def hasLines (f : String × Datum) : Bool :=
  match f.2 with
  | record .. | tuple _ => f.1 != "fence"
  | _ => false

/-- A tree: an empty place, several places in a row, or a node with its scripts and its fields, which are labels or trees.
A row of one place is written like that place. -/
inductive IsTree (floats : Set Double) : Datum → Prop
  | empty : IsTree floats null
  | row {items : List Datum} : items.length ≠ 1 → (∀ d ∈ items, d.isPlace = true) → (∀ d ∈ items, IsTree floats d) →
    IsTree floats (tuple items)
  | node {kind : String} {own : List (String × Datum)} {s t : Datum} : (kind, own.map Prod.fst) ∈ nodeFields →
    s.isPlace = true → t.isPlace = true → IsTree floats s → IsTree floats t →
    (∀ f ∈ own, hasLines f = false → f.2.IsLabel floats) → (∀ f ∈ own, hasLines f = true → IsTree floats f.2) →
    IsTree floats (record kind (("sup", s) :: ("sub", t) :: own))

/-! ### The characters of an outline -/

/-- A label behind the kind of a node. -/
def labelChars (f : String × Datum) : List Char := f.1.toList ++ '=' :: f.2.literal.toList

/-- Labels with commas between them. -/
def rowChars : List (String × Datum) → List Char
  | [] => []
  | f :: rest => labelChars f ++ rest.flatMap fun g => ',' :: ' ' :: labelChars g

/-- The lines of a child of a node at an indentation. -/
def childChars (n : Nat) (f : String × Datum) : List Char :=
  '\n' :: (List.replicate (2 * n + 2) ' ' ++ (f.1.toList ++ ':' :: '\n' :: (outline (n + 2 : Nat) f.2).toList))

/-- The children of a node: its fields with lines of their own, and its scripts. -/
def childrenOf (own : List (String × Datum)) (s t : Datum) : List (String × Datum) :=
  own.filter hasLines ++ [("sup", s), ("sub", t)].filter fun f => !f.2.isNull

/-- A field with the outline of its value. -/
def outlined (indent : Int) (f : String × Datum) : Field := ⟨f.1, f.2, outline indent f.2⟩

theorem outlineFields_eq (indent : Int) (fields : List (String × Datum)) :
    outlineFields indent fields = fields.map (outlined indent) := by
  induction fields with
  | nil => rfl
  | cons f fields ih =>
    rw [outlineFields, ih]
    rfl

theorem isChild_outlined (indent : Int) (f : String × Datum) : (outlined indent f).isChild = hasLines f := by
  obtain ⟨name, d⟩ := f
  cases d <;> rfl

theorem toList_labels (labels : List (String × Datum)) (indent : Int) :
    (", ".intercalate ((labels.map (outlined indent)).map Field.label)).toList = rowChars labels := by
  have hlabel : ∀ f, ((outlined indent f).label).toList = labelChars f := by
    intro f
    rw [Field.label, String.toList_append, String.toList_append, List.append_assoc]
    rfl
  cases labels with
  | nil => rfl
  | cons f labels =>
    rw [List.map_cons, List.map_cons, toList_intercalate_cons, hlabel, rowChars, List.flatMap_map, List.flatMap_map]
    simp only [hlabel]
    rfl

theorem flatMap_lines (n : Nat) (f : String × Datum) :
    ((outlined (n + 2 : Nat) f).lines n).flatMap (fun t => "\n".toList ++ t.toList) = childChars n f := by
  have hname : (padding n ++ "  " ++ f.1 ++ ":").toList = List.replicate (2 * n + 2) ' ' ++ (f.1.toList ++ [':']) := by
    rw [String.toList_append, String.toList_append, String.toList_append, toList_padding,
      ← List.replicate_append_replicate, List.append_assoc, List.append_assoc, List.append_assoc]
    rfl
  show "\n".toList ++ (padding n ++ "  " ++ f.1 ++ ":").toList ++ ("\n".toList ++ (outline (n + 2 : Nat) f.2).toList ++ []) = _
  rw [hname, childChars]
  simp

/-- A node is its kind with its labels, on a line of its own, and its children behind it. -/
theorem toList_outline_node (n : Nat) {kind : String} {own : List (String × Datum)} (s t : Datum)
    (hown : ∀ f ∈ own, f.1 ≠ "sup" ∧ f.1 ≠ "sub") :
    (outline n (record kind (("sup", s) :: ("sub", t) :: own))).toList = List.replicate (2 * n) ' ' ++ (kind.toList ++
      '(' :: (rowChars (own.filter fun f => !hasLines f) ++ ')' :: (childrenOf own s t).flatMap (childChars n))) := by
  have hscript : ∀ f ∈ own.map (outlined (n + 2 : Nat)), f.isScript = false := by
    intro f hf
    obtain ⟨g, hg, rfl⟩ := List.mem_map.mp hf
    obtain ⟨hsup, hsub⟩ := hown g hg
    simp [outlined, Field.isScript, hsup, hsub]
  have hfields : outlineFields ((n : Int) + 2) (("sup", s) :: ("sub", t) :: own) =
      [("sup", s), ("sub", t)].map (outlined (n + 2 : Nat)) ++ own.map (outlined (n + 2 : Nat)) := outlineFields_eq _ _
  have hkept : (own.map (outlined (n + 2 : Nat))).filter (fun f => !f.isScript) = own.map (outlined (n + 2 : Nat)) :=
    List.filter_eq_self.mpr fun f hf => by rw [hscript f hf]; rfl
  have hleft : (own.map (outlined (n + 2 : Nat))).filter (fun f => f.isScript && !f.value.isNull) = [] :=
    List.filter_eq_nil_iff.mpr fun f hf => by rw [hscript f hf]; exact Bool.false_ne_true
  have hrest : ([("sup", s), ("sub", t)].map (outlined (n + 2 : Nat)) ++ own.map (outlined (n + 2 : Nat))).filter
      (fun f => !f.isScript) = own.map (outlined (n + 2 : Nat)) := by
    rw [List.filter_append, hkept]
    rfl
  have hscripts : ([("sup", s), ("sub", t)].map (outlined (n + 2 : Nat)) ++ own.map (outlined (n + 2 : Nat))).filter
      (fun f => f.isScript && !f.value.isNull) =
      ([("sup", s), ("sub", t)].filter fun f => !f.2.isNull).map (outlined (n + 2 : Nat)) := by
    rw [List.filter_append, hleft, List.append_nil, List.filter_map]
    rfl
  have hchild : Field.isChild ∘ outlined (n + 2 : Nat) = hasLines := funext (isChild_outlined _)
  have hlabels : (own.map (outlined (n + 2 : Nat))).filter (fun f => !f.isChild) =
      (own.filter fun f => !hasLines f).map (outlined (n + 2 : Nat)) := by
    rw [List.filter_map, ← hchild]
    rfl
  rw [outline, describe, hfields, hrest, hscripts, hlabels, List.filter_map, hchild, ← List.map_append, ← childrenOf,
    toList_intercalate_cons, List.flatMap_assoc, List.flatMap_map]
  simp only [String.toList_append, toList_padding, toList_labels, flatMap_lines, List.append_assoc]
  rfl

/-! ### Labels -/

variable {floats : Set Double}

/-- A word ends at the first character that is in no word. -/
theorem IsWord.split {cs ds : List Char} (h : IsWord cs) (h' : IsWord ds) {c : Char} (hc : c ∈ [' ', '\n', '(', ')', '=', ':'])
    {x y : List Char} (heq : cs ++ c :: x = ds ++ c :: y) : cs = ds ∧ x = y := by
  obtain ⟨hwords, hrest⟩ := split_first h.2 h'.2 hc hc heq
  exact ⟨hwords, (List.cons.inj hrest).2⟩

/-- The fields are labels under their names. -/
def AreLabels (floats : Set Double) (labels : List (String × Datum)) : Prop :=
  ∀ f ∈ labels, IsWord f.1.toList ∧ f.2.IsLabel floats

theorem AreLabels.tail {f : String × Datum} {labels : List (String × Datum)} (h : AreLabels floats (f :: labels)) :
    AreLabels floats labels := fun g hg => h g (List.mem_cons_of_mem _ hg)

/-- What is behind a label begins with a comma or a parenthesis. -/
theorem exists_separator (labels : List (String × Datum)) (x : List Char) :
    ∃ c more, (labels.flatMap fun g => ',' :: ' ' :: labelChars g) ++ ')' :: x = c :: more ∧ c ∈ [',', ')'] := by
  cases labels with
  | nil => exact ⟨_, _, rfl, by decide⟩
  | cons f labels => exact ⟨_, _, rfl, by decide⟩

/-- A label under its name tells its end. -/
theorem labelChars_split (hfloats : floats.InjOn Double.text) {f g : String × Datum} {labels labels' : List (String × Datum)}
    (h : AreLabels floats (f :: labels)) (h' : AreLabels floats (g :: labels')) {x y : List Char}
    (heq : labelChars f ++ ((labels.flatMap fun g => ',' :: ' ' :: labelChars g) ++ ')' :: x) =
      labelChars g ++ ((labels'.flatMap fun g => ',' :: ' ' :: labelChars g) ++ ')' :: y)) :
    f = g ∧ (labels.flatMap fun g => ',' :: ' ' :: labelChars g) ++ ')' :: x =
      (labels'.flatMap fun g => ',' :: ' ' :: labelChars g) ++ ')' :: y := by
  obtain ⟨hname, hlabel⟩ := h f List.mem_cons_self
  obtain ⟨hname', hlabel'⟩ := h' g List.mem_cons_self
  obtain ⟨c, more, hmore, hc⟩ := exists_separator labels x
  obtain ⟨d, more', hmore', hd⟩ := exists_separator labels' y
  rw [labelChars, labelChars, List.append_assoc, List.append_assoc] at heq
  obtain ⟨hnames, hvalues⟩ := hname.split hname' (by decide) heq
  rw [hmore, hmore'] at hvalues ⊢
  obtain ⟨hvalue, hrest⟩ := hlabel.split hfloats hlabel' hc hd hvalues
  exact ⟨Prod.ext (String.toList_inj.mp hnames) hvalue, hrest⟩

/-- The labels behind the first one end at the parenthesis behind them. -/
theorem moreLabels_split (hfloats : floats.InjOn Double.text) {labels : List (String × Datum)} (h : AreLabels floats labels) :
    ∀ {labels' : List (String × Datum)}, AreLabels floats labels' → ∀ {x y : List Char},
      (labels.flatMap fun g => ',' :: ' ' :: labelChars g) ++ ')' :: x =
        (labels'.flatMap fun g => ',' :: ' ' :: labelChars g) ++ ')' :: y → labels = labels' ∧ x = y := by
  induction labels with
  | nil =>
    rintro (_ | ⟨g, labels'⟩) h' x y heq
    · exact ⟨rfl, (List.cons.inj heq).2⟩
    · exact absurd (List.cons.inj heq).1 (by decide)
  | cons f labels ih =>
    rintro (_ | ⟨g, labels'⟩) h' x y heq
    · exact absurd (List.cons.inj heq).1 (by decide)
    · rw [List.flatMap_cons, List.flatMap_cons, List.append_assoc, List.append_assoc] at heq
      obtain ⟨rfl, hrest⟩ := labelChars_split hfloats h h' (List.cons.inj (List.cons.inj heq).2).2
      obtain ⟨rfl, hbehind⟩ := ih h.tail h'.tail hrest
      exact ⟨rfl, hbehind⟩

/-- The labels of a node end at the parenthesis behind them. -/
theorem rowChars_split (hfloats : floats.InjOn Double.text) {labels labels' : List (String × Datum)}
    (h : AreLabels floats labels) (h' : AreLabels floats labels') {x y : List Char}
    (heq : rowChars labels ++ ')' :: x = rowChars labels' ++ ')' :: y) : labels = labels' ∧ x = y := by
  -- A name does not begin with the parenthesis.
  have hname : ∀ {f : String × Datum} {rest more : List Char}, IsWord f.1.toList →
      labelChars f ++ rest ≠ ')' :: more := by
    intro f rest more hword hlist
    obtain ⟨c, others, hc⟩ := List.exists_cons_of_ne_nil hword.1
    rw [labelChars, hc] at hlist
    exact hword.2 c (hc ▸ List.mem_cons_self) (by rw [(List.cons.inj hlist).1]; decide)
  cases labels with
  | nil =>
    cases labels' with
    | nil => exact ⟨rfl, (List.cons.inj heq).2⟩
    | cons g labels' =>
      rw [rowChars, rowChars, List.append_assoc] at heq
      exact absurd heq.symm (hname (h' g List.mem_cons_self).1)
  | cons f labels =>
    cases labels' with
    | nil =>
      rw [rowChars, rowChars, List.append_assoc] at heq
      exact absurd heq (hname (h f List.mem_cons_self).1)
    | cons g labels' =>
      rw [rowChars, rowChars, List.append_assoc, List.append_assoc] at heq
      obtain ⟨rfl, hrest⟩ := labelChars_split hfloats h h' heq
      obtain ⟨rfl, hbehind⟩ := moreLabels_split hfloats h.tail h'.tail hrest
      exact ⟨rfl, hbehind⟩

/-! ### Places -/

/-- The places that a tree is made of, one below the other. -/
def places : Datum → List Datum
  | tuple items => items
  | d => [d]

theorem places_of_isPlace {d : Datum} (h : d.isPlace = true) : d.places = [d] := by
  unfold isPlace at h
  split at h
  · rfl
  · rfl
  · cases h

/-- The lines of a place behind a line. -/
def placeLines (n : Nat) (d : Datum) : List Char := '\n' :: (outline n d).toList

/-- With something behind it that begins no further to the right, the outline of the place is that of no other place. -/
def IsReadable (floats : Set Double) (d : Datum) : Prop :=
  ∀ {n : Nat} {d' : Datum} {rest rest' : List Char}, d'.IsTree floats → d'.isPlace = true → EndsBelow (2 * n + 1) rest →
    EndsBelow (2 * n + 1) rest' → (outline n d).toList ++ rest = (outline n d').toList ++ rest' → d = d' ∧ rest = rest'

theorem IsTree.own_names {kind : String} {own : List (String × Datum)} (h : (kind, own.map Prod.fst) ∈ nodeFields) :
    ∀ f ∈ own, IsWord f.1.toList ∧ f.1 ≠ "sup" ∧ f.1 ≠ "sub" := fun _ hf =>
  (nodeFields_words _ h).2.2 _ (List.mem_map_of_mem hf)

/-- A place begins with a character at the column of its indentation. -/
theorem IsTree.outline_place {d : Datum} (h : d.IsTree floats) (hplace : d.isPlace = true) (n : Nat) :
    ∃ c more, (outline n d).toList = List.replicate (2 * n) ' ' ++ c :: more ∧ c ≠ ' ' ∧ c ≠ '\n' := by
  cases h with
  | empty =>
    refine ⟨'(', "empty)".toList, ?_, by decide, by decide⟩
    rw [outline, String.toList_append, toList_padding]
    rfl
  | row _ _ _ => cases hplace
  | @node kind own s t hfields _ _ _ _ _ _ =>
    obtain ⟨⟨hne, hword⟩, -, -⟩ := nodeFields_words _ hfields
    obtain ⟨c, more, hc⟩ := List.exists_cons_of_ne_nil hne
    have hmem := hword c (hc ▸ List.mem_cons_self)
    have hline := @toList_outline_node n kind own s t fun f hf => (own_names hfields f hf).2
    rw [show kind.toList = c :: more from hc] at hline
    exact ⟨c, _, hline, fun h => hmem (by rw [h]; decide), fun h => hmem (by rw [h]; decide)⟩

/-- The same behind a line. -/
theorem IsTree.placeLines_eq {d : Datum} (h : d.IsTree floats) (hplace : d.isPlace = true) (n : Nat) :
    ∃ c more, placeLines n d = '\n' :: (List.replicate (2 * n) ' ' ++ c :: more) ∧ c ≠ ' ' := by
  obtain ⟨c, more, heq, hc, -⟩ := h.outline_place hplace n
  exact ⟨c, more, by rw [placeLines, heq], hc⟩

/-- Places one below the other, with nothing behind them that begins as far to the right, are the only ones with their
lines. -/
theorem places_split {n : Nat} {ds : List Datum} (hread : ∀ d ∈ ds, IsReadable floats d)
    (h : ∀ d ∈ ds, d.IsTree floats ∧ d.isPlace = true) : ∀ {ds' : List Datum},
      (∀ d ∈ ds', d.IsTree floats ∧ d.isPlace = true) → ∀ {rest rest' : List Char}, EndsBelow (2 * n) rest →
      EndsBelow (2 * n) rest' → ds.flatMap (placeLines n) ++ rest = ds'.flatMap (placeLines n) ++ rest' →
      ds = ds' ∧ rest = rest' := by
  -- Behind a place follow the next place, at the same column, or what is behind all places.
  have hends : ∀ {ds : List Datum}, (∀ d ∈ ds, d.IsTree floats ∧ d.isPlace = true) → ∀ {rest : List Char},
      EndsBelow (2 * n) rest → EndsBelow (2 * n + 1) (ds.flatMap (placeLines n) ++ rest) := by
    rintro (_ | ⟨d, ds⟩) h rest hrest
    · exact hrest.mono (Nat.le_succ _)
    · obtain ⟨c, more, heq, hc⟩ := (h d List.mem_cons_self).1.placeLines_eq (h d List.mem_cons_self).2 n
      rw [List.flatMap_cons, heq, List.cons_append, List.cons_append, List.append_assoc, List.append_assoc]
      exact endsBelow_line hc (Nat.lt_succ_self _) _
  have hnone : ∀ {d : Datum} {more rest : List Char}, d.IsTree floats → d.isPlace = true → EndsBelow (2 * n) rest →
      rest ≠ placeLines n d ++ more := by
    intro d more rest htree hplace hrest
    obtain ⟨c, others, heq, hc⟩ := htree.placeLines_eq hplace n
    rw [heq, List.cons_append, List.append_assoc]
    exact hrest.ne_line hc (Nat.le_refl _) _
  induction ds with
  | nil =>
    rintro (_ | ⟨d', ds'⟩) h' rest rest' hrest hrest' heq
    · exact ⟨rfl, heq⟩
    · rw [List.flatMap_nil, List.flatMap_cons, List.append_assoc] at heq
      exact absurd heq (hnone (h' d' List.mem_cons_self).1 (h' d' List.mem_cons_self).2 hrest)
  | cons d ds ih =>
    rintro (_ | ⟨d', ds'⟩) h' rest rest' hrest hrest' heq
    · rw [List.flatMap_nil, List.flatMap_cons, List.append_assoc] at heq
      exact absurd heq.symm (hnone (h d List.mem_cons_self).1 (h d List.mem_cons_self).2 hrest')
    · have hmore := fun e he => h e (List.mem_cons_of_mem _ he)
      have hmore' := fun e he => h' e (List.mem_cons_of_mem _ he)
      obtain ⟨htree', hplace'⟩ := h' d' List.mem_cons_self
      rw [List.flatMap_cons, List.flatMap_cons, List.append_assoc, List.append_assoc] at heq
      obtain ⟨rfl, hbehind⟩ := hread d List.mem_cons_self htree' hplace' (hends hmore hrest) (hends hmore' hrest')
        (List.cons.inj heq).2
      obtain ⟨rfl, hall⟩ := ih (fun e he => hread e (List.mem_cons_of_mem _ he)) hmore hmore' hrest hrest' hbehind
      exact ⟨rfl, hall⟩

/-! ### Children -/

/-- The places of a tree are trees. -/
theorem IsTree.places {d : Datum} (h : d.IsTree floats) : ∀ p ∈ d.places, p.IsTree floats ∧ p.isPlace = true := by
  cases h with
  | empty => exact fun p hp => (List.mem_singleton.mp hp) ▸ ⟨.empty, rfl⟩
  | row _ hplaces htrees => exact fun p hp => ⟨htrees p hp, hplaces p hp⟩
  | node hfields hs ht hs' ht' hlabels htrees =>
    exact fun p hp => (List.mem_singleton.mp hp) ▸ ⟨.node hfields hs ht hs' ht' hlabels htrees, rfl⟩

/-- A tree is known by its places. -/
theorem IsTree.eq_of_places {d d' : Datum} (h : d.IsTree floats) (h' : d'.IsTree floats) (heq : d.places = d'.places) :
    d = d' := by
  cases h with
  | empty =>
    cases h' with
    | empty => rfl
    | row hlength _ _ => exact absurd (congrArg List.length heq).symm hlength
    | node _ _ _ _ _ _ _ => exact (List.cons.inj heq).1
  | row hlength _ _ =>
    cases h' with
    | empty => exact absurd (congrArg List.length heq) hlength
    | row _ _ _ => exact congrArg tuple heq
    | node _ _ _ _ _ _ _ => exact absurd (congrArg List.length heq) hlength
  | node _ _ _ _ _ _ _ =>
    cases h' with
    | empty => exact (List.cons.inj heq).1
    | row hlength _ _ => exact absurd (congrArg List.length heq).symm hlength
    | node _ _ _ _ _ _ _ => exact (List.cons.inj heq).1

theorem outlines_eq (indent : Int) (items : List Datum) : outlines indent items = items.map (outline indent) := by
  induction items with
  | nil => rfl
  | cons d items ih =>
    rw [outlines, ih]
    rfl

/-- The lines of a tree are those of its places, or a line without characters. -/
theorem IsTree.placeLines_places {d : Datum} (h : d.IsTree floats) (n : Nat) :
    placeLines n d = if d.places = [] then ['\n'] else d.places.flatMap (placeLines n) := by
  have hsingle : ∀ d : Datum, [d].flatMap (placeLines n) = placeLines n d := fun d => List.flatMap_singleton _ _
  cases h with
  | empty => exact (hsingle _).symm
  | node _ _ _ _ _ _ _ => exact (hsingle _).symm
  | @row items _ _ _ =>
    cases items with
    | nil => rfl
    | cons d items =>
      rw [placeLines, outline, outlines_eq, List.map_cons, toList_intercalate_cons, List.flatMap_map]
      rfl

/-- A tree behind a line, with nothing behind it that begins as far to the right, is the only one with its lines. -/
theorem IsTree.split {n : Nat} {d d' : Datum} (h : d.IsTree floats) (hread : ∀ p ∈ d.places, IsReadable floats p)
    (h' : d'.IsTree floats) {rest rest' : List Char} (hrest : EndsBelow (2 * n) rest) (hrest' : EndsBelow (2 * n) rest')
    (heq : placeLines n d ++ rest = placeLines n d' ++ rest') : d = d' ∧ rest = rest' := by
  -- Where there is no place, the line ends at once, and no place does.
  have hnone : ∀ {ds : List Datum} {rest more : List Char}, ds ≠ [] → (∀ p ∈ ds, p.IsTree floats ∧ p.isPlace = true) →
      EndsBelow (2 * n) rest → '\n' :: rest ≠ ds.flatMap (placeLines n) ++ more := by
    rintro (_ | ⟨e, es⟩) rest more hne hplaces hrest heq
    · exact hne rfl
    obtain ⟨htree, hplace⟩ := hplaces e List.mem_cons_self
    obtain ⟨c, others, hc, hblank, hline⟩ := htree.outline_place hplace n
    rw [List.flatMap_cons, placeLines, hc, List.cons_append, List.cons_append, List.append_assoc, List.append_assoc] at heq
    rcases hrest with rfl | ⟨k, d, line, rfl, -, -⟩
    · exact absurd (List.cons.inj heq).2.symm (List.append_ne_nil_of_right_ne_nil _ (List.cons_ne_nil _ _))
    · exact absurd (List.cons.inj heq).2.symm (blanks_ne_line hline)
  rw [h.placeLines_places, h'.placeLines_places] at heq
  by_cases hempty : d.places = []
  · by_cases hempty' : d'.places = []
    · rw [if_pos hempty, if_pos hempty'] at heq
      exact ⟨h.eq_of_places h' (hempty.trans hempty'.symm), (List.cons.inj heq).2⟩
    · rw [if_pos hempty, if_neg hempty'] at heq
      exact absurd heq (hnone hempty' h'.places hrest)
  · by_cases hempty' : d'.places = []
    · rw [if_neg hempty, if_pos hempty'] at heq
      exact absurd heq.symm (hnone hempty h.places hrest')
    · rw [if_neg hempty, if_neg hempty'] at heq
      obtain ⟨hplaces, hbehind⟩ := places_split hread h.places h'.places hrest hrest' heq
      exact ⟨h.eq_of_places h' hplaces, hbehind⟩

/-- Fields with lines of their own are trees under their names. -/
def AreChildren (floats : Set Double) (children : List (String × Datum)) : Prop :=
  ∀ f ∈ children, IsWord f.1.toList ∧ f.2.IsTree floats

/-- The children of a node, with nothing behind them that begins as far to the right, are the only ones with their lines. -/
theorem children_split {n : Nat} {children : List (String × Datum)} (h : AreChildren floats children)
    (hread : ∀ f ∈ children, ∀ p ∈ f.2.places, IsReadable floats p) : ∀ {children' : List (String × Datum)},
      AreChildren floats children' → ∀ {rest rest' : List Char}, EndsBelow (2 * n + 2) rest → EndsBelow (2 * n + 2) rest' →
      children.flatMap (childChars n) ++ rest = children'.flatMap (childChars n) ++ rest' →
      children = children' ∧ rest = rest' := by
  have hline : ∀ {f : String × Datum}, IsWord f.1.toList →
      ∃ c more, childChars n f = '\n' :: (List.replicate (2 * n + 2) ' ' ++ c :: more) ∧ c ≠ ' ' := by
    intro f hword
    obtain ⟨c, more, hc⟩ := List.exists_cons_of_ne_nil hword.1
    refine ⟨c, more ++ ':' :: placeLines (n + 2) f.2, ?_, fun h => hword.2 c (hc ▸ List.mem_cons_self) (by rw [h]; decide)⟩
    rw [childChars, hc]
    rfl
  have hends : ∀ {children : List (String × Datum)}, AreChildren floats children → ∀ {rest : List Char},
      EndsBelow (2 * n + 2) rest → EndsBelow (2 * (n + 2)) (children.flatMap (childChars n) ++ rest) := by
    rintro (_ | ⟨f, children⟩) h rest hrest
    · exact hrest.mono (by omega)
    · obtain ⟨c, more, heq, hc⟩ := hline (h f List.mem_cons_self).1
      rw [List.flatMap_cons, heq, List.cons_append, List.cons_append, List.append_assoc, List.append_assoc]
      exact endsBelow_line hc (by omega) _
  have hnone : ∀ {f : String × Datum} {more rest : List Char}, IsWord f.1.toList → EndsBelow (2 * n + 2) rest →
      rest ≠ childChars n f ++ more := by
    intro f more rest hword hrest
    obtain ⟨c, others, heq, hc⟩ := hline hword
    rw [heq, List.cons_append, List.append_assoc]
    exact hrest.ne_line hc (Nat.le_refl _) _
  induction children with
  | nil =>
    rintro (_ | ⟨g, children'⟩) h' rest rest' hrest hrest' heq
    · exact ⟨rfl, heq⟩
    · rw [List.flatMap_nil, List.flatMap_cons, List.append_assoc] at heq
      exact absurd heq (hnone (h' g List.mem_cons_self).1 hrest)
  | cons f children ih =>
    rintro (_ | ⟨g, children'⟩) h' rest rest' hrest hrest' heq
    · rw [List.flatMap_nil, List.flatMap_cons, List.append_assoc] at heq
      exact absurd heq.symm (hnone (h f List.mem_cons_self).1 hrest')
    · have hmore : AreChildren floats children := fun e he => h e (List.mem_cons_of_mem _ he)
      have hmore' : AreChildren floats children' := fun e he => h' e (List.mem_cons_of_mem _ he)
      obtain ⟨hword, htree⟩ := h f List.mem_cons_self
      obtain ⟨hword', htree'⟩ := h' g List.mem_cons_self
      rw [List.flatMap_cons, List.flatMap_cons, childChars, childChars, List.append_assoc, List.append_assoc, List.cons_append,
        List.cons_append, List.append_assoc, List.append_assoc, List.append_assoc, List.append_assoc] at heq
      obtain ⟨hname, hlines⟩ := hword.split hword' (by decide) (List.append_cancel_left (List.cons.inj heq).2)
      obtain ⟨hvalue, hbehind⟩ := htree.split (hread f List.mem_cons_self) htree' (hends hmore hrest) (hends hmore' hrest') hlines
      obtain ⟨rfl, hall⟩ := ih hmore (fun e he => hread e (List.mem_cons_of_mem _ he)) hmore' hrest hrest' hbehind
      exact ⟨List.cons_eq_cons.mpr ⟨Prod.ext (String.toList_inj.mp hname) hvalue, rfl⟩, hall⟩

/-! ### Nodes -/

/-- Fields with the same names, each of which is there once, are known by those of a kind and those of the other. -/
theorem fields_eq {α β : Type} (p : α × β → Bool) : ∀ {own own' : List (α × β)}, own.map Prod.fst = own'.map Prod.fst →
    (own.map Prod.fst).Nodup → own.filter p = own'.filter p → own.filter (fun f => !p f) = own'.filter (fun f => !p f) →
    own = own'
  | [], [], _, _, _, _ => rfl
  | [], _ :: _, hnames, _, _, _ => by cases hnames
  | _ :: _, [], hnames, _, _, _ => by cases hnames
  | f :: own, g :: own', hnames, hnodup, hkept, hleft => by
    obtain ⟨hname, hmore⟩ := List.cons.inj hnames
    obtain ⟨hfresh, hdistinct⟩ := List.nodup_cons.mp hnodup
    -- The name of the first field is not there again, so that both first fields are of one kind.
    have hnot : ∀ {q : α × β → Bool} {e : α × β} {es fs : List (α × β)}, e.1 = f.1 → es.map Prod.fst = own.map Prod.fst →
        e :: fs ≠ es.filter q := fun he hes heq =>
      hfresh (hes ▸ he ▸ List.mem_map_of_mem (List.mem_filter.mp (heq ▸ List.mem_cons_self)).1)
    cases hf : p f <;> cases hg : p g <;> simp only [List.filter_cons, hf, hg, Bool.not_true, Bool.not_false, if_true,
      Bool.false_eq_true, if_false] at hkept hleft
    · obtain ⟨hfirst, hothers⟩ := List.cons.inj hleft
      rw [hfirst, fields_eq p hmore hdistinct hkept hothers]
    · exact absurd hkept.symm (hnot hname.symm rfl)
    · exact absurd hkept (hnot rfl hmore.symm)
    · obtain ⟨hfirst, hothers⟩ := List.cons.inj hkept
      rw [hfirst, fields_eq p hmore hdistinct hothers hleft]

/-- The scripts of a node are known by those that are there. -/
theorem scripts_eq {s t s' t' : Datum} (h : ([("sup", s), ("sub", t)].filter fun f => !f.2.isNull) =
    [("sup", s'), ("sub", t')].filter fun f => !f.2.isNull) : s = s' ∧ t = t' := by
  have hnull : ∀ {d : Datum}, d.isNull = true → d = null := fun hd => by
    unfold isNull at hd
    split at hd
    · rfl
    · cases hd
  simp only [List.filter_cons, List.filter_nil] at h
  cases hs : s.isNull <;> cases ht : t.isNull <;> cases hs' : s'.isNull <;> cases ht' : t'.isNull <;>
    simp [hs, ht, hs', ht'] at h ⊢ <;> grind

theorem filter_append_of {α : Type} {p : α → Bool} {xs ys : List α} (hxs : ∀ x ∈ xs, p x = false) (hys : ∀ y ∈ ys, p y = true) :
    (xs ++ ys).filter p = ys ∧ (xs ++ ys).filter (fun a => !p a) = xs := by
  rw [List.filter_append, List.filter_append]
  have hnone : xs.filter p = [] := List.filter_eq_nil_iff.mpr fun x hx => by rw [hxs x hx]; exact Bool.false_ne_true
  have hnone' : ys.filter (fun a => !p a) = [] := List.filter_eq_nil_iff.mpr fun y hy => by rw [hys y hy]; exact Bool.false_ne_true
  rw [hnone, hnone', List.filter_eq_self.mpr hys, List.filter_eq_self.mpr fun x hx => by rw [hxs x hx]; rfl]
  exact ⟨List.nil_append _, List.append_nil _⟩

/-- The field is a script. -/
def isScriptField (f : String × Datum) : Bool := f.1 == "sup" || f.1 == "sub"

/-- The children of a node are those among its fields, and its scripts. -/
theorem filter_childrenOf {own : List (String × Datum)} (hown : ∀ f ∈ own, f.1 ≠ "sup" ∧ f.1 ≠ "sub") (s t : Datum) :
    (childrenOf own s t).filter isScriptField = ([("sup", s), ("sub", t)].filter fun f => !f.2.isNull) ∧
      (childrenOf own s t).filter (fun f => !isScriptField f) = own.filter hasLines := by
  refine filter_append_of (fun f hf => ?_) fun f hf => ?_
  · obtain ⟨hsup, hsub⟩ := hown f (List.mem_filter.mp hf).1
    simp [isScriptField, hsup, hsub]
  · have hmem := (List.mem_filter.mp hf).1
    simp only [List.mem_cons, List.not_mem_nil, or_false] at hmem
    rcases hmem with rfl | rfl <;> rfl

/-- The children of a tree are trees. -/
theorem IsTree.children {kind : String} {own : List (String × Datum)} {s t : Datum}
    (hfields : (kind, own.map Prod.fst) ∈ nodeFields) (hs : s.IsTree floats) (ht : t.IsTree floats)
    (htrees : ∀ f ∈ own, hasLines f = true → f.2.IsTree floats) : AreChildren floats (childrenOf own s t) := by
  intro f hf
  rcases List.mem_append.mp hf with hf | hf
  · obtain ⟨hmem, hlines⟩ := List.mem_filter.mp hf
    exact ⟨(own_names hfields f hmem).1, htrees f hmem hlines⟩
  · have hmem := (List.mem_filter.mp hf).1
    simp only [List.mem_cons, List.not_mem_nil, or_false] at hmem
    rcases hmem with rfl | rfl
    · exact ⟨(by decide : IsWord "sup".toList), hs⟩
    · exact ⟨(by decide : IsWord "sub".toList), ht⟩

/-- The labels of a tree are labels. -/
theorem IsTree.labels {kind : String} {own : List (String × Datum)} (hfields : (kind, own.map Prod.fst) ∈ nodeFields)
    (hlabels : ∀ f ∈ own, hasLines f = false → f.2.IsLabel floats) :
    AreLabels floats (own.filter fun f => !hasLines f) := by
  intro f hf
  obtain ⟨hmem, hlines⟩ := List.mem_filter.mp hf
  exact ⟨(own_names hfields f hmem).1, hlabels f hmem ((Bool.not_eq_true' _).mp hlines)⟩

/-- An empty place begins with a parenthesis, and no node does. -/
theorem empty_ne_node {kind : String} {own : List (String × Datum)} (hfields : (kind, own.map Prod.fst) ∈ nodeFields)
    (n : Nat) (s t : Datum) (x y : List Char) :
    (outline n null).toList ++ x ≠ (outline n (record kind (("sup", s) :: ("sub", t) :: own))).toList ++ y := by
  obtain ⟨⟨hne, hword⟩, -, -⟩ := nodeFields_words _ hfields
  obtain ⟨c, more, hc⟩ := List.exists_cons_of_ne_nil hne
  have hempty : (outline n null).toList = List.replicate (2 * n) ' ' ++ "(empty)".toList := by
    rw [outline, String.toList_append, toList_padding]
  intro heq
  rw [hempty, toList_outline_node n s t fun f hf => (IsTree.own_names hfields f hf).2, List.append_assoc, List.append_assoc,
    show kind.toList = c :: more from hc] at heq
  refine hword c (hc ▸ List.mem_cons_self) ?_
  rw [← (List.cons.inj (List.append_cancel_left heq)).1]
  decide

/-- A node with something behind it is the only one with its lines, if its children are. -/
theorem isReadable_node (hfloats : floats.InjOn Double.text) {kind : String} {own : List (String × Datum)} {s t : Datum}
    (hfields : (kind, own.map Prod.fst) ∈ nodeFields) (hs : s.IsTree floats) (ht : t.IsTree floats)
    (hlabels : ∀ f ∈ own, hasLines f = false → f.2.IsLabel floats)
    (htrees : ∀ f ∈ own, hasLines f = true → f.2.IsTree floats)
    (hread : ∀ f ∈ childrenOf own s t, ∀ p ∈ f.2.places, IsReadable floats p) :
    IsReadable floats (record kind (("sup", s) :: ("sub", t) :: own)) := by
  have hown := fun f hf => (IsTree.own_names hfields f hf).2
  obtain ⟨hkind, hnodup, -⟩ := nodeFields_words _ hfields
  intro n d' rest rest' h' hplace' hrest hrest' heq
  cases h' with
  | empty => exact absurd heq.symm (empty_ne_node hfields n s t _ _)
  | row _ _ _ => cases hplace'
  | @node kind' own' s' t' hfields' _ _ hs' ht' hlabels' htrees' =>
    have hown' := fun f hf => (IsTree.own_names hfields' f hf).2
    obtain ⟨hkind', -, -⟩ := nodeFields_words _ hfields'
    rw [toList_outline_node n s t hown, toList_outline_node n s' t' hown', List.append_assoc, List.append_assoc,
      List.append_assoc, List.append_assoc] at heq
    have hhead := List.append_cancel_left heq
    rw [List.cons_append, List.cons_append] at hhead
    obtain ⟨hsame, hline⟩ := hkind.split hkind' (by decide) hhead
    obtain rfl : kind = kind' := String.toList_inj.mp hsame
    rw [List.append_assoc, List.append_assoc, List.cons_append, List.cons_append] at hline
    obtain ⟨hlabel, hlines⟩ := rowChars_split hfloats (IsTree.labels hfields hlabels) (IsTree.labels hfields' hlabels') hline
    obtain ⟨hchildren, hbehind⟩ := children_split (IsTree.children hfields hs ht htrees) hread
      (IsTree.children hfields' hs' ht' htrees') (hrest.mono (by omega)) (hrest'.mono (by omega)) hlines
    obtain ⟨hscripts, hown₁⟩ := filter_childrenOf hown s t
    obtain ⟨hscripts', hown₂⟩ := filter_childrenOf hown' s' t'
    obtain ⟨rfl, rfl⟩ := scripts_eq (hscripts.symm.trans ((congrArg (List.filter isScriptField) hchildren).trans hscripts'))
    have hnames := nodeFields_unique _ hfields _ hfields' rfl
    obtain rfl := fields_eq hasLines hnames hnodup
      (hown₁.symm.trans ((congrArg (List.filter fun f => !isScriptField f) hchildren).trans hown₂)) hlabel
    exact ⟨rfl, hbehind⟩

theorem isReadable_empty : IsReadable floats null := by
  intro n d' rest rest' h' hplace' hrest hrest' heq
  cases h' with
  | empty => exact ⟨rfl, List.append_cancel_left heq⟩
  | row _ _ _ => cases hplace'
  | node hfields _ _ _ _ _ _ => exact absurd heq (empty_ne_node hfields n _ _ _ _)

/-- **Every place of a tree is readable**: its outline is that of no other. -/
theorem IsTree.isReadable (hfloats : floats.InjOn Double.text) {d : Datum} (h : d.IsTree floats) :
    ∀ p ∈ d.places, IsReadable floats p := by
  induction h with
  | empty => exact fun p hp => (List.mem_singleton.mp hp) ▸ isReadable_empty
  | row hlength hplaces htrees ih =>
    intro p hp
    refine ih p hp p ?_
    rw [places_of_isPlace (hplaces p hp)]
    exact List.mem_singleton_self p
  | @node kind own s t hfields hs ht hstree httree hlabels htrees ihs iht ih =>
    intro p hp
    rw [List.mem_singleton.mp hp]
    refine isReadable_node hfloats hfields hstree httree hlabels htrees fun f hf => ?_
    rcases List.mem_append.mp hf with hf | hf
    · obtain ⟨hmem, hlines⟩ := List.mem_filter.mp hf
      exact ih f hmem hlines
    · have hmem := (List.mem_filter.mp hf).1
      simp only [List.mem_cons, List.not_mem_nil, or_false] at hmem
      rcases hmem with rfl | rfl
      · exact ihs
      · exact iht

end Datum

end Formula
