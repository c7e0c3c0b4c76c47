import Formula.Proofs.Expr.OutlineLines

/-!
# Outlines are unambiguous

A tree of expressions is outlined as a tree of records.  If its labels are of their types, the tree of records is one whose
lines can be read (`IsTyped.isTreePlace`), and it is that of no other expression (`IsTyped.toDatum_injective`).

Main statement: `outline_eq_iff`, for all trees without a row of one argument, at every indentation, if the floating-point
numbers in them have different texts.
-/

namespace Formula

open Number

namespace Expr

/-! ### Trees of expressions -/

/-- The value of a number: a number, or its text. -/
inductive IsNumberLabel (floats : Set Double) : Datum → Prop
  | numeric {value : Datum} : value.IsPlain floats → value.isNumeric = true → IsNumberLabel floats value
  | numeral (s : String) : IsNumberLabel floats (.text s)

/-- A text, or none. -/
inductive IsVariantLabel : Datum → Prop
  | none : IsVariantLabel .null
  | some (s : String) : IsVariantLabel (.text s)

/-- The labels of the tree are of their types, and the floating-point numbers among them are some of those given.  A call
has one argument, or several, or none. -/
inductive IsTyped (floats : Set Double) : Expr → Prop
  | missing : IsTyped floats missing
  | number {value : Datum} {s t : Expr} : IsNumberLabel floats value → IsTyped floats s → IsTyped floats t →
    IsTyped floats (number value s t)
  | symbol {name : String} {variant : Datum} {s t : Expr} : IsVariantLabel variant → IsTyped floats s → IsTyped floats t →
    IsTyped floats (symbol (.text name) variant s t)
  | text {content : String} {s t : Expr} : IsTyped floats s → IsTyped floats t → IsTyped floats (text (.text content) s t)
  | group {e s t : Expr} {left right : String} : IsTyped floats e → IsTyped floats s → IsTyped floats t →
    IsTyped floats (group e (.tuple [.text left, .text right]) s t)
  | binary {op : String} {l r s t : Expr} : IsTyped floats l → IsTyped floats r → IsTyped floats s → IsTyped floats t →
    IsTyped floats (binary (.text op) l r s t)
  | unary {op : String} {e s t : Expr} : IsTyped floats e → IsTyped floats s → IsTyped floats t →
    IsTyped floats (unary (.text op) e s t)
  | call {name left right : String} {e s t : Expr} : IsTyped floats e → IsTyped floats s → IsTyped floats t →
    IsTyped floats (call (.text name) e (.tuple [.text left, .text right]) s t)
  | several {name left right : String} {items : List Expr} {s t : Expr} : items.length ≠ 1 →
    (∀ e ∈ items, IsTyped floats e) → IsTyped floats s → IsTyped floats t →
    IsTyped floats (Expr.call (.text name) (tuple items) (.tuple [.text left, .text right]) s t)
  | fraction {l r s t : Expr} : IsTyped floats l → IsTyped floats r → IsTyped floats s → IsTyped floats t →
    IsTyped floats (fraction l r s t)
  | root {e index s t : Expr} : IsTyped floats e → IsTyped floats index → IsTyped floats s → IsTyped floats t →
    IsTyped floats (root e index s t)
  | complex {re im : Datum} {s t : Expr} : re.IsPlain floats → re.isNumeric = true → im.IsPlain floats → im.isNumeric = true →
    IsTyped floats s → IsTyped floats t → IsTyped floats (complex re im s t)
  | error {placeholder message : String} {s t : Expr} : IsTyped floats s → IsTyped floats t →
    IsTyped floats (error (.text placeholder) (.text message) s t)

variable {floats : Set Double} {e e' : Expr}

open Datum (nodeFields hasLines)

/-- A field of a node: a label, or a tree. -/
def IsField (floats : Set Double) (f : String × Datum) : Prop :=
  (hasLines f = false → f.2.IsLabel floats) ∧ (hasLines f = true → f.2.IsTree floats)

theorem isField_label {name : String} {v : Datum} (h : v.IsLabel floats) (hlines : hasLines (name, v) = false) :
    IsField floats (name, v) := ⟨fun _ => h, fun h => by rw [hlines] at h; cases h⟩

theorem isField_plain {name : String} {v : Datum} (h : v.IsPlain floats) : IsField floats (name, v) :=
  isField_label (.plain h) (by cases h <;> rfl)

theorem isField_text (name s : String) : IsField floats (name, .text s) := isField_label (.text s) rfl

theorem isField_fence (left right : String) : IsField floats ("fence", .tuple [.text left, .text right]) :=
  isField_label (.pair left right) rfl

/-- The value is a tree in one place. -/
def IsTreePlace (floats : Set Double) (d : Datum) : Prop := d.IsTree floats ∧ d.isPlace = true

/-- A tree in one place is a field: an empty place is a label. -/
theorem IsTreePlace.isField {name : String} {d : Datum} (h : IsTreePlace floats d) (hname : name ≠ "fence") :
    IsField floats (name, d) := by
  obtain ⟨htree, hplace⟩ := h
  refine ⟨fun hlines => ?_, fun _ => htree⟩
  cases htree with
  | empty => exact .plain .null
  | row _ _ _ => cases hplace
  | node _ _ _ _ _ _ _ => exact absurd hlines (by simp [hasLines, hname])

/-- A node with its fields and its scripts. -/
theorem isTreePlace_record {kind : String} {names : List String} {own : List (String × Datum)} {s t : Datum}
    (hfields : (kind, names) ∈ nodeFields) (hnames : own.map Prod.fst = names) (hs : IsTreePlace floats s)
    (ht : IsTreePlace floats t) (hown : ∀ f ∈ own, IsField floats f) : IsTreePlace floats (recordOf kind s t own) :=
  ⟨.node (hnames ▸ hfields) hs.2 ht.2 hs.1 ht.1 (fun f hf => (hown f hf).1) fun f hf => (hown f hf).2, rfl⟩

theorem toData_eq (items : List Expr) : toData items = items.map toDatum := by
  induction items with
  | nil => rfl
  | cons e items ih =>
    rw [toData, ih]
    rfl

/-- A tree whose labels are of their types is a tree of records. -/
theorem IsTyped.isTreePlace (h : e.IsTyped floats) : IsTreePlace floats e.toDatum := by
  have one : ∀ {f : String × Datum}, IsField floats f → ∀ g ∈ [f], IsField floats g := fun h g hg =>
    List.mem_singleton.mp hg ▸ h
  have more : ∀ {f : String × Datum} {fs : List (String × Datum)}, IsField floats f → (∀ g ∈ fs, IsField floats g) →
      ∀ g ∈ f :: fs, IsField floats g := fun h hs => List.forall_mem_cons.mpr ⟨h, hs⟩
  induction h with
  | missing => exact ⟨.empty, rfl⟩
  | number hvalue _ _ ihs iht =>
    refine isTreePlace_record (by decide : ("NumberLiteral", ["value"]) ∈ nodeFields) rfl ihs iht (one ?_)
    cases hvalue with
    | numeric hplain _ => exact isField_plain hplain
    | numeral s => exact isField_text _ s
  | symbol hvariant _ _ ihs iht =>
    refine isTreePlace_record (by decide : ("Symbol", ["name", "variant"]) ∈ nodeFields) rfl ihs iht
      (more (isField_text _ _) (one ?_))
    cases hvariant with
    | none => exact isField_plain .null
    | some s => exact isField_text _ s
  | text _ _ ihs iht =>
    exact isTreePlace_record (by decide : ("Text", ["content"]) ∈ nodeFields) rfl ihs iht (one (isField_text _ _))
  | group _ _ _ ih ihs iht =>
    exact isTreePlace_record (by decide : ("Group", ["inner", "fence"]) ∈ nodeFields) rfl ihs iht
      (more (ih.isField (by decide)) (one (isField_fence _ _)))
  | binary _ _ _ _ ihl ihr ihs iht =>
    exact isTreePlace_record (by decide : ("BinaryOp", ["op", "lhs", "rhs"]) ∈ nodeFields) rfl ihs iht
      (more (isField_text _ _) (more (ihl.isField (by decide)) (one (ihr.isField (by decide)))))
  | unary _ _ _ ih ihs iht =>
    exact isTreePlace_record (by decide : ("UnaryOp", ["op", "operand"]) ∈ nodeFields) rfl ihs iht
      (more (isField_text _ _) (one (ih.isField (by decide))))
  | call _ _ _ ih ihs iht =>
    exact isTreePlace_record (by decide : ("FunctionCall", ["name", "arg", "fence"]) ∈ nodeFields) rfl ihs iht
      (more (isField_text _ _) (more (ih.isField (by decide)) (one (isField_fence _ _))))
  | @several _ _ _ items _ _ hlength _ _ _ ih ihs iht =>
    refine isTreePlace_record (by decide : ("FunctionCall", ["name", "arg", "fence"]) ∈ nodeFields) rfl ihs iht
      (more (isField_text _ _) (more ⟨fun h => absurd h (show ¬("arg" != "fence") = false by decide), fun _ => ?_⟩ (one (isField_fence _ _))))
    have hitems : ∀ d ∈ toData items, IsTreePlace floats d := by
      intro d hd
      rw [toData_eq] at hd
      obtain ⟨e, he, rfl⟩ := List.mem_map.mp hd
      exact ih e he
    exact .row (by rw [toData_eq, List.length_map]; exact hlength) (fun d hd => (hitems d hd).2) fun d hd => (hitems d hd).1
  | fraction _ _ _ _ ihl ihr ihs iht =>
    exact isTreePlace_record (by decide : ("Fraction", ["numerator", "denominator"]) ∈ nodeFields) rfl ihs iht
      (more (ihl.isField (by decide)) (one (ihr.isField (by decide))))
  | root _ _ _ _ ih ihi ihs iht =>
    exact isTreePlace_record (by decide : ("Root", ["radicand", "index"]) ∈ nodeFields) rfl ihs iht
      (more (ih.isField (by decide)) (one (ihi.isField (by decide))))
  | complex hre _ him _ _ _ ihs iht =>
    exact isTreePlace_record (by decide : ("Complex", ["re", "im"]) ∈ nodeFields) rfl ihs iht
      (more (isField_plain hre) (one (isField_plain him)))
  | error _ _ ihs iht =>
    exact isTreePlace_record (by decide : ("ErrorNode", ["placeholder", "message"]) ∈ nodeFields) rfl ihs iht
      (more (isField_text _ _) (one (isField_text _ _)))

/-- Several trees are known by their records if each is. -/
theorem items_eq {items items' : List Expr}
    (h : ∀ e ∈ items, ∀ {e' : Expr}, e'.IsTyped floats → e.toDatum = e'.toDatum → e = e')
    (h' : ∀ e ∈ items', e.IsTyped floats) (heq : items.map toDatum = items'.map toDatum) : items = items' := by
  induction items generalizing items' with
  | nil => exact (List.map_eq_nil_iff.mp heq.symm).symm
  | cons e items ih =>
    cases items' with
    | nil => cases heq
    | cons e' items' =>
      obtain ⟨hfirst, hrest⟩ := List.cons.inj heq
      rw [h e List.mem_cons_self (h' e' List.mem_cons_self) hfirst,
        ih (fun a ha => h a (List.mem_cons_of_mem _ ha)) (fun a ha => h' a (List.mem_cons_of_mem _ ha)) hrest]

/-- Equal records have equal scripts and equal fields. -/
theorem recordOf_inj {kind kind' : String} {s t s' t' : Datum} {own own' : List (String × Datum)}
    (h : recordOf kind s t own = recordOf kind' s' t' own') : kind = kind' ∧ s = s' ∧ t = t' ∧ own = own' := by
  simpa [recordOf] using h

/-- A tree is known by its records. -/
theorem IsTyped.toDatum_injective (h : e.IsTyped floats) (h' : e'.IsTyped floats) (heq : e.toDatum = e'.toDatum) : e = e' := by
  induction h generalizing e' with
  | missing =>
    cases h' with
    | missing => rfl
    | _ => cases heq
  | number _ _ _ ihs iht =>
    cases h' with
    | missing => cases heq
    | number _ hs ht =>
      obtain ⟨-, hsup, hsub, hown⟩ := recordOf_inj heq
      rw [ihs hs hsup, iht ht hsub, (Prod.mk.inj (List.cons.inj hown).1).2]
    | _ => exact absurd (recordOf_inj heq).1 (by decide)
  | symbol _ _ _ ihs iht =>
    cases h' with
    | missing => cases heq
    | symbol _ hs ht =>
      obtain ⟨-, hsup, hsub, hown⟩ := recordOf_inj heq
      simp only [List.cons.injEq, Prod.mk.injEq, true_and, and_true] at hown
      rw [ihs hs hsup, iht ht hsub, hown.1, hown.2]
    | _ => exact absurd (recordOf_inj heq).1 (by decide)
  | text _ _ ihs iht =>
    cases h' with
    | missing => cases heq
    | text hs ht =>
      obtain ⟨-, hsup, hsub, hown⟩ := recordOf_inj heq
      rw [ihs hs hsup, iht ht hsub, (Prod.mk.inj (List.cons.inj hown).1).2]
    | _ => exact absurd (recordOf_inj heq).1 (by decide)
  | group _ _ _ ih ihs iht =>
    cases h' with
    | missing => cases heq
    | group he hs ht =>
      obtain ⟨-, hsup, hsub, hown⟩ := recordOf_inj heq
      simp only [List.cons.injEq, Prod.mk.injEq, true_and, and_true] at hown
      rw [ih he hown.1, ihs hs hsup, iht ht hsub, hown.2]
    | _ => exact absurd (recordOf_inj heq).1 (by decide)
  | binary _ _ _ _ ihl ihr ihs iht =>
    cases h' with
    | missing => cases heq
    | binary hl hr hs ht =>
      obtain ⟨-, hsup, hsub, hown⟩ := recordOf_inj heq
      simp only [List.cons.injEq, Prod.mk.injEq, true_and, and_true] at hown
      rw [hown.1, ihl hl hown.2.1, ihr hr hown.2.2, ihs hs hsup, iht ht hsub]
    | _ => exact absurd (recordOf_inj heq).1 (by decide)
  | unary _ _ _ ih ihs iht =>
    cases h' with
    | missing => cases heq
    | unary he hs ht =>
      obtain ⟨-, hsup, hsub, hown⟩ := recordOf_inj heq
      simp only [List.cons.injEq, Prod.mk.injEq, true_and, and_true] at hown
      rw [hown.1, ih he hown.2, ihs hs hsup, iht ht hsub]
    | _ => exact absurd (recordOf_inj heq).1 (by decide)
  | call hargument _ _ ih ihs iht =>
    cases h' with
    | missing => cases heq
    | call he hs ht =>
      obtain ⟨-, hsup, hsub, hown⟩ := recordOf_inj heq
      simp only [List.cons.injEq, Prod.mk.injEq, true_and, and_true] at hown
      rw [hown.1, ih he hown.2.1, hown.2.2, ihs hs hsup, iht ht hsub]
    | several _ _ _ _ =>
      -- One argument is no row.
      obtain ⟨-, -, -, hown⟩ := recordOf_inj heq
      simp only [List.cons.injEq, Prod.mk.injEq, true_and] at hown
      have hplace := hargument.isTreePlace.2
      rw [hown.2.1] at hplace
      cases hplace
    | _ => exact absurd (recordOf_inj heq).1 (by decide)
  | several _ _ _ _ ih ihs iht =>
    cases h' with
    | missing => cases heq
    | call he _ _ =>
      obtain ⟨-, -, -, hown⟩ := recordOf_inj heq
      simp only [List.cons.injEq, Prod.mk.injEq, true_and] at hown
      have hplace := he.isTreePlace.2
      rw [← hown.2.1] at hplace
      cases hplace
    | several _ hitems hs ht =>
      obtain ⟨-, hsup, hsub, hown⟩ := recordOf_inj heq
      simp only [toDatum, List.cons.injEq, Prod.mk.injEq, true_and, and_true, Datum.tuple.injEq, toData_eq] at hown
      rw [hown.1, hown.2.2.1, hown.2.2.2, ihs hs hsup, iht ht hsub, items_eq ih hitems hown.2.1]
    | _ => exact absurd (recordOf_inj heq).1 (by decide)
  | fraction _ _ _ _ ihl ihr ihs iht =>
    cases h' with
    | missing => cases heq
    | fraction hl hr hs ht =>
      obtain ⟨-, hsup, hsub, hown⟩ := recordOf_inj heq
      simp only [List.cons.injEq, Prod.mk.injEq, true_and, and_true] at hown
      rw [ihl hl hown.1, ihr hr hown.2, ihs hs hsup, iht ht hsub]
    | _ => exact absurd (recordOf_inj heq).1 (by decide)
  | root _ _ _ _ ih ihi ihs iht =>
    cases h' with
    | missing => cases heq
    | root he hi hs ht =>
      obtain ⟨-, hsup, hsub, hown⟩ := recordOf_inj heq
      simp only [List.cons.injEq, Prod.mk.injEq, true_and, and_true] at hown
      rw [ih he hown.1, ihi hi hown.2, ihs hs hsup, iht ht hsub]
    | _ => exact absurd (recordOf_inj heq).1 (by decide)
  | complex _ _ _ _ _ _ ihs iht =>
    cases h' with
    | missing => cases heq
    | complex _ _ _ _ hs ht =>
      obtain ⟨-, hsup, hsub, hown⟩ := recordOf_inj heq
      simp only [List.cons.injEq, Prod.mk.injEq, true_and, and_true] at hown
      rw [hown.1, hown.2, ihs hs hsup, iht ht hsub]
    | _ => exact absurd (recordOf_inj heq).1 (by decide)
  | error _ _ ihs iht =>
    cases h' with
    | missing => cases heq
    | error hs ht =>
      obtain ⟨-, hsup, hsub, hown⟩ := recordOf_inj heq
      simp only [List.cons.injEq, Prod.mk.injEq, true_and, and_true] at hown
      rw [hown.1, hown.2, ihs hs hsup, iht ht hsub]
    | _ => exact absurd (recordOf_inj heq).1 (by decide)

/-- **The outline of a tree is that of no other tree**, at any indentation, if the labels of the trees are of their types and
the floating-point numbers among them have different texts. -/
theorem outline_eq_iff (hfloats : floats.InjOn Double.text) (h : e.IsTyped floats) (h' : e'.IsTyped floats) (indent : Nat) :
    e.outline indent = e'.outline indent ↔ e = e' := by
  refine ⟨fun heq => ?_, fun heq => by rw [heq]⟩
  obtain ⟨htree, hplace⟩ := h.isTreePlace
  obtain ⟨htree', hplace'⟩ := h'.isTreePlace
  have hread : Datum.IsReadable floats e.toDatum :=
    htree.isReadable hfloats _ (by rw [Datum.places_of_isPlace hplace]; exact List.mem_singleton_self _)
  refine h.toDatum_injective h' (@hread indent _ _ _ htree' hplace' (.inl rfl) (.inl rfl) ?_).1
  rw [List.append_nil, List.append_nil]
  exact congrArg String.toList heq

/-- Two arguments with an empty script place, and the same with the number as a whole number. -/
theorem outline_eq_iff_arguments :
    (apply "f" (tuple [ofNumber (.float (.finite false 1 1)), ofSymbol "a, variant=None" .null])).outline 0 =
        (apply "f" (tuple [ofNumber (.int 2), ofSymbol "a, variant=None" .null])).outline 0 ↔
      apply "f" (tuple [ofNumber (.float (.finite false 1 1)), ofSymbol "a, variant=None" .null]) =
        apply "f" (tuple [ofNumber (.int 2), ofSymbol "a, variant=None" .null]) := by
  have htyped : ∀ {value : Datum}, IsNumberLabel {Double.finite false 1 1} value →
      IsTyped {Double.finite false 1 1} (apply "f" (tuple [ofNumber value, ofSymbol "a, variant=None" .null])) := by
    intro value hvalue
    refine .several (by simp) (fun e he => ?_) .missing .missing
    simp only [List.mem_cons, List.not_mem_nil, or_false] at he
    rcases he with rfl | rfl
    · exact .number hvalue .missing .missing
    · exact .symbol .none .missing .missing
  exact outline_eq_iff (Set.injOn_singleton _ _) (htyped (.numeric (.float rfl) rfl)) (htyped (.numeric (.int 2) rfl)) 0

end Expr

end Formula
