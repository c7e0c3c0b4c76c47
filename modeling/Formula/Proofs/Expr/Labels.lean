import Formula.Proofs.Reader.Worded

/-!
# Labels of expressions

What stands on a node and is written with it is a label: names, texts, delimiters, operators, and what error nodes stand for.
The reader makes expressions of others by putting a few labels on top, so that a property of labels is kept
(`Labelled`) wherever those few have it.
-/

namespace Formula.Expr

open Atom Outcome

/-- What stands on a node and is written with it. -/
inductive Label where
  | content (content : Datum)
  | fence (fence : Datum)
  | symbol (name : Datum)
  | function (name : Datum)
  | operator (op : Datum)
  | sign (op : Datum)
  | placeholder (placeholder : Datum)

mutual

/-- The labels of an expression. -/
def labels : Expr → List Label
  | missing | foreign _ => []
  | tuple items => labelsIn items
  | number _ s t | complex _ _ s t => s.labels ++ t.labels
  | symbol name _ s t => .symbol name :: (s.labels ++ t.labels)
  | text content s t => .content content :: (s.labels ++ t.labels)
  | group e fence s t => .fence fence :: (e.labels ++ (s.labels ++ t.labels))
  | binary op l r s t => .operator op :: (l.labels ++ r.labels ++ (s.labels ++ t.labels))
  | unary op e s t => .sign op :: (e.labels ++ (s.labels ++ t.labels))
  | call name e fence s t => .function name :: .fence fence :: (e.labels ++ (s.labels ++ t.labels))
  | fraction l r s t | root l r s t => l.labels ++ r.labels ++ (s.labels ++ t.labels)
  | error placeholder _ s t => .placeholder placeholder :: (s.labels ++ t.labels)

/-- The labels of several expressions. -/
def labelsIn : List Expr → List Label
  | [] => []
  | e :: rest => e.labels ++ labelsIn rest

end

/-- The labels of a node stand in front of those of its scripts, and stay where the scripts are others. -/
theorem labels_scripts (e : Expr) : ∃ own, e.labels = own ++ (e.sup.labels ++ e.sub.labels) ∧
    ∀ s t, (e.withScripts s t).labels ⊆ own ++ (s.labels ++ t.labels) := by
  cases e with
  | missing | foreign _ => exact ⟨[], rfl, fun _ _ => List.nil_subset _⟩
  | tuple items => exact ⟨labelsIn items, (List.append_nil _).symm, fun _ _ => List.subset_append_left _ _⟩
  | number | complex => exact ⟨[], rfl, fun _ _ => List.Subset.refl _⟩
  | symbol name => exact ⟨[.symbol name], rfl, fun _ _ => List.Subset.refl _⟩
  | text content => exact ⟨[.content content], rfl, fun _ _ => List.Subset.refl _⟩
  | group e fence => exact ⟨.fence fence :: e.labels, rfl, fun _ _ => List.Subset.refl _⟩
  | binary op l r => exact ⟨.operator op :: (l.labels ++ r.labels), rfl, fun _ _ => List.Subset.refl _⟩
  | unary op e => exact ⟨.sign op :: e.labels, rfl, fun _ _ => List.Subset.refl _⟩
  | call name e fence => exact ⟨.function name :: .fence fence :: e.labels, rfl, fun _ _ => List.Subset.refl _⟩
  | fraction l r | root l r => exact ⟨l.labels ++ r.labels, rfl, fun _ _ => List.Subset.refl _⟩
  | error placeholder => exact ⟨[.placeholder placeholder], rfl, fun _ _ => List.Subset.refl _⟩

/-- A sign that is folded into a number leaves the labels as they are. -/
theorem labels_of_takesSign {sign : Datum} {e e' : Expr} (h : TakesSign sign e e') : e'.labels = e.labels := by
  induction h with
  | number _ => rfl
  | product r _ ih =>
    rw [between, labels, ih]
    rfl

theorem mem_of_delimiterFunction? {left right : Datum} {name : String}
    (h : delimiterFunction? left right = .ok (some name)) : ∃ key, (key, name) ∈ Glyph.delimiterFunctions := by
  unfold delimiterFunction? at h
  split at h
  · obtain ⟨before, behind, heq, -⟩ := List.lookup_eq_some_iff.mp (Except.ok.inj h)
    exact ⟨_, heq ▸ List.mem_append_right _ List.mem_cons_self⟩
  · cases h
  · cases h
  · obtain ⟨key, -, hnone⟩ := map_eq_ok.mp h
    cases hnone
  · cases h
  · cases h
  · split at h <;> cases h

/-- All labels of the expression have the property. -/
def Labelled (Q : Label → Prop) (e : Expr) : Prop := ∀ l ∈ e.labels, Q l

instance (Q : Label → Prop) [DecidablePred Q] : DecidablePred (Labelled Q) := fun e =>
  inferInstanceAs (Decidable (∀ l ∈ e.labels, Q l))

namespace Labelled

variable {Q : Label → Prop} {e e' l r s t : Expr} {name fence op sign : Datum}

theorem missing : Labelled Q missing := nofun

theorem several : ∀ {items : List Expr}, (∀ e ∈ items, Labelled Q e) → Labelled Q (tuple items)
  | [], _ => nofun
  | e :: items, h => by
    obtain ⟨he, hitems⟩ := List.forall_mem_cons.mp h
    exact List.forall_mem_append.mpr ⟨he, several hitems⟩

/-! ### Scripts -/

theorem sup (h : Labelled Q e) : Labelled Q e.sup := by
  obtain ⟨own, hlabels, -⟩ := labels_scripts e
  exact fun l hl => h l (hlabels ▸ List.mem_append_right own (List.mem_append_left _ hl))

theorem sub (h : Labelled Q e) : Labelled Q e.sub := by
  obtain ⟨own, hlabels, -⟩ := labels_scripts e
  exact fun l hl => h l (hlabels ▸ List.mem_append_right own (List.mem_append_right _ hl))

theorem withScripts (h : Labelled Q e) (hs : Labelled Q s) (ht : Labelled Q t) : Labelled Q (e.withScripts s t) := by
  obtain ⟨own, hlabels, hscripts⟩ := labels_scripts e
  have hown : ∀ l ∈ own, Q l := fun l hl => h l (hlabels ▸ List.mem_append_left _ hl)
  intro l hl
  exact List.forall_mem_append.mpr ⟨hown, List.forall_mem_append.mpr ⟨hs, ht⟩⟩ l (hscripts s t hl)

/-! ### Nodes -/

theorem number (value : Datum) (hs : Labelled Q s) (ht : Labelled Q t) : Labelled Q (number value s t) :=
  List.forall_mem_append.mpr ⟨hs, ht⟩

theorem ofSymbol (h : Q (.symbol name)) (variant : Datum) : Labelled Q (ofSymbol name variant) :=
  List.forall_mem_cons.mpr ⟨h, nofun⟩

theorem ofText {content : Datum} (h : Q (.content content)) : Labelled Q (ofText content) := List.forall_mem_cons.mpr ⟨h, nofun⟩

theorem unreadable {placeholder : Datum} (h : Q (.placeholder placeholder)) (message : Datum) :
    Labelled Q (unreadable placeholder message) :=
  List.forall_mem_cons.mpr ⟨h, nofun⟩

theorem group (hfence : Q (.fence fence)) (he : Labelled Q e) (hs : Labelled Q s) (ht : Labelled Q t) :
    Labelled Q (group e fence s t) :=
  List.forall_mem_cons.mpr ⟨hfence, List.forall_mem_append.mpr ⟨he, List.forall_mem_append.mpr ⟨hs, ht⟩⟩⟩

theorem between (hop : Q (.operator op)) (hl : Labelled Q l) (hr : Labelled Q r) : Labelled Q (between op l r) :=
  List.forall_mem_cons.mpr ⟨hop, List.forall_mem_append.mpr ⟨List.forall_mem_append.mpr ⟨hl, hr⟩, nofun⟩⟩

theorem before (hsign : Q (.sign sign)) (he : Labelled Q e) : Labelled Q (before sign e) :=
  List.forall_mem_cons.mpr ⟨hsign, List.forall_mem_append.mpr ⟨he, nofun⟩⟩

theorem quotient (hl : Labelled Q l) (hr : Labelled Q r) : Labelled Q (quotient l r) :=
  List.forall_mem_append.mpr ⟨List.forall_mem_append.mpr ⟨hl, hr⟩, nofun⟩

theorem squareRoot (he : Labelled Q e) : Labelled Q (squareRoot e) :=
  List.forall_mem_append.mpr ⟨List.forall_mem_append.mpr ⟨he, missing⟩, nofun⟩

theorem call (hname : Q (.function name)) (hfence : Q (.fence fence)) (he : Labelled Q e) (hs : Labelled Q s)
    (ht : Labelled Q t) : Labelled Q (call name e fence s t) :=
  List.forall_mem_cons.mpr ⟨hname, List.forall_mem_cons.mpr ⟨hfence,
    List.forall_mem_append.mpr ⟨he, List.forall_mem_append.mpr ⟨hs, ht⟩⟩⟩⟩

theorem apply (hname : Q (.function name)) (hfence : Q (.fence parentheses)) (he : Labelled Q e) : Labelled Q (apply name e) :=
  he.call hname hfence missing missing

/-- A call of one argument or of several. -/
theorem callOf (hname : Q (.function name)) (hfence : Q (.fence fence)) {items : List Expr}
    (hitems : ∀ e ∈ items, Labelled Q e) (hs : Labelled Q s) (ht : Labelled Q t) :
    Labelled Q (Expr.call name (argumentsOf items) fence s t) := by
  refine call hname hfence ?_ hs ht
  unfold argumentsOf
  split
  · exact hitems _ List.mem_cons_self
  · exact several fun e he => hitems e (List.mem_filter.mp he).1

/-! ### What the reader makes of an expression -/

theorem juxtapose (hop : Q (.operator "*")) (hl : Labelled Q l) (hr : Labelled Q r) : Labelled Q (juxtapose l r) := by
  unfold Expr.juxtapose
  split
  · exact hr
  · split
    · exact hl
    · exact hl.between hop hr

theorem withSign (hsign : Q (.sign sign)) (he : Labelled Q e) : Labelled Q (withSign sign e) := by
  obtain h | h := withSign_cases sign e
  · exact fun l hl => he l (labels_of_takesSign h ▸ hl)
  · rw [h]
    exact he.before hsign

theorem attach (hfence : Q (.fence parentheses)) (he : Labelled Q e) (hs : Labelled Q s) (ht : Labelled Q t) :
    Labelled Q (e.attach s t) := by
  unfold Expr.attach
  split
  · exact he
  · split
    · refine he.withScripts ?_ ?_
      · split
        · exact he.sup
        · exact hs
      · split
        · exact he.sub
        · exact ht
    · exact he.group hfence hs ht

/-- The base and the exponent of a root with an index. -/
theorem power (hname : Q (.function "pow")) (hfence : Q (.fence parentheses)) (he : Labelled Q e) (hr : Labelled Q r) :
    Labelled Q (Expr.apply "pow" (tuple [e, Expr.quotient (ofNumber (.int 1)) r])) := by
  have hexponent : Labelled Q (Expr.quotient (ofNumber (.int 1)) r) := (number _ missing missing).quotient hr
  exact (several (List.forall_mem_cons.mpr ⟨he, List.forall_mem_singleton.mpr hexponent⟩)).apply hname hfence

theorem applyInverse (hinverse : ∀ e ∈ inverses, Q (.function (.text e.2))) (h : Labelled Q (Expr.call name e fence s t))
    (he : Labelled Q e') {e'' : Expr} (heq : applyInverse (Expr.call name e' fence s t) = .ok e'') : Labelled Q e'' := by
  obtain ⟨hname, hrest⟩ := List.forall_mem_cons.mp h
  obtain ⟨hfence, -⟩ := List.forall_mem_cons.mp hrest
  cases invertsTo_of_applyInverse heq with
  | unchanged _ => exact he.call hname hfence h.sup h.sub
  | inverse hlookup _ =>
    obtain ⟨key, -, hmem⟩ := Datum.mem_of_lookup hlookup
    exact he.call (hinverse _ hmem) hfence missing h.sub

theorem delimited {left right : Datum} (hfunction : ∀ e ∈ Glyph.delimiterFunctions, Q (.function (.text e.2)))
    (hfence : Q (.fence (.tuple [left, right]))) (hparentheses : Q (.fence parentheses)) (he : Labelled Q e)
    (heq : delimited left right e = .ok e') : Labelled Q e' := by
  obtain ⟨name, hname, rfl⟩ | rfl := delimited_eq_ok heq
  · obtain ⟨key, hmem⟩ := mem_of_delimiterFunction? hname
    exact he.apply (hfunction _ hmem) hparentheses
  · exact he.group hfence missing missing

end Labelled

end Formula.Expr
