import Formula.Proofs.Expr.ErrorList
import Formula.Proofs.Reader.TreeForm
import Formula.Proofs.Reader.TwinReading

/-!
# The atoms that errors come from

An error node is made from an atom that fits no rule, or from scripts without a base, and it is made from an atom too if it is
made from one in a sequence nested in it (`Atom.MakesError`).  All errors in the tree of a sequence are made from its atoms;
that is a discipline of its rows (`Discipline.traced`), which also tells that all places of a tree hold nodes.
-/

namespace Formula

open Atom Expr Outcome

/-- The error node is made from the atom, or from one in a sequence nested in it. -/
inductive Atom.MakesError : Atom → Expr → Prop
  /-- An atom that fits no rule. -/
  | unexpected {a : Atom} {x : Expr} : a.unexpected = .ok x → MakesError a x
  /-- Scripts without a base. -/
  | placeholder {a : Atom} : a.isPlaceholder = true → MakesError a (unreadable "" "sub/superscript without a base")
  | inside {a b : Atom} {field : Option (List Atom)} {x : Expr} : field ∈ a.fields → b ∈ field.getD [] → MakesError b x →
    MakesError a x

namespace Expr

/-- All places of the tree are empty or hold nodes, and its errors have the property. -/
structure Traced (Q : Expr → Prop) (e : Expr) : Prop where
  walkable : e.Walkable
  made : ∀ x ∈ errorsIn e, Q x

namespace Traced

variable {Q : Expr → Prop} {e e' l r s t : Expr}

theorem missing : Traced Q missing := ⟨.missing, by simp⟩

theorem isNode (h : Traced Q e) (he : e.isMissing = false) : e.isNode = true := by
  cases h.walkable with
  | missing => cases he
  | node hnode _ => exact hnode

theorem of_parts (parts : List Expr) (hnode : e.isNode = true) (hplain : e.isError = false)
    (hparts : e.children = parts.filter fun k => !k.isMissing) (h : ∀ k ∈ parts, Traced Q k) : Traced Q e where
  walkable := .node hnode fun k hk => (h k (List.mem_of_mem_filter (hparts ▸ hk))).walkable
  made x hx := by
    rw [errorsIn_children hnode, hplain, hparts, errorsIn_there] at hx
    obtain ⟨k, hk, hx⟩ := List.mem_flatMap.mp hx
    exact (h k hk).made x hx

/-- Whatever stands in a place of the tree. -/
theorem of_part {parts : List Expr} (h : Traced Q e) (hparts : e.children = parts.filter fun k => !k.isMissing) {k : Expr}
    (hk : k ∈ parts) : Traced Q k := by
  by_cases hm : k.isMissing = true
  · rw [eq_missing hm]
    exact missing
  · have hmem : k ∈ e.children := hparts ▸ List.mem_filter.mpr ⟨hk, by simpa using hm⟩
    obtain ⟨hwalkable, hmade⟩ := h
    cases hwalkable with
    | missing => cases hmem
    | node hnode hchildren =>
      refine ⟨hchildren k hmem, fun x hx => hmade x ?_⟩
      rw [errorsIn_children hnode]
      exact List.mem_append_right _ (List.mem_flatMap.mpr ⟨k, hmem, hx⟩)

theorem sup (h : Traced Q e) : Traced Q e.sup := h.of_part rfl (by simp)

theorem sub (h : Traced Q e) : Traced Q e.sub := h.of_part rfl (by simp)

/-! ### Nodes of one kind -/

theorem ofNumber (value : Datum) : Traced Q (ofNumber value) := of_parts [] rfl rfl rfl (by simp)

theorem ofSymbol (name variant : Datum) : Traced Q (ofSymbol name variant) := of_parts [] rfl rfl rfl (by simp)

theorem ofText (content : Datum) : Traced Q (ofText content) := of_parts [] rfl rfl rfl (by simp)

theorem unreadable {placeholder message : Datum} (h : Q (unreadable placeholder message)) :
    Traced Q (unreadable placeholder message) :=
  ⟨.node rfl (fun k hk => by cases hk), by simpa using h⟩

theorem group (fence : Datum) (he : Traced Q e) (hs : Traced Q s) (ht : Traced Q t) : Traced Q (group e fence s t) :=
  of_parts [e, s, t] rfl rfl rfl (by simp [he, hs, ht])

theorem before (op : Datum) (he : Traced Q e) : Traced Q (before op e) :=
  of_parts [e, Expr.missing, Expr.missing] rfl rfl rfl (by simp [he, missing])

theorem squareRoot (he : Traced Q e) : Traced Q (squareRoot e) :=
  of_parts [e, Expr.missing, Expr.missing, Expr.missing] rfl rfl rfl (by simp [he, missing])

theorem quotient (hl : Traced Q l) (hr : Traced Q r) : Traced Q (quotient l r) :=
  of_parts [l, r, Expr.missing, Expr.missing] rfl rfl rfl (by simp [hl, hr, missing])

theorem between (op : Datum) (hl : Traced Q l) (hr : Traced Q r) : Traced Q (between op l r) :=
  of_parts [l, r, Expr.missing, Expr.missing] rfl rfl rfl (by simp [hl, hr, missing])

theorem call (name fence : Datum) (he : Traced Q e) (hs : Traced Q s) (ht : Traced Q t) : Traced Q (call name e fence s t) := by
  refine of_parts [e, s, t] rfl rfl ?_ (by simp [he, hs, ht])
  cases e with
  | tuple items => cases he.isNode rfl
  | _ => rfl

theorem callOf (name fence : Datum) {items : List Expr} (hitems : ∀ e ∈ items, Traced Q e) (hs : Traced Q s) (ht : Traced Q t) :
    Traced Q (Expr.call name (argumentsOf items) fence s t) := by
  unfold argumentsOf
  split
  · exact (hitems _ List.mem_cons_self).call name fence hs ht
  · refine of_parts (items.filter (fun e => !e.isMissing) ++ [s, t]) rfl rfl rfl fun k hk => ?_
    rcases List.mem_append.mp hk with hk | hk
    · exact hitems k (List.mem_of_mem_filter hk)
    · simp only [List.mem_cons, List.not_mem_nil, or_false] at hk
      rcases hk with rfl | rfl
      · exact hs
      · exact ht

/-! ### What the reader makes of an expression -/

theorem apply (name : Datum) (he : Traced Q e) : Traced Q (apply name e) := he.call name _ missing missing

theorem power (he : Traced Q e) (hr : Traced Q r) :
    Traced Q (Expr.apply (.text "pow") (tuple [e, Expr.quotient (Expr.ofNumber (.int 1)) r])) :=
  of_parts [e, Expr.quotient (Expr.ofNumber (.int 1)) r, Expr.missing, Expr.missing] rfl rfl rfl
    (by simp [he, (ofNumber _).quotient hr, missing])

theorem juxtapose (hl : Traced Q l) (hr : Traced Q r) : Traced Q (juxtapose l r) := by
  unfold Expr.juxtapose
  split
  · exact hr
  · split
    · exact hl
    · exact hl.between _ hr

theorem of_takesSign {sign : Datum} {e e' : Expr} (h : TakesSign sign e e') (he : Traced Q e) : Traced Q e' := by
  induction h with
  | number _ => exact ofNumber _
  | @product l l' r _ ih =>
    have part : ∀ k ∈ [l, r], Traced Q k := fun k hk => he.of_part rfl (List.mem_append_left _ hk)
    exact (ih (part l (by simp))).between _ (part r (by simp))

theorem withSign {sign : Datum} (he : Traced Q e) : Traced Q (withSign sign e) := by
  obtain h | h := withSign_cases sign e
  · exact of_takesSign h he
  · rw [h]
    exact he.before sign

theorem attach (he : Traced Q e) (hs : Traced Q s) (ht : Traced Q t) : Traced Q (e.attach s t) := by
  unfold Expr.attach
  split
  · exact he
  · split
    · next hplaces =>
      simp only [Bool.and_eq_true] at hplaces
      have hnode : e.isNode = true := he.isNode (by cases e <;> first | rfl | cases hplaces.1.1)
      obtain ⟨parts, hchildren, hscripted⟩ := children_withScripts hnode
      have hplain : ∀ s t, (e.withScripts s t).isError = false := by
        intro s t
        cases e <;> first | rfl | cases hplaces.1.1
      refine of_parts _ (isNode_withScripts hnode _ _) (hplain _ _) (hscripted _ _) fun k hk => ?_
      rcases List.mem_append.mp hk with hk | hk
      · exact he.of_part hchildren (List.mem_append_left _ hk)
      · simp only [List.mem_cons, List.not_mem_nil, or_false] at hk
        rcases hk with rfl | rfl
        · split
          · exact he.sup
          · exact hs
        · split
          · exact he.sub
          · exact ht
    · exact he.group _ hs ht

theorem applyInverse {name fence : Datum} (h : Traced Q (Expr.call name e fence s t)) (he : Traced Q e')
    {e'' : Expr} (hinverse : applyInverse (Expr.call name e' fence s t) = .ok e'') : Traced Q e'' := by
  cases invertsTo_of_applyInverse hinverse with
  | unchanged _ => exact he.call name fence h.sup h.sub
  | inverse _ _ => exact he.call _ fence missing h.sub

theorem delimited {left right : Datum} (he : Traced Q e) (h : delimited left right e = .ok e') : Traced Q e' := by
  obtain ⟨name, -, rfl⟩ | rfl := delimited_eq_ok h
  · exact he.apply name
  · exact he.group _ missing missing

end Traced

end Expr

/-! ### The discipline -/

/-- Whatever is made from the atoms of a row has the property. -/
def MadeWithin (Q : Expr → Prop) (row : List Atom) : Prop := ∀ a ∈ row, ∀ x, a.MakesError x → Q x

/-- All errors in what is read of a row are made from its atoms. -/
theorem Discipline.traced (c : Catalog) (Q : Expr → Prop) :
    Discipline c (fun _ => True) (MadeWithin Q) (Traced Q) where
  part h hs := fun a ha => h a (hs.subset ha)
  unspaced h := fun a ha => h a (List.mem_of_mem_filter ha)
  nested h hfield := fun b hb x hx => h _ (List.mem_singleton.mpr rfl) x (.inside hfield (List.mem_of_mem_filter hb) hx)
  precedence _ := .of_values fun _ _ => trivial
  operation _ _ := .of_values fun op _ _ _ hl hr => hl.between op hr
  sign _ := .of_values fun _ _ _ _ _ he => he.withSign
  product hl hr := hl.between _ hr
  sum hl hr := hl.between _ hr
  juxtapose hl hr := hl.juxtapose hr
  missing := .missing
  startsOperand _ := .of_values fun _ _ => trivial
  placeholder h hplaceholder := .unreadable (h _ (List.mem_singleton.mpr rfl) _ (.placeholder hplaceholder))
  symbol _ _ := .of_values fun e h => by
    obtain ⟨name, v, rfl⟩ := symbol_eq_ok h
    exact .ofSymbol name v
  inFont _ _ := .of_values fun e h => by
    obtain ⟨content, rfl | ⟨v, rfl⟩⟩ := inFont_eq_ok h
    · exact .ofText _
    · exact .ofSymbol _ v
  asText _ _ := .of_values fun e h => by
    obtain ⟨content, rfl⟩ := asText_eq_ok h
    exact .ofText content
  quotient hl hr := hl.quotient hr
  squareRoot he := he.squareRoot
  power he hi := he.power hi
  attach he hs ht := he.attach hs ht
  unexpected h := .of_values fun e he => by
    obtain ⟨placeholder, message, -, rfl⟩ := unexpected_eq_ok he
    exact .unreadable (h _ (List.mem_singleton.mpr rfl) _ (.unexpected he))
  startsNumber _ := .of_values fun _ _ => trivial
  numeral _ _ := .of_values fun _ _ => trivial
  literal _ _ _ _ _ := .of_values fun e h => by
    obtain ⟨x, rfl⟩ := literalOf_eq_ok h
    exact .ofNumber _
  mixed _ _ := .of_values fun _ _ => trivial
  digraph _ := .of_values fun _ _ _ _ _ he => he.apply _
  postfix? _ := .of_values fun _ _ _ _ _ he => he.apply _
  isFunction _ _ := .of_values fun _ _ => trivial
  functionName _ _ := .of_values fun name _ => Traced.missing.apply name
  argument h he' := .of_values fun _ hinverse => h.applyInverse he' hinverse
  closesAny _ := .of_values fun _ _ => trivial
  closes _ := .of_values fun _ _ => trivial
  opener _ := .of_values fun _ _ => trivial
  fenced _ _ he := .of_values fun _ hdelimited => he.delimited hdelimited
  unclosed _ _ he := .of_values fun _ hdelimited => he.delimited hdelimited
  closed _ _ _ _ he := .of_values fun _ _ => .of_values fun _ hdelimited => he.delimited hdelimited
  callName _ := .of_values fun _ _ => trivial
  arguments _ := .of_values fun _ _ => trivial
  commas _ := .of_values fun _ _ => trivial
  callOf h _ hitems := .callOf _ _ hitems h.sup h.sub

/-! ### Readings with any fuel -/

section

variable {c : Catalog} {fuel : Nat} {a : Atom} {e : Expr}

/-- A value is that of the reader without fuel, since running out of fuel is a fault. -/
theorem Outcome.Agree.ok_of_ends {α : Type} {r s : Outcome α} (h : Agree (· = .recursion) Eq r s) (hends : s.Ends) {v : α}
    (hr : r = .ok v) : s = .ok v := by
  subst hr
  cases s with
  | ok w => exact congrArg Except.ok (Eq.symm h)
  | error f => exact absurd h hends

theorem readsAlike (c : Catalog) (fuel : Nat) : Twins.ReadsAlike (· = .recursion) c fuel :=
  Twins.ReadsAlike.all (F := (· = .recursion)) rfl fuel

theorem loose_refl {F : Fault → Prop} (row : List Atom) : Loose F c row row := loose_of_tightRow rfl

theorem nested_of_ofNested {field : Option (List Atom)} (h : ofNested c fuel field = .ok e) : Grammar.nested c field = .ok e :=
  ((readsAlike c fuel).nested (loose_refl _)).ok_of_ends (Call.settled (.halting c) (.nested field) trivial).within h

theorem parts_of_ofParts {rows : List (List Atom)} {items : List Expr} (h : ofParts c fuel rows = .ok items) :
    Grammar.parts c rows = .ok items :=
  ((readsAlike c fuel).parts (List.forall₂_same.mpr fun row _ => loose_refl row)).ok_of_ends
    ((Call.settled (.halting c) (.parts rows) fun _ _ => trivial).within.imp (fun _ h => h) fun _ _ => trivial) h

theorem atom_of_ofAtom (h : ofAtom c fuel a = .ok e) : Grammar.atom c a = .ok e :=
  ((readsAlike c fuel).atom (akin_of_tight rfl).1).ok_of_ends (Call.settled (.halting c) (.atom a) trivial).within h

/-! ### Errors of nested sequences -/

/-- Errors in a nested sequence are made from its atoms. -/
theorem traced_nested {field : Option (List Atom)} (h : ofNested c fuel field = .ok e) :
    e.Traced fun x => ∃ a ∈ field.getD [], a.MakesError x :=
  (Call.settled (.traced c _) (.nested field) fun a ha _ hx => ⟨a, List.mem_of_mem_filter ha, hx⟩).within.of_ok
    (nested_of_ofNested h)

theorem traced_parts {rows : List (List Atom)} {items : List Expr} (h : ofParts c fuel rows = .ok items) :
    ∀ e ∈ items, e.Traced fun x => ∃ row ∈ rows, ∃ a ∈ row, a.MakesError x :=
  (Call.settled (.traced c _) (.parts rows) fun row hrow a ha _ hx =>
    ⟨row, hrow, a, List.mem_of_mem_filter ha, hx⟩).within.of_ok (parts_of_ofParts h)

/-- Errors in what an atom is read as are made from it. -/
theorem traced_atom (h : ofAtom c fuel a = .ok e) : e.Traced a.MakesError :=
  (Call.settled (.traced c _) (.atom a) fun _ hb _ hx => List.mem_singleton.mp hb ▸ hx).within.of_ok (atom_of_ofAtom h)

/-- Errors in a sequence are made from its atoms. -/
theorem traced_ofAtoms {row : List Atom} (h : ofAtoms c row = .ok e) : e.Traced fun x => ∃ a ∈ row, a.MakesError x := by
  rw [ofAtoms_eq] at h
  exact (Call.settled (.traced c _) (.whole row) fun a ha _ hx => ⟨a, List.mem_of_mem_filter ha, hx⟩).within.of_ok h

/-! ### Scripts -/

/-- What the scripts of the atom are read as holds no errors. -/
def Atom.ScriptsRead (c : Catalog) (a : Atom) : Prop :=
  ∀ row, a.superscript = some row ∨ a.subscript = some row → ∀ e, ofAtoms c row = .ok e → e.errors = .ok []

theorem errorsIn_of_scriptsRead (ha : a.ScriptsRead c) {field : Option (List Atom)}
    (hfield : field = a.superscript ∨ field = a.subscript) (h : ofNested c fuel field = .ok e) : errorsIn e = [] := by
  have hnested := nested_of_ofNested h
  cases field with
  | none =>
    rw [Grammar.nested_none] at hnested
    cases hnested
    exact errorsIn_missing
  | some row =>
    rw [Grammar.nested_eq, ← ofAtoms_eq, Option.getD_some] at hnested
    have hnone := ha row (by rcases hfield with h | h <;> simp [← h]) e hnested
    rw [errors_eq (traced_ofAtoms hnested).walkable] at hnone
    exact Except.ok.inj hnone

end

end Formula
