import Formula.Expr.OfAtoms
import Formula.Proofs.Expr.Errors
import Formula.Proofs.Settling

/-!
# The form of trees

A host may build any tree, but the reader builds trees of one form.  `Regular` says which nodes it makes, and `Orderly`
that a tree has no others, at any depth.  Everything that the reader does with expressions keeps trees orderly: a sign is
folded, scripts are attached, and calls are made over without a node of another form.
-/

namespace Formula.Expr

/-! ### Nodes -/

/-- The calls with several arguments: those of `f` and `g`, in which no place is empty, and the power that a root with an
index is read as. -/
inductive SeveralArguments : Datum → List Expr → Prop
  | called {name : Datum} {items : List Expr} : name = .text "f" ∨ name = .text "g" →
    (∀ e ∈ items, e.isMissing = false) → SeveralArguments name items
  | power (radicand index : Expr) : SeveralArguments (.text "pow") [radicand, quotient (ofNumber (.int 1)) index]

/-- What is true of every node that the reader makes. -/
structure Regular (e : Expr) : Prop where
  /-- Only these kinds of nodes carry scripts. -/
  scripts : e.decorated = true → e.kindName ∈ ["NumberLiteral", "Symbol", "Group", "FunctionCall"]
  real : e.kindName ≠ "Complex"
  /-- Roots are square roots. -/
  square : ∀ radicand index s t, e = root radicand index s t → index = missing
  several : ∀ name items fence s t, e = call name (tuple items) fence s t → SeveralArguments name items
  fence : ∀ inner fence s t, e = group inner fence s t → ∃ left right, fence = .tuple [.text left, .text right]

/-- The tree has regular nodes alone, and nothing in the place of a node that is none. -/
inductive Orderly : Expr → Prop
  | missing : Orderly missing
  | node {e : Expr} : e.isNode = true → Regular e → (∀ k ∈ e.children, Orderly k) → Orderly e

variable {e l r s t : Expr}

namespace Orderly

theorem regular (h : Orderly e) (he : e.isMissing = false) : Regular e := by
  cases h with
  | missing => cases he
  | node _ hregular _ => exact hregular

theorem isNode (h : Orderly e) (he : e.isMissing = false) : e.isNode = true := by
  cases h with
  | missing => cases he
  | node hnode _ _ => exact hnode

theorem of_mem (h : Orderly e) {k : Expr} (hk : k ∈ e.children) : Orderly k := by
  cases h with
  | missing => cases hk
  | node _ _ hchildren => exact hchildren k hk

/-- Whatever stands in a place of an orderly tree is orderly, and if nothing does. -/
theorem of_part {parts : List Expr} (h : Orderly e) (hparts : e.children = parts.filter fun k => !k.isMissing)
    {k : Expr} (hk : k ∈ parts) : Orderly k := by
  by_cases hm : k.isMissing = true
  · rw [eq_missing hm]
    exact .missing
  · refine h.of_mem ?_
    rw [hparts]
    exact List.mem_filter.mpr ⟨hk, by simpa using hm⟩

theorem sup (h : Orderly e) : Orderly e.sup := h.of_part rfl (by simp)

theorem sub (h : Orderly e) : Orderly e.sub := h.of_part rfl (by simp)

/-- A regular node over orderly parts, the empty places among them. -/
theorem of_parts (parts : List Expr) (hnode : e.isNode = true) (hregular : Regular e)
    (hparts : e.children = parts.filter fun k => !k.isMissing) (h : ∀ k ∈ parts, Orderly k) : Orderly e := by
  refine .node hnode hregular fun k hk => ?_
  rw [hparts] at hk
  exact h k (List.mem_filter.mp hk).1

/-! ### Nodes of one kind -/

theorem number (value : Datum) (hs : Orderly s) (ht : Orderly t) : Orderly (number value s t) :=
  of_parts [s, t] rfl ⟨fun _ => by simp [kindName], by simp [kindName], nofun, nofun, nofun⟩ rfl
    (by simp [hs, ht])

theorem symbol (name variant : Datum) (hs : Orderly s) (ht : Orderly t) : Orderly (symbol name variant s t) :=
  of_parts [s, t] rfl ⟨fun _ => by simp [kindName], by simp [kindName], nofun, nofun, nofun⟩ rfl
    (by simp [hs, ht])

theorem group (left right : String) (he : Orderly e) (hs : Orderly s) (ht : Orderly t) :
    Orderly (group e (.tuple [.text left, .text right]) s t) := by
  refine of_parts [e, s, t] rfl ⟨fun _ => by simp [kindName], by simp [kindName], nofun, nofun, ?_⟩ rfl
    (by simp [he, hs, ht])
  rintro _ _ _ _ ⟨⟩
  exact ⟨left, right, rfl⟩

/-- A call of one argument, since an orderly tree is not several expressions. -/
theorem call (name fence : Datum) (he : Orderly e) (hs : Orderly s) (ht : Orderly t) :
    Orderly (call name e fence s t) := by
  have hone : ∀ items, e ≠ tuple items := by
    rintro items rfl
    cases he with
    | node hnode _ _ => cases hnode
  have hparts : (Expr.call name e fence s t).children = [e, s, t].filter fun k => !k.isMissing := by
    cases e with
    | tuple items => exact absurd rfl (hone items)
    | _ => rfl
  refine of_parts [e, s, t] rfl ⟨fun _ => by simp [kindName], by simp [kindName], nofun, ?_, nofun⟩ hparts (by simp [he, hs, ht])
  rintro _ items _ _ _ ⟨⟩
  exact absurd rfl (hone items)

theorem callOfSeveral {name fence : Datum} {items : List Expr} (h : SeveralArguments name items)
    (hitems : ∀ e ∈ items, Orderly e) (hs : Orderly s) (ht : Orderly t) :
    Orderly (Expr.call name (tuple items) fence s t) := by
  refine of_parts (items ++ [s, t]) rfl ⟨fun _ => by simp [kindName], by simp [kindName], nofun, ?_, nofun⟩ rfl
    fun k hk => ?_
  · rintro _ _ _ _ _ ⟨⟩
    exact h
  · rcases List.mem_append.mp hk with hk | hk
    · exact hitems k hk
    · simp only [List.mem_cons, List.not_mem_nil, or_false] at hk
      rcases hk with rfl | rfl
      · exact hs
      · exact ht

theorem ofText (content : Datum) : Orderly (ofText content) :=
  of_parts [] rfl ⟨nofun, by simp [Expr.ofText, kindName], nofun, nofun, nofun⟩ rfl (by simp)

theorem unreadable (placeholder message : Datum) : Orderly (unreadable placeholder message) :=
  of_parts [] rfl ⟨nofun, by simp [Expr.unreadable, kindName], nofun, nofun, nofun⟩ rfl (by simp)

theorem before (op : Datum) (he : Orderly e) : Orderly (before op e) :=
  of_parts [e, Expr.missing, Expr.missing] rfl
    ⟨nofun, by simp [Expr.before, kindName], nofun, nofun, nofun⟩ rfl (by simp [he, Orderly.missing])

theorem squareRoot (he : Orderly e) : Orderly (squareRoot e) := by
  refine of_parts [e, Expr.missing, Expr.missing, Expr.missing] rfl
    ⟨nofun, by simp [Expr.squareRoot, kindName], ?_, nofun, nofun⟩ rfl (by simp [he, Orderly.missing])
  rintro _ _ _ _ ⟨⟩
  rfl

theorem quotient (hl : Orderly l) (hr : Orderly r) : Orderly (quotient l r) :=
  of_parts [l, r, Expr.missing, Expr.missing] rfl
    ⟨nofun, by simp [Expr.quotient, kindName], nofun, nofun, nofun⟩ rfl (by simp [hl, hr, Orderly.missing])

theorem binary (op : Datum) (hl : Orderly l) (hr : Orderly r) : Orderly (between op l r) :=
  of_parts [l, r, Expr.missing, Expr.missing] rfl
    ⟨nofun, by simp [Expr.between, kindName], nofun, nofun, nofun⟩ rfl (by simp [hl, hr, Orderly.missing])

/-! ### What the reader makes of an expression -/

theorem apply (name : Datum) (he : Orderly e) : Orderly (apply name e) := he.call name _ .missing .missing

theorem juxtapose (hl : Orderly l) (hr : Orderly r) : Orderly (juxtapose l r) := by
  unfold Expr.juxtapose
  split
  · exact hr
  · split
    · exact hl
    · exact hl.binary _ hr

theorem of_takesSign {sign : Datum} {e e' : Expr} (h : TakesSign sign e e') (he : Orderly e) : Orderly e' := by
  induction h with
  | @number v v' _ => exact .number v' .missing .missing
  | @product l l' r _ ih =>
    have part : ∀ k ∈ [l, r], Orderly k := fun k hk => he.of_part rfl (List.mem_append_left _ hk)
    exact (ih (part l (by simp))).binary _ (part r (by simp))

theorem withSign {sign : Datum} (he : Orderly e) : Orderly (withSign sign e) := by
  obtain h | h := withSign_cases sign e
  · exact of_takesSign h he
  · rw [h]
    exact he.before sign

/-- A node of a kind that holds scripts takes any. -/
theorem withScripts (he : Orderly e) (hholds : e.holdsScripts = true) (hs : Orderly s) (ht : Orderly t) :
    Orderly (e.withScripts s t) := by
  have hregular : Regular (e.withScripts s t) := by
    cases e with
    | number | symbol => exact ⟨fun _ => by simp [Expr.withScripts, kindName], by simp [Expr.withScripts, kindName], nofun, nofun, nofun⟩
    | group inner fence s' t' =>
      refine ⟨fun _ => by simp [Expr.withScripts, kindName], by simp [Expr.withScripts, kindName], nofun, nofun, ?_⟩
      rintro _ _ _ _ ⟨⟩
      exact (he.regular rfl).fence _ _ _ _ rfl
    | call name argument fence s' t' =>
      refine ⟨fun _ => by simp [Expr.withScripts, kindName], by simp [Expr.withScripts, kindName], nofun, ?_, nofun⟩
      rintro _ _ _ _ _ ⟨⟩
      exact (he.regular rfl).several _ _ _ _ _ rfl
    | _ => cases hholds
  have hnode : (e.withScripts s t).isNode = true := by
    cases e with
    | number | symbol | group | call => rfl
    | _ => cases hholds
  refine .node hnode hregular fun k hk => ?_
  rcases mem_children_withScripts (by cases e <;> first | rfl | cases hholds) hk with rfl | rfl | hk
  · exact hs
  · exact ht
  · exact he.of_mem hk

/-- Scripts are put on a node of a kind that holds them, else on a group in parentheses around it. -/
theorem attach (he : Orderly e) (hs : Orderly s) (ht : Orderly t) : Orderly (e.attach s t) := by
  unfold Expr.attach
  split
  · exact he
  · split
    · rename_i hplaces
      simp only [Bool.and_eq_true] at hplaces
      refine he.withScripts hplaces.1.1 ?_ ?_
      · split
        · exact he.sup
        · exact hs
      · split
        · exact he.sub
        · exact ht
    · exact he.group "(" ")" hs ht

/-- The arguments of a call of `f` or `g`: one argument, or several without the empty ones. -/
theorem callOf {name fence : Datum} {items : List Expr} (hname : name = .text "f" ∨ name = .text "g")
    (hitems : ∀ e ∈ items, Orderly e) (hs : Orderly s) (ht : Orderly t) :
    Orderly (Expr.call name (argumentsOf items) fence s t) := by
  unfold argumentsOf
  split
  · exact (hitems _ List.mem_cons_self).call name fence hs ht
  · refine .callOfSeveral (.called hname fun e he => ?_) (fun e he => hitems e (List.mem_filter.mp he).1) hs ht
    simpa using (List.mem_filter.mp he).2

theorem power (he : Orderly e) (hr : Orderly r) :
    Orderly (Expr.apply (.text "pow") (tuple [e, Expr.quotient (ofNumber (.int 1)) r])) :=
  .callOfSeveral (.power e r) (by simp [he, (Orderly.number _ .missing .missing).quotient hr, ofNumber]) .missing .missing

theorem applyInverse {name fence : Datum} {e' e'' : Expr} (h : Orderly (Expr.call name e fence s t)) (he : Orderly e')
    (hinverse : applyInverse (Expr.call name e' fence s t) = .ok e'') : Orderly e'' := by
  cases invertsTo_of_applyInverse hinverse with
  | unchanged _ => exact he.call name fence h.sup h.sub
  | inverse _ _ => exact he.call _ fence .missing h.sub

theorem delimited {left right : String} {e' : Expr} (he : Orderly e)
    (h : delimited (.text left) (.text right) e = .ok e') : Orderly e' := by
  obtain ⟨name, -, rfl⟩ | rfl := delimited_eq_ok h
  · exact he.apply (.text name)
  · exact he.group left right .missing .missing

end Orderly

/-- The walk along an orderly tree goes through, and all nodes on it are regular. -/
theorem Orderly.walk (h : Orderly e) : ∃ nodes, e.walk = .ok nodes ∧ ∀ k ∈ nodes, Regular k := by
  have hP : ∀ e, Orderly e ∧ e.isMissing = false →
      e.isNode = true ∧ ∀ k ∈ e.children, Orderly k ∧ k.isMissing = false := fun e he =>
    ⟨he.1.isNode he.2, fun k hk => ⟨he.1.of_mem hk, by simpa using (List.mem_filter.mp hk).2⟩⟩
  have hroot : e.isMissing = true ∨ Orderly e ∧ e.isMissing = false := by
    cases hm : e.isMissing with
    | true => exact .inl rfl
    | false => exact .inr ⟨h, rfl⟩
  obtain ⟨nodes, hwalk, hnodes⟩ := walk_of_closed hP hroot
  exact ⟨nodes, hwalk, fun k hk => (hnodes k hk).1.regular (hnodes k hk).2⟩

end Formula.Expr
