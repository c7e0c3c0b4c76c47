import Formula.Proofs.Reader.Questions

/-!
# The reader halts

Running out of fuel is a fault of its own, which no question about atoms has.  A call that settles has therefore an
outcome other than this fault as soon as it has the fuel that it needs: the functions that call one another come to an
end, whatever the catalog says and whatever the atoms hold.
-/

namespace Formula

open Atom Expr

namespace Outcome

variable {α : Type}

/-- The outcome is not that of running out of fuel. -/
def Ends (r : Outcome α) : Prop := r.Faults (· ≠ .recursion)

theorem Ends.ne {r : Outcome α} (h : r.Ends) : r ≠ .error .recursion := by
  rintro rfl
  exact h rfl

end Outcome

open Outcome

/-! ### Questions -/

/-- A fault of a payload is not that of running out of fuel. -/
theorem holdsPayloadFaults_ends : HoldsPayloadFaults (· ≠ .recursion) := by
  rintro _ (h | h) rfl
  · cases h
  · cases h

namespace Datum

theorem ends_first (d : Datum) : d.first.Ends :=
  (faults_first holdsPayloadFaults_ends d).imp fun _ h => h.elim id fun h => by simp [h.1]

theorem ends_toDouble (d : Datum) : d.toDouble.Ends := by
  unfold toDouble
  split
  · exact faults_ok _
  · unfold wholeToDouble
    split
    · exact faults_error (by simp)
    · exact faults_ok _
  · exact faults_ok _
  · split
    · exact faults_ok _
    · exact faults_error (by simp)
  · exact faults_error (by simp)

end Datum

namespace Atom

variable (c : Catalog)

theorem ends_text (a : Atom) : a.text.Ends := by
  unfold text
  refine .ite (faults_ok _) ?_
  split
  · exact .ite (faults_ok _) (faults_ok _)
  · exact faults_error (by simp)

theorem ends_name (a : Atom) : (a.name c).Ends := by
  refine (ends_text a).bind fun d => .ite (faults_ok _) (.map ?_ _)
  cases d with
  | text s => exact faults_ok _
  | _ => exact faults_error (by simp)

theorem ends_symbol (a : Atom) : (a.symbol c).Ends := by
  refine (ends_name c a).bind fun name => ?_
  cases name with
  | text name =>
    refine .ite (.bind (Datum.ends_first a.value) fun _ => ?_) (.bind (faults_ok _) fun _ => ?_)
    all_goals exact (faults_variant holdsPayloadFaults_ends a).bind fun _ => faults_ok _
  | _ => exact faults_error (by simp)

/-- No question about the spelling of an atom runs out of fuel. -/
theorem permits_ends (a : Atom) : a.Permits c (· ≠ .recursion) where
  payload := holdsPayloadFaults_ends
  text := ends_text a
  name _ := ends_name c a
  command _ _ := by simp
  symbol _ := ends_symbol c a

end Atom

/-! ### Questions about expressions -/

namespace Expr

theorem ends_mixedNumber (literal e : Expr) : (mixedNumber literal e).Ends := by
  unfold mixedNumber
  split
  · exact faults_error (by simp)
  · exact faults_error (by simp)
  · exact faults_error (by simp)
  · refine .ite (faults_ok _) ?_
    split
    · exact (Faults.ite ((Datum.ends_toDouble _).map _) (faults_ok _)).bind fun _ => faults_ok _
    · exact faults_error (by simp)
    · exact faults_ok _

theorem ends_isMinusOne (e : Expr) : e.isMinusOne.Ends := by
  unfold isMinusOne
  split
  · unfold valueIsMinusOne
    have h := Datum.ends_toDouble ‹Datum›
    split
    · exact faults_ok _
    · exact faults_ok _
    · rename_i fault _ heq
      exact faults_error fun hf => h.ne (by rw [heq, hf])
  · exact faults_ok _
  · exact faults_ok _

theorem ends_applyInverse (e : Expr) : (applyInverse e).Ends := by
  have name : ∀ (name : Datum) (sup : Expr), (inverseName? name sup).Ends := by
    intro name sup
    refine (Datum.faults_lookup holdsPayloadFaults_ends _ _).bind fun found => ?_
    cases found with
    | none => exact faults_ok _
    | some inverse => exact (ends_isMinusOne sup).bind fun _ => faults_ok _
  unfold applyInverse
  split
  · refine (name _ _).bind fun found => ?_
    cases found with
    | none => exact faults_ok _
    | some inverse => exact faults_ok _
  · refine (name _ _).bind fun found => ?_
    cases found with
    | none => exact faults_ok _
    | some inverse => exact faults_error (by simp)
  · exact faults_error (by simp)

end Expr

/-! ### All calls -/

/-- No question of the reader runs out of fuel. -/
theorem Discipline.halting (c : Catalog) : Discipline c (· ≠ .recursion) (fun _ => True) (fun _ => True) := by
  have hF := holdsPayloadFaults_ends
  have atom : ∀ a : Atom, a.Permits c (· ≠ .recursion) := permits_ends c
  have row : ∀ (row : List Atom), ∀ a ∈ row, a.Permits c (· ≠ .recursion) := fun _ a _ => atom a
  constructor
  case precedence => exact fun _ => (atom _).precedence
  case operation => exact fun _ _ => Faults.within (ends_name c _) fun _ _ _ _ _ _ => trivial
  case sign => exact fun _ => (atom _).sign?.within fun _ _ _ _ _ _ => trivial
  case startsOperand => exact fun _ => (atom _).startsOperand _
  case symbol => exact fun _ _ => ends_symbol c _
  case inFont => exact fun _ _ => faults_inFont hF (row _)
  case asText => exact fun _ _ => faults_asText hF (row _)
  case unexpected => exact fun _ => (atom _).unexpected
  case startsNumber => exact fun _ => faults_startsNumber (row _)
  case numeral => exact fun _ _ => faults_scanNumeralFrom _ _ _ (row _)
  case literal => exact fun _ _ _ _ _ => faults_literalOf hF _
  case mixed => exact fun _ _ => ends_mixedNumber _ _
  case digraph => exact fun _ => (faults_startsWithDigraph? _ (row _)).within fun _ _ _ _ _ _ => trivial
  case postfix? => exact fun _ => (atom _).postfixFunction?.within fun _ _ _ _ _ _ => trivial
  case isFunction => exact fun _ htype => (atom _).isFunction htype
  case functionName => exact fun _ _ => ends_name c _
  case argument => exact fun _ _ => ends_applyInverse _
  case closesAny => exact fun _ => (atom _).closesAny _
  case closes => exact fun _ => (atom _).closes _
  case opener => exact fun _ => (atom _).opener?
  case fenced => exact fun _ _ _ => faults_delimited hF _ _ _
  case unclosed => exact fun _ _ _ => faults_delimited hF _ _ _
  case closed => exact fun _ _ _ _ _ => (atom _).glyph.within fun _ _ => faults_delimited hF _ _ _
  case callName => exact fun _ => faults_callName? hF _
  case arguments => exact fun _ => faults_callArguments? (row _)
  case commas => exact fun _ => faults_splitAtCommas _ _ (row _)
  all_goals intros; trivial

/-- From some fuel on the outcome stays as it is, and it is not that of running out of fuel. -/
def Halts {α : Type} (f : Nat → Outcome α) : Prop := ∃ need r, r ≠ .error .recursion ∧ ∀ n, need ≤ n → f n = r

theorem Settles.halts {α : Type} {P : α → Prop} {need : Nat} {r : Outcome α} {f : Nat → Outcome α}
    (h : Settles (· ≠ .recursion) P need r f) : Halts f := by
  have hends : r.Ends := h.within.imp (fun _ hf => hf) fun _ _ => trivial
  exact ⟨need, r, hends.ne, h.eq⟩

/-- **The fuel of a reading never runs out.** -/
theorem ofAtoms_ends (c : Catalog) (atoms : List Atom) : (ofAtoms c atoms).Ends := by
  rw [ofAtoms_eq]
  exact (Call.settled (.halting c) (.whole atoms) trivial).within

end Formula
