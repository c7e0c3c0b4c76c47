import Formula.Proofs.Reader.Grammar
import Formula.Proofs.Reader.Worded

/-!
# What questions fail of

Whatever a payload holds, a question about its atoms fails in one of two ways.  Either a value is of the wrong kind or not
acceptable, which is a fault of the payload; or the spelling of an atom is at fault.  The second is traced to four questions
alone: the spelling itself, the name of an atom that may be an operator, a spelling that is asked how it begins, and the name
of a symbol.  `Permits` says that a set of faults holds the first kind and what these four may fail of; then it holds what any
other question about the atom may fail of.
-/

namespace Formula

open Atom Expr

namespace Outcome

variable {α β : Type} {F : Fault → Prop}

/-- What the outcome fails of, if it does, is in `F`. -/
def Faults (F : Fault → Prop) (r : Outcome α) : Prop := r.Within F fun _ => True

theorem faults_ok (v : α) : Faults F (.ok v) := trivial

theorem faults_error {f : Fault} (h : F f) : Faults F (.error f : Outcome α) := h

theorem Faults.bind {r : Outcome α} {s : α → Outcome β} (h : r.Faults F) (hs : ∀ v, (s v).Faults F) :
    (r >>= s).Faults F := Within.bind h fun v _ => hs v

theorem Faults.map {r : Outcome α} (h : r.Faults F) (g : α → β) : Faults F (r.map g) := Within.map h fun _ _ => trivial

theorem Faults.ite {b : Prop} [Decidable b] {r s : Outcome α} (hr : r.Faults F) (hs : s.Faults F) :
    Faults F (if b then r else s) := by
  by_cases hb : b
  · rwa [if_pos hb]
  · rwa [if_neg hb]

theorem Faults.imp {G : Fault → Prop} {r : Outcome α} (h : r.Faults F) (hF : ∀ f, F f → G f) : r.Faults G :=
  Within.imp h hF fun _ _ => trivial

theorem Faults.within {P : α → Prop} {r : Outcome α} (h : r.Faults F) (hP : ∀ v, r = .ok v → P v) : r.Within F P :=
  (Within.and_ok h hP).imp (fun _ hf => hf) fun _ hv => hv.2

end Outcome

open Outcome

/-- Every fault of a payload is in `F`: a value of the wrong kind, or one that is not acceptable. -/
def HoldsPayloadFaults (F : Fault → Prop) : Prop := ∀ f : Fault, f.kind = .value ∨ f.kind = .type → F f

variable {F : Fault → Prop}

/-! ### Values -/

namespace Datum

theorem faults_key (hF : HoldsPayloadFaults F) (d : Datum) : d.key.Faults F := by
  unfold key
  cases d.looseKind? with
  | none => exact faults_ok _
  | some kind => exact faults_error (hF _ (.inr rfl))

theorem faults_lookup (hF : HoldsPayloadFaults F) {α : Type} (table : List (String × α)) (d : Datum) :
    (d.lookup table).Faults F := (faults_key hF d).map _

theorem faults_isOneOf (hF : HoldsPayloadFaults F) (names : List String) (d : Datum) : (d.isOneOf names).Faults F :=
  (faults_key hF d).map _

theorem faults_precedenceOf (hF : HoldsPayloadFaults F) (c : Catalog) (name : Datum) : (c.precedenceOf name).Faults F :=
  (faults_key hF name).map _

/-- A value that is there has no first part if it is a mapping without an entry under zero. -/
theorem faults_first (hF : HoldsPayloadFaults F) (d : Datum) :
    d.first.Faults fun f => F f ∨ f = .noEntry ∧ (d.isVoid = true ∨
      ∃ entries, d = map entries ∧ entries.find? (fun e => e.1.same (int 0)) = none) := by
  unfold first
  split
  · split
    · exact faults_ok _
    · rename_i s hs
      refine faults_error (.inr ⟨rfl, .inl ?_⟩)
      rw [String.toList_eq_nil_iff.mp hs]
      rfl
  · exact faults_ok _
  · exact faults_ok _
  · exact faults_error (.inr ⟨rfl, .inl rfl⟩)
  · exact faults_error (.inr ⟨rfl, .inl rfl⟩)
  · split
    · exact faults_ok _
    · rename_i hnone
      exact faults_error (.inr ⟨rfl, .inr ⟨_, rfl, hnone⟩⟩)
  · exact faults_error (.inl (hF _ (.inr rfl)))

end Datum

/-! ### Questions about an atom -/

namespace Atom

/-- Faults of a payload are in `F`, and so is what the four questions about the spelling of the atom may fail of. -/
structure Permits (c : Catalog) (F : Fault → Prop) (a : Atom) : Prop where
  payload : HoldsPayloadFaults F
  text : a.text.Faults F
  name : operatorTypes.contains a.type = true → (a.name c).Faults F
  command : a.type = .operator → (∀ s, a.text ≠ .ok (.text s)) → F .noOperation
  symbol : a.type = .ordinary ∨ a.type = .textual → (a.symbol c).Faults F

variable {c : Catalog} {a b : Atom}

namespace Permits

theorem precedence (h : a.Permits c F) : (a.precedence c).Faults F := by
  unfold Atom.precedence
  split
  · rename_i htype
    exact (h.name htype).bind (Datum.faults_precedenceOf h.payload c)
  · exact faults_ok _

theorem sign? (h : a.Permits c F) : (a.sign? c).Faults F := by
  unfold Atom.sign?
  split
  · rename_i htype
    exact (h.name (by rw [htype]; decide)).bind fun _ => faults_ok _
  · exact faults_ok _

theorem isFunction (h : a.Permits c F) (htype : operatorTypes.contains a.type = true) : (a.isFunction c).Faults F := by
  refine (h.name htype).bind fun name => (Datum.faults_precedenceOf h.payload c name).bind fun p => .ite (faults_ok _) ?_
  refine Within.bind (h.text.within fun d hd => hd) fun d hd => ?_
  split
  · exact faults_ok _
  · rename_i hoperator hnot
    exact faults_error (h.command hoperator fun s hs => hnot s (Except.ok.inj (hd.symm.trans hs)))
  · exact faults_ok _

theorem glyph (h : a.Permits c F) : a.glyph.Faults F := .ite (faults_ok _) h.text

theorem closes (h : a.Permits c F) (closer : Closer) : (a.closes closer).Faults F :=
  .ite (h.glyph.bind fun _ => faults_ok _) (faults_ok _)

theorem closesAny (h : a.Permits c F) : ∀ closers : List Closer, (a.closesAny closers).Faults F
  | [] => faults_ok _
  | closer :: rest => (h.closes closer).bind fun _ => .ite (faults_ok _) (h.closesAny rest)

theorem opener? (h : a.Permits c F) : a.opener?.Faults F := by
  unfold Atom.opener?
  split
  · exact h.text.bind fun text => (Datum.faults_lookup h.payload _ text).bind fun _ => faults_ok _
  · exact h.text.bind fun text => (Datum.faults_lookup h.payload _ text).bind fun _ => faults_ok _
  · exact (Datum.faults_lookup h.payload _ _).bind fun _ => faults_ok _
  · exact faults_ok _

theorem startsOperand (h : a.Permits c F) (closers : List Closer) : (a.startsOperand c closers).Faults F := by
  refine (h.closesAny closers).bind fun _ => .ite (faults_ok _) (h.precedence.bind fun _ => ?_)
  refine .ite (faults_ok _) (.ite (faults_ok _) ?_)
  split
  · exact (Datum.faults_lookup h.payload _ _).bind fun _ =>
      (Datum.faults_isOneOf h.payload _ _).bind fun _ => faults_ok _
  · exact h.text.bind fun text => (Datum.faults_lookup h.payload _ text).bind fun _ => faults_ok _
  · exact faults_ok _

theorem digraph? (ha : a.Permits c F) (hb : b.Permits c F) : (Atom.digraph? a b).Faults F := by
  refine .ite (faults_ok _) (ha.text.bind fun left => hb.text.bind fun right => ?_)
  refine (Datum.faults_key ha.payload left).bind fun left => (Datum.faults_key ha.payload right).bind fun right => ?_
  split
  · exact faults_ok _
  · exact faults_ok _

theorem postfixFunction? (h : a.Permits c F) : a.postfixFunction?.Faults F :=
  .ite (h.text.bind (Datum.faults_lookup h.payload _)) (faults_ok _)

theorem unexpected (h : a.Permits c F) : a.unexpected.Faults F := h.text.bind fun _ => faults_ok _

theorem isDigit (h : a.Permits c F) : a.isDigit.Faults F :=
  .ite (h.text.bind (Datum.faults_isOneOf h.payload _)) (faults_ok _)

theorem signOf? (h : a.Permits c F) : a.signOf?.Faults F :=
  .ite (h.text.bind (Datum.faults_lookup h.payload _)) (faults_ok _)

end Permits

theorem faults_variant (hF : HoldsPayloadFaults F) (a : Atom) : a.variant.Faults F := by
  refine (Datum.faults_lookup hF _ _).bind fun found => ?_
  cases found with
  | none => exact faults_ok _
  | some v => exact faults_ok _

theorem faults_delimiterFunction? (hF : HoldsPayloadFaults F) (left right : Datum) :
    (delimiterFunction? left right).Faults F := by
  unfold delimiterFunction?
  split
  · exact faults_ok _
  · exact faults_error (hF _ (.inr rfl))
  · exact faults_error (hF _ (.inr rfl))
  · exact (Datum.faults_key hF _).map _
  · exact faults_error (hF _ (.inr rfl))
  · exact faults_error (hF _ (.inr rfl))
  · exact .ite (faults_ok _) (faults_error (hF _ (.inr rfl)))

/-! ### Questions about rows -/

theorem faults_startsWithDigraph? (names : List String) {row : List Atom} (h : ∀ a ∈ row, a.Permits c F) :
    (startsWithDigraph? names row).Faults F := by
  unfold startsWithDigraph?
  split
  · rename_i first second _
    refine ((h first List.mem_cons_self).digraph? (h second (List.mem_cons_of_mem _ List.mem_cons_self))).bind
      fun found => ?_
    cases found with
    | none => exact faults_ok _
    | some name => exact faults_ok _
  · exact faults_ok _

theorem faults_joinTexts (hF : HoldsPayloadFaults F) : ∀ (parts : List Datum) (index : Nat), (joinTexts index parts).Faults F
  | [], _ => faults_ok _
  | .text _ :: rest, index => (faults_joinTexts hF rest (index + 1)).bind fun _ => faults_ok _
  | .null :: _, _ | .bool _ :: _, _ | .int _ :: _, _ | .float _ :: _, _ | .list _ :: _, _ | .tuple _ :: _, _
  | .map _ :: _, _ | .set _ :: _, _ | .record .. :: _, _ | .other .. :: _, _ => faults_error (hF _ (.inr rfl))

theorem faults_mapM {α β : Type} {g : α → Outcome β} : ∀ {row : List α}, (∀ v ∈ row, (g v).Faults F) → (row.mapM g).Faults F
  | [], _ => faults_ok _
  | v :: rest, h => by
    rw [List.mapM_cons]
    exact (h v List.mem_cons_self).bind fun _ =>
      (faults_mapM fun w hw => h w (List.mem_cons_of_mem _ hw)).bind fun _ => faults_ok _

/-- Spaces are not asked for the text of a sequence. -/
theorem faults_plainText (hF : HoldsPayloadFaults F) {row : List Atom} (h : ∀ a ∈ unspaced row, a.Permits c F) :
    (plainText row).Faults F := by
  refine (faults_mapM fun a ha => ?_).bind fun parts => faults_joinTexts hF parts 0
  obtain ⟨hrow, htype⟩ := List.mem_filter.mp ha
  refine .ite (h a (List.mem_filter.mpr ⟨hrow, ?_⟩)).text (faults_ok _)
  refine decide_eq_true fun hspace => ?_
  rw [hspace] at htype
  exact absurd htype (by decide)

theorem faults_inFont (hF : HoldsPayloadFaults F) (h : ∀ b ∈ unspaced (a.body.getD []), b.Permits c F) :
    a.inFont.Faults F :=
  (faults_plainText hF h).bind fun _ => (Datum.faults_isOneOf hF _ _).bind fun _ =>
    .ite (faults_ok _) ((faults_variant hF a).bind fun _ => faults_ok _)

theorem faults_asText (hF : HoldsPayloadFaults F) (h : ∀ b ∈ unspaced (a.body.getD []), b.Permits c F) :
    a.asText.Faults F := .ite ((faults_plainText hF h).bind fun _ => faults_ok _) (faults_ok _)

theorem faults_startsWithDigit {row : List Atom} (h : ∀ a ∈ row, a.Permits c F) : (startsWithDigit row).Faults F := by
  cases row with
  | nil => exact faults_ok _
  | cons a rest => exact (h a List.mem_cons_self).isDigit

theorem faults_startsWithExponent {row : List Atom} (h : ∀ a ∈ row, a.Permits c F) : (startsWithExponent row).Faults F := by
  refine (faults_startsWithDigit h).bind fun _ => .ite (faults_ok _) ?_
  cases row with
  | nil => exact faults_ok _
  | cons a rest =>
    refine (h a List.mem_cons_self).signOf?.bind fun sign => ?_
    cases sign with
    | none => exact faults_ok _
    | some _ => exact faults_startsWithDigit fun b hb => h b (List.mem_cons_of_mem _ hb)

theorem faults_numeralStep (state : NumeralState) (before : Bool) {behind : List Atom} (ha : a.Permits c F)
    (h : ∀ b ∈ behind, b.Permits c F) : (numeralStep state before a behind).Faults F := by
  refine ha.text.bind fun text => ha.isDigit.bind fun digit => ?_
  refine .ite (.bind (Datum.faults_isOneOf ha.payload _ _) fun marker => ?_) (.bind (faults_ok false) fun marker => ?_)
  all_goals
    cases state with
    | mantissa pointed =>
      refine .ite (faults_ok _) (.ite (faults_ok _) (.ite ?_ (.ite ?_ (faults_ok _))))
      · exact (faults_startsWithDigit h).bind fun _ => .ite (faults_ok _) (faults_ok _)
      · exact (faults_startsWithExponent h).bind fun _ => .ite (faults_ok _) (faults_ok _)
    | sign =>
      refine ha.signOf?.bind fun sign => ?_
      cases sign with
      | none => exact faults_ok _
      | some _ => exact faults_ok _
    | exponent => exact faults_ok _

theorem faults_scanNumeralFrom : ∀ {row : List Atom} (state : NumeralState) (chars : List Char) (last : Option Atom),
    (∀ a ∈ row, a.Permits c F) → (scanNumeralFrom state chars last row).Faults F
  | [], _, _, _, _ => faults_ok _
  | a :: rest, state, chars, last, h => by
    have hrest : ∀ b ∈ rest, b.Permits c F := fun b hb => h b (List.mem_cons_of_mem _ hb)
    refine (faults_numeralStep state _ (h a List.mem_cons_self) hrest).bind fun found => ?_
    cases found with
    | none => exact faults_ok _
    | some step => exact .ite (faults_ok _) (faults_scanNumeralFrom _ _ _ hrest)

end Atom

namespace Expr

variable {c : Catalog} {row : List Atom}

theorem faults_startsNumber (h : ∀ a ∈ row, a.Permits c F) : (startsNumber row).Faults F := by
  cases row with
  | nil => exact faults_ok _
  | cons a rest =>
    have ha := h a List.mem_cons_self
    refine ha.isDigit.bind fun _ => .ite (faults_ok _) (.ite (ha.text.bind fun _ => .ite ?_ (faults_ok _)) (faults_ok _))
    exact faults_startsWithDigit fun b hb => h b (List.mem_cons_of_mem _ hb)

theorem faults_literalOf (hF : HoldsPayloadFaults F) (chars : List Char) : (literalOf chars).Faults F := by
  refine .bind ?_ fun _ => faults_ok _
  unfold Datum.toDouble
  dsimp only
  split
  · exact faults_ok _
  · exact faults_error (hF _ (.inl rfl))

theorem faults_delimited (hF : HoldsPayloadFaults F) (left right : Datum) (e : Expr) : (delimited left right e).Faults F := by
  refine (faults_delimiterFunction? hF left right).bind fun found => ?_
  cases found with
  | none => exact faults_ok _
  | some name => exact faults_ok _

theorem faults_callName? (hF : HoldsPayloadFaults F) (e : Expr) : (callName? e).Faults F := by
  cases e with
  | symbol name variant s t => exact Datum.faults_isOneOf hF _ _
  | _ => exact faults_ok _

theorem faults_callArguments? (h : ∀ a ∈ row, a.Permits c F) : (callArguments? row).Faults F := by
  cases row with
  | nil => exact faults_ok _
  | cons a rest =>
    rw [callArguments?]
    split
    · exact .ite (faults_ok _) (faults_ok _)
    · exact (h a List.mem_cons_self).text.bind fun _ => .ite (faults_ok _) (faults_ok _)
    · exact faults_ok _

/-- Spaces are no commas. -/
theorem faults_splitAtCommas : ∀ {row : List Atom} (depth : Int) (part : List Atom), (∀ a ∈ unspaced row, a.Permits c F) →
    (splitAtCommas depth part row).Faults F
  | [], _, _, _ => faults_ok _
  | a :: rest, depth, part, h => by
    have hrest : ∀ b ∈ unspaced rest, b.Permits c F := by
      intro b hb
      obtain ⟨hmem, hspace⟩ := List.mem_filter.mp hb
      exact h b (List.mem_filter.mpr ⟨List.mem_cons_of_mem _ hmem, hspace⟩)
    rw [splitAtCommas]
    dsimp only
    generalize (if a.type = .opening then depth + 1 else if a.type = .closing then depth - 1 else depth) = next
    have onward : ∀ comma : Bool, Faults F (if comma = true
        then (do return part.reverse :: (← splitAtCommas next [] rest))
        else splitAtCommas next (a :: part) rest) := fun comma =>
      .ite ((faults_splitAtCommas _ _ hrest).bind fun _ => faults_ok _) (faults_splitAtCommas _ _ hrest)
    split
    · rename_i hcomma
      have hmem : a ∈ unspaced (a :: rest) := List.mem_filter.mpr ⟨List.mem_cons_self, by rw [hcomma.2]; rfl⟩
      exact ((h a hmem).text.map _).bind onward
    · exact .bind (faults_ok false) onward

end Expr

end Formula
