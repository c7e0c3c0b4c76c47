import Formula.Proofs.Reader.BracketRoom
import Formula.Proofs.Reader.Marking
import Formula.Proofs.Source.DepthGuard

/-!
# The limit on the depth and the brackets of the tree

In a formula whose brackets nest, no path down the tree goes through more brackets than the count of the limits finds
levels.  The count and the reader are compared on the marked tree, where the brackets show.

`Bounded` says of every function of the reader with marks what it does with the room of a place: what it reads takes no
more of it than is there, and leaves the place behind it with the same room.  A fence that is opened takes its part for
what stands in it, and the node of the fence gives that back.
-/

namespace Formula

open Atom Expr Outcome

/-- What is read has at most as many brackets, one in another, as there is room for, and leaves that room behind it. -/
structure KeepsRoom (formula : List Atom) (closers : List Closer) (r : Nat) (read : Reading) : Prop where
  place : BracketPlace formula closers r read.rest
  shallow : read.expr.Shallow (r + 1)

/-- What the functions of the reader with marks do with the room of a place. -/
structure Bounded (c : Catalog) (formula : List Atom) (fuel : Nat) : Prop where
  whole : ∀ {s t r}, Marking.ofSequence c fuel s = .ok t → RoomBelow formula r s → t.OpensFewer r
  nested : ∀ {field t r}, Marking.ofNested c fuel field = .ok t → RoomBelow formula r (field.getD []) → t.OpensFewer r
  parts : ∀ {parts items r}, Marking.ofParts c fuel parts = .ok items → (∀ part ∈ parts, RoomBelow formula r part) →
    ∀ t ∈ items, t.OpensFewer r
  atom : ∀ {a t r}, Marking.ofAtom c fuel a = .ok t → HoldsBelow formula r a → t.Shallow (r + 1)
  attached : ∀ {a t t' r}, Marking.attachScripts c fuel a t = .ok t' → HoldsBelow formula r a → t.Shallow (r + 1) →
    t'.Shallow (r + 1) ∧ (t.isMarked = false → t'.isMarked = false)
  scripts : ∀ {closers own t row read r}, Marking.readScripts c fuel own t row = .ok read → BracketPlace formula closers r row →
    (∀ a ∈ own, HoldsBelow formula r a) → t.Shallow (r + 1) →
      KeepsRoom formula closers r read ∧ (t.isMarked = false → read.expr.isMarked = false)
  marks : ∀ {closers t row read r}, Marking.readPostfix c fuel t row = .ok read → BracketPlace formula closers r row →
    t.Shallow (r + 1) → KeepsRoom formula closers r read
  marked : ∀ {closers a rest read r}, Marking.readMarked c fuel a rest = .ok read → BracketPlace formula closers r rest →
    HoldsBelow formula r a → KeepsRoom formula closers r read
  symbol : ∀ {closers a rest read r}, Marking.readSymbol c fuel a rest = .ok read →
    BracketPlace formula closers r (a :: rest) → a.closesAny closers = .ok false → KeepsRoom formula closers r read
  mixed : ∀ {closers literal numeral read r}, Marking.readMixed c fuel literal numeral = .ok (some read) →
    literal.IsLeaf → BracketPlace formula closers r numeral.rest → KeepsRoom formula closers r read
  number : ∀ {closers a rest read r}, Marking.readNumber c fuel a rest = .ok read →
    BracketPlace formula closers r (a :: rest) → a.closesAny closers = .ok false → KeepsRoom formula closers r read
  function : ∀ {closers a rest read r}, Marking.readFunction c fuel closers a rest = .ok read →
    BracketPlace formula closers r rest → HoldsBelow formula r a → KeepsRoom formula closers r read
  closing : ∀ {closers left k inner row read r}, Marking.readClosing c fuel left k inner row = .ok read →
    BracketPlace formula (closers ++ [k]) r row → inner.Shallow (r + 1) → KeepsRoom formula closers (r + k.brackets) read
  fence : ∀ {closers a rest read r}, Marking.readFence c fuel closers a rest = .ok read →
    BracketPlace formula closers r (a :: rest) → a.closesAny closers = .ok false → KeepsRoom formula closers r read
  operand : ∀ {closers a rest read r}, Marking.readOperand c fuel closers a rest = .ok read →
    BracketPlace formula closers r (a :: rest) → a.closesAny closers = .ok false → KeepsRoom formula closers r read
  application : ∀ {closers t row read r}, Marking.readCall c fuel t row = .ok (some read) → BracketPlace formula closers r row →
    t.Shallow (r + 1) → KeepsRoom formula closers r read
  neighbours : ∀ {closers t row read r}, Marking.readNeighbours c fuel closers t row = .ok read →
    BracketPlace formula closers r row → t.Shallow (r + 1) → KeepsRoom formula closers r read
  primary : ∀ {closers row read r}, Marking.readPrimary c fuel closers row = .ok read → BracketPlace formula closers r row →
    KeepsRoom formula closers r read
  expression : ∀ {closers least t row read r}, Marking.readExpression c fuel closers least t row = .ok read →
    BracketPlace formula closers r row → t.Shallow (r + 1) → KeepsRoom formula closers r read
  tighter : ∀ {closers precedence t row read r}, Marking.readTighter c fuel closers precedence t row = .ok read →
    BracketPlace formula closers r row → t.Shallow (r + 1) → KeepsRoom formula closers r read
  stray : ∀ {closers t row read r}, Marking.readStray c fuel closers t row = .ok read → BracketPlace formula closers r row →
    t.Shallow (r + 1) → KeepsRoom formula closers r read
  sequence : ∀ {closers row read r}, Marking.readSequence c fuel closers row = .ok read → BracketPlace formula closers r row →
    KeepsRoom formula closers r read

/-! ### The function of a fence and of an operator -/

section

variable {c : Catalog} {formula row rest : List Atom} {closers : List Closer} {a : Atom} {t : Expr} {read : Reading} {r : Nat}

theorem shallow_bracketed {k : Closer} {left right : Datum} {inner : Expr}
    (h : Marking.bracketed k left right inner = .ok t) (hinner : inner.Shallow (r + 1)) : t.Shallow (r + k.brackets + 1) := by
  obtain ⟨e, he, h⟩ := map_eq_ok.mp h
  obtain ⟨hplain, hmarked⟩ := shallow_delimited he hinner.tree (Nat.succ_pos r)
  unfold Closer.brackets
  by_cases hk : k.type = .closing
  · simp only [hk, if_true] at h ⊢
    exact h ▸ hmarked
  · simp only [hk, if_false] at h ⊢
    exact h ▸ hplain

theorem type_of_precedence {p : Int} (h : a.precedence c = .ok (some p)) : a.type ∈ operatorTypes := by
  unfold Atom.precedence at h
  split at h
  · rename_i htype
    simpa using htype
  · cases h

variable {fuel : Nat} (H : NestsBrackets formula) (ih : Bounded c formula fuel)
include H ih

/-! ### Nested sequences -/

omit H in
theorem bounded_whole {s : List Atom} (h : Marking.ofSequence c (fuel + 1) s = .ok t) (hs : RoomBelow formula r s) :
    t.OpensFewer r := by
  rcases hs with rfl | ⟨r, rfl, hplace⟩
  · have hplain := (Unmarks.all c (fuel + 1)).whole []
    rw [h] at hplain
    rw [unmarked_eq_missing (ofSequence_spaces rfl hplain.symm)]
    exact opensFewer_missing r
  · simp only [Marking.ofSequence] at h
    obtain ⟨read, hread, h⟩ := bind_eq_ok.mp h
    cases h
    exact (ih.sequence hread hplace).shallow.tree

omit H in
theorem bounded_nested {field : Option (List Atom)} (h : Marking.ofNested c (fuel + 1) field = .ok t)
    (hs : RoomBelow formula r (field.getD [])) : t.OpensFewer r := by
  rcases field with _ | _ | ⟨a, rest⟩
  · cases h
    exact opensFewer_missing r
  · cases h
    exact opensFewer_missing r
  · exact ih.whole h hs

omit H in
theorem bounded_parts {parts : List (List Atom)} {items : List Expr} (h : Marking.ofParts c (fuel + 1) parts = .ok items)
    (hparts : ∀ part ∈ parts, RoomBelow formula r part) : ∀ t ∈ items, t.OpensFewer r := by
  cases parts with
  | nil =>
    cases h
    simp
  | cons part rest =>
    simp only [Marking.ofParts] at h
    obtain ⟨t, ht, h⟩ := bind_eq_ok.mp h
    obtain ⟨more, hmore, h⟩ := bind_eq_ok.mp h
    cases h
    intro t' ht'
    rcases List.mem_cons.mp ht' with rfl | ht'
    · exact ih.nested ht (hparts part List.mem_cons_self)
    · exact ih.parts hmore (fun p hp => hparts p (List.mem_cons_of_mem _ hp)) t' ht'

omit H in
theorem bounded_atom (h : Marking.ofAtom c (fuel + 1) a = .ok t) (ha : HoldsBelow formula r a) : t.Shallow (r + 1) := by
  have hpos := Nat.succ_pos r
  have field : ∀ {f : Option (List Atom)} {t : Expr}, f ∈ a.fields → Marking.ofSequence c fuel (f.getD []) = .ok t →
      t.OpensFewer (r + 1) := fun hf ht => (ih.whole ht (ha _ hf)).mono (Nat.le_succ r)
  simp only [Marking.ofAtom] at h
  split at h
  · obtain ⟨numerator, hn, h⟩ := bind_eq_ok.mp h
    obtain ⟨denominator, hd, h⟩ := bind_eq_ok.mp h
    cases h
    exact shallow_quotient (field (by simp [fields]) hn) (field (by simp [fields]) hd) hpos
  · obtain ⟨radicand, hr, h⟩ := bind_eq_ok.mp h
    obtain ⟨index, hi, h⟩ := bind_eq_ok.mp h
    have hradicand := field (by simp [fields]) hr
    have hindex := field (by simp [fields]) hi
    split at h
    · cases h
      exact shallow_squareRoot hradicand hpos
    · cases h
      refine shallow_apply _ (opensFewer_tuple.mpr fun e he => ?_) hpos
      simp only [List.mem_cons, List.not_mem_nil, or_false] at he
      rcases he with rfl | rfl
      · exact hradicand
      · exact (shallow_quotient ((IsLeaf.number (.int 1)).shallow hpos).tree hindex hpos).tree
  · exact (isLeaf_inFont h).shallow hpos
  · exact (isLeaf_asText h).shallow hpos
  · exact (isLeaf_symbol h).shallow hpos
  · exact (isLeaf_symbol h).shallow hpos
  · cases h
    exact shallow_missing _

/-! ### Scripts and marks -/

omit H in
theorem bounded_attached {t' : Expr} (h : Marking.attachScripts c (fuel + 1) a t = .ok t') (ha : HoldsBelow formula r a)
    (ht : t.Shallow (r + 1)) : t'.Shallow (r + 1) ∧ (t.isMarked = false → t'.isMarked = false) := by
  simp only [Marking.attachScripts] at h
  obtain ⟨sup, hsup, h⟩ := bind_eq_ok.mp h
  obtain ⟨sub, hsub, h⟩ := bind_eq_ok.mp h
  cases h
  refine ⟨ht.attach ?_ ?_ (Nat.succ_pos r), fun hm => isMarked_attach hm sup sub⟩
  · exact ih.nested hsup (ha _ (by simp [fields]))
  · exact ih.nested hsub (ha _ (by simp [fields]))

/-- A placeholder behind an expression attaches its scripts to it. -/
theorem bounded_placeholders (h : Marking.readScripts c (fuel + 1) none t row = .ok read)
    (hplace : BracketPlace formula closers r row) (ht : t.Shallow (r + 1)) :
    KeepsRoom formula closers r read ∧ (t.isMarked = false → read.expr.isMarked = false) := by
  simp only [Marking.readScripts, pure_bind] at h
  cases row with
  | nil =>
    cases h
    exact ⟨⟨hplace, ht⟩, id⟩
  | cons a rest =>
    dsimp only at h
    split at h
    · rename_i hplaceholder
      have htype := type_of_isPlaceholder (Bool.and_eq_true_iff.mp hplaceholder).1
      obtain ⟨hrest, ha⟩ := hplace.tail H fun hc => by rw [htype] at hc; cases hc
      exact ih.scripts h hrest (by rintro _ ⟨⟩; exact ha) ht
    · cases h
      exact ⟨⟨hplace, ht⟩, id⟩

theorem bounded_scripts {own : Option Atom} (h : Marking.readScripts c (fuel + 1) own t row = .ok read)
    (hplace : BracketPlace formula closers r row) (hown : ∀ a ∈ own, HoldsBelow formula r a) (ht : t.Shallow (r + 1)) :
    KeepsRoom formula closers r read ∧ (t.isMarked = false → read.expr.isMarked = false) := by
  cases own with
  | none => exact bounded_placeholders H ih h hplace ht
  | some a =>
    have hbehind := fun t' => @bounded_placeholders c formula row closers t' read r fuel H ih
    simp only [Marking.readScripts, pure_bind] at hbehind h
    split at h
    · obtain ⟨t', ht', h⟩ := bind_eq_ok.mp h
      obtain ⟨hshallow, hm⟩ := ih.attached ht' (hown a rfl) ht
      obtain ⟨hread, hm'⟩ := hbehind t' h hplace hshallow
      exact ⟨hread, hm' ∘ hm⟩
    · exact hbehind t h hplace ht

omit H in
/-- Scripts and marks behind an expression. -/
theorem bounded_behind {own : Option Atom} (h : (do
      let read ← Marking.readScripts c fuel own t row
      Marking.readPostfix c fuel read.expr read.rest) = .ok read) (hplace : BracketPlace formula closers r row)
    (hown : ∀ a ∈ own, HoldsBelow formula r a) (ht : t.Shallow (r + 1)) : KeepsRoom formula closers r read := by
  obtain ⟨read', h', h⟩ := bind_eq_ok.mp h
  obtain ⟨hread, -⟩ := ih.scripts h' hplace hown ht
  exact ih.marks h hread.place hread.shallow

theorem bounded_marks (h : Marking.readPostfix c (fuel + 1) t row = .ok read) (hplace : BracketPlace formula closers r row)
    (ht : t.Shallow (r + 1)) : KeepsRoom formula closers r read := by
  cases row with
  | nil =>
    cases h
    exact ⟨hplace, ht⟩
  | cons a rest =>
    have hmark := fun name => shallow_apply (.text name) ht.tree (Nat.succ_pos r)
    simp only [Marking.readPostfix] at h
    obtain ⟨found, hfound, h⟩ := bind_eq_ok.mp h
    cases found with
    | some name =>
      obtain ⟨b, behind, rfl, ha, -, hb, -⟩ := of_startsWithDigraph? hfound
      obtain ⟨hrest, -⟩ := hplace.tail H fun _ => .inr ha
      obtain ⟨hbehind, hb⟩ := hrest.tail H fun _ => .inr hb
      exact bounded_behind ih h hbehind (by rintro _ ⟨⟩; exact hb) (hmark name)
    | none =>
      obtain ⟨found, hfound, h⟩ := bind_eq_ok.mp h
      cases found with
      | some name =>
        have htype := type_of_postfixFunction? hfound
        obtain ⟨hrest, ha⟩ := hplace.tail H fun hc => by rw [htype] at hc; cases hc
        exact bounded_behind ih h hrest (by rintro _ ⟨⟩; exact ha) (hmark name)
      | none =>
        cases h
        exact ⟨hplace, ht⟩

/-! ### Operands -/

omit H in
theorem bounded_marked (h : Marking.readMarked c (fuel + 1) a rest = .ok read) (hplace : BracketPlace formula closers r rest)
    (ha : HoldsBelow formula r a) : KeepsRoom formula closers r read := by
  simp only [Marking.readMarked] at h
  obtain ⟨t, ht, h⟩ := bind_eq_ok.mp h
  exact bounded_behind ih h hplace (by rintro _ ⟨⟩; exact ha) (ih.atom ht ha)

theorem bounded_symbol (h : Marking.readSymbol c (fuel + 1) a rest = .ok read) (hplace : BracketPlace formula closers r (a :: rest))
    (hclosed : a.closesAny closers = .ok false) : KeepsRoom formula closers r read := by
  obtain ⟨hrest, ha⟩ := hplace.tail H fun _ => .inl hclosed
  simp only [Marking.readSymbol] at h
  obtain ⟨precedence, -, h⟩ := bind_eq_ok.mp h
  cases precedence with
  | some p =>
    cases h
    exact ⟨hplace, shallow_missing _⟩
  | none =>
    dsimp only at h
    split at h
    · exact ih.marked h hrest ha
    · obtain ⟨u, hu, h⟩ := bind_eq_ok.mp h
      cases h
      exact ⟨hrest, (isLeaf_unexpected hu).shallow (Nat.succ_pos r)⟩

theorem bounded_mixed {literal : Expr} {numeral : NumeralReading}
    (h : Marking.readMixed c (fuel + 1) literal numeral = .ok (some read)) (hliteral : literal.IsLeaf)
    (hplace : BracketPlace formula closers r numeral.rest) : KeepsRoom formula closers r read := by
  have hpos := Nat.succ_pos r
  simp only [Marking.readMixed] at h
  split at h
  · cases h
  · rename_i following rest hrest
    rw [hrest] at hplace
    split at h
    · rename_i hfraction
      obtain ⟨hrest, ha⟩ := hplace.tail H fun hc => by rw [hfraction.1] at hc; cases hc
      obtain ⟨fraction, ht, h⟩ := bind_eq_ok.mp h
      obtain ⟨found, -, h⟩ := bind_eq_ok.mp h
      cases found with
      | none => cases h
      | some _ =>
        obtain ⟨read', h', h⟩ := bind_eq_ok.mp h
        obtain ⟨read'', h'', h⟩ := bind_eq_ok.mp h
        cases h
        have hread := bounded_behind ih (bind_eq_ok.mpr ⟨read', h', h''⟩) hrest (by rintro _ ⟨⟩; exact ha) (ih.atom ht ha)
        exact ⟨hread.place, shallow_between _ (hliteral.shallow hpos).tree hread.shallow.tree hpos⟩
    · cases h

theorem bounded_number (h : Marking.readNumber c (fuel + 1) a rest = .ok read) (hplace : BracketPlace formula closers r (a :: rest))
    (hclosed : a.closesAny closers = .ok false) : KeepsRoom formula closers r read := by
  simp only [Marking.readNumber] at h
  obtain ⟨numeral, hscan, h⟩ := bind_eq_ok.mp h
  split at h
  · obtain ⟨hrest, ha⟩ := hplace.tail H fun _ => .inl hclosed
    exact ih.marked h hrest ha
  · obtain ⟨hrest, hlast⟩ := hplace.numeral H hscan (fun b hb => by cases hb)
    obtain ⟨literal, hliteral, h⟩ := bind_eq_ok.mp h
    obtain ⟨value, rfl⟩ := number_of_literalOf hliteral
    have hleaf : (ofNumber value).IsLeaf := .number value
    obtain ⟨found, hmixed, h⟩ := bind_eq_ok.mp h
    cases found with
    | some read' =>
      cases h
      exact ih.mixed hmixed hleaf hrest
    | none => exact bounded_behind ih h hrest hlast (hleaf.shallow (Nat.succ_pos r))

omit H in
theorem bounded_function (h : Marking.readFunction c (fuel + 1) closers a rest = .ok read)
    (hplace : BracketPlace formula closers r rest) (ha : HoldsBelow formula r a) : KeepsRoom formula closers r read := by
  have hpos := Nat.succ_pos r
  simp only [Marking.readFunction] at h
  obtain ⟨name, -, h⟩ := bind_eq_ok.mp h
  obtain ⟨head, hhead, h⟩ := bind_eq_ok.mp h
  obtain ⟨argument, hargument, h⟩ := bind_eq_ok.mp h
  have hname : (apply name missing).Shallow (r + 1) := shallow_apply name (opensFewer_missing _) hpos
  obtain ⟨hhead, hm⟩ := ih.scripts hhead hplace (by rintro _ ⟨⟩; exact ha) hname
  have harg := ih.primary hargument hhead.place
  split at h
  · rename_i heq
    obtain ⟨e, he, h⟩ := bind_eq_ok.mp h
    cases h
    have hshallow := hhead.shallow
    have hplain := hm rfl
    rw [heq] at hshallow hplain
    exact ⟨harg.place, shallow_applyInverse he hplain harg.shallow.tree hshallow.sup hshallow.sub hpos⟩
  · cases h
    exact ⟨harg.place, shallow_juxtapose hhead.shallow harg.shallow hpos⟩

theorem bounded_closing {left : Datum} {k : Closer} {inner : Expr}
    (h : Marking.readClosing c (fuel + 1) left k inner row = .ok read) (hplace : BracketPlace formula (closers ++ [k]) r row)
    (hinner : inner.Shallow (r + 1)) : KeepsRoom formula closers (r + k.brackets) read := by
  have fenced : ∀ {own : Option Atom} {right : Datum} {s : List Atom}, BracketPlace formula closers (r + k.brackets) s →
      (∀ b ∈ own, HoldsBelow formula (r + k.brackets) b) →
      (do Marking.readScripts c fuel own (← Marking.bracketed k left right inner) s) = .ok read →
        KeepsRoom formula closers (r + k.brackets) read := by
    intro own right s hs hown h
    obtain ⟨t, ht, h⟩ := bind_eq_ok.mp h
    exact (ih.scripts h hs hown (shallow_bracketed ht hinner)).1
  cases row with
  | nil =>
    simp only [Marking.readClosing] at h
    exact fenced hplace.leave (fun b hb => by cases hb) h
  | cons a rest =>
    simp only [Marking.readClosing] at h
    obtain ⟨closes, hcloses, h⟩ := bind_eq_ok.mp h
    cases closes with
    | false => exact fenced hplace.leave (fun b hb => by cases hb) h
    | true =>
      obtain ⟨right, -, h⟩ := bind_eq_ok.mp h
      obtain ⟨hrest, ha⟩ := hplace.pop H hcloses
      exact fenced hrest (by rintro _ ⟨⟩; exact ha) h

theorem bounded_fence (h : Marking.readFence c (fuel + 1) closers a rest = .ok read)
    (hplace : BracketPlace formula closers r (a :: rest)) (hclosed : a.closesAny closers = .ok false) :
    KeepsRoom formula closers r read := by
  simp only [Marking.readFence] at h
  split at h
  · obtain ⟨hrest, ha⟩ := hplace.tail H fun _ => .inl hclosed
    obtain ⟨inner, hinner, h⟩ := bind_eq_ok.mp h
    obtain ⟨t, ht, h⟩ := bind_eq_ok.mp h
    have hbody := (ih.nested hinner (ha _ (by simp [fields]))).mono (Nat.le_succ r)
    exact bounded_behind ih h hrest (by rintro _ ⟨⟩; exact ha) (shallow_delimited ht hbody (Nat.succ_pos r)).1
  · obtain ⟨opened, hopener, h⟩ := bind_eq_ok.mp h
    cases opened with
    | none => exact ih.symbol h hplace hclosed
    | some opened =>
      obtain ⟨left, k⟩ := opened
      obtain ⟨r, rfl, hinside⟩ := hplace.push H hopener
      obtain ⟨inner, hinner, h⟩ := bind_eq_ok.mp h
      obtain ⟨read', h', h⟩ := bind_eq_ok.mp h
      have hinner := ih.sequence hinner hinside
      have hfence := ih.closing h' hinner.place hinner.shallow
      exact ih.marks h hfence.place hfence.shallow

theorem bounded_operand (h : Marking.readOperand c (fuel + 1) closers a rest = .ok read)
    (hplace : BracketPlace formula closers r (a :: rest)) (hclosed : a.closesAny closers = .ok false) :
    KeepsRoom formula closers r read := by
  have hpos := Nat.succ_pos r
  obtain ⟨hrest, ha⟩ := hplace.tail H fun _ => .inl hclosed
  simp only [Marking.readOperand] at h
  obtain ⟨found, hfound, h⟩ := bind_eq_ok.mp h
  cases found with
  | some name =>
    obtain ⟨b, behind, rfl, -, -, hb, -⟩ := of_startsWithDigraph? hfound
    obtain ⟨read', h', h⟩ := bind_eq_ok.mp h
    cases h
    have hread := ih.primary h' (hrest.tail H fun _ => .inr hb).1
    exact ⟨hread.place, shallow_apply _ hread.shallow.tree hpos⟩
  | none =>
    obtain ⟨sign, -, h⟩ := bind_eq_ok.mp h
    cases sign with
    | some sign =>
      obtain ⟨read', h', h⟩ := bind_eq_ok.mp h
      cases h
      have hread := ih.primary h' hrest
      exact ⟨hread.place, shallow_withSign _ hread.shallow.tree hpos⟩
    | none =>
      dsimp only at h
      split at h
      · have hleaf : (unreadable "" "sub/superscript without a base").IsLeaf := .unreadable _ _
        exact (ih.scripts h hrest (by rintro _ ⟨⟩; exact ha) (hleaf.shallow hpos)).1
      obtain ⟨starts, -, h⟩ := bind_eq_ok.mp h
      split at h
      · exact ih.number h hplace hclosed
      split at h
      case h_1 | h_2 | h_3 | h_4 => exact ih.marked h hrest ha
      case h_5 | h_6 | h_7 => exact ih.fence h hplace hclosed
      case h_8 | h_9 =>
        obtain ⟨is, -, h⟩ := bind_eq_ok.mp h
        split at h
        · exact ih.function h hrest ha
        · exact ih.symbol h hplace hclosed
      case h_10 =>
        obtain ⟨is, -, h⟩ := bind_eq_ok.mp h
        split at h
        · exact ih.function h hrest ha
        obtain ⟨opened, -, h⟩ := bind_eq_ok.mp h
        cases opened with
        | some _ => exact ih.fence h hplace hclosed
        | none => exact ih.symbol h hplace hclosed
      case h_11 => exact ih.symbol h hplace hclosed

theorem bounded_application (h : Marking.readCall c (fuel + 1) t row = .ok (some read))
    (hplace : BracketPlace formula closers r row) (ht : t.Shallow (r + 1)) : KeepsRoom formula closers r read := by
  simp only [Marking.readCall] at h
  obtain ⟨is, -, h⟩ := bind_eq_ok.mp h
  split at h
  · obtain ⟨found, hfound, h⟩ := bind_eq_ok.mp h
    split at h
    · rename_i inner last rest name variant s t _ _
      obtain ⟨parts, hparts, h⟩ := bind_eq_ok.mp h
      obtain ⟨items, hitems, h⟩ := bind_eq_ok.mp h
      obtain ⟨read', h', h⟩ := bind_eq_ok.mp h
      obtain ⟨read'', h'', h⟩ := bind_eq_ok.mp h
      cases h
      obtain ⟨hrest, hlast, hbelow, hpos⟩ := hplace.call H hfound hparts
      have hargs : (argumentsOf items).OpensFewer r := opensFewer_argumentsOf (ih.parts hitems hbelow)
      have hsup : s.OpensFewer r := ht.sup
      have hsub : t.OpensFewer r := ht.sub
      have hchildren : ∀ fence k, k ∈ (call name (argumentsOf items) fence s t).children → k.OpensFewer r :=
        fun fence k => opensFewer_of_mem_call hargs hsup hsub
      have hcall : (Marking.calling row (call name (argumentsOf items) parentheses s t)).Shallow (r + 1) := by
        unfold Marking.calling
        split
        · rename_i hopening
          exact ⟨opensFewer_succ rfl (hpos hopening) (hchildren _), hsup, hsub⟩
        · exact ⟨opensFewer_of_children rfl rfl (Nat.succ_pos r) fun k hk => (hchildren _ k hk).mono (Nat.le_succ r), hsup, hsub⟩
      exact bounded_behind ih (bind_eq_ok.mpr ⟨read', h', h''⟩) hrest (by rintro _ ⟨⟩; exact hlast) hcall
    · cases h
  · cases h

/-! ### Rows -/

omit H in
theorem bounded_neighbours (h : Marking.readNeighbours c (fuel + 1) closers t row = .ok read)
    (hplace : BracketPlace formula closers r row) (ht : t.Shallow (r + 1)) : KeepsRoom formula closers r read := by
  cases row with
  | nil =>
    cases h
    exact ⟨hplace, ht⟩
  | cons a rest =>
    simp only [Marking.readNeighbours] at h
    obtain ⟨starts, hstarts, h⟩ := bind_eq_ok.mp h
    split at h
    · rename_i his
      obtain ⟨found, hfound, h⟩ := bind_eq_ok.mp h
      cases found with
      | some read' =>
        have hread := ih.application hfound hplace ht
        exact ih.neighbours h hread.place hread.shallow
      | none =>
        obtain ⟨read', h', h⟩ := bind_eq_ok.mp h
        have hread := ih.operand h' hplace (open_of_startsOperand (his ▸ hstarts))
        split at h
        · cases h
          exact ⟨hread.place, ht⟩
        · exact ih.neighbours h hread.place (shallow_between _ ht.tree hread.shallow.tree (Nat.succ_pos r))
    · cases h
      exact ⟨hplace, ht⟩

omit H in
theorem bounded_primary (h : Marking.readPrimary c (fuel + 1) closers row = .ok read) (hplace : BracketPlace formula closers r row) :
    KeepsRoom formula closers r read := by
  cases row with
  | nil =>
    cases h
    exact ⟨hplace, shallow_missing _⟩
  | cons a rest =>
    simp only [Marking.readPrimary] at h
    obtain ⟨closed, hclosed, h⟩ := bind_eq_ok.mp h
    cases closed with
    | true =>
      cases h
      exact ⟨hplace, shallow_missing _⟩
    | false =>
      obtain ⟨read', h', h⟩ := bind_eq_ok.mp h
      have hread := ih.operand h' hplace hclosed
      split at h
      · cases h
        exact hread
      · exact ih.neighbours h hread.place hread.shallow

theorem bounded_expression {least : Int} (h : Marking.readExpression c (fuel + 1) closers least t row = .ok read)
    (hplace : BracketPlace formula closers r row) (ht : t.Shallow (r + 1)) : KeepsRoom formula closers r read := by
  cases row with
  | nil =>
    cases h
    exact ⟨hplace, ht⟩
  | cons a rest =>
    simp only [Marking.readExpression] at h
    obtain ⟨precedence, hprecedence, h⟩ := bind_eq_ok.mp h
    cases precedence with
    | none =>
      cases h
      exact ⟨hplace, ht⟩
    | some p =>
      have htype := type_of_precedence hprecedence
      obtain ⟨hrest, -⟩ := hplace.tail H fun hc => by rw [hc] at htype; exact absurd htype (by decide)
      dsimp only at h
      split at h
      · cases h
        exact ⟨hplace, ht⟩
      · obtain ⟨op, -, h⟩ := bind_eq_ok.mp h
        obtain ⟨first, hfirst, h⟩ := bind_eq_ok.mp h
        obtain ⟨right, hright, h⟩ := bind_eq_ok.mp h
        have hfirst := ih.primary hfirst hrest
        have hright := ih.tighter hright hfirst.place hfirst.shallow
        exact ih.expression h hright.place (shallow_between op ht.tree hright.shallow.tree (Nat.succ_pos r))

omit H in
theorem bounded_tighter {precedence : Int} (h : Marking.readTighter c (fuel + 1) closers precedence t row = .ok read)
    (hplace : BracketPlace formula closers r row) (ht : t.Shallow (r + 1)) : KeepsRoom formula closers r read := by
  simp only [Marking.readTighter] at h
  obtain ⟨next, -, h⟩ := bind_eq_ok.mp h
  cases next with
  | none =>
    cases h
    exact ⟨hplace, ht⟩
  | some next =>
    dsimp only at h
    split at h
    · cases h
      exact ⟨hplace, ht⟩
    · obtain ⟨read', h', h⟩ := bind_eq_ok.mp h
      have hread := ih.expression h' hplace ht
      exact ih.tighter h hread.place hread.shallow

theorem bounded_stray (h : Marking.readStray c (fuel + 1) closers t row = .ok read) (hplace : BracketPlace formula closers r row)
    (ht : t.Shallow (r + 1)) : KeepsRoom formula closers r read := by
  cases row with
  | nil =>
    cases h
    exact ⟨hplace, ht⟩
  | cons a rest =>
    have on : ∀ {first : Reading}, KeepsRoom formula closers r first → (do
        let read ← Marking.readExpression c fuel closers 0 first.expr first.rest
        Marking.readStray c fuel closers (juxtapose t read.expr) read.rest) = .ok read → KeepsRoom formula closers r read := by
      intro first hfirst h
      obtain ⟨read', h', h⟩ := bind_eq_ok.mp h
      have hread := ih.expression h' hfirst.place hfirst.shallow
      exact ih.stray h hread.place (shallow_juxtapose ht hread.shallow (Nat.succ_pos r))
    simp only [Marking.readStray] at h
    obtain ⟨closed, hclosed, h⟩ := bind_eq_ok.mp h
    cases closed with
    | true =>
      cases h
      exact ⟨hplace, ht⟩
    | false =>
      obtain ⟨read', h', h⟩ := bind_eq_ok.mp h
      split at h
      · obtain ⟨first, hfirst, h⟩ := bind_eq_ok.mp h
        obtain ⟨u, hu, rfl⟩ := map_eq_ok.mp hfirst
        exact on ⟨(hplace.tail H fun _ => .inl hclosed).1, (isLeaf_unexpected hu).shallow (Nat.succ_pos r)⟩ h
      · exact on (ih.primary h' hplace) h

omit H in
theorem bounded_sequence (h : Marking.readSequence c (fuel + 1) closers row = .ok read)
    (hplace : BracketPlace formula closers r row) : KeepsRoom formula closers r read := by
  simp only [Marking.readSequence] at h
  obtain ⟨first, hfirst, h⟩ := bind_eq_ok.mp h
  obtain ⟨read', h', h⟩ := bind_eq_ok.mp h
  have hfirst := ih.primary hfirst hplace
  have hread := ih.expression h' hfirst.place hfirst.shallow
  exact ih.stray h hread.place hread.shallow

/-- One more unit of fuel keeps to the room. -/
theorem Bounded.succ : Bounded c formula (fuel + 1) where
  whole := bounded_whole ih
  nested := bounded_nested ih
  parts := bounded_parts ih
  atom := bounded_atom ih
  attached := bounded_attached ih
  scripts := bounded_scripts H ih
  marks := bounded_marks H ih
  marked := bounded_marked ih
  symbol := bounded_symbol H ih
  mixed := bounded_mixed H ih
  number := bounded_number H ih
  function := bounded_function ih
  closing := bounded_closing H ih
  fence := bounded_fence H ih
  operand := bounded_operand H ih
  application := bounded_application H ih
  neighbours := bounded_neighbours ih
  primary := bounded_primary ih
  expression := bounded_expression H ih
  tighter := bounded_tighter ih
  stray := bounded_stray H ih
  sequence := bounded_sequence ih

end

theorem Bounded.zero (c : Catalog) (formula : List Atom) : Bounded c formula 0 := by
  constructor <;> nofun

theorem Bounded.all {formula : List Atom} (H : NestsBrackets formula) (c : Catalog) : ∀ fuel, Bounded c formula fuel
  | 0 => .zero c formula
  | fuel + 1 => .succ H (Bounded.all H c fuel)

/-! ### Formulas within the limits -/

/-- The count finds room for fewer brackets in a formula than it finds levels. -/
theorem roomBelow_nestingDepth {atoms : List Atom} (H : NestsBrackets atoms) : RoomBelow atoms (nestingDepth atoms) atoms := by
  by_cases hnil : atoms = []
  · exact .inl hnil
  · have hkeeps : KeepsTo (nestingDepth atoms) 1 0 atoms := keepsTo_iff.mp (Nat.le_refl _)
    have hlevel := hkeeps.level_le hnil
    refine .inr ⟨nestingDepth atoms - 1, by omega, .whole, nestingDepth atoms, 1, 0, [], List.Sublist.slnil, H.part .whole,
      Nat.le_refl 0, hkeeps.unspaced, ?_⟩
    show nestingDepth atoms ≤ 1 + 0 + (nestingDepth atoms - 1)
    omega

/-- **The limit on the depth bounds the brackets.**  For all limits, every catalog and all atoms that pass the limits: if
the brackets nest in every row, then on every path down the tree there are fewer nodes read from brackets than the count
finds levels, hence no more than the limit on the depth allows.  The nodes show in the marked tree, which is the tree that
is read but for the marks. -/
theorem brackets_within_limit {l : Limits} {c : Catalog} {atoms : List Atom} {e : Expr}
    (hcheck : l.checkAtoms atoms = .ok ()) (hnest : NestsBrackets atoms) (h : ofAtoms c atoms = .ok e) :
    ∃ t, Marking.ofAtoms c atoms = .ok t ∧ t.unmarked = e ∧ ∀ path, t.Path path →
      path.countP isMarked < nestingDepth atoms ∧ l.maxDepth.isBelow (path.countP isMarked) = .ok false := by
  rw [← unmarked_ofAtoms] at h
  obtain ⟨t, ht, rfl⟩ := map_eq_ok.mp h
  refine ⟨t, ht, rfl, fun path hpath => ?_⟩
  have hfewer := (Bounded.all hnest c _).whole ht (roomBelow_nestingDepth hnest) path hpath
  exact ⟨hfewer, Datum.isBelow_mono (Limits.of_checkAtoms hcheck).2 (Nat.le_of_lt hfewer)⟩

/-- A letter in parentheses in square brackets. -/
def bracketRow : List Atom := [
  { type := .opening, value := .text "[" }, { type := .opening, value := .text "(" },
  { type := .ordinary, value := .text "x" }, { type := .closing, value := .text ")" },
  { type := .closing, value := .text "]" }]

/-- What it is read as. -/
def bracketTree : Expr :=
  fenced (fenced (ofSymbol (.text "x") .null) parentheses) (.tuple [.text "[", .text "]"])

/-- Two brackets, one in the other, are three levels deep. -/
theorem brackets_within_limit_two : ({ maxDepth := .int 3 } : Limits).checkAtoms bracketRow = .ok () ∧
    NestsBrackets bracketRow ∧ ofAtoms .builtin bracketRow = .ok bracketTree ∧
      ∃ t, Marking.ofAtoms .builtin bracketRow = .ok t ∧ t.unmarked = bracketTree ∧ ∀ path, t.Path path →
        path.countP isMarked < nestingDepth bracketRow ∧
          ({ maxDepth := .int 3 } : Limits).maxDepth.isBelow (path.countP isMarked) = .ok false := by
  have hcheck : ({ maxDepth := .int 3 } : Limits).checkAtoms bracketRow = .ok () := by
    unfold Limits.checkAtoms
    rw [count_flat rfl, nestingDepth_flat rfl]
    rfl
  have hnest : NestsBrackets bracketRow := by
    have hfields : ∀ a ∈ bracketRow, ∀ field ∈ a.fields, field = none := by
      simp [bracketRow, fields]
    have hrow : ∀ row, RowOf bracketRow row → row = bracketRow ∨ row = [] := by
      intro row h
      induction h with
      | whole => exact .inl rfl
      | nested _ ha hfield ih =>
        rcases ih with rfl | rfl
        · rw [hfields _ ha _ hfield]
          exact .inr rfl
        · cases ha
    intro row h
    rcases hrow row h with rfl | rfl
    · rfl
    · rfl
  have hread : ofAtoms .builtin bracketRow = .ok bracketTree := by rfl
  exact ⟨hcheck, hnest, hread, brackets_within_limit hcheck hnest hread⟩

/-- Three parentheses, in each but the last a square bracket that closes nothing. -/
def unclosedRow : List Atom := [
  { type := .opening, value := .text "(" }, { type := .closing, value := .text "]" },
  { type := .opening, value := .text "(" }, { type := .closing, value := .text "]" },
  { type := .opening, value := .text "(" }, { type := .ordinary, value := .text "x" }]

/-- Parentheses, with a mark. -/
def bracketOf (inner : Expr) : Expr := (fenced inner (.tuple [.text "(", .text ")"])).marked

/-- An error in front of parentheses, with a mark. -/
def strayBracket (inner : Expr) : Expr :=
  between (.text "*") (unreadable (.text "]") (.text "unexpected token mclose/]")) (bracketOf inner)

/-- The count takes the square brackets for the ends of the parentheses, and the reader does not: under a limit of two there
are three brackets, one in another. -/
theorem brackets_beyond_limit_unclosed : ({ maxDepth := .int 2 } : Limits).checkAtoms unclosedRow = .ok () ∧
    ∃ e t, ofAtoms .builtin unclosedRow = .ok e ∧ Marking.ofAtoms .builtin unclosedRow = .ok t ∧ t.unmarked = e ∧
      ∃ path, t.Path path ∧ path.countP isMarked = 3 := by
  have hcheck : ({ maxDepth := .int 2 } : Limits).checkAtoms unclosedRow = .ok () := by
    unfold Limits.checkAtoms
    rw [count_flat rfl, nestingDepth_flat rfl]
    rfl
  let x := ofSymbol (.text "x") .null
  have hread : Marking.ofAtoms .builtin unclosedRow = .ok (bracketOf (strayBracket (strayBracket x))) := by rfl
  have inside : ∀ {inner : Expr} {path : List Expr}, (strayBracket inner).Path path →
      (bracketOf (strayBracket inner)).Path (bracketOf (strayBracket inner) :: path) :=
    fun h => .down (List.mem_filter.mpr ⟨List.mem_cons_self, rfl⟩) h
  have behind : ∀ {inner : Expr} {path : List Expr}, (bracketOf inner).Path path →
      (strayBracket inner).Path (strayBracket inner :: path) :=
    fun h => .down (List.mem_filter.mpr ⟨List.mem_cons_of_mem _ List.mem_cons_self, rfl⟩) h
  exact ⟨hcheck, _, _, rfl, hread, rfl, _, inside (behind (inside (behind (.root rfl)))), rfl⟩

end Formula
