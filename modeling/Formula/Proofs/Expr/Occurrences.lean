import Formula.Expr.OfAtoms
import Formula.Proofs.Settling

/-!
# How often a character occurs in an expression

Symbols, texts and errors show characters of the input, wherever in a tree they stand.  What the reader does with
expressions loses none of them: scripts are attached in a place that is free, a sign is folded into a number, and the only
exponent that is left out is minus one.
-/

namespace Formula

open Outcome

/-- The number of times that a text has the character. -/
def Datum.occurrences (x : Char) : Datum → Nat
  | .text s => s.toList.count x
  | _ => 0

namespace Expr

mutual

/-- The number of times that the character occurs in the names of symbols, in texts, and in what errors stand for. -/
def occurrences (x : Char) : Expr → Nat
  | missing | foreign _ => 0
  | tuple items => occurrencesIn x items
  | number _ s t | complex _ _ s t => s.occurrences x + t.occurrences x
  | symbol shown _ s t | text shown s t | error shown _ s t => shown.occurrences x + (s.occurrences x + t.occurrences x)
  | group e _ s t | unary _ e s t | call _ e _ s t => e.occurrences x + (s.occurrences x + t.occurrences x)
  | binary _ l r s t | fraction l r s t | root l r s t =>
    l.occurrences x + r.occurrences x + (s.occurrences x + t.occurrences x)

/-- The number of times that the character occurs in the expressions. -/
def occurrencesIn (x : Char) : List Expr → Nat
  | [] => 0
  | e :: rest => e.occurrences x + occurrencesIn x rest

end

/-! ### Node by node -/

section

variable (x : Char) (e l r s t : Expr) (d d' : Datum)

@[simp] theorem occurrences_missing : missing.occurrences x = 0 := rfl

@[simp] theorem occurrences_foreign : (foreign d).occurrences x = 0 := rfl

@[simp] theorem occurrences_tuple (items : List Expr) : (tuple items).occurrences x = occurrencesIn x items := rfl

@[simp] theorem occurrencesIn_nil : occurrencesIn x [] = 0 := rfl

@[simp] theorem occurrencesIn_cons (items : List Expr) :
    occurrencesIn x (e :: items) = e.occurrences x + occurrencesIn x items := rfl

@[simp] theorem occurrences_number : (number d s t).occurrences x = s.occurrences x + t.occurrences x := rfl

@[simp] theorem occurrences_complex : (complex d d' s t).occurrences x = s.occurrences x + t.occurrences x := rfl

@[simp] theorem occurrences_symbol :
    (symbol d d' s t).occurrences x = d.occurrences x + (s.occurrences x + t.occurrences x) := rfl

@[simp] theorem occurrences_text : (text d s t).occurrences x = d.occurrences x + (s.occurrences x + t.occurrences x) := rfl

@[simp] theorem occurrences_error :
    (error d d' s t).occurrences x = d.occurrences x + (s.occurrences x + t.occurrences x) := rfl

@[simp] theorem occurrences_group :
    (group e d s t).occurrences x = e.occurrences x + (s.occurrences x + t.occurrences x) := rfl

@[simp] theorem occurrences_unary :
    (unary d e s t).occurrences x = e.occurrences x + (s.occurrences x + t.occurrences x) := rfl

@[simp] theorem occurrences_call :
    (call d e d' s t).occurrences x = e.occurrences x + (s.occurrences x + t.occurrences x) := rfl

@[simp] theorem occurrences_binary :
    (binary d l r s t).occurrences x = l.occurrences x + r.occurrences x + (s.occurrences x + t.occurrences x) := rfl

@[simp] theorem occurrences_fraction :
    (fraction l r s t).occurrences x = l.occurrences x + r.occurrences x + (s.occurrences x + t.occurrences x) := rfl

@[simp] theorem occurrences_root :
    (root l r s t).occurrences x = l.occurrences x + r.occurrences x + (s.occurrences x + t.occurrences x) := rfl

end

/-! ### Nodes without scripts -/

section

variable (x : Char) (e l r : Expr) (d d' : Datum)

@[simp] theorem occurrences_ofNumber : (ofNumber d).occurrences x = 0 := rfl

@[simp] theorem occurrences_ofSymbol : (ofSymbol d d').occurrences x = d.occurrences x := rfl

@[simp] theorem occurrences_ofText : (ofText d).occurrences x = d.occurrences x := rfl

@[simp] theorem occurrences_fenced : (fenced e d).occurrences x = e.occurrences x := rfl

@[simp] theorem occurrences_before : (before d e).occurrences x = e.occurrences x := rfl

@[simp] theorem occurrences_apply : (apply d e).occurrences x = e.occurrences x := rfl

@[simp] theorem occurrences_between : (between d l r).occurrences x = l.occurrences x + r.occurrences x := rfl

@[simp] theorem occurrences_quotient : (quotient l r).occurrences x = l.occurrences x + r.occurrences x := rfl

@[simp] theorem occurrences_squareRoot : (squareRoot e).occurrences x = e.occurrences x := rfl

end

variable {x : Char} {e l r s t : Expr}

theorem occurrences_of_isMissing (h : e.isMissing = true) : e.occurrences x = 0 := by
  rw [eq_missing h]
  rfl

/-- The arguments that are left out are empty. -/
theorem occurrences_argumentsOf (items : List Expr) : (argumentsOf items).occurrences x = occurrencesIn x items := by
  have hfilter : ∀ items : List Expr,
      occurrencesIn x (items.filter fun e => !e.isMissing) = occurrencesIn x items := by
    intro items
    induction items with
    | nil => rfl
    | cons e items ih =>
      by_cases hm : e.isMissing = true
      · rw [List.filter_cons_of_neg (by simp [hm]), ih, occurrencesIn_cons, occurrences_of_isMissing hm, Nat.zero_add]
      · rw [List.filter_cons_of_pos (by simp [hm]), occurrencesIn_cons, occurrencesIn_cons, ih]
  unfold argumentsOf
  split
  · rfl
  · exact hfilter items

/-! ### Scripts -/

/-- Scripts in the place of those that a node had. -/
theorem occurrences_withScripts (h : e.holdsScripts = true) :
    (e.withScripts s t).occurrences x + (e.sup.occurrences x + e.sub.occurrences x) =
      e.occurrences x + (s.occurrences x + t.occurrences x) := by
  cases e with
  | number | symbol | group | call =>
    simp only [withScripts, sup, sub, occurrences_number, occurrences_symbol, occurrences_group, occurrences_call]
    omega
  | _ => cases h

/-- Attached scripts keep what was there. -/
theorem occurrences_attach :
    (e.attach s t).occurrences x = e.occurrences x + (s.occurrences x + t.occurrences x) := by
  unfold attach
  split
  · rename_i h
    rw [Bool.and_eq_true] at h
    rw [occurrences_of_isMissing h.1, occurrences_of_isMissing h.2]
    rfl
  · split
    · rename_i h
      simp only [Bool.and_eq_true, Bool.or_eq_true] at h
      obtain ⟨⟨hholds, hsup⟩, hsub⟩ := h
      -- A place that is taken stays as it is, and one that is free gets the new script.
      have place : ∀ {new old : Expr}, new.isMissing = true ∨ old.isMissing = true →
          (if new.isMissing = true then old else new).occurrences x = old.occurrences x + new.occurrences x := by
        intro new old h
        split
        · rename_i hnew
          rw [occurrences_of_isMissing hnew, Nat.add_zero]
        · rename_i hnew
          rw [occurrences_of_isMissing (h.resolve_left hnew), Nat.zero_add]
      have hboth := @occurrences_withScripts x e (if s.isMissing = true then e.sup else s)
        (if t.isMissing = true then e.sub else t) hholds
      rw [place hsup, place hsub] at hboth
      omega
    · rfl

/-! ### What the reader makes of an expression -/

theorem occurrences_juxtapose (l r : Expr) : (juxtapose l r).occurrences x = l.occurrences x + r.occurrences x := by
  unfold juxtapose
  split
  · rename_i h
    rw [occurrences_of_isMissing h, Nat.zero_add]
  · split
    · rename_i h
      rw [occurrences_of_isMissing h, Nat.add_zero]
    · rfl

theorem occurrences_of_takesSign {sign : Datum} {e e' : Expr} (h : TakesSign sign e e') :
    e'.occurrences x = e.occurrences x := by
  induction h with
  | number _ => rfl
  | product r _ ih => rw [occurrences_between, occurrences_between, ih]

theorem occurrences_withSign (sign : Datum) (e : Expr) : (withSign sign e).occurrences x = e.occurrences x := by
  obtain h | h := withSign_cases sign e
  · exact occurrences_of_takesSign h
  · rw [h]
    rfl

theorem occurrences_of_isMinusOne (h : e.isMinusOne = .ok true) : e.occurrences x = 0 := by
  unfold isMinusOne at h
  split at h
  · rfl
  · rfl
  · cases h

theorem occurrences_applyInverse {e' : Expr} (h : applyInverse e = .ok e') : e'.occurrences x = e.occurrences x := by
  cases invertsTo_of_applyInverse h with
  | unchanged _ => rfl
  | inverse _ hminus => rw [occurrences_call, occurrences_call, occurrences_of_isMinusOne hminus, occurrences_missing]

theorem occurrences_delimited {left right : Datum} {e' : Expr} (h : delimited left right e = .ok e') :
    e'.occurrences x = e.occurrences x := by
  obtain ⟨name, -, rfl⟩ | rfl := delimited_eq_ok h
  · rfl
  · rfl

end Expr

end Formula
