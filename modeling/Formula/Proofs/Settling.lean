import Formula.Fault

/-!
# Outcomes that settle

A function with fuel is of use when its answer stops changing: from some fuel on it is one outcome.  `Settles` says so,
together with what the outcome is like, since how much fuel a later step needs hangs on what the earlier ones gave.
There is one rule for each way in which the readers of this library put steps together, so that the answer of a reader
and the fuel that it needs are found along its text.
-/

namespace Formula

namespace Outcome

variable {α β : Type}

/-! ### What an outcome is like -/

/-- The outcome is a value with one property, or a fault with another. -/
def Within (F : Fault → Prop) (P : α → Prop) : Outcome α → Prop
  | .ok v => P v
  | .error f => F f

instance {F : Fault → Prop} {P : α → Prop} [DecidablePred F] [DecidablePred P] : ∀ r : Outcome α, Decidable (r.Within F P)
  | .ok v => inferInstanceAs (Decidable (P v))
  | .error f => inferInstanceAs (Decidable (F f))

theorem within_ok {F : Fault → Prop} {P : α → Prop} {v : α} (h : P v) : Within F P (.ok v) := h

theorem within_of_forall {F : Fault → Prop} {P : α → Prop} (hF : ∀ f, F f) (hP : ∀ v, P v) (r : Outcome α) :
    r.Within F P := by
  cases r with
  | ok v => exact hP v
  | error f => exact hF f

theorem Within.imp {F G : Fault → Prop} {P Q : α → Prop} {r : Outcome α} (h : r.Within F P) (hF : ∀ f, F f → G f)
    (hP : ∀ v, P v → Q v) : r.Within G Q := by
  cases r with
  | ok v => exact hP v h
  | error f => exact hF f h

theorem Within.bind {F : Fault → Prop} {P : α → Prop} {Q : β → Prop} {r : Outcome α} {s : α → Outcome β}
    (h : r.Within F P) (hs : ∀ v, P v → (s v).Within F Q) : (r >>= s).Within F Q := by
  cases r with
  | ok v => exact hs v h
  | error f => exact h

theorem Within.map {F : Fault → Prop} {P : α → Prop} {Q : β → Prop} {r : Outcome α} {g : α → β}
    (h : r.Within F P) (hg : ∀ v, P v → Q (g v)) : Within F Q (r.map g) := by
  cases r with
  | ok v => exact hg v h
  | error f => exact h

/-- A choice. -/
theorem Within.choice {F : Fault → Prop} {P : α → Prop} {b : Prop} [Decidable b] {r r' : Outcome α}
    (h : b → r.Within F P) (h' : ¬b → r'.Within F P) : Within F P (if b then r else r') := by
  split
  · exact h ‹_›
  · exact h' ‹_›

/-- The same step for every member of a row. -/
theorem Within.mapM {F : Fault → Prop} {P : β → Prop} {g : α → Outcome β} : ∀ {xs : List α},
    (∀ x ∈ xs, (g x).Within F P) → (xs.mapM g).Within F fun ys => ∀ y ∈ ys, P y
  | [], _ => nofun
  | x :: xs, h => by
    rw [List.mapM_cons]
    refine (h x List.mem_cons_self).bind fun y hy => ?_
    refine (Within.mapM fun z hz => h z (List.mem_cons_of_mem x hz)).bind fun ys hys => ?_
    exact List.forall_mem_cons.mpr ⟨hy, hys⟩

theorem eq_ok_of_toOption {r : Outcome α} {v : α} (h : r.toOption = some v) : r = .ok v := by
  cases r with
  | ok w => exact congrArg _ (Option.some.inj h)
  | error f => cases h

/-- What is said of a value may be added to what is known. -/
theorem Within.and_ok {F : Fault → Prop} {P Q : α → Prop} {r : Outcome α} (h : r.Within F P)
    (hQ : ∀ v, r = .ok v → Q v) : r.Within F (fun v => P v ∧ Q v) := by
  cases r with
  | ok v => exact ⟨h, hQ v rfl⟩
  | error f => exact h

/-- An outcome without faults has a value. -/
theorem Within.exists_ok {P : α → Prop} {r : Outcome α} (h : r.Within (fun _ => False) P) : ∃ v, r = .ok v ∧ P v := by
  cases r with
  | ok v => exact ⟨v, rfl, h⟩
  | error f => exact h.elim

theorem Within.of_eq_ok {F : Fault → Prop} {P : α → Prop} {r : Outcome α} {v : α} (hr : r = .ok v) (h : P v) :
    r.Within F P := by
  subst hr
  exact h

theorem Within.of_eq_error {F : Fault → Prop} {P : α → Prop} {r : Outcome α} {f : Fault} (hr : r = .error f) (h : F f) :
    r.Within F P := by
  subst hr
  exact h

theorem Within.of_ok {F : Fault → Prop} {P : α → Prop} {r : Outcome α} {v : α} (h : r.Within F P) (hr : r = .ok v) :
    P v := by
  subst hr
  exact h

theorem Within.of_error {F : Fault → Prop} {P : α → Prop} {r : Outcome α} {f : Fault} (h : r.Within F P)
    (hr : r = .error f) : F f := by
  subst hr
  exact h

end Outcome

open Outcome

/-! ### Settling -/

/-- From the fuel `need` on the outcome is `r`, which is a value in `P` or a fault in `F`. -/
structure Settles {α : Type} (F : Fault → Prop) (P : α → Prop) (need : Nat) (r : Outcome α) (f : Nat → Outcome α) :
    Prop where
  eq : ∀ n, need ≤ n → f n = r
  within : r.Within F P

namespace Settles

variable {α β : Type} {F : Fault → Prop} {P : α → Prop} {Q : β → Prop} {need more : Nat}

/-- The same fact for more fuel. -/
theorem mono {r : Outcome α} {f : Nat → Outcome α} (h : Settles F P need r f) (hn : need ≤ more) :
    Settles F P more r f := ⟨fun n hm => h.eq n (Nat.le_trans hn hm), h.within⟩

/-- The same fact with a weaker property of the value. -/
theorem imp {P' : α → Prop} {r : Outcome α} {f : Nat → Outcome α} (h : Settles F P need r f)
    (hP : ∀ v, P v → P' v) : Settles F P' need r f := ⟨h.eq, h.within.imp (fun _ hf => hf) hP⟩

/-- An outcome that takes no fuel. -/
theorem const {r : Outcome α} (h : r.Within F P) : Settles F P need r (fun _ => r) := ⟨fun _ _ => rfl, h⟩

/-- A value. -/
theorem ret {v : α} (h : P v) : Settles F P need (pure v) (fun _ => pure v) := const h

/-- A question that takes no fuel, and what is done with its answer. -/
theorem ask {r : Outcome α} {s : α → Outcome β} {g : α → Nat → Outcome β} (h : r.Within F P)
    (hg : ∀ v, P v → Settles F Q need (s v) (g v)) : Settles F Q need (r >>= s) (fun n => r >>= fun v => g v n) := by
  cases r with
  | ok v => exact hg v h
  | error f => exact const (r := .error f) h

/-- One step after another. -/
theorem bind {r : Outcome α} {f : Nat → Outcome α} {s : α → Outcome β} {g : α → Nat → Outcome β}
    (hf : Settles F P more r f) (hn : more ≤ need) (hg : ∀ v, P v → Settles F Q need (s v) (g v)) :
    Settles F Q need (r >>= s) (fun n => f n >>= fun v => g v n) := by
  refine ⟨fun n hm => ?_, hf.within.bind fun v hv => (hg v hv).within⟩
  have hr := hf.eq n (Nat.le_trans hn hm)
  have hw := hf.within
  rw [hr]
  cases r with
  | ok v => exact (hg v hw).eq n hm
  | error f => rfl

/-- A choice. -/
theorem choice {b : Prop} [Decidable b] {r r' : Outcome α} {f f' : Nat → Outcome α}
    (hf : b → Settles F P need r f) (hf' : ¬b → Settles F P need r' f') :
    Settles F P need (if b then r else r') (fun n => if b then f n else f' n) := by
  by_cases hb : b
  · simpa only [if_pos hb] using hf hb
  · simpa only [if_neg hb] using hf' hb

/-- A function that passes on less fuel than it has. -/
theorem step {r : Outcome α} {f : Nat → Outcome α} (h : Settles F P need r (fun n => f (n + 1))) :
    Settles F P (need + 1) r f := by
  refine ⟨fun n hn => ?_, h.within⟩
  obtain ⟨m, rfl⟩ : ∃ m, n = m + 1 := ⟨n - 1, by omega⟩
  exact h.eq m (by omega)

/-- The outcome is the one for the fuel that is needed. -/
theorem self {r : Outcome α} {f : Nat → Outcome α} (h : Settles F P need r f) : Settles F P need (f need) f := by
  rw [h.eq need (Nat.le_refl _)]
  exact h

end Settles

end Formula
