import Formula.Proofs.Reader.Pieces

/-!
# Disciplines of reading

The reader of atoms asks questions about atoms, and puts expressions together from what it has read.  A discipline is a
kind `L` of rows and a kind `E` of expressions that this respects: on rows in `L` no question has a fault but those in
`F`, and from expressions in `E` the reader makes expressions in `E` alone.  Nothing is said of the order in which the
reader asks or of how far it reads; what a discipline promises of a whole reading is proved once, along the reader.
-/

namespace Formula

open Atom Expr

/-- What the reader asks of rows in `L`, with the faults in `F`, and makes of expressions in `E`. -/
structure Discipline (c : Catalog) (F : Fault → Prop) (L : List Atom → Prop) (E : Expr → Prop) : Prop where
  part : ∀ {row s : List Atom}, L row → s <:+: row → L s
  unspaced : ∀ {row : List Atom}, L row → L (unspaced row)
  nested : ∀ {a : Atom} {field : Option (List Atom)}, L [a] → field ∈ a.fields → L (Atom.unspaced (field.getD []))
  -- operators and signs
  precedence : ∀ {a : Atom}, L [a] → (a.precedence c).Within F fun _ => True
  operation : ∀ {a : Atom} {p : Int}, L [a] → a.precedence c = .ok (some p) →
    (a.name c).Within F fun op => ∀ l r, E l → E r → E (between op l r)
  sign : ∀ {a : Atom}, L [a] → (a.sign? c).Within F fun found => ∀ s ∈ found, ∀ e, E e → E (withSign (.text s) e)
  product : ∀ {l r : Expr}, E l → E r → E (between (.text "*") l r)
  sum : ∀ {l r : Expr}, E l → E r → E (between (.text "+") l r)
  juxtapose : ∀ {l r : Expr}, E l → E r → E (juxtapose l r)
  -- operands
  missing : E missing
  startsOperand : ∀ {a : Atom} {closers : List Closer}, L [a] → (a.startsOperand c closers).Within F fun _ => True
  placeholder : ∀ {a : Atom}, L [a] → a.isPlaceholder = true →
    E (unreadable (.text "") (.text "sub/superscript without a base"))
  symbol : ∀ {a : Atom}, L [a] → a.type = .ordinary ∨ a.type = .textual → (a.symbol c).Within F E
  inFont : ∀ {a : Atom}, L [a] → a.type = .font → a.inFont.Within F E
  asText : ∀ {a : Atom}, L [a] → a.type = .text → a.asText.Within F E
  quotient : ∀ {l r : Expr}, E l → E r → E (quotient l r)
  squareRoot : ∀ {e : Expr}, E e → E (squareRoot e)
  power : ∀ {e i : Expr}, E e → E i → E (apply (.text "pow") (tuple [e, Expr.quotient (ofNumber (.int 1)) i]))
  attach : ∀ {e s t : Expr}, E e → E s → E t → E (e.attach s t)
  unexpected : ∀ {a : Atom}, L [a] → a.unexpected.Within F E
  -- numbers
  startsNumber : ∀ {row : List Atom}, L row → (startsNumber row).Within F fun _ => True
  numeral : ∀ {row : List Atom}, L row → Expr.startsNumber row = .ok true → (scanNumeral row).Within F fun _ => True
  literal : ∀ {a : Atom} {rest : List Atom} {numeral : NumeralReading}, L (a :: rest) → a.isPlaceholder = false →
    Expr.startsNumber (a :: rest) = .ok true → scanNumeral (a :: rest) = .ok numeral →
    numeral.chars.any Char.isDigit = true → (literalOf numeral.chars).Within F E
  mixed : ∀ {chars : List Char} {literal e : Expr}, literalOf chars = .ok literal → E e →
    (mixedNumber literal e).Within F fun _ => True
  -- functions
  digraph : ∀ {row : List Atom} {names : List String}, L row →
    (startsWithDigraph? names row).Within F fun found => ∀ name ∈ found, ∀ e, E e → E (apply (.text name) e)
  postfix? : ∀ {a : Atom}, L [a] →
    a.postfixFunction?.Within F fun found => ∀ name ∈ found, ∀ e, E e → E (apply (.text name) e)
  isFunction : ∀ {a : Atom}, L [a] → operatorTypes.contains a.type = true → (a.isFunction c).Within F fun _ => True
  functionName : ∀ {a : Atom}, L [a] → a.isFunction c = .ok true → (a.name c).Within F fun name => E (apply name .missing)
  argument : ∀ {name fence : Datum} {e e' s t : Expr}, E (call name e fence s t) → E e' →
    (applyInverse (call name e' fence s t)).Within F E
  -- fences
  closesAny : ∀ {a : Atom} {closers : List Closer}, L [a] → (a.closesAny closers).Within F fun _ => True
  closes : ∀ {a : Atom} {closer : Closer}, L [a] → (a.closes closer).Within F fun _ => True
  opener : ∀ {a : Atom}, L [a] → a.opener?.Within F fun _ => True
  fenced : ∀ {a : Atom} {e : Expr}, L [a] → a.type = .fenced → E e →
    (delimited (a.leftDelim.orElse ".") (a.rightDelim.orElse ".") e).Within F E
  unclosed : ∀ {a : Atom} {left : Datum} {closer : Closer} {e : Expr}, L [a] → a.opener? = .ok (some (left, closer)) →
    E e → (delimited left (.text (closer.glyph.getD "")) e).Within F E
  closed : ∀ {a b : Atom} {left : Datum} {closer : Closer} {e : Expr}, L [a] → a.opener? = .ok (some (left, closer)) →
    L [b] → b.closes closer = .ok true → E e → b.glyph.Within F fun right => (delimited left right e).Within F E
  -- calls
  callName : ∀ {e : Expr}, E e → (callName? e).Within F fun _ => True
  arguments : ∀ {row : List Atom}, L row → (callArguments? row).Within F fun _ => True
  commas : ∀ {row : List Atom}, L (Atom.unspaced row) → (splitAtCommas 0 [] row).Within F fun _ => True
  callOf : ∀ {name variant : Datum} {s t : Expr} {items : List Expr}, E (Expr.symbol name variant s t) →
    callName? (Expr.symbol name variant s t) = .ok true → (∀ e ∈ items, E e) →
    E (call name (argumentsOf items) parentheses s t)

namespace Discipline

variable {c : Catalog} {F : Fault → Prop} {L : List Atom → Prop} {E : Expr → Prop}

theorem head (D : Discipline c F L E) {a : Atom} {rest : List Atom} (h : L (a :: rest)) : L [a] :=
  D.part h ⟨[], rest, rfl⟩

theorem suffix (D : Discipline c F L E) {row s : List Atom} (h : L row) (hs : s <:+ row) : L s := D.part h hs.isInfix

theorem tail (D : Discipline c F L E) {a : Atom} {rest : List Atom} (h : L (a :: rest)) : L rest :=
  D.suffix h (List.suffix_cons a rest)

theorem operator (D : Discipline c F L E) {row : List Atom} (h : L row) : (operator? c row).Within F fun _ => True := by
  cases row with
  | nil => exact trivial
  | cons a rest => exact D.precedence (D.head h)

/-- Every row and every expression will do where no fault is excluded. -/
theorem free (c : Catalog) : Discipline c (fun _ => True) (fun _ => True) (fun _ => True) := by
  have any : ∀ {α : Type} (P : α → Prop) (_ : ∀ v, P v) (r : Outcome α), r.Within (fun _ => True) P :=
    fun _ hP r => Outcome.within_of_forall (fun _ => trivial) hP r
  constructor
  all_goals intros
  all_goals first
    | exact trivial
    | exact any _ (fun _ => trivial) _
    | exact any _ (fun _ _ _ _ _ => trivial) _
    | exact any _ (fun _ => any _ (fun _ => trivial) _) _

end Discipline

end Formula
