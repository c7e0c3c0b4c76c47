import Formula.Datum

/-!
# Tables

A table holds entries under payload keys, each key once, in the order in which the keys came first.
-/

namespace Formula

/-- Entries under keys. -/
abbrev Table (α : Type) := List (Datum × α)

namespace Table

variable {α : Type}

/-- The table of entries under texts. -/
def ofTexts (entries : List (String × α)) : Table α := entries.map fun e => (.text e.1, e.2)

/-- The entry under a key. -/
def find? (t : Table α) (key : Datum) : Option α := (List.find? (fun e => e.1.same key) t).map (·.2)

/-- The table with one entry set: in its old place and under its old key, or at the end if it is new. -/
def put (key : Datum) (value : α) : Table α → Table α
  | [] => [(key, value)]
  | e :: rest => if e.1.same key then (e.1, value) :: rest else e :: put key value rest

/-- The table with several entries set, one after the other. -/
def putAll (t : Table α) (entries : Table α) : Table α := entries.foldl (fun t e => put e.1 e.2 t) t

/-- The table without the entry under a key. -/
def remove (key : Datum) (t : Table α) : Table α := t.filter fun e => !e.1.same key

end Table

end Formula
