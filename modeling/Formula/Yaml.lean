import Formula.Yaml.Value

/-!
# YAML documents

`Yaml.read` reads a YAML document into a payload value: the characters make tokens (`Scanner`), the tokens make a tree
of nodes (`Node.ofText?`), and the tags of the nodes tell what values they stand for (`Node.toDatum`).
-/

namespace Formula.Yaml

/-- A character that may stand in a document. -/
def isAllowed (c : Char) : Bool :=
  let n := c.toNat
  n == 0x09 || n == 0x0a || n == 0x0d || (0x20 ≤ n && n ≤ 0x7e) || n == 0x85 || (0xa0 ≤ n && n ≤ 0xd7ff) ||
    (0xe000 ≤ n && n ≤ 0xfffd) || 0x10000 ≤ n

/-- The number of a character as it is shown, with four digits or more. -/
def charNumber (c : Char) : String :=
  let digits := Nat.toDigits 16 c.toNat
  String.ofList (List.replicate (4 - digits.length) '0' ++ digits)

/-- The value of a document, null if the text holds none. -/
def read (document : String) : Outcome Datum := do
  let cs := document.toList
  match cs.find? fun c => !isAllowed c with
  | some c => throw (.yaml s!"unacceptable character #x{charNumber c}: special characters are not allowed")
  | none => match ← Node.ofText? cs with
    | some node => node.toDatum
    | none => return .null

end Formula.Yaml
