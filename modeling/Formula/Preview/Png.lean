import Formula.Preview.Picture

/-!
# PNG

The file of a picture in the format PNG.  The colors are stored without compression, so that the file is plain to
follow: a signature, then chunks that each carry a checksum.
-/

namespace Formula.Preview.Png

/-- The four bytes of a number, the most significant first. -/
def bytesOf (n : UInt32) : List UInt8 := [(n >>> 24).toUInt8, (n >>> 16).toUInt8, (n >>> 8).toUInt8, n.toUInt8]

/-- The two bytes of a number, the least significant first. -/
def shortBytesOf (n : UInt16) : List UInt8 := [n.toUInt8, (n >>> 8).toUInt8]

/-! ### Checksums -/

/-- One step of the division that makes the cyclic redundancy check. -/
def checkShift (c : UInt32) : UInt32 := if c &&& 1 = 1 then (c >>> 1) ^^^ 0xEDB88320 else c >>> 1

/-- The remainder with one more byte. -/
def checkByte (c : UInt32) (b : UInt8) : UInt32 :=
  checkShift <| checkShift <| checkShift <| checkShift <| checkShift <| checkShift <| checkShift <| checkShift <|
    c ^^^ b.toUInt32

/-- The cyclic redundancy check of a chunk. -/
def cyclicCheck (bytes : List UInt8) : UInt32 := (bytes.foldl checkByte 0xFFFFFFFF) ^^^ 0xFFFFFFFF

/-- The sums modulo `65521` of the bytes, and of these sums. -/
def sums (bytes : List UInt8) : UInt32 × UInt32 :=
  bytes.foldl (fun s b => let low := (s.1 + b.toUInt32) % 65521; (low, (s.2 + low) % 65521)) (1, 0)

/-- The checksum of a stream. -/
def sumCheck (bytes : List UInt8) : UInt32 := let s := sums bytes; (s.2 <<< 16) ||| s.1

/-! ### Chunks -/

/-- A chunk: its length, its name, its bytes and its checksum. -/
def chunk (name : String) (bytes : List UInt8) : List UInt8 :=
  let body := name.toUTF8.toList ++ bytes
  bytesOf (UInt32.ofNat bytes.length) ++ body ++ bytesOf (cyclicCheck body)

/-- The longest block of a stream. -/
def blockLength : Nat := 65535

/-- The blocks of a stream without compression; the last one is marked. -/
def blocks (bytes : List UInt8) : List UInt8 :=
  let block := bytes.take blockLength
  let length := UInt16.ofNat block.length
  let rest := bytes.drop blockLength
  let head := shortBytesOf length ++ shortBytesOf (length ^^^ 0xFFFF)
  if _ : blockLength < bytes.length then (0 :: head) ++ block ++ blocks rest
  else (1 :: head) ++ block
termination_by bytes.length
decreasing_by simp_all [blockLength]; omega

/-- The stream of the bytes of a picture. -/
def stream (bytes : List UInt8) : List UInt8 := [0x78, 0x01] ++ blocks bytes ++ bytesOf (sumCheck bytes)

/-! ### Pictures -/

/-- The bytes of one place. -/
def placeBytes (p : Picture) (x y : Nat) : List UInt8 :=
  let c := p.color x y
  match p.mask with
  | none => [c.red, c.green, c.blue]
  | some visible => [c.red, c.green, c.blue, if visible x y then 255 else 0]

/-- The bytes of a row, behind a zero that says that they are not filtered. -/
def rowBytes (p : Picture) (y : Nat) : List UInt8 := 0 :: (List.range p.width).flatMap fun x => placeBytes p x y

/-- The size of a picture and the form of its colors. -/
def header (p : Picture) : List UInt8 :=
  bytesOf (UInt32.ofNat p.width) ++ bytesOf (UInt32.ofNat p.height) ++
    [8, if p.mask.isSome then 6 else 2, 0, 0, 0]

/-- The signature of a file. -/
def signature : List UInt8 := [0x89, 0x50, 0x4E, 0x47, 0x0D, 0x0A, 0x1A, 0x0A]

/-- The file of a picture. -/
def file (p : Picture) : ByteArray :=
  let rows := (List.range p.height).flatMap (rowBytes p)
  ⟨(signature ++ chunk "IHDR" (header p) ++ chunk "IDAT" (stream rows) ++ chunk "IEND" []).toArray⟩

end Formula.Preview.Png
