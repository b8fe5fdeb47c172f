import RootComplex.Word

/-! Property values of a device tree. A value is a run of bytes; read as cells it is a
list of big-endian words, read as strings a list of texts between NUL bytes. -/

namespace RootComplex

abbrev Bytes := List UInt8

namespace Property

inductive DecodeError where
  /-- The length is no whole number of cells. -/
  | cellLength (length : Nat)
  /-- A piece between NUL bytes is not UTF-8. -/
  | invalidString
  deriving DecidableEq, Repr

def DecodeError.message : DecodeError → String
  | .cellLength length => "property length " ++ toString length ++ " is not a multiple of 4"
  | .invalidString => "property is not a valid string list"

/-- The four bytes of a cell, the highest first. -/
def cellBytes (c : Word) : Bytes :=
  [24, 16, 8, 0].map fun shift => UInt8.ofNat (c >>> shift).toNat

def ofCells (cells : List Word) : Bytes := cells.flatMap cellBytes

def cellOfBytes (a b c d : UInt8) : Word :=
  BitVec.ofNat 32 (a.toNat * 0x1000000 + b.toNat * 0x10000 + c.toNat * 0x100 + d.toNat)

/-- Takes four bytes at a time; `none` if some are left over. -/
def readCells? : Bytes → Option (List Word)
  | [] => some []
  | a :: b :: c :: d :: rest => (readCells? rest).map (cellOfBytes a b c d :: ·)
  | _ => none

def cells (bytes : Bytes) : Except DecodeError (List Word) :=
  match readCells? bytes with
  | some cells => .ok cells
  | none => .error (.cellLength bytes.length)

def textBytes (s : String) : Bytes := s.toUTF8.data.toList

def ofStrings (strings : List String) : Bytes := strings.flatMap fun s => textBytes s ++ [0]

def pieces (bytes : Bytes) : List Bytes := (bytes.splitOn 0).filter (!·.isEmpty)

def readText? (bytes : Bytes) : Option String := String.fromUTF8? (ByteArray.mk bytes.toArray)

def strings (bytes : Bytes) : Except DecodeError (List String) :=
  match (pieces bytes).mapM readText? with
  | some strings => .ok strings
  | none => .error .invalidString

end Property

end RootComplex
