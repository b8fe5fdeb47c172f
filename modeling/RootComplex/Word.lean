/-! Machine words, addresses and durations, with the two ways they are written:
hexadecimal text for addresses and codes, decimal text for counts. -/

namespace RootComplex

abbrev Word := BitVec 32

/-- A bus or CPU address, or the size of a range of them. Arithmetic wraps
after the last address, as the address adders do. -/
abbrev Address := BitVec 64

def Word.count : Nat := 0x100000000

def Address.count : Nat := 0x10000000000000000

/-- A span of time in nanoseconds. -/
abbrev Duration := Nat

namespace Duration

def microseconds (n : Nat) : Duration := n * 1000

def milliseconds (n : Nat) : Duration := n * 1000000

def seconds (n : Nat) : Duration := n * 1000000000

def inMilliseconds (d : Duration) : Nat := d / 1000000

end Duration

/-- Register offsets inside a block are small; they are widened before the sum. -/
def Address.at (base : Address) (offset : Nat) : Address := base + BitVec.ofNat 64 offset

def Address.ofWords (hi lo : Word) : Address := (hi ++ lo).cast rfl

def Address.low (a : Address) : Word := a.setWidth 32

def Address.high (a : Address) : Word := (a >>> 32).setWidth 32

namespace Text

/-- Hexadecimal digits in lower case, without leading zeros. -/
def hexDigits (n : Nat) : String := String.ofList (Nat.toDigits 16 n)

/-- Hexadecimal with its mark: `0x0`, `0x1f`. -/
def hex (n : Nat) : String := "0x" ++ hexDigits n

/-- Hexadecimal of a byte-sized code, padded to two digits: `0x05`. -/
def hexByte (n : Nat) : String := if n < 16 then "0x0" ++ hexDigits n else hex n

/-- Two hexadecimal digits per byte, no mark. -/
def hexBytes (bytes : List UInt8) : String :=
  String.ofList (bytes.flatMap fun b => [Nat.digitChar (b.toNat / 16), Nat.digitChar (b.toNat % 16)])

def hexValue? (c : Char) : Option Nat :=
  if '0' ≤ c ∧ c ≤ '9' then some (c.toNat - '0'.toNat)
  else if 'a' ≤ c ∧ c ≤ 'f' then some (c.toNat - 'a'.toNat + 10)
  else if 'A' ≤ c ∧ c ≤ 'F' then some (c.toNat - 'A'.toNat + 10)
  else none

def readHexOnto? : Nat → List Char → Option Nat
  | acc, [] => some acc
  | acc, c :: rest => (hexValue? c).bind fun d => readHexOnto? (acc * 16 + d) rest

/-- Reads marked hexadecimal, the inverse of `hex`. -/
def readHex? (text : String) : Option Nat :=
  match text.toList with
  | '0' :: 'x' :: c :: rest => readHexOnto? 0 (c :: rest)
  | _ => none

/-- Reads a byte string of two digits per byte, the inverse of `hexBytes`. A last
digit without a partner makes no byte. -/
def readHexBytes? : List Char → Option (List UInt8)
  | a :: b :: rest => do
    let hi ← hexValue? a
    let lo ← hexValue? b
    let tail ← readHexBytes? rest
    pure (UInt8.ofNat (hi * 16 + lo) :: tail)
  | _ => some []

def bool (b : Bool) : String := if b then "true" else "false"

end Text

end RootComplex
