import RootComplex.Controller

/-! Root bridges as the enumerator gets them: the bus numbers and address ranges that
lie behind each controller. -/

namespace RootComplex

/-- A range of bus addresses, both ends included. A bus address is the CPU address
plus the translation. -/
structure Aperture where
  base : Address
  limit : Address
  translation : Address
  deriving DecidableEq, Repr

namespace Aperture

/-- The aperture of a bridge that forwards nothing. -/
def none : Aperture := ⟨BitVec.allOnes 64, 0, 0⟩

def isEmpty (a : Aperture) : Bool := a.limit < a.base

/-- The last address of a window, or the last address there is if it would wrap. -/
def lastOf (base size : Address) : Address :=
  BitVec.ofNat 64 (min (base.toNat + (size.toNat - 1)) (Address.count - 1))

def ofWindow (w : Window) : Aperture := ⟨w.pci, lastOf w.pci w.size, w.pci - w.cpu⟩

def ofWindow? : Option Window → Aperture
  | some w => ofWindow w
  | .none => none

end Aperture

/-! The device path of a root bridge: an ACPI node and the end node. -/

namespace DevicePath

def expressBridge : Word := 0x0A0841D0

/-- The bytes of a word, the lowest first. -/
def littleEndian (w : Word) : List UInt8 :=
  [0, 8, 16, 24].map fun shift => UInt8.ofNat (w >>> shift).toNat

/-- Type, subtype and length of an ACPI node, and of the node that ends a path. -/
def acpiHeader : List UInt8 := [0x02, 0x01, 0x0C, 0x00]

def endNode : List UInt8 := [0x7F, 0xFF, 0x04, 0x00]

def ofSegment (segment : Nat) : List UInt8 :=
  acpiHeader ++ littleEndian expressBridge ++ littleEndian (BitVec.ofNat 32 segment) ++ endNode

end DevicePath

def maxBus : Nat := 0xFF

structure RootBridge where
  segment : Nat
  attributes : BitVec 64
  dmaAbove4G : Bool
  busBase : Nat
  busLimit : Nat
  io : Aperture
  memory : Aperture
  memoryAbove4G : Aperture
  /-- Prefetchable memory is allocated from the ordinary apertures. -/
  prefetchable : Aperture
  prefetchableAbove4G : Aperture
  devicePath : List UInt8
  deriving DecidableEq, Repr

namespace RootBridge

def busLimitOf (configSize : Address) : Nat := min (configSize.toNat / busSize - 1) maxBus

def ofController (c : Controller) : RootBridge where
  segment := c.index
  attributes :=
    AllocationAttributes.memory64Decode.put (!(Aperture.ofWindow? (c.window? .mem64)).isEmpty)
      (AllocationAttributes.combinePrefetchable.put true 0)
  dmaAbove4G := true
  busBase := 0
  busLimit := busLimitOf c.configSize
  io := Aperture.ofWindow? (c.window? .io)
  memory := Aperture.ofWindow? (c.window? .mem32)
  memoryAbove4G := Aperture.ofWindow? (c.window? .mem64)
  prefetchable := Aperture.none
  prefetchableAbove4G := Aperture.none
  devicePath := DevicePath.ofSegment c.index

end RootBridge

end RootComplex
