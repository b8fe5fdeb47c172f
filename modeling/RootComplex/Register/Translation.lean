import RootComplex.Register.PortLogic

/-! Registers of the outbound address translation unit. One kind of core shows one
region at a time, selected by a viewport register; the other maps every region at
a fixed stride. -/

namespace RootComplex

namespace Translation

/-- Selects the region that the viewport registers stand for. -/
def viewport : Nat := 0x900
/-- The viewport bit that selects an inbound region. -/
def viewportInbound : Word := 0x80000000

def regionStride : Address := 0x200

structure RegionRegisters where
  control1 : Nat
  control2 : Nat
  lowerBase : Nat
  upperBase : Nat
  limit : Nat
  lowerTarget : Nat
  upperTarget : Nat
  upperLimit : Nat

/-- Offsets from the root port's block, for the selected region. -/
def viewportRegisters : RegionRegisters where
  control1 := 0x904
  control2 := 0x908
  lowerBase := 0x90C
  upperBase := 0x910
  limit := 0x914
  lowerTarget := 0x918
  upperTarget := 0x91C
  upperLimit := 0x924

/-- Offsets from the block of one mapped region. -/
def mappedRegisters : RegionRegisters where
  control1 := 0x00
  control2 := 0x04
  lowerBase := 0x08
  upperBase := 0x0C
  limit := 0x10
  lowerTarget := 0x14
  upperTarget := 0x18
  upperLimit := 0x20

def typeMemory : Nat := 0x0
def typeIo : Nat := 0x2
def typeConfig0 : Nat := 0x4
def typeConfig1 : Nat := 0x5

def granule : Nat := 0x10000
def minSize : Nat := granule
/-- Sizes stay below this, as the limit of a region must share its base's high part. -/
def maxSize : Nat := 0x100000000

end Translation

def Address.Aligned (a : Address) : Prop := a.toNat % Translation.granule = 0

instance (a : Address) : Decidable a.Aligned := inferInstanceAs (Decidable (_ = _))

namespace RegionControl1

def regionType : Field 32 := .bits 0 5

def layout : Layout 32 where
  fields := [.number "region_type" regionType]

end RegionControl1

namespace RegionControl2

/-- Bus, device and function are taken from the address. -/
def configShiftMode : Field 32 := .bits 28 1
def regionEnable : Field 32 := .bits 31 1

def layout : Layout 32 where
  fields := [
    .flag "cfg_shift_mode" configShiftMode,
    .flag "region_enable" regionEnable]

end RegionControl2

end RootComplex
