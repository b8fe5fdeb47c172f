import RootComplex.Register.Translation

/-! Registers of the two chips around the core: reset and link control, the indirect
port to the PHY, the controllers' address map and the GPIO port of the PERST# lines. -/

namespace RootComplex

/-! BM1000: one shared control block with a slice for each controller. -/

namespace Bm1000

def controllers : Nat := 3
def maxLanes : Nat := 8

def controlBase : Address := 0x02050000
def controlStride : Address := 0x20

def resetOffset : Nat := 0x00
def linkStatusOffset : Nat := 0x04
def generalControlOffset : Nat := 0x08

def msiTranslation : Address := controlBase + 0xF8
/-- Contents of a full root complex number field. -/
def msiNumberMask : Word := 0x3

def gpioBase : Address := 0x20200000

end Bm1000

/-! A set bit holds the block in reset. -/

namespace Bm1000.ResetControl

def phy : Field 32 := .bits 0 1
def pipe0 : Field 32 := .bits 4 1
def pipe1 : Field 32 := .bits 5 1
def core : Field 32 := .bits 8 1
def power : Field 32 := .bits 9 1
def sticky : Field 32 := .bits 10 1
def nonSticky : Field 32 := .bits 11 1
def hot : Field 32 := .bits 12 1
def bridgePowerDown : Field 32 := .bits 13 1

def layout : Layout 32 where
  fields := [
    .flag "phy" phy,
    .flag "pipe0" pipe0,
    .flag "pipe1" pipe1,
    .flag "core" core,
    .flag "power" power,
    .flag "sticky" sticky,
    .flag "non_sticky" nonSticky,
    .flag "hot" hot,
    .flag "adb_power_down" bridgePowerDown]

end Bm1000.ResetControl

namespace Bm1000.GeneralControl

def ltssmEnable : Field 32 := .bits 1 1

def layout : Layout 32 where
  fields := [
    .flag "ltssm_enable" ltssmEnable,
    .flag "dbi2_mode" (.bits 2 1),
    .flag "phy_management_enable" (.bits 3 1)]

end Bm1000.GeneralControl

/-! The indirect PHY port, inside the root port's block. -/

namespace PhyPort

def lanes : Nat := 0xB00
def address : Nat := 0xB04
def data : Nat := 0xB08
def status : Nat := 0xB0C

def polls : Nat := 1000
def pollMicroseconds : Nat := 1

end PhyPort

namespace PhyAddress

def address : Field 32 := .bits 0 31
def write : Field 32 := .bits 31 1

def layout : Layout 32 where
  fields := [.number "address" address, .flag "write" write]

end PhyAddress

namespace PhyStatus

def done : Field 32 := .bits 0 1
def busy : Field 32 := .bits 1 1

def layout : Layout 32 where
  fields := [.flag "done" done, .flag "busy" busy]

end PhyStatus

/-! BS1000: a control block of its own for each controller. -/

namespace Bs1000

/-- Root port block (DBI) of every controller. Two units carry four controllers each,
three carry two. -/
def dbiBases : List Address := [
  0x39000000, 0x39100000, 0x39200000, 0x39300000,
  0x3D000000, 0x3D100000, 0x3D200000, 0x3D300000,
  0x45000000, 0x45100000, 0x49000000, 0x49100000,
  0x4D000000, 0x4D100000]

def controllers : Nat := 14
def maxLanes : Nat := 32

/-- The controllers below this one decode one address bit more than the rest. -/
def wideControllers : Nat := 8

/-- Where the mapped translation regions begin in the root port's block. -/
def regionOffset : Address := 0x80000

def resetOffset : Nat := 0x04
def resetStatusOffset : Nat := 0x08
def generalControl3Offset : Nat := 0x58
def linkStatusOffset : Nat := 0xB4

def resetDonePolls : Nat := 1000
def resetDonePollMicroseconds : Nat := 10

def gpioBase : Address := 0x0C400000

end Bs1000

/-! A set bit holds the block in reset. -/

namespace Bs1000.ResetControl

def phy : Field 32 := .bits 0 1
def pipe0 : Field 32 := .bits 1 1
def pipe1 : Field 32 := .bits 2 1
def core : Field 32 := .bits 3 1
def power : Field 32 := .bits 4 1
def sticky : Field 32 := .bits 5 1
def nonSticky : Field 32 := .bits 6 1
def hot : Field 32 := .bits 7 1
def bridgePowerDown : Field 32 := .bits 8 1

def layout : Layout 32 where
  fields := [
    .flag "phy" phy,
    .flag "pipe0" pipe0,
    .flag "pipe1" pipe1,
    .flag "core" core,
    .flag "power" power,
    .flag "sticky" sticky,
    .flag "non_sticky" nonSticky,
    .flag "hot" hot,
    .flag "adb_power_down" bridgePowerDown]

end Bs1000.ResetControl

namespace Bs1000.ResetStatus

def resetDone : Field 32 := .bits 0 1

def layout : Layout 32 where
  fields := [.flag "reset_done" resetDone]

end Bs1000.ResetStatus

namespace Bs1000.GeneralControl3

def ltssmEnable : Field 32 := .bits 0 1

def layout : Layout 32 where
  fields := [.flag "ltssm_enable" ltssmEnable]

end Bs1000.GeneralControl3

/-! The GPIO port that drives the PERST# lines. -/

namespace GpioPort

def data : Nat := 0x00
/-- A set bit makes its pin an output. -/
def direction : Nat := 0x04
def pins : Nat := 32

end GpioPort

/-! Resource allocation attributes of a published root bridge. -/

namespace AllocationAttributes

/-- Prefetchable memory is allocated from the ordinary memory apertures. -/
def combinePrefetchable : Field 64 := .bits 0 1
/-- The bridge decodes 64-bit memory. -/
def memory64Decode : Field 64 := .bits 1 1

def layout : Layout 64 where
  fields := [
    .flag "combine_mem_pmem" combinePrefetchable,
    .flag "mem64_decode" memory64Decode]

end AllocationAttributes

end RootComplex
