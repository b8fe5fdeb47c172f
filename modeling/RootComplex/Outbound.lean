import RootComplex.Controller
import RootComplex.Program

/-! Outbound translation: which regions a controller needs and how one is programmed.
A region is switched off before its addresses change and switched on by the last
write, so it never translates by a half-written mapping. -/

namespace RootComplex

inductive RequestType where
  | memory | io | config0 | config1
  deriving DecidableEq, Repr

namespace RequestType

def name : RequestType → String
  | memory => "Mem"
  | io => "Io"
  | config0 => "Cfg0"
  | config1 => "Cfg1"

def code : RequestType → Nat
  | memory => Translation.typeMemory
  | io => Translation.typeIo
  | config0 => Translation.typeConfig0
  | config1 => Translation.typeConfig1

/-- Configuration requests take bus, device and function from the address. -/
def shiftMode : RequestType → Bool
  | config0 | config1 => true
  | _ => false

end RequestType

structure OutboundWindow where
  region : Nat
  /-- Before the chip masks it. -/
  cpu : Address
  pci : Address
  size : Address
  type : RequestType
  deriving DecidableEq, Repr

inductive OutboundError where
  | size (size : Address)
  | alignment (cpu pci size : Address)
  | region (region count : Nat)
  deriving DecidableEq, Repr

def OutboundError.message : OutboundError → String
  | .size bytes => "window size " ++ Text.hex bytes.toNat ++ " is outside [64 KiB, 4 GiB)"
  | .alignment cpu pci bytes =>
    "window cpu " ++ Text.hex cpu.toNat ++ " pci " ++ Text.hex pci.toNat ++ " size " ++
      Text.hex bytes.toNat ++ " is not 64 KiB aligned"
  | .region number count =>
    "region " ++ toString number ++ " exceeds the " ++ toString count ++ " outbound regions"

namespace OutboundWindow

/-- The first rule of the unit that the window breaks. -/
def fault? (soc : Soc) (w : OutboundWindow) : Option OutboundError :=
  if w.size.toNat < Translation.minSize ∨ Translation.maxSize ≤ w.size.toNat then
    some (.size w.size)
  else if ¬w.cpu.Aligned ∨ ¬w.pci.Aligned ∨ ¬w.size.Aligned then
    some (.alignment w.cpu w.pci w.size)
  else if soc.outboundRegions ≤ w.region then some (.region w.region soc.outboundRegions)
  else none

/-- The first CPU address, as the unit decodes it. -/
def maskedBase (soc : Soc) (index : Nat) (w : OutboundWindow) : Address :=
  w.cpu &&& soc.cpuMask index

def maskedLimit (soc : Soc) (index : Nat) (w : OutboundWindow) : Address :=
  w.maskedBase soc index + w.size - 1

def block (soc : Soc) (dbi : Address) (region : Nat) : Address :=
  match soc.regions with
  | .viewport => dbi
  | .mapped offset => dbi + offset + BitVec.ofNat 64 region * Translation.regionStride

def registers (soc : Soc) : Translation.RegionRegisters :=
  match soc.regions with
  | .viewport => Translation.viewportRegisters
  | .mapped _ => Translation.mappedRegisters

def control1 (w : OutboundWindow) : Word := RegionControl1.regionType.set w.type.code 0

def control2 (w : OutboundWindow) : Word :=
  RegionControl2.configShiftMode.put w.type.shiftMode (RegionControl2.regionEnable.put true 0)

def event (soc : Soc) (index : Nat) (w : OutboundWindow) : Event :=
  ⟨.debug, "programming outbound window",
    [("controller", toString index), ("region", toString w.region), ("kind", w.type.name),
      ("cpu_base", toString (w.maskedBase soc index).toNat),
      ("cpu_limit", toString (w.maskedLimit soc index).toNat),
      ("pci_base", toString w.pci.toNat)]⟩

def select (soc : Soc) (dbi : Address) (region : Nat) : Program Unit :=
  match soc.regions with
  | .viewport => Program.write (dbi.at Translation.viewport) (BitVec.ofNat 32 region)
  | .mapped _ => pure ()

/-- Programs the region of a controller whose root port block is at `dbi`. -/
def write (soc : Soc) (index : Nat) (dbi : Address) (w : OutboundWindow) : Program Unit := do
  let block := block soc dbi w.region
  let regs := registers soc
  let base := w.maskedBase soc index
  let limit := w.maskedLimit soc index
  Program.report (w.event soc index)
  Program.barrier
  select soc dbi w.region
  Program.write (block.at regs.control2) 0
  Program.write (block.at regs.lowerBase) base.low
  Program.write (block.at regs.upperBase) base.high
  Program.write (block.at regs.limit) limit.low
  Program.write (block.at regs.upperLimit) limit.high
  Program.write (block.at regs.lowerTarget) (Address.low w.pci)
  Program.write (block.at regs.upperTarget) (Address.high w.pci)
  Program.write (block.at regs.control1) w.control1
  Program.write (block.at regs.control2) w.control2

/-- Programs the window unless the unit cannot represent it; then nothing is touched. -/
def program (soc : Soc) (index : Nat) (dbi : Address) (w : OutboundWindow) :
    Program (Except OutboundError Unit) :=
  match w.fault? soc with
  | some e => pure (.error e)
  | none => do
    w.write soc index dbi
    pure (.ok ())

end OutboundWindow

/-! What each region is for. -/

namespace OutboundRegion

def config0 : Nat := 0
def config1 : Nat := 1
def memory : Nat := 2
def io : Nat := 3
def memoryHigh : Nat := 4

end OutboundRegion

namespace Controller

/-- The first bus of the config window and the rest of it. -/
def configWindows (c : Controller) : List OutboundWindow :=
  let bus := BitVec.ofNat 64 busSize
  [⟨OutboundRegion.config0, c.config, 0, bus, .config0⟩,
    ⟨OutboundRegion.config1, c.config + bus, bus, c.configSize - bus, .config1⟩]

def outboundOf (type : RequestType) (region : Nat) (w : Window) : OutboundWindow :=
  ⟨region, w.cpu, w.pci, w.size, type⟩

/-- The first window of each memory space, in the memory regions as they come. -/
def memoryWindows (c : Controller) : List OutboundWindow :=
  (([c.window? .mem32, c.window? .mem64].filterMap id).zip
    [OutboundRegion.memory, OutboundRegion.memoryHigh]).map fun (w, region) =>
      outboundOf .memory region w

def ioWindows (c : Controller) : List OutboundWindow :=
  (c.window? .io).toList.map (outboundOf .io OutboundRegion.io)

def outboundWindows (c : Controller) : List OutboundWindow :=
  c.configWindows ++ c.memoryWindows ++ c.ioWindows

end Controller

end RootComplex
