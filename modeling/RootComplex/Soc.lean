import RootComplex.Register.Glue

/-! The two chips as data. They wrap the same core in different glue, so everything
that differs between them is a value here and the bring-up is written once. -/

namespace RootComplex

/-- Where a controller's number and register blocks come from in its node. -/
inductive BlockLayout where
  /-- The regions have names; a cell gives the number, and with it the controller's
  slice of a control block that all share. -/
  | named (controlBase stride : Address)
  /-- The regions have places; the number is the place of the DBI base in a table. -/
  | positional (dbiBases : List Address)
  deriving DecidableEq, Repr

structure ResetDone where
  offset : Nat
  done : Word
  polls : Nat
  interval : Duration
  deriving DecidableEq, Repr

structure ControlBlock where
  reset : Nat
  linkStatus : Nat
  ltssmControl : Nat
  ltssmEnable : Word
  resetDone : Option ResetDone
  deriving DecidableEq, Repr

/-- Reset bits, which are written together. -/
structure ResetBits where
  base : Word
  /-- Joins the base on ports of eight lanes or more. -/
  pipe1 : Word
  /-- Pulsed alone to recover a link. -/
  core : Word
  /-- Held since power-on, and released with the rest. -/
  releaseExtra : Word
  hold : Duration
  deriving DecidableEq, Repr

def ResetBits.bundle (r : ResetBits) (lanes : Nat) : Word :=
  if 8 ≤ lanes then r.base ||| r.pipe1 else r.base

inductive RegionLayout where
  | viewport
  | mapped (offset : Address)
  deriving DecidableEq, Repr

/-- One adjustment of a PHY register: `value` replaces the bits under `mask`. -/
structure PhyTuning where
  name : String
  address : Nat
  mask : Word
  value : Word
  deriving DecidableEq, Repr

def PhyTuning.apply (t : PhyTuning) (current : Word) : Word :=
  (current &&& ~~~t.mask) ||| (t.value &&& t.mask)

/-- The register that tags message interrupts with a root complex number. Each
controller has a number field and an enable bit in it. -/
structure MsiTranslation where
  register : Address
  numberMask : Word
  stride : Nat
  firstEnable : Nat
  deriving DecidableEq, Repr

namespace MsiTranslation

def shift (m : MsiTranslation) (index : Nat) : Nat := index * m.stride

def enable (m : MsiTranslation) (index : Nat) : Word := 1 <<< (m.firstEnable + index)

/-- The register with the controller's number set and its translation enabled. -/
def assign (m : MsiTranslation) (index id : Nat) (current : Word) : Word :=
  (current &&& ~~~(m.numberMask <<< m.shift index)) |||
    ((BitVec.ofNat 32 id &&& m.numberMask) <<< m.shift index) ||| m.enable index

end MsiTranslation

structure Soc where
  name : String
  compatible : String
  controllers : Nat
  /-- The width of a port without a configured one. -/
  maxLanes : Nat
  blocks : BlockLayout
  control : ControlBlock
  reset : ResetBits
  regions : RegionLayout
  outboundRegions : Nat
  gpioBase : Address
  phyTuning : List PhyTuning
  msi : Option MsiTranslation
  /-- Time for a link to come up, from the start of training. -/
  linkUpTimeout : Duration
  retrains : Bool
  /-- CPU address bits that the translation of a controller decodes. -/
  decodedBits : Nat → Nat

/-- The addresses that a controller's translation tells apart. -/
def Soc.cpuMask (soc : Soc) (index : Nat) : Address :=
  (BitVec.allOnes (soc.decodedBits index)).setWidth 64

/-- The register value with these flags set and no others. -/
def flagsSet (flags : List (Field 32)) : Word := flags.foldl (fun w f => f.put true w) 0

namespace Bm1000

def phyTuning : List PhyTuning := [
  ⟨"rx_ctle", 0x1017, 0x00F0, 0x0040⟩,
  ⟨"rx_agc", 0x1018, 0x000F, 0x0006⟩,
  ⟨"rx_dfe", 0x101A, 0x0001, 0x0000⟩,
  ⟨"tx_boost", 0x1003, 0x001F, 0x000A⟩,
  ⟨"tx_gain", 0x1004, 0x0700, 0x0300⟩]

/-- Three ports of up to eight lanes, with a shared control block and a viewport. -/
def soc : Soc where
  name := "BM1000"
  compatible := "baikal,bm1000-pcie"
  controllers := controllers
  maxLanes := maxLanes
  blocks := .named controlBase controlStride
  control := {
    reset := resetOffset
    linkStatus := linkStatusOffset
    ltssmControl := generalControlOffset
    ltssmEnable := flagsSet [GeneralControl.ltssmEnable]
    resetDone := none }
  reset := {
    base := flagsSet [ResetControl.core, ResetControl.power, ResetControl.sticky,
      ResetControl.nonSticky, ResetControl.phy, ResetControl.pipe0]
    pipe1 := flagsSet [ResetControl.pipe1]
    core := flagsSet [ResetControl.core]
    releaseExtra := flagsSet [ResetControl.bridgePowerDown, ResetControl.hot]
    hold := 100 }
  regions := .viewport
  outboundRegions := 8
  gpioBase := gpioBase
  phyTuning := phyTuning
  msi := some {
    register := msiTranslation
    numberMask := msiNumberMask
    stride := 2
    firstEnable := 9 }
  linkUpTimeout := .milliseconds 200
  retrains := true
  decodedBits := fun _ => 64

end Bm1000

namespace Bs1000

/-- Fourteen ports of up to 32 lanes, with control blocks of their own and mapped
regions. -/
def soc : Soc where
  name := "BS1000"
  compatible := "baikal,bs1000-pcie"
  controllers := controllers
  maxLanes := maxLanes
  blocks := .positional dbiBases
  control := {
    reset := resetOffset
    linkStatus := linkStatusOffset
    ltssmControl := generalControl3Offset
    ltssmEnable := flagsSet [GeneralControl3.ltssmEnable]
    resetDone := some {
      offset := resetStatusOffset
      done := flagsSet [ResetStatus.resetDone]
      polls := resetDonePolls
      interval := .microseconds resetDonePollMicroseconds } }
  reset := {
    base := flagsSet [ResetControl.core, ResetControl.power, ResetControl.sticky,
      ResetControl.nonSticky, ResetControl.phy, ResetControl.pipe0]
    pipe1 := flagsSet [ResetControl.pipe1]
    core := flagsSet [ResetControl.core]
    releaseExtra := flagsSet [ResetControl.bridgePowerDown, ResetControl.hot]
    hold := .microseconds 150 }
  regions := .mapped regionOffset
  outboundRegions := 16
  gpioBase := gpioBase
  phyTuning := []
  msi := none
  linkUpTimeout := .milliseconds 100
  retrains := false
  decodedBits := fun index => if index < wideControllers then 40 else 39

end Bs1000

namespace Soc

def all : List Soc := [Bm1000.soc, Bs1000.soc]

def find? (name : String) : Option Soc := all.find? (·.name == name)

end Soc

end RootComplex
