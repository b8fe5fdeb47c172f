import RootComplex.Register.Express

/-! Registers of the root port's own block: its PCI Express capability, the port
logic of the core and the link debug status word. -/

namespace RootComplex

namespace PortLogic

/-- Where the root port keeps its PCI Express capability. -/
def expressCapability : Nat := 0x70

def linkCapabilities : Nat := expressCapability + ExpressCapability.linkCapabilities
def linkControlStatus : Nat := expressCapability + ExpressCapability.linkControlStatus
def linkControlStatus2 : Nat := expressCapability + ExpressCapability.linkControlStatus2

def portLinkControl : Nat := 0x710
def gen2Control : Nat := 0x80C
def miscControl1 : Nat := 0x8BC

end PortLogic

namespace PortLinkControl

/-- The lanes the port may train on: one less than twice their number. -/
def linkCapable : Field 32 := .bits 16 6

def layout : Layout 32 where
  fields := [
    .flag "vendor_specific_dllp_request" (.bits 0 1),
    .flag "scramble_disable" (.bits 1 1),
    .flag "loopback_enable" (.bits 2 1),
    .flag "reset_assert" (.bits 3 1),
    .flag "dll_link_enable" (.bits 5 1),
    .flag "link_disable" (.bits 6 1),
    .flag "fast_link_mode" (.bits 7 1),
    .number "link_rate" (.bits 8 4),
    .number "link_capable" linkCapable]

end PortLinkControl

namespace Gen2Control

/-- Lane count used during configuration, at most sixteen. -/
def numOfLanes : Field 32 := .bits 8 5

def layout : Layout 32 where
  fields := [
    .number "fast_training_sequences" (.bits 0 8),
    .number "num_of_lanes" numOfLanes,
    .flag "direct_speed_change" (.bits 17 1)]

end Gen2Control

namespace MiscControl1

/-- Makes the read-only fields of the port writable. -/
def readOnlyWriteEnable : Field 32 := .bits 0 1

def layout : Layout 32 where
  fields := [.flag "dbi_ro_write_enable" readOnlyWriteEnable]

end MiscControl1

namespace LinkDebug

def ltssm : Field 32 := .bits 0 6
def physicalUp : Field 32 := .bits 6 1
def dataLinkUp : Field 32 := .bits 7 1

def layout : Layout 32 where
  fields := [
    .number "ltssm" ltssm,
    .flag "smlh_link_up" physicalUp,
    .flag "rdlh_link_up" dataLinkUp]

end LinkDebug

end RootComplex
