import RootComplex.Word
import RootComplex.Register.Layout

/-! The standard part of PCI Express: the configuration header, the addressing of
configuration space and the link registers of the PCI Express capability. -/

namespace RootComplex

namespace ConfigHeader

/-- Device ID in the high half, vendor ID in the low half. -/
def deviceVendor : Nat := 0x00
/-- Status in the high half, command in the low half. -/
def statusCommand : Nat := 0x04
/-- Class code above the revision byte. -/
def classRevision : Nat := 0x08
def capabilityPointer : Nat := 0x34
/-- Where the capability list of every function here begins. -/
def firstCapability : Nat := 0x40
def unclaimed : Word := BitVec.allOnes 32
/-- Vendor ID of a function that asks for the request to be retried. -/
def retryVendor : Nat := 0x0001
def bridgeClass : Word := 0x060400

/-- Byte offset of a register in a window whose address bits name bus, device and
function. Device and function have five and three bits. -/
def offset (bus device function register : Nat) : Nat :=
  (bus <<< 20) ||| ((device &&& 0x1f) <<< 15) ||| ((function &&& 0x7) <<< 12) |||
    (register &&& 0xfff)

end ConfigHeader

namespace Capability

def express : Nat := 0x10
/-- A list of four-byte entries from 0x40 to 0x100 has no more members. -/
def maxEntries : Nat := 48

end Capability

namespace ExpressCapability

/-! Offsets from the start of the capability. -/

def capabilities : Nat := 0x00
def deviceCapabilities : Nat := 0x04
def deviceControlStatus : Nat := 0x08
def linkCapabilities : Nat := 0x0C
/-- Link status in the high half, link control in the low half. -/
def linkControlStatus : Nat := 0x10
def linkCapabilities2 : Nat := 0x2C
/-- Link status 2 in the high half, link control 2 in the low half. -/
def linkControlStatus2 : Nat := 0x30

end ExpressCapability

inductive LinkSpeed where
  | gen1 | gen2 | gen3 | gen4 | gen5
  deriving DecidableEq, Repr

namespace LinkSpeed

/-- The number a speed field holds; the others are reserved. -/
def ofCode? : Nat → Option LinkSpeed
  | 1 => some gen1
  | 2 => some gen2
  | 3 => some gen3
  | 4 => some gen4
  | 5 => some gen5
  | _ => none

def code : LinkSpeed → Nat
  | gen1 => 1
  | gen2 => 2
  | gen3 => 3
  | gen4 => 4
  | gen5 => 5

def name : LinkSpeed → String
  | gen1 => "Gen1"
  | gen2 => "Gen2"
  | gen3 => "Gen3"
  | gen4 => "Gen4"
  | gen5 => "Gen5"

def rate : LinkSpeed → String
  | gen1 => "2.5 GT/s"
  | gen2 => "5.0 GT/s"
  | gen3 => "8.0 GT/s"
  | gen4 => "16.0 GT/s"
  | gen5 => "32.0 GT/s"

theorem ofCode?_eq_some {n : Nat} {s : LinkSpeed} : ofCode? n = some s ↔ n = s.code := by
  constructor
  · intro h
    unfold ofCode? at h
    split at h <;> cases h <;> rfl
  · rintro rfl
    cases s <;> rfl

end LinkSpeed

namespace LinkCapabilities

def maxLinkSpeed : Field 32 := .bits 0 4
def maxLinkWidth : Field 32 := .bits 4 6

def layout : Layout 32 where
  fields := [
    .number "max_link_speed" maxLinkSpeed,
    .number "max_link_width" maxLinkWidth,
    .number "aspm_support" (.bits 10 2),
    .number "l0s_exit_latency" (.bits 12 3),
    .number "l1_exit_latency" (.bits 15 3),
    .flag "clock_power_management" (.bits 18 1),
    .flag "surprise_down_error_reporting" (.bits 19 1),
    .flag "data_link_layer_link_active_reporting" (.bits 20 1),
    .flag "link_bandwidth_notification_capability" (.bits 21 1),
    .flag "aspm_optionality_compliance" (.bits 22 1),
    .number "port_number" (.bits 24 8)]

end LinkCapabilities

namespace LinkControl

def retrainLink : Field 16 := .bits 5 1

def layout : Layout 16 where
  fields := [
    .number "aspm_control" (.bits 0 2),
    .number "read_completion_boundary" (.bits 3 1),
    .flag "link_disable" (.bits 4 1),
    .flag "retrain_link" retrainLink,
    .flag "common_clock_configuration" (.bits 6 1),
    .flag "extended_synch" (.bits 7 1),
    .flag "enable_clock_power_management" (.bits 8 1),
    .flag "hardware_autonomous_width_disable" (.bits 9 1),
    .flag "link_bandwidth_management_interrupt_enable" (.bits 10 1),
    .flag "link_autonomous_bandwidth_interrupt_enable" (.bits 11 1)]

end LinkControl

namespace LinkStatus

def currentLinkSpeed : Field 16 := .bits 0 4
def negotiatedLinkWidth : Field 16 := .bits 4 6
def linkTraining : Field 16 := .bits 11 1
def dataLinkLayerLinkActive : Field 16 := .bits 13 1

def layout : Layout 16 where
  fields := [
    .number "current_link_speed" currentLinkSpeed,
    .number "negotiated_link_width" negotiatedLinkWidth,
    .flag "link_training" linkTraining,
    .flag "slot_clock_configuration" (.bits 12 1),
    .flag "data_link_layer_link_active" dataLinkLayerLinkActive,
    .flag "link_bandwidth_management_status" (.bits 14 1),
    .flag "link_autonomous_bandwidth_status" (.bits 15 1)]

end LinkStatus

namespace LinkControl2

def targetLinkSpeed : Field 16 := .bits 0 4

def layout : Layout 16 where
  fields := [
    .number "target_link_speed" targetLinkSpeed,
    .flag "enter_compliance" (.bits 4 1),
    .flag "hardware_autonomous_speed_disable" (.bits 5 1),
    .number "selectable_de_emphasis" (.bits 6 1),
    .number "transmit_margin" (.bits 7 3),
    .flag "enter_modified_compliance" (.bits 10 1),
    .flag "compliance_sos" (.bits 11 1),
    .number "compliance_preset_de_emphasis" (.bits 12 4)]

end LinkControl2

def Word.control (v : Word) : BitVec 16 := v.setWidth 16

def Word.status (v : Word) : BitVec 16 := (v >>> 16).setWidth 16

/-- A word that writes the control half only. Status bits are cleared by writing
one to them, so the status half stays zero. -/
def Word.ofControl (control : BitVec 16) : Word := control.setWidth 32

end RootComplex
