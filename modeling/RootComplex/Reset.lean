import RootComplex.Outbound
import RootComplex.Phy
import RootComplex.Port

/-! Reset and configuration of a port, up to the start of link training. What fails on
the way is reported and does not stop it. -/

namespace RootComplex

structure ResetReport where
  resetDoneTimeout : Bool
  phyTuningFailed : Bool
  windowFailures : Nat
  deriving DecidableEq, Repr

def ResetReport.text (r : ResetReport) : String :=
  "SequencerReport \x7b reset_done_timeout: " ++ Text.bool r.resetDoneTimeout ++
    ", phy_tuning_failed: " ++ Text.bool r.phyTuningFailed ++
    ", window_failures: " ++ toString r.windowFailures ++ " \x7d"

def recoveryPulse : Duration := .milliseconds 1

namespace Port

def lanes (p : Port) : Nat := p.controller.laneCount p.soc

def resetRegister (p : Port) : Address := p.control p.soc.control.reset

/-- Holds the whole bundle in reset, then releases it with the bits held since
power-on. -/
def cycleReset (p : Port) : Program Unit := do
  let bundle := p.soc.reset.bundle p.lanes
  Program.modify p.resetRegister (· ||| bundle)
  Program.stall p.soc.reset.hold
  Program.modify p.resetRegister (· &&& ~~~(bundle ||| p.soc.reset.releaseExtra))

/-- Polls until the core says that it left reset; false if it never does. -/
def pollResetDone (p : Port) (done : ResetDone) : Nat → Program Bool
  | 0 => pure false
  | polls + 1 => do
    let status ← Program.read (p.control done.offset)
    if status &&& done.done ≠ 0 then pure true
    else
      Program.stall done.interval
      pollResetDone p done polls

/-- The status that goes with the warning is read only if someone listens. -/
def warnResetDone (p : Port) (done : ResetDone) : Program Unit := do
  if ← Program.listens .warn then
    let status ← Program.read (p.control done.offset)
    Program.report ⟨.warn, "reset completion not reported",
      [p.label, ("status", toString status.toNat)]⟩

/-- True if the core should have said that it left reset and did not. -/
def awaitResetDone (p : Port) : Program Bool :=
  match p.soc.control.resetDone with
  | none => pure false
  | some done => do
    if ← p.pollResetDone done done.polls then pure false
    else
      p.warnResetDone done
      pure true

def tunePhy (p : Port) : Program Bool := do
  if p.soc.phyTuning.isEmpty then pure false
  else
    match ← Phy.tune p.controller.dbi (Phy.laneMask p.lanes) p.soc.phyTuning with
    | .ok () => pure false
    | .error e =>
      Program.report ⟨.warn, "phy tuning abandoned", [p.label, ("error", e.message)]⟩
      pure true

/-- Tags the port's message interrupts, if the chip does and the port has a number. -/
def routeMsi (p : Port) : Program Unit :=
  match p.soc.msi, p.controller.msiNumber with
  | some msi, some id => do
    Program.modify msi.register (msi.assign p.controller.index id)
    Program.report ⟨.debug, "msi translation enabled", [p.label, ("routing_id", toString id)]⟩
  | _, _ => pure ()

def programLanes (p : Port) (lanes : LaneCount) : Program Unit := do
  Program.modify (p.dbi PortLogic.portLinkControl)
    (PortLinkControl.linkCapable.set lanes.linkCapable)
  match lanes.predetermined? with
  | some n => Program.modify (p.dbi PortLogic.gen2Control) (Gen2Control.numOfLanes.set n)
  | none => pure ()
  Program.modify (p.dbi PortLogic.linkCapabilities) (LinkCapabilities.maxLinkWidth.set lanes.count)

/-- The class word of a bridge that keeps its revision. -/
def bridgeClassWord (v : Word) : Word := (ConfigHeader.bridgeClass <<< 8) ||| (v &&& 0xff)

def setReadOnlyWritable (p : Port) (writable : Bool) : Program Unit :=
  Program.modify (p.dbi PortLogic.miscControl1) (MiscControl1.readOnlyWriteEnable.put writable)

/-- Makes the port a bridge of its width. The read-only fields are writable only
meanwhile. -/
def describe (p : Port) : Program Unit := do
  p.setReadOnlyWritable true
  Program.modify (p.dbi ConfigHeader.classRevision) bridgeClassWord
  match p.controller.lanes with
  | some lanes => p.programLanes lanes
  | none => pure ()
  p.setReadOnlyWritable false

/-- Programs a list of windows and counts the refused ones. -/
def programWindows (p : Port) : List OutboundWindow → Program Nat
  | [] => pure 0
  | w :: rest => do
    match ← w.program p.soc p.controller.index p.controller.dbi with
    | .ok () => programWindows p rest
    | .error e =>
      Program.report ⟨.warn, "outbound window not programmed",
        [p.label, ("region", toString w.region), ("error", e.message)]⟩
      let failures ← programWindows p rest
      pure (failures + 1)

/-- Resets and configures the port and starts training, at the lowest speed first. -/
def configure (p : Port) : Program ResetReport := do
  p.setLtssm false
  p.assertPerst
  p.cycleReset
  let resetDoneTimeout ← p.awaitResetDone
  let phyTuningFailed ← p.tunePhy
  p.routeMsi
  p.describe
  p.deassertPerst
  let windowFailures ← p.programWindows p.controller.outboundWindows
  p.setTargetSpeed LinkSpeed.gen1.code
  p.setLtssm true
  let report : ResetReport := ⟨resetDoneTimeout, phyTuningFailed, windowFailures⟩
  Program.report ⟨.debug, "ltssm enabled", [p.label, ("report", report.text)]⟩
  pure report

/-- Restarts training after a pulse of PERST# and the core reset. -/
def pulseReset (p : Port) : Program Unit := do
  p.setLtssm false
  p.assertPerst
  Program.modify p.resetRegister (· ||| p.soc.reset.core)
  Program.stall recoveryPulse
  Program.modify p.resetRegister (· &&& ~~~p.soc.reset.core)
  p.deassertPerst
  p.setLtssm true

end Port

end RootComplex
