import Mathlib.Data.List.Nodup
import Mathlib.Data.List.Pairwise
import RootComplex.Host
import RootComplex.Proofs.Path

/-! # Footprints

The registers that bring-up and retraining touch on behalf of one port, stage by stage.
A port has registers of its own, in its root port block, its control block and its config
window, and shares the GPIO port of the PERST# lines and the register that tags message
interrupts. -/

namespace RootComplex

open Program

/-- From the first capability header to the link capabilities of the last capability. -/
def Capability.offsets : List Nat := (List.range 51).map fun i => 0x40 + 4 * i

namespace Port

/-! ## The registers of a port -/

def ltssmRegister (p : Port) : Address := p.control p.soc.control.ltssmControl

def linkStatusRegister (p : Port) : Address := p.control p.soc.control.linkStatus

/-- Where the core says that it left reset. -/
def doneRegisters (p : Port) : List Address :=
  p.soc.control.resetDone.toList.map fun poll => p.control poll.offset

def phyRegisters (p : Port) : List Address :=
  if p.soc.phyTuning.isEmpty then []
  else [PhyPort.lanes, PhyPort.address, PhyPort.data, PhyPort.status].map p.dbi

def laneRegisters (p : Port) (lanes : LaneCount) : List Address :=
  [p.dbi PortLogic.portLinkControl, p.dbi PortLogic.linkCapabilities] ++
    lanes.predetermined?.toList.map fun _ => p.dbi PortLogic.gen2Control

/-- The registers that make the port a bridge of its width. -/
def identityRegisters (p : Port) : List Address :=
  [p.dbi PortLogic.miscControl1, p.dbi ConfigHeader.classRevision] ++
    p.controller.lanes.toList.flatMap p.laneRegisters

/-- The registers of a region whose block is at `block`. -/
def regionRegisters (regs : Translation.RegionRegisters) (block : Address) : List Address :=
  [regs.control1, regs.control2, regs.lowerBase, regs.upperBase, regs.limit, regs.lowerTarget,
    regs.upperTarget, regs.upperLimit].map block.at

/-- The registers of the translation unit that the port's windows need. -/
def unitRegisters (p : Port) : List Address :=
  match p.soc.regions with
  | .viewport => p.dbi Translation.viewport ::
      regionRegisters Translation.viewportRegisters p.controller.dbi
  | .mapped _ => p.controller.outboundWindows.flatMap fun w =>
      regionRegisters Translation.mappedRegisters
        (OutboundWindow.block p.soc p.controller.dbi w.region)

def linkRegisters (p : Port) : List Address :=
  [p.dbi PortLogic.linkControlStatus, p.dbi PortLogic.linkControlStatus2]

/-- The ID registers of devices zero and one on the root bus. -/
def probeRegisters (p : Port) : List Address :=
  [p.config ConfigHeader.deviceVendor,
    p.config (ConfigHeader.offset 0 1 0 ConfigHeader.deviceVendor)]

def capabilityRegisters (p : Port) : List Address :=
  if p.soc.retrains then Capability.offsets.map p.config else []

/-- The registers of the own blocks but the LTSSM control register, by what they are for. -/
def quietGroups (p : Port) : List (List Address) :=
  [[p.resetRegister], [p.linkStatusRegister], p.doneRegisters, p.linkRegisters,
    p.identityRegisters, p.phyRegisters, p.unitRegisters, p.probeRegisters,
    p.capabilityRegisters]

/-- The registers of the port's own blocks. -/
def ownRegisters (p : Port) : List Address := p.ltssmRegister :: p.quietGroups.flatten

/-- The GPIO registers of the port's PERST# line. -/
def lineRegisters (p : Port) : List Address :=
  p.perst?.toList.flatMap fun line =>
    [line.gpio.at GpioPort.data, line.gpio.at GpioPort.direction]

def msiRegisters (p : Port) : List Address :=
  match p.soc.msi, p.controller.msiNumber with
  | some msi, some _ => [msi.register]
  | _, _ => []

/-- What training uses, and the look at the device behind a new link. -/
def trainingRegisters (p : Port) : List Address :=
  [p.ltssmRegister, p.linkStatusRegister, p.resetRegister] ++ p.linkRegisters ++
    p.probeRegisters ++ p.lineRegisters

/-- What one attempt to retrain the link uses. -/
def attemptRegisters (p : Port) : List Address := p.linkStatusRegister :: p.linkRegisters

/-- What a retrain uses. -/
def retrainRegisters (p : Port) : List Address :=
  p.ltssmRegister :: (p.attemptRegisters ++ p.capabilityRegisters)

/-- The registers that the port may share with others. -/
def sharedRegisters (p : Port) : List Address := p.lineRegisters ++ p.msiRegisters

/-- Everything that the port uses beside its LTSSM control register. -/
def quietRegisters (p : Port) : List Address := p.quietGroups.flatten ++ p.sharedRegisters

/-- Everything that the port uses. -/
def registers (p : Port) : List Address := p.ltssmRegister :: p.quietRegisters

end Port

namespace Topology

/-- The registers that the ports share, each once. -/
def sharedRegisters (t : Topology) : List Address :=
  (t.controllers.flatMap fun c => Port.sharedRegisters ⟨t.soc, c⟩).eraseDups

/-- All registers that the engine touches on the topology. -/
def registers (t : Topology) : List Address :=
  (t.controllers.flatMap fun c => Port.ownRegisters ⟨t.soc, c⟩) ++ t.sharedRegisters

/-- No two of them are at one address. -/
def RegistersDistinct (t : Topology) : Prop := t.registers.Nodup

instance (t : Topology) : Decidable t.RegistersDistinct :=
  inferInstanceAs (Decidable t.registers.Nodup)

end Topology

namespace Program.Within

variable {α : Type} {p : Port} {q : Program α} {regs : List Address}

/-- A program within one group of quiet registers is quiet. -/
theorem quiet (h : q.Within regs) (hg : regs ∈ p.quietGroups) : q.Within p.quietRegisters :=
  h.mono fun _ ha => List.mem_append_left _ (List.mem_flatten_of_mem hg ha)

theorem quiet_of_line (h : q.Within p.lineRegisters) : q.Within p.quietRegisters :=
  h.mono fun _ ha => List.mem_append_right _ (List.mem_append_left _ ha)

theorem quiet_of_msi (h : q.Within p.msiRegisters) : q.Within p.quietRegisters :=
  h.mono fun _ ha => List.mem_append_right _ (List.mem_append_right _ ha)

end Program.Within

/-! ## The PHY port -/

namespace Phy

variable {regs : List Address} {dbi : Address}

/-- The registers of the indirect port are in a footprint. -/
def PortIn (dbi : Address) (regs : List Address) : Prop :=
  [PhyPort.lanes, PhyPort.address, PhyPort.data, PhyPort.status].map dbi.at ⊆ regs

theorem await_within (h : PortIn dbi regs) (address polls : Nat) (last : Word) :
    (await dbi address polls last).Within regs := by
  induction polls generalizing last with
  | zero => exact .done _
  | succ polls ih =>
    refine .bind (.read (h (by simp))) fun status => ?_
    split
    · exact .done _
    · exact .bind (.stall _) fun _ => ih status

theorem select_within (h : PortIn dbi regs) (lanes : Word) (address : Nat) (writes : Bool) :
    (select dbi lanes address writes).Within regs :=
  .bind (.write _ (h (by simp))) fun _ => .write _ (h (by simp))

theorem read_within (h : PortIn dbi regs) (lanes : Word) (address : Nat) :
    (read dbi lanes address).Within regs := by
  refine (select_within h lanes address false).bind fun _ =>
    (await_within h address _ _).bind fun result => ?_
  cases result with
  | error e => exact .done _
  | ok _ => exact .bind (.read (h (by simp))) fun _ => .done _

theorem write_within (h : PortIn dbi regs) (lanes : Word) (address : Nat) (value : Word) :
    (write dbi lanes address value).Within regs := by
  refine (select_within h lanes address true).bind fun _ =>
    (await_within h address _ _).bind fun result => ?_
  cases result with
  | error e => exact .done _
  | ok _ => exact .bind (.write _ (h (by simp))) fun _ => await_within h address _ _

theorem adjust_within (h : PortIn dbi regs) (lanes : Word) (t : PhyTuning) :
    (adjust dbi lanes t).Within regs := by
  refine (read_within h lanes t.address).bind fun result => ?_
  cases result with
  | error e => exact .done _
  | ok current =>
    refine (write_within h lanes t.address _).bind fun result => ?_
    cases result with
    | error e => exact .done _
    | ok _ => exact .bind (.report _) fun _ => .done _

theorem tune_within (h : PortIn dbi regs) (lanes : Word) (table : List PhyTuning) :
    (tune dbi lanes table).Within regs := by
  induction table with
  | nil => exact .done _
  | cons t rest ih =>
    refine (adjust_within h lanes t).bind fun result => ?_
    cases result with
    | error e => exact .done _
    | ok _ => exact ih

end Phy

/-! ## The capability list -/

namespace Capability

variable {config : Address} {wanted entries offset found : Nat} {path : List Exchange}

/-- Where a header may be. -/
structure IsHeader (offset : Nat) : Prop where
  first : 0x40 ≤ offset
  last : offset ≤ 0xFC
  aligned : offset % 4 = 0

theorem next_le (header : Word) : next header ≤ 0xFC := Nat.and_le_right

theorem next_mod (header : Word) : next header % 4 = 0 := by
  have h := Nat.and_mod_two_pow (a := (header >>> 8).toNat) (b := 0xFC) (n := 2)
  simpa [next] using h

theorem IsHeader.mem (h : IsHeader offset) : offset ∈ offsets := by
  obtain ⟨hfirst, hlast, haligned⟩ := h
  exact List.mem_map.mpr ⟨(offset - 0x40) / 4, List.mem_range.mpr (by omega), by omega⟩

/-- The link capabilities of a header are in reach as well. -/
theorem IsHeader.link_mem (h : IsHeader offset) :
    offset + ExpressCapability.linkCapabilities ∈ offsets := by
  obtain ⟨hfirst, hlast, haligned⟩ := h
  simp only [ExpressCapability.linkCapabilities]
  exact List.mem_map.mpr ⟨(offset - 0x40) / 4 + 3, List.mem_range.mpr (by omega), by omega⟩

theorem findFrom_within (hlast : offset ≤ 0xFC) (haligned : offset % 4 = 0) :
    (findFrom config wanted entries offset).Within (offsets.map config.at) := by
  induction entries generalizing offset with
  | zero => exact .done none
  | succ entries ih =>
    unfold findFrom
    split
    · exact .done none
    · rename_i hfirst
      have hheader : IsHeader offset := ⟨Nat.le_of_not_lt hfirst, hlast, haligned⟩
      refine .bind (.read (List.mem_map_of_mem hheader.mem)) fun header => ?_
      split
      · exact .done none
      · split
        · exact .done _
        · exact ih (next_le header) (next_mod header)

theorem isHeader_of_findFrom (hlast : offset ≤ 0xFC) (haligned : offset % 4 = 0)
    (h : Runs (findFrom config wanted entries offset) path (some found)) : IsHeader found := by
  induction entries generalizing offset path with
  | zero => cases (runs_done.mp h).2
  | succ entries ih =>
    unfold findFrom at h
    split at h
    · cases (runs_done.mp h).2
    · rename_i hfirst
      obtain ⟨header, rest, rfl, h₁⟩ := runs_read_bind.mp h
      split at h₁
      · cases (runs_done.mp h₁).2
      · split at h₁
        · cases (runs_done.mp h₁).2
          exact ⟨Nat.le_of_not_lt hfirst, hlast, haligned⟩
        · exact ih (next_le header) (next_mod header) h₁

theorem isHeader_of_find (h : Runs (find config wanted) path (some found)) : IsHeader found :=
  isHeader_of_findFrom (by decide) (by decide) h

end Capability

namespace Port

variable {p : Port}

/-! ## Reset and configuration -/

theorem assertPerst_within : p.assertPerst.Within p.lineRegisters := by
  unfold assertPerst lineRegisters
  cases p.perst? with
  | none => exact .done ()
  | some line => exact (Within.modify _ (by simp)).bind fun _ => .modify _ (by simp)

theorem deassertPerst_within : p.deassertPerst.Within p.lineRegisters := by
  unfold deassertPerst lineRegisters
  cases p.perst? with
  | none => exact .done ()
  | some line => exact .modify _ (by simp)

theorem cycleReset_within : p.cycleReset.Within [p.resetRegister] :=
  .bind (.modify _ List.mem_cons_self) fun _ =>
    .bind (.stall _) fun _ => .modify _ List.mem_cons_self

theorem pollResetDone_within (poll : ResetDone) (polls : Nat) :
    (p.pollResetDone poll polls).Within [p.control poll.offset] := by
  induction polls with
  | zero => exact .done false
  | succ polls ih =>
    refine .bind (.read List.mem_cons_self) fun status => ?_
    split
    · exact .done true
    · exact .bind (.stall _) fun _ => ih

theorem warnResetDone_within (poll : ResetDone) :
    (p.warnResetDone poll).Within [p.control poll.offset] := by
  refine .bind (.listens _) fun heard => ?_
  split
  · exact .bind (.read List.mem_cons_self) fun _ => .report _
  · exact .done ()

theorem awaitResetDone_within : p.awaitResetDone.Within p.doneRegisters := by
  unfold awaitResetDone doneRegisters
  cases p.soc.control.resetDone with
  | none => exact .done false
  | some poll =>
    refine .bind (pollResetDone_within poll poll.polls) fun finished => ?_
    split
    · exact .done false
    · exact (warnResetDone_within poll).bind fun _ => .done true

theorem routeMsi_within : p.routeMsi.Within p.msiRegisters := by
  unfold routeMsi msiRegisters
  cases p.soc.msi with
  | none => exact .done ()
  | some msi =>
    cases p.controller.msiNumber with
    | none => exact .done ()
    | some id => exact .bind (.modify _ List.mem_cons_self) fun _ => .report _

theorem programLanes_within (lanes : LaneCount) :
    (p.programLanes lanes).Within (p.laneRegisters lanes) := by
  unfold programLanes laneRegisters
  cases lanes.predetermined? with
  | none => exact .bind (.modify _ (by simp)) fun _ => .modify _ (by simp)
  | some n =>
    exact .bind (.modify _ (by simp)) fun _ =>
      .bind (.modify _ (by simp)) fun _ => .modify _ (by simp)

theorem setReadOnlyWritable_within (writable : Bool) :
    (p.setReadOnlyWritable writable).Within p.identityRegisters :=
  .modify _ (by simp [identityRegisters])

theorem describe_within : p.describe.Within p.identityRegisters := by
  unfold describe
  refine (setReadOnlyWritable_within true).bind fun _ =>
    .bind (.modify _ (by simp [identityRegisters])) fun _ => ?_
  cases hl : p.controller.lanes with
  | none => exact setReadOnlyWritable_within false
  | some lanes =>
    refine ((programLanes_within lanes).mono ?_).bind fun _ => setReadOnlyWritable_within false
    intro a ha
    simp [identityRegisters, hl, ha]

theorem tunePhy_within : p.tunePhy.Within p.phyRegisters := by
  unfold tunePhy phyRegisters
  split
  · exact .done false
  · refine (Phy.tune_within (List.Subset.refl _) _ _).bind fun result => ?_
    cases result with
    | error e => exact .bind (.report _) fun _ => .done true
    | ok _ => exact .done false

/-! ## The translation unit -/

theorem writeWindow_within {w : OutboundWindow} (hw : w ∈ p.controller.outboundWindows) :
    (w.write p.soc p.controller.index p.controller.dbi).Within p.unitRegisters := by
  have hregs : regionRegisters (OutboundWindow.registers p.soc)
      (OutboundWindow.block p.soc p.controller.dbi w.region) ⊆ p.unitRegisters := by
    intro a ha
    unfold unitRegisters
    unfold OutboundWindow.registers at ha
    split
    · rename_i hr
      rw [hr] at ha
      rw [OutboundWindow.block, hr] at ha
      exact List.mem_cons_of_mem _ ha
    · rename_i hr
      simp only [hr] at ha
      exact List.mem_flatMap.mpr ⟨w, hw, ha⟩
  have hselect : (OutboundWindow.select p.soc p.controller.dbi w.region).Within
      p.unitRegisters := by
    unfold OutboundWindow.select unitRegisters
    cases p.soc.regions with
    | viewport => exact .write _ List.mem_cons_self
    | mapped _ => exact .done ()
  refine .bind (.report _) fun _ => .bind .barrier fun _ => hselect.bind fun _ => ?_
  refine .bind (.write _ (hregs ?_)) fun _ => .bind (.write _ (hregs ?_)) fun _ =>
    .bind (.write _ (hregs ?_)) fun _ => .bind (.write _ (hregs ?_)) fun _ =>
    .bind (.write _ (hregs ?_)) fun _ => .bind (.write _ (hregs ?_)) fun _ =>
    .bind (.write _ (hregs ?_)) fun _ => .bind (.write _ (hregs ?_)) fun _ =>
    .write _ (hregs ?_)
  all_goals simp [regionRegisters]

theorem programWindows_within {windows : List OutboundWindow}
    (hw : windows ⊆ p.controller.outboundWindows) :
    (p.programWindows windows).Within p.unitRegisters := by
  induction windows with
  | nil => exact .done 0
  | cons w rest ih =>
    obtain ⟨hmem, hrest⟩ := List.cons_subset.mp hw
    have hprogram : (w.program p.soc p.controller.index p.controller.dbi).Within
        p.unitRegisters := by
      unfold OutboundWindow.program
      split
      · exact .done _
      · exact (writeWindow_within hmem).bind fun _ => .done _
    refine hprogram.bind fun result => ?_
    cases result with
    | ok _ => exact ih hrest
    | error e => exact .bind (.report _) fun _ => (ih hrest).bind fun _ => .done _

/-! ## The link -/

theorem setTargetSpeed_within (speed : Nat) : (p.setTargetSpeed speed).Within p.linkRegisters :=
  .modify _ (by simp [linkRegisters])

theorem requestRetrain_within : p.requestRetrain.Within p.linkRegisters :=
  .modify _ (by simp [linkRegisters])

theorem linkStatus_within : p.linkStatus.Within p.linkRegisters :=
  .bind (.read (by simp [linkRegisters])) fun _ => .done _

theorem linkDebug_within : p.linkDebug.Within [p.linkStatusRegister] := .read List.mem_cons_self

theorem watch_within (found : Word → Bool) (left : Nat) (s : Sighting) :
    (p.watch found left s).Within [p.linkStatusRegister] := by
  induction left generalizing s with
  | zero => exact .done s
  | succ left ih =>
    unfold watch
    split
    · exact .done s
    · exact .bind (.stall _) fun _ => linkDebug_within.bind fun debug => ih _

theorem reportUp_within (s : Sighting) (recovered : Bool) :
    (p.reportUp s recovered).Within p.linkRegisters :=
  linkStatus_within.bind fun _ => .bind (.report _) fun _ => .done _

theorem pollId_within (left polls : Nat) (id : Word) :
    (p.pollId left polls id).Within p.probeRegisters := by
  have hid : p.config ConfigHeader.deviceVendor ∈ p.probeRegisters := List.mem_cons_self
  induction left generalizing polls id with
  | zero => exact .done _
  | succ left ih =>
    unfold pollId
    split
    · exact .bind (.write _ hid) fun _ => .bind (.stall _) fun _ =>
        .bind (.read hid) fun id => ih _ id
    · exact .done _

theorem probeFilter_within : p.probeFilter.Within p.probeRegisters :=
  .bind (.read (by simp [probeRegisters])) fun _ => (pollId_within _ _ _).bind fun _ =>
    .bind (.read (by simp [probeRegisters])) fun _ => .bind (.report _) fun _ => .done _

/-! ## Training -/

/-- What the search for a link uses. -/
def searchRegisters (p : Port) : List Address :=
  [p.ltssmRegister, p.linkStatusRegister, p.resetRegister] ++ p.linkRegisters ++ p.lineRegisters

theorem searchRegisters_subset : p.searchRegisters ⊆ p.trainingRegisters := by
  intro a ha
  simp only [searchRegisters, trainingRegisters, List.mem_append] at ha ⊢
  grind

theorem setLtssm_within (enable : Bool) : (p.setLtssm enable).Within p.searchRegisters :=
  .modify _ (by simp [searchRegisters, ltssmRegister])

theorem pulseReset_within : p.pulseReset.Within p.searchRegisters := by
  have hline : p.lineRegisters ⊆ p.searchRegisters := List.subset_append_right _ _
  exact (setLtssm_within false).bind fun _ => (assertPerst_within.mono hline).bind fun _ =>
    .bind (.modify _ (by simp [searchRegisters])) fun _ => .bind (.stall _) fun _ =>
    .bind (.modify _ (by simp [searchRegisters])) fun _ =>
    (deassertPerst_within.mono hline).bind fun _ => setLtssm_within true

theorem conclude_within (s : Sighting) (recovered : Bool) :
    (p.conclude s recovered).Within p.searchRegisters := by
  unfold conclude
  split
  · exact (reportUp_within s recovered).mono fun a ha => by simp [searchRegisters, ha]
  · exact (setLtssm_within false).bind fun _ => .bind (.report _) fun _ => .done _

theorem train_searches : p.train.Within p.searchRegisters := by
  have hlook : [p.linkStatusRegister] ⊆ p.searchRegisters := by simp [searchRegisters]
  have hwatch (found : Word → Bool) (left : Nat) (s : Sighting) :=
    (watch_within (p := p) found left s).mono hlook
  have hdebug := linkDebug_within.mono hlook
  refine hdebug.bind fun debug => (hwatch _ _ _).bind fun s => ?_
  split
  · refine .bind (.report _) fun _ => (hwatch _ _ _).bind fun t => ?_
    split
    · exact .bind (.report _) fun _ => pulseReset_within.bind fun _ =>
        hdebug.bind fun debug => (hwatch _ _ _).bind fun t => conclude_within t true
    · exact conclude_within t false
  · exact (setLtssm_within false).bind fun _ => .bind (.report _) fun _ => .done _

theorem train_within : p.train.Within p.trainingRegisters :=
  train_searches.mono searchRegisters_subset

/-! ## Retraining -/

theorem find_within (hr : p.soc.retrains = true) (wanted : Nat) :
    (Capability.find p.controller.config wanted).Within p.capabilityRegisters := by
  rw [capabilityRegisters, if_pos hr]
  exact Capability.findFrom_within (by decide) (by decide)

theorem readLink_within (hr : p.soc.retrains = true) {found : Nat} (h : Capability.IsHeader found) :
    (Program.read (p.config (found + ExpressCapability.linkCapabilities))).Within
      p.capabilityRegisters := by
  rw [capabilityRegisters, if_pos hr]
  exact .read (List.mem_map_of_mem h.link_mem)

theorem awaitRetrained_within (policy : RetrainPolicy) (polls : Nat) (waited : Duration)
    (ltssm : Ltssm) : (p.awaitRetrained policy polls waited ltssm).Within p.attemptRegisters := by
  induction polls generalizing waited ltssm with
  | zero =>
    unfold awaitRetrained
    split <;> exact .done _
  | succ polls ih =>
    have hdebug : p.linkDebug.Within p.attemptRegisters := .read List.mem_cons_self
    have hstatus : p.linkStatus.Within p.attemptRegisters :=
      linkStatus_within.mono (List.subset_cons_self _ _)
    unfold awaitRetrained
    split
    · refine .bind (.stall _) fun _ => hdebug.bind fun debug => hstatus.bind fun status => ?_
      split
      · exact .done _
      · split
        · exact .done _
        · exact ih _ _
    · exact .done _

theorem retrainOnce_within (policy : RetrainPolicy) (patience : Nat) :
    (p.retrainOnce policy patience).Within p.attemptRegisters :=
  (requestRetrain_within.mono (List.subset_cons_self _ _)).bind fun _ =>
    .bind (.read List.mem_cons_self) fun _ => awaitRetrained_within _ _ _ _

theorem attemptRegisters_quiet : p.attemptRegisters ⊆ p.quietRegisters := by
  intro a ha
  simp only [attemptRegisters, List.mem_cons] at ha
  simp only [quietRegisters, quietGroups, List.flatten_cons, List.mem_append, List.mem_cons]
  grind

theorem attemptRegisters_subset : p.attemptRegisters ⊆ p.retrainRegisters := fun _ ha =>
  List.mem_cons_of_mem _ (List.mem_append_left _ ha)

theorem retrainFailed_within (target attempts : Nat) (failure : RetrainFailure) :
    (p.retrainFailed target attempts failure).Within p.retrainRegisters :=
  .bind (.modify _ List.mem_cons_self) fun _ => .bind (.report _) fun _ => .done _

theorem attemptRetrain_within (policy : RetrainPolicy) (patience before target extra made : Nat) :
    (p.attemptRetrain policy patience before target extra made).Within p.retrainRegisters := by
  have once := (retrainOnce_within (p := p) policy patience).mono attemptRegisters_subset
  have report (speed attempts : Nat) :
      (p.reportRetrained before speed target attempts).Within p.retrainRegisters :=
    .bind (.report _) fun _ => .done _
  induction extra generalizing made with
  | zero =>
    unfold attemptRetrain
    refine once.bind fun result => ?_
    match result with
    | none => exact .done _
    | some (.error failure) => exact retrainFailed_within _ _ _
    | some (.ok speed) =>
      dsimp only
      split <;> exact report _ _
  | succ extra ih =>
    unfold attemptRetrain
    refine once.bind fun result => ?_
    match result with
    | none => exact .done _
    | some (.error failure) => exact retrainFailed_within _ _ _
    | some (.ok speed) =>
      dsimp only
      split
      · exact .bind (.report _) fun _ => .bind (.stall _) fun _ => ih _
      · exact report _ _

theorem retrain_within (hr : p.soc.retrains = true) (policy : RetrainPolicy) (patience : Nat) :
    (p.retrain policy patience).Within p.retrainRegisters := by
  have capability : p.capabilityRegisters ⊆ p.retrainRegisters := fun a ha =>
    List.mem_cons_of_mem _ (List.mem_append_right _ ha)
  have link : p.linkRegisters ⊆ p.retrainRegisters :=
    List.Subset.trans (List.subset_cons_self _ _) attemptRegisters_subset
  refine ((find_within hr _).mono capability).bind_of fun found path h => ?_
  cases found with
  | none => exact .bind (.report _) fun _ => .done _
  | some offset =>
    have hlink := readLink_within hr (Capability.isHeader_of_find h)
    refine (hlink.mono capability).bind fun _ => (linkStatus_within.mono link).bind fun _ => ?_
    dsimp only
    split
    · exact .bind (.report _) fun _ => .done _
    · exact ((setTargetSpeed_within _).mono link).bind fun _ => attemptRetrain_within _ _ _ _ _ _

end Port

/-! ## Registers apart -/

/-- The registers of the chip that ports may share. -/
def Soc.sharedRegisters (soc : Soc) : List Address :=
  [soc.gpioBase.at GpioPort.data, soc.gpioBase.at GpioPort.direction] ++
    soc.msi.toList.map (·.register)

theorem Soc.nodup_sharedRegisters {soc : Soc} (h : soc ∈ Soc.all) : soc.sharedRegisters.Nodup := by
  revert soc
  decide

theorem Port.lineRegisters_sublist {p : Port} : p.lineRegisters.Sublist
    [p.soc.gpioBase.at GpioPort.data, p.soc.gpioBase.at GpioPort.direction] := by
  unfold lineRegisters perst?
  cases p.controller.resetLine with
  | none => exact List.nil_sublist _
  | some line => exact List.Sublist.refl _

theorem Port.msiRegisters_sublist {p : Port} :
    p.msiRegisters.Sublist (p.soc.msi.toList.map (·.register)) := by
  unfold msiRegisters
  cases p.soc.msi with
  | none => exact List.nil_sublist _
  | some msi =>
    cases p.controller.msiNumber with
    | none => exact List.nil_sublist _
    | some id => exact List.Sublist.refl _

theorem Port.sharedRegisters_sublist {p : Port} :
    p.sharedRegisters.Sublist p.soc.sharedRegisters :=
  List.Sublist.append lineRegisters_sublist msiRegisters_sublist

theorem Port.linkRegisters_own {p : Port} : p.linkRegisters ⊆ p.ownRegisters := fun _ ha =>
  List.mem_cons_of_mem _ (List.mem_flatten_of_mem (by simp [quietGroups]) ha)

theorem Port.identityRegisters_own {p : Port} : p.identityRegisters ⊆ p.ownRegisters := fun _ ha =>
  List.mem_cons_of_mem _ (List.mem_flatten_of_mem (by simp [quietGroups]) ha)

namespace Topology

variable {t : Topology} {c d : Controller} {a : Address}

theorem RegistersDistinct.own (h : t.RegistersDistinct) :
    (∀ c ∈ t.controllers, (Port.ownRegisters ⟨t.soc, c⟩).Nodup) ∧
    ∀ c ∈ t.controllers, ∀ d ∈ t.controllers, c ≠ d →
      List.Disjoint (Port.ownRegisters ⟨t.soc, c⟩) (Port.ownRegisters ⟨t.soc, d⟩) := by
  obtain ⟨hown, hpair⟩ := List.nodup_flatMap.mp (List.nodup_append.mp h).1
  have symm : Std.Symm (Function.onFun List.Disjoint fun c => Port.ownRegisters ⟨t.soc, c⟩) :=
    ⟨fun _ _ hdis _ ha hb => hdis hb ha⟩
  exact ⟨hown, fun c hc d hd hne => hpair.forall hc hd hne⟩

theorem RegistersDistinct.not_mem_shared (h : t.RegistersDistinct)
    (hc : c ∈ t.controllers) (hd : d ∈ t.controllers)
    (ha : a ∈ Port.ownRegisters ⟨t.soc, c⟩) : a ∉ Port.sharedRegisters ⟨t.soc, d⟩ := by
  intro hs
  have hown : a ∈ t.controllers.flatMap fun c => Port.ownRegisters ⟨t.soc, c⟩ :=
    List.mem_flatMap.mpr ⟨c, hc, ha⟩
  have hshared : a ∈ t.sharedRegisters :=
    List.mem_eraseDups.mpr (List.mem_flatMap.mpr ⟨d, hd, hs⟩)
  exact (List.nodup_append.mp h).2.2 a hown a hshared rfl

theorem RegistersDistinct.disjoint_registers (h : t.RegistersDistinct) (hc : c ∈ t.controllers)
    (hd : d ∈ t.controllers) (hne : c ≠ d) :
    List.Disjoint (Port.ownRegisters ⟨t.soc, c⟩) (Port.registers ⟨t.soc, d⟩) := by
  intro a ha hm
  rw [Port.registers, Port.quietRegisters, ← List.cons_append] at hm
  rcases List.mem_append.mp hm with hm | hm
  · exact h.own.2 c hc d hd hne ha hm
  · exact h.not_mem_shared hc hd ha hm

theorem RegistersDistinct.not_mem_registers (h : t.RegistersDistinct)
    (hc : c ∈ t.controllers) (hd : d ∈ t.controllers) (hne : c.index ≠ d.index)
    (ha : a ∈ Port.ownRegisters ⟨t.soc, c⟩) : a ∉ Port.registers ⟨t.soc, d⟩ :=
  h.disjoint_registers hc hd (fun he => hne (he ▸ rfl)) ha

theorem registers_subset (hc : c ∈ t.controllers) : Port.registers ⟨t.soc, c⟩ ⊆ t.registers := by
  intro a ha
  rw [Port.registers, Port.quietRegisters, ← List.cons_append] at ha
  rcases List.mem_append.mp ha with ha | ha
  · exact List.mem_append_left _ (List.mem_flatMap.mpr ⟨c, hc, ha⟩)
  · exact List.mem_append_right _
      (List.mem_eraseDups.mpr (List.mem_flatMap.mpr ⟨c, hc, ha⟩))

/-- The registers of each port are apart as well, those included that it may share with
others. -/
theorem RegistersDistinct.nodup_registers (hs : t.soc ∈ Soc.all) (h : t.RegistersDistinct)
    (hc : c ∈ t.controllers) : (Port.registers ⟨t.soc, c⟩).Nodup := by
  have shared : (Port.sharedRegisters ⟨t.soc, c⟩).Nodup :=
    Port.sharedRegisters_sublist.nodup (Soc.nodup_sharedRegisters hs)
  rw [Port.registers, Port.quietRegisters, ← List.cons_append]
  refine List.nodup_append.mpr ⟨h.own.1 c hc, shared, ?_⟩
  rintro a ha b hb rfl
  exact h.not_mem_shared hc hc ha hb

/-- Training does not touch the translation unit of its port. -/
theorem RegistersDistinct.not_mem_training (h : t.RegistersDistinct) (hc : c ∈ t.controllers)
    (ha : a ∈ Port.unitRegisters ⟨t.soc, c⟩) : a ∉ Port.trainingRegisters ⟨t.soc, c⟩ := by
  have hown : a ∈ Port.ownRegisters ⟨t.soc, c⟩ :=
    List.mem_cons_of_mem _ (List.mem_flatten_of_mem (by simp [Port.quietGroups]) ha)
  have hline : a ∉ Port.lineRegisters ⟨t.soc, c⟩ := fun hm =>
    h.not_mem_shared hc hc hown (List.mem_append_left _ hm)
  have hn := h.own.1 c hc
  simp only [Port.ownRegisters, Port.quietGroups, List.flatten_cons, List.flatten_nil,
    List.nodup_cons, List.nodup_append, List.mem_append, List.mem_cons, not_or] at hn
  simp only [Port.trainingRegisters, List.mem_append, List.mem_cons, not_or]
  grind

end Topology

/-! ## Retraining of all ports -/

namespace Host

variable {soc : Soc} {policy : RetrainPolicy} {patience : Nat}

theorem retrainPort_within (hr : soc.retrains = true) (s : PortState) :
    (retrainPort soc policy patience s).Within (Port.retrainRegisters ⟨soc, s.controller⟩) := by
  have look : (Port.linkDebug ⟨soc, s.controller⟩).Within
      (Port.retrainRegisters ⟨soc, s.controller⟩) :=
    .read (by simp [Port.retrainRegisters, Port.attemptRegisters, Port.linkStatusRegister])
  refine look.bind fun debug => ?_
  split
  · refine (Port.retrain_within hr policy patience).bind fun outcome => ?_
    cases outcome with
    | none => exact .done _
    | some outcome => exact .done _
  · exact .done _

theorem retrainPorts_within (hr : soc.retrains = true) (ports : List PortState) :
    (retrainPorts soc policy patience ports).Within
      ((ports.map (·.controller)).flatMap fun c => Port.retrainRegisters ⟨soc, c⟩) := by
  induction ports with
  | nil => exact .done _
  | cons s rest ih =>
    rw [List.map_cons, List.flatMap_cons]
    refine ((retrainPort_within hr s).mono (List.subset_append_left _ _)).bind fun first => ?_
    match first with
    | none => exact .done _
    | some outcome =>
      refine (ih.mono (List.subset_append_right _ _)).bind fun others => ?_
      match others, outcome with
      | none, _ => exact .done _
      | some (_, _), none => exact .done _
      | some (_, _), some _ => exact .done _

theorem retrain_within (h : Host) :
    (h.retrain policy patience).Within
      ((h.ports.map (·.controller)).flatMap fun c => Port.retrainRegisters ⟨h.soc, c⟩) := by
  unfold Host.retrain Host.retrainWith
  split
  · rename_i hr
    refine (retrainPorts_within hr h.ports).bind fun result => ?_
    match result with
    | none => exact .done _
    | some (_, _) => exact .done _
  · exact .bind (.report _) fun _ => .done _

end Host

end RootComplex
