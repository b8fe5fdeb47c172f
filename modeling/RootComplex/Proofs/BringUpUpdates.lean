import RootComplex.Proofs.ReadOnlyScope
import RootComplex.Proofs.Updates

/-! # The updates of a bring-up

Apart from the PHY port, the translation unit and the probe of a new link, a bring-up writes
registers only by updating them. Which updates it makes, and in which order, depends on the
description of the port and on the outcome of its training, and on nothing else that the
hardware answers. -/

namespace RootComplex

open Program

/-- The link locked up on the way and got a reset pulse. -/
def LinkOutcome.recovered : LinkOutcome → Bool
  | noPartner _ => false
  | linkUp _ _ _ recovered => recovered
  | timeout _ _ recovered => recovered

namespace Port

/-! ## The updates of each stage -/

def ltssmUpdate (p : Port) (enable : Bool) : Update := ⟨p.ltssmRegister, p.ltssmWord enable⟩

def assertUpdates (p : Port) : List Update :=
  p.perst?.toList.flatMap fun line =>
    [⟨line.dataRegister, line.level (true != line.line.activeLow)⟩,
      ⟨line.directionRegister, (· ||| line.bit)⟩]

def releaseUpdates (p : Port) : List Update :=
  p.perst?.toList.map fun line => ⟨line.dataRegister, line.level (false != line.line.activeLow)⟩

/-- Some bits of the reset register are set, and later some are cleared. -/
def resetUpdates (p : Port) (held released : Word) : List Update :=
  [⟨p.resetRegister, (· ||| held)⟩, ⟨p.resetRegister, (· &&& ~~~released)⟩]

def msiUpdates (p : Port) : List Update :=
  match p.soc.msi, p.controller.msiNumber with
  | some msi, some id => [⟨msi.register, msi.assign p.controller.index id⟩]
  | _, _ => []

def laneUpdates (p : Port) (lanes : LaneCount) : List Update :=
  ⟨p.dbi PortLogic.portLinkControl, PortLinkControl.linkCapable.set lanes.linkCapable⟩ ::
    (lanes.predetermined?.toList.map fun n =>
      ⟨p.dbi PortLogic.gen2Control, Gen2Control.numOfLanes.set n⟩) ++
    [⟨p.dbi PortLogic.linkCapabilities, LinkCapabilities.maxLinkWidth.set lanes.count⟩]

def writableUpdate (p : Port) (writable : Bool) : Update :=
  ⟨p.miscRegister, MiscControl1.readOnlyWriteEnable.put writable⟩

def identityUpdates (p : Port) : List Update :=
  p.writableUpdate true :: ⟨p.dbi ConfigHeader.classRevision, bridgeClassWord⟩ ::
    p.controller.lanes.toList.flatMap p.laneUpdates ++ [p.writableUpdate false]

def speedUpdate (p : Port) (speed : Nat) : Update :=
  ⟨p.dbi PortLogic.linkControlStatus2,
    fun v => Word.ofControl (LinkControl2.targetLinkSpeed.set speed (Word.control v))⟩

def configureUpdates (p : Port) : List Update :=
  p.ltssmUpdate false :: p.assertUpdates ++
    p.resetUpdates p.resetBundle (p.resetBundle ||| p.soc.reset.releaseExtra) ++ p.msiUpdates ++
    p.identityUpdates ++ p.releaseUpdates ++
    [p.speedUpdate LinkSpeed.gen1.code, p.ltssmUpdate true]

def pulseUpdates (p : Port) : List Update :=
  p.ltssmUpdate false :: p.assertUpdates ++ p.resetUpdates p.soc.reset.core p.soc.reset.core ++
    p.releaseUpdates ++ [p.ltssmUpdate true]

/-- Without a link the LTSSM is disabled in the end. -/
def endUpdates (p : Port) (outcome : LinkOutcome) : List Update :=
  if outcome.isUp then [] else [p.ltssmUpdate false]

def trainUpdates (p : Port) (outcome : LinkOutcome) : List Update :=
  (if outcome.recovered then p.pulseUpdates else []) ++ p.endUpdates outcome

def bringUpUpdates (p : Port) (outcome : LinkOutcome) : List Update :=
  p.configureUpdates ++ p.trainUpdates outcome

/-- The registers that a bring-up updates. -/
def updatedRegisters (p : Port) : List Address :=
  p.sequenceRegisters ++ p.msiRegisters ++ p.identityRegisters ++
    [p.dbi PortLogic.linkControlStatus2]

/-- The registers that a bring-up writes outright. -/
def rawRegisters (p : Port) (outcome : LinkOutcome) : List Address :=
  p.phyRegisters ++ p.unitRegisters ++
    if outcome.isUp then [p.config ConfigHeader.deviceVendor] else []

variable {p : Port} {path : List Exchange} {others : List Address}

/-! ## Which registers the updates are of -/

theorem ltssm_sequence : p.ltssmRegister ∈ p.sequenceRegisters := List.mem_cons_self

theorem reset_sequence : p.resetRegister ∈ p.sequenceRegisters := by simp [sequenceRegisters]

theorem line_sequence : p.lineRegisters ⊆ p.sequenceRegisters := fun a ha => by
  simp [sequenceRegisters, ha]

theorem assertUpdates_registers : p.assertUpdates.map (·.register) ⊆ p.lineRegisters := by
  unfold assertUpdates lineRegisters
  cases p.perst? with
  | none => exact List.Subset.refl _
  | some line => exact List.Subset.refl _

theorem releaseUpdates_registers : p.releaseUpdates.map (·.register) ⊆ p.lineRegisters := by
  unfold releaseUpdates lineRegisters
  cases p.perst? with
  | none => exact List.Subset.refl _
  | some line => exact List.cons_subset_cons _ (List.nil_subset _)

theorem resetUpdates_registers (held released : Word) :
    (p.resetUpdates held released).map (·.register) ⊆ p.sequenceRegisters :=
  List.cons_subset.mpr ⟨reset_sequence, List.cons_subset.mpr ⟨reset_sequence, List.nil_subset _⟩⟩

theorem msiUpdates_registers : p.msiUpdates.map (·.register) = p.msiRegisters := by
  unfold msiUpdates msiRegisters
  cases p.soc.msi with
  | none => rfl
  | some msi =>
    cases p.controller.msiNumber with
    | none => rfl
    | some id => rfl

theorem laneUpdates_registers (lanes : LaneCount) :
    (p.laneUpdates lanes).map (·.register) ⊆ p.laneRegisters lanes := by
  unfold laneUpdates laneRegisters
  cases lanes.predetermined? with
  | none => simp
  | some n => simp

theorem widthUpdates_registers :
    (p.controller.lanes.toList.flatMap p.laneUpdates).map (·.register) ⊆
      p.controller.lanes.toList.flatMap p.laneRegisters := by
  cases p.controller.lanes with
  | none => exact List.Subset.refl _
  | some lanes => simpa using laneUpdates_registers lanes

theorem identityUpdates_registers :
    p.identityUpdates.map (·.register) ⊆ p.identityRegisters := by
  have misc : p.miscRegister ∈ p.identityRegisters := List.mem_cons_self
  have revision : p.dbi ConfigHeader.classRevision ∈ p.identityRegisters := by
    simp [identityRegisters]
  have width := List.Subset.trans (widthUpdates_registers (p := p))
    (List.subset_append_right [p.miscRegister, p.dbi ConfigHeader.classRevision] _)
  rw [identityUpdates, List.map_append, List.map_cons, List.map_cons]
  exact List.append_subset.mpr ⟨List.cons_subset.mpr ⟨misc, List.cons_subset.mpr
    ⟨revision, width⟩⟩, List.cons_subset.mpr ⟨misc, List.nil_subset _⟩⟩

theorem pulseUpdates_registers : p.pulseUpdates.map (·.register) ⊆ p.sequenceRegisters := by
  simp only [pulseUpdates, List.map_append, List.map_cons, List.map_nil, List.append_subset,
    List.cons_subset, List.cons_append]
  exact ⟨ltssm_sequence, ⟨⟨List.Subset.trans assertUpdates_registers line_sequence,
    resetUpdates_registers _ _⟩, List.Subset.trans releaseUpdates_registers line_sequence⟩,
    ltssm_sequence, List.nil_subset _⟩

theorem trainUpdates_registers (outcome : LinkOutcome) :
    (p.trainUpdates outcome).map (·.register) ⊆ p.sequenceRegisters := by
  rw [trainUpdates, List.map_append]
  refine List.append_subset.mpr ⟨?_, ?_⟩
  · split
    · exact pulseUpdates_registers
    · exact List.nil_subset _
  · unfold endUpdates
    split
    · exact List.nil_subset _
    · exact List.cons_subset.mpr ⟨ltssm_sequence, List.nil_subset _⟩

theorem mem_configureUpdates {u : Update} (hu : u ∈ p.configureUpdates) :
    u = p.speedUpdate LinkSpeed.gen1.code ∨
      u.register ∈ p.sequenceRegisters ++ p.msiRegisters ++ p.identityRegisters := by
  have sequence (h : u.register ∈ p.sequenceRegisters) :
      u.register ∈ p.sequenceRegisters ++ p.msiRegisters ++ p.identityRegisters :=
    List.mem_append_left _ (List.mem_append_left _ h)
  simp only [configureUpdates, List.cons_append, List.mem_append, List.mem_cons,
    List.not_mem_nil, or_false] at hu
  rcases hu with rfl | ((((hu | hu) | hu) | hu) | hu) | rfl | rfl
  · exact .inr (sequence ltssm_sequence)
  · exact .inr (sequence (line_sequence (assertUpdates_registers (List.mem_map_of_mem hu))))
  · exact .inr (sequence (resetUpdates_registers _ _ (List.mem_map_of_mem hu)))
  · have msi : u.register ∈ p.msiUpdates.map (·.register) := List.mem_map_of_mem hu
    rw [msiUpdates_registers] at msi
    exact .inr (List.mem_append_left _ (List.mem_append_right _ msi))
  · exact .inr (List.mem_append_right _ (identityUpdates_registers (List.mem_map_of_mem hu)))
  · exact .inr (sequence (line_sequence (releaseUpdates_registers (List.mem_map_of_mem hu))))
  · exact .inl rfl
  · exact .inr (sequence ltssm_sequence)

/-- All but the request for the lowest speed is the reset, the routing of interrupts and the
description. -/
theorem mem_bringUpUpdates {u : Update} {outcome : LinkOutcome}
    (hu : u ∈ p.bringUpUpdates outcome) : u = p.speedUpdate LinkSpeed.gen1.code ∨
      u.register ∈ p.sequenceRegisters ++ p.msiRegisters ++ p.identityRegisters := by
  rcases List.mem_append.mp hu with hu | hu
  · exact mem_configureUpdates hu
  · exact .inr (List.mem_append_left _ (List.mem_append_left _
      (trainUpdates_registers outcome (List.mem_map_of_mem hu))))

theorem bringUpUpdates_registers (outcome : LinkOutcome) :
    (p.bringUpUpdates outcome).map (·.register) ⊆ p.updatedRegisters := by
  intro a ha
  obtain ⟨u, hu, rfl⟩ := List.mem_map.mp ha
  rcases mem_bringUpUpdates hu with rfl | h
  · exact List.mem_append_right _ (List.mem_singleton_self _)
  · exact List.mem_append_left _ h

/-! ## Stages that write nothing -/

theorem pollResetDone_alters (done : ResetDone) (polls : Nat) :
    (p.pollResetDone done polls).Issues (Command.Alters others) := by
  induction polls with
  | zero => exact .done false
  | succ polls ih =>
    refine .bind (.read trivial) fun status => ?_
    split
    · exact .done true
    · exact .bind (.stall trivial) fun _ => ih

theorem warnResetDone_alters (done : ResetDone) :
    (p.warnResetDone done).Issues (Command.Alters others) := by
  refine .bind (.listens trivial) fun heard => ?_
  split
  · exact .bind (.read trivial) fun _ => .report trivial
  · exact .done ()

theorem awaitResetDone_alters : p.awaitResetDone.Issues (Command.Alters others) := by
  unfold awaitResetDone
  cases p.soc.control.resetDone with
  | none => exact .done false
  | some done =>
    refine (pollResetDone_alters done done.polls).bind fun finished => ?_
    split
    · exact .done false
    · exact (warnResetDone_alters done).bind fun _ => .done true

theorem linkDebug_alters : p.linkDebug.Issues (Command.Alters others) := .read trivial

theorem linkStatus_alters : p.linkStatus.Issues (Command.Alters others) :=
  .bind (.read trivial) fun _ => .done _

theorem watch_alters (found : Word → Bool) (left : Nat) (s : Sighting) :
    (p.watch found left s).Issues (Command.Alters others) := by
  induction left generalizing s with
  | zero => exact .done s
  | succ left ih =>
    unfold watch
    split
    · exact .done s
    · exact .bind (.stall trivial) fun _ => linkDebug_alters.bind fun _ => ih _

/-! ## Stages that write outright -/

theorem pollId_alters (h : p.config ConfigHeader.deviceVendor ∈ others) (left polls : Nat)
    (id : Word) : (p.pollId left polls id).Issues (Command.Alters others) := by
  induction left generalizing polls id with
  | zero => exact .done _
  | succ left ih =>
    unfold pollId
    split
    · exact .bind (.write h) fun _ => .bind (.stall trivial) fun _ =>
        .bind (.read trivial) fun id => ih _ id
    · exact .done _

theorem probeFilter_alters (h : p.config ConfigHeader.deviceVendor ∈ others) :
    p.probeFilter.Issues (Command.Alters others) :=
  .bind (.read trivial) fun _ => (pollId_alters h _ _ _).bind fun _ =>
    .bind (.read trivial) fun _ => .bind (.report trivial) fun _ => .done _

/-! ## Reset and configuration -/

theorem setLtssm_makes {enable : Bool} {u : Unit} (h : Runs (p.setLtssm enable) path u) :
    Path.Makes others [p.ltssmUpdate enable] path :=
  .modify h

theorem setTargetSpeed_makes {speed : Nat} {u : Unit} (h : Runs (p.setTargetSpeed speed) path u) :
    Path.Makes others [p.speedUpdate speed] path :=
  .modify h

theorem setReadOnlyWritable_makes {writable : Bool} {u : Unit}
    (h : Runs (p.setReadOnlyWritable writable) path u) :
    Path.Makes others [p.writableUpdate writable] path :=
  .modify h

theorem assertPerst_makes {u : Unit} (h : Runs p.assertPerst path u) :
    Path.Makes others p.assertUpdates path := by
  unfold assertPerst at h
  unfold assertUpdates
  cases hl : p.perst? with
  | none =>
    rw [hl] at h
    obtain ⟨rfl, -⟩ := runs_done.mp h
    exact .nil
  | some line =>
    rw [hl] at h
    obtain ⟨_, level, output, hlevel, houtput, rfl⟩ := h.bind
    exact (Path.Makes.modify hlevel).append (.modify houtput)

theorem deassertPerst_makes {u : Unit} (h : Runs p.deassertPerst path u) :
    Path.Makes others p.releaseUpdates path := by
  unfold deassertPerst at h
  unfold releaseUpdates
  cases hl : p.perst? with
  | none =>
    rw [hl] at h
    obtain ⟨rfl, -⟩ := runs_done.mp h
    exact .nil
  | some line =>
    rw [hl] at h
    exact .modify h

theorem cycleReset_makes {u : Unit} (h : Runs p.cycleReset path u) :
    Path.Makes others (p.resetUpdates p.resetBundle (p.resetBundle ||| p.soc.reset.releaseExtra))
      path := by
  rw [cycleReset_eq] at h
  obtain ⟨_, held, _, hheld, h₁, rfl⟩ := h.bind
  obtain ⟨released, rfl, hreleased⟩ := runs_stall_bind.mp h₁
  exact (Path.Makes.modify hheld).append (Path.Makes.modify hreleased).stall_cons

theorem routeMsi_makes {u : Unit} (h : Runs p.routeMsi path u) :
    Path.Makes others p.msiUpdates path := by
  unfold routeMsi at h
  unfold msiUpdates
  cases hm : p.soc.msi with
  | none =>
    rw [hm] at h
    obtain ⟨rfl, -⟩ := runs_done.mp h
    exact .nil
  | some msi =>
    rw [hm] at h
    cases hid : p.controller.msiNumber with
    | none =>
      rw [hid] at h
      obtain ⟨rfl, -⟩ := runs_done.mp h
      exact .nil
    | some id =>
      rw [hid] at h
      obtain ⟨_, assigned, _, hassigned, h₁, rfl⟩ := h.bind
      obtain ⟨_, _, rfl, h₂⟩ := runs_step.mp h₁
      obtain ⟨rfl, -⟩ := runs_done.mp h₂
      exact (Path.Makes.modify hassigned).append Path.Makes.nil.report_cons

theorem programLanes_makes {lanes : LaneCount} {u : Unit} (h : Runs (p.programLanes lanes) path u) :
    Path.Makes others (p.laneUpdates lanes) path := by
  unfold laneUpdates
  obtain ⟨_, capable, _, hcapable, h₁, rfl⟩ := h.bind
  cases hn : lanes.predetermined? with
  | none =>
    rw [hn] at h₁
    exact (Path.Makes.modify hcapable).append (.modify h₁)
  | some n =>
    rw [hn] at h₁
    obtain ⟨_, count, width, hcount, hwidth, rfl⟩ := h₁.bind
    exact (Path.Makes.modify hcapable).append ((Path.Makes.modify hcount).append (.modify hwidth))

theorem describe_makes {u : Unit} (h : Runs p.describe path u) :
    Path.Makes others p.identityUpdates path := by
  unfold identityUpdates
  obtain ⟨_, opening, _, hopening, h₁, rfl⟩ := h.bind
  obtain ⟨_, revision, _, hrevision, h₂, rfl⟩ := h₁.bind
  refine (setReadOnlyWritable_makes hopening).append ((Path.Makes.modify hrevision).append ?_)
  cases hl : p.controller.lanes with
  | none =>
    rw [hl] at h₂
    exact setReadOnlyWritable_makes h₂
  | some lanes =>
    rw [hl] at h₂
    obtain ⟨_, width, closing, hwidth, hclosing, rfl⟩ := h₂.bind
    have last : Path.Makes others [p.writableUpdate false] closing :=
      setReadOnlyWritable_makes hclosing
    simpa using (programLanes_makes hwidth).append last

/-- A configuration makes its updates, whatever fails softly on the way. -/
theorem configure_makes {report : ResetReport} (h : Runs p.configure path report) :
    Path.Makes (p.phyRegisters ++ p.unitRegisters) p.configureUpdates path := by
  obtain ⟨off, assert, cycle, wait, phy, msi, describe, release, windows, speed, on, event, hoff,
    hassert, hcycle, hwait, hphy, hmsi, hdescribe, hrelease, hwindows, hspeed, hon, rfl⟩ :=
    configure_stages h
  have wait : Path.Makes (p.phyRegisters ++ p.unitRegisters) [] wait :=
    .none (awaitResetDone_alters _ _ hwait)
  have phy := (Path.Makes.of_touches (tunePhy_within _ _ hphy)).mono
    (List.subset_append_left _ p.unitRegisters)
  have windows := (Path.Makes.of_touches
    (programWindows_within (List.Subset.refl _) _ _ hwindows)).mono
    (List.subset_append_right p.phyRegisters _)
  have done : Path.Makes (p.phyRegisters ++ p.unitRegisters) [] [⟨.report event, ()⟩] :=
    Path.Makes.nil.report_cons
  have made := (setLtssm_makes hoff).append ((assertPerst_makes hassert).append
    ((cycleReset_makes hcycle).append (wait.append (phy.append ((routeMsi_makes hmsi).append
      ((describe_makes hdescribe).append ((deassertPerst_makes hrelease).append
        (windows.append ((setTargetSpeed_makes hspeed).append
          ((setLtssm_makes hon).append done))))))))))
  simpa [configureUpdates] using made

theorem pulseReset_makes {u : Unit} (h : Runs p.pulseReset path u) :
    Path.Makes others p.pulseUpdates path := by
  obtain ⟨off, assert, set, clear, release, on, hoff, hassert, hset, hclear, hrelease, hon, rfl⟩ :=
    pulseReset_stages h
  have last : Path.Makes others [p.ltssmUpdate true] on := setLtssm_makes hon
  have released := (Path.Makes.modify hclear).append ((deassertPerst_makes hrelease).append last)
  have made := (setLtssm_makes hoff).append ((assertPerst_makes hassert).append
    ((Path.Makes.modify hset).append (released.stall_cons (t := recoveryPulse))))
  simpa [pulseUpdates, resetUpdates] using made

/-! ## Training -/

theorem conclude_makes {s : Sighting} {recovered : Bool} {outcome : LinkOutcome}
    (h : Runs (p.conclude s recovered) path outcome) :
    Path.Makes others (p.endUpdates outcome) path ∧ outcome.recovered = recovered := by
  unfold conclude at h
  split at h
  · obtain ⟨_, status, _, hstatus, h₁, rfl⟩ := h.bind
    obtain ⟨_, rfl, h₂⟩ := runs_report_bind.mp h₁
    obtain ⟨rfl, rfl⟩ := runs_done.mp h₂
    exact ⟨Path.Makes.nil.report_cons.prepend (linkStatus_alters _ _ hstatus), rfl⟩
  · obtain ⟨_, off, _, hoff, h₁, rfl⟩ := h.bind
    obtain ⟨_, rfl, h₂⟩ := runs_report_bind.mp h₁
    obtain ⟨rfl, rfl⟩ := runs_done.mp h₂
    exact ⟨(setLtssm_makes hoff).append Path.Makes.nil.report_cons, rfl⟩

theorem recover_makes {s : Sighting} {outcome : LinkOutcome}
    (h : Runs (p.recover s) path outcome) :
    Path.Makes others (p.trainUpdates outcome) path := by
  obtain ⟨_, rfl, h₁⟩ := runs_report_bind.mp h
  obtain ⟨_, pulse, _, hpulse, h₂, rfl⟩ := h₁.bind
  obtain ⟨debug, look, _, hlook, h₃, rfl⟩ := h₂.bind
  obtain ⟨t, watched, last, hwatched, hlast, rfl⟩ := h₃.bind
  obtain ⟨ends, hrecovered⟩ := conclude_makes hlast
  rw [trainUpdates, hrecovered, if_pos rfl]
  refine ((pulseReset_makes hpulse).append ?_).report_cons
  exact (ends.prepend (watch_alters _ _ _ _ _ hwatched)).prepend (linkDebug_alters _ _ hlook)

/-- The outcome of the training tells which updates it made. -/
theorem train_makes {outcome : LinkOutcome} (h : Runs p.train path outcome) :
    Path.Makes others (p.trainUpdates outcome) path := by
  obtain ⟨debug, look, _, hlook, h₁, rfl⟩ := h.bind
  obtain ⟨s, watched, rest, hwatched, h₂, rfl⟩ := h₁.bind
  refine .prepend (.prepend ?_ (watch_alters _ _ _ _ _ hwatched)) (linkDebug_alters _ _ hlook)
  split at h₂
  · obtain ⟨_, rfl, h₃⟩ := runs_report_bind.mp h₂
    obtain ⟨t, again, _, hagain, h₄, rfl⟩ := h₃.bind
    refine .report_cons (.prepend ?_ (watch_alters _ _ _ _ _ hagain))
    split at h₄
    · exact recover_makes h₄
    · obtain ⟨ends, hrecovered⟩ := conclude_makes h₄
      rw [trainUpdates, hrecovered]
      exact ends
  · obtain ⟨_, off, _, hoff, h₃, rfl⟩ := h₂.bind
    obtain ⟨_, rfl, h₄⟩ := runs_report_bind.mp h₃
    obtain ⟨rfl, rfl⟩ := runs_done.mp h₄
    exact (setLtssm_makes hoff).append Path.Makes.nil.report_cons

end Port

/-! ## Whole bring-ups -/

/-- A bring-up makes the updates that its outcome tells. -/
theorem PortState.bringUp_makes {soc : Soc} {c : Controller} {s : PortState}
    {path : List Exchange} (h : Runs (PortState.bringUp soc c) path s) :
    Path.Makes (Port.rawRegisters ⟨soc, c⟩ s.outcome) (Port.bringUpUpdates ⟨soc, c⟩ s.outcome)
      path := by
  obtain ⟨event, reset, train, probe, hreset, htrain, hprobe, -, -, rfl⟩ := bringUp_stages h
  have configured := (Port.configure_makes hreset).mono (List.subset_append_left _
    (if s.outcome.isUp then [Port.config ⟨soc, c⟩ ConfigHeader.deviceVendor] else []))
  have probed : Path.Makes (Port.rawRegisters ⟨soc, c⟩ s.outcome) [] probe := by
    unfold Port.rawRegisters
    split at hprobe
    · rename_i hu
      exact .none (Port.probeFilter_alters (by simp [hu]) _ _ hprobe)
    · obtain ⟨rfl, -⟩ := runs_done.mp hprobe
      exact .nil
  have made := configured.append ((Port.train_makes htrain).append probed)
  rw [List.append_nil] at made
  exact made.report_cons

/-- The bring-ups of several ports make the updates of each, in turn. -/
theorem Host.bringUpPorts_makes {soc : Soc} {cs : List Controller} {states : List PortState}
    {path : List Exchange} (h : Runs (Host.bringUpPorts soc cs) path states) :
    Path.Makes (states.flatMap fun s => Port.rawRegisters ⟨soc, s.controller⟩ s.outcome)
      (states.flatMap fun s => Port.bringUpUpdates ⟨soc, s.controller⟩ s.outcome) path := by
  induction cs generalizing path states with
  | nil =>
    obtain ⟨rfl, rfl⟩ := runs_bringUpPorts_nil.mp h
    exact .nil
  | cons c rest ih =>
    obtain ⟨s, tail, front, back, hs, ht, rfl, rfl⟩ := runs_bringUpPorts_cons.mp h
    obtain ⟨_, _, _, _, -, -, -, hc, -⟩ := PortState.bringUp_stages hs
    have first := PortState.bringUp_makes hs
    rw [← hc] at first
    rw [List.flatMap_cons, List.flatMap_cons]
    exact (first.mono (List.subset_append_left _ _)).append
      ((ih ht).mono (List.subset_append_right _ _))

end RootComplex
