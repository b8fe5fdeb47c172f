import RootComplex.Proofs.Footprint
import RootComplex.Proofs.ReadOnlyScope
import RootComplex.Proofs.Separation
import RootComplex.Proofs.WindowPlan

/-! # Reach

The footprint of a port is exact: for each register in it the hardware can answer so that the
port's bring-up, or a retrain of its link, comes to access it. -/

namespace RootComplex

open Program

namespace Program

variable {α β : Type} {p : Program α} {a : Address} {path : List Exchange} {r : α}

/-- Some path of the program accesses the register. -/
def Reaches (a : Address) (p : Program α) : Prop :=
  ∃ path r, Runs p path r ∧ ∃ e ∈ path, e.Accesses [a]

/-- Any platform makes a path. -/
theorem exists_runs (p : Program α) : ∃ path r, Runs p path r :=
  ⟨_, _, runs_exchanges Recording.platform p (.start .empty none)⟩

namespace Reaches

theorem front {f : α → Program β} (h : p.Reaches a) : (p >>= f).Reaches a := by
  obtain ⟨front, r, hr, e, he, accesses⟩ := h
  obtain ⟨back, s, hs⟩ := exists_runs (f r)
  exact ⟨front ++ back, s, runs_bind.mpr ⟨r, front, back, hr, hs, rfl⟩, e,
    List.mem_append_left _ he, accesses⟩

/-- The first part can return what makes the second reach the register. -/
theorem back_of {f : α → Program β} (hr : Runs p path r) (h : (f r).Reaches a) :
    (p >>= f).Reaches a := by
  obtain ⟨back, s, hs, e, he, accesses⟩ := h
  exact ⟨path ++ back, s, runs_bind.mpr ⟨r, path, back, hr, hs, rfl⟩, e,
    List.mem_append_right _ he, accesses⟩

theorem back {f : α → Program β} (h : ∀ r, (f r).Reaches a) : (p >>= f).Reaches a := by
  obtain ⟨path, r, hr⟩ := exists_runs p
  exact back_of hr (h r)

theorem read (a : Address) : (Program.read a).Reaches a :=
  ⟨_, 0, runs_read.mpr rfl, _, List.mem_singleton_self _, a, List.mem_singleton_self a, .inl rfl⟩

theorem write (a : Address) (v : Word) : (Program.write a v).Reaches a :=
  ⟨_, (), runs_write.mpr rfl, _, List.mem_singleton_self _, a, List.mem_singleton_self a,
    .inr ⟨v, rfl⟩⟩

theorem modify (a : Address) (f : Word → Word) : (Program.modify a f).Reaches a :=
  (read a).front

end Reaches

end Program

/-! ## The PHY port -/

namespace Phy

variable {dbi a : Address}

/-- A status that ends the wait at once. -/
theorem runs_await_ready (address polls : Nat) :
    Runs (await dbi address (polls + 1) 0) [⟨.read (dbi.at PhyPort.status), 1⟩] (.ok ()) := by
  have ready : isReady 1 = true := by decide
  refine runs_read_bind.mpr ⟨1, [], rfl, ?_⟩
  rw [if_pos ready]
  exact .done _

theorem read_reaches (lanes : Word) (address : Nat)
    (h : a ∈ [PhyPort.lanes, PhyPort.address, PhyPort.data, PhyPort.status].map dbi.at) :
    (read dbi lanes address).Reaches a := by
  simp only [List.map_cons, List.map_nil, List.mem_cons, List.not_mem_nil, or_false] at h
  rcases h with rfl | rfl | rfl | rfl
  · exact .front (.front (.write _ _))
  · exact .front (.back fun _ => .write _ _)
  · exact .back fun _ => .back_of (runs_await_ready _ _) (.front (.read _))
  · exact .back fun _ => .front (.front (.read _))

end Phy

/-! ## The capability list -/

namespace Capability

variable {config : Address} {offset : Nat}

/-- A header of no capability, before the one at `offset`. -/
def leadingTo (offset : Nat) : Word := BitVec.ofNat 32 (offset * 0x100)

theorem leadingTo_spec : ∀ offset ∈ offsets, offset ≤ 0xFC →
    leadingTo offset ≠ ConfigHeader.unclaimed ∧ id (leadingTo offset) ≠ express ∧
      next (leadingTo offset) = offset := by
  decide

/-- The first header can lead to any other. -/
theorem runs_find {path : List Exchange} {found : Option Nat} (ho : offset ∈ offsets)
    (hlast : offset ≤ 0xFC)
    (h : Runs (findFrom config express (maxEntries - 1) offset) path found) :
    Runs (find config express)
      (⟨.read (config.at ConfigHeader.firstCapability), leadingTo offset⟩ :: path) found := by
  obtain ⟨hclaimed, hid, hnext⟩ := leadingTo_spec offset ho hlast
  refine runs_read_bind.mpr ⟨leadingTo offset, path, rfl, ?_⟩
  rw [if_neg hclaimed, if_neg hid, hnext]
  exact h

theorem findFrom_reaches (entries : Nat) (hfirst : ConfigHeader.firstCapability ≤ offset) :
    (findFrom config express (entries + 1) offset).Reaches (config.at offset) := by
  unfold findFrom
  rw [if_neg (Nat.not_lt.mpr hfirst)]
  exact .front (.read _)

theorem runs_findFrom_express (entries : Nat) (hfirst : ConfigHeader.firstCapability ≤ offset) :
    Runs (findFrom config express (entries + 1) offset) [⟨.read (config.at offset), 0x10⟩]
      (some offset) := by
  have hclaimed : (0x10 : Word) ≠ ConfigHeader.unclaimed := by decide
  have hid : id 0x10 = express := by decide
  unfold findFrom
  rw [if_neg (Nat.not_lt.mpr hfirst)]
  refine runs_read_bind.mpr ⟨0x10, [], rfl, ?_⟩
  rw [if_neg hclaimed, if_pos hid]
  exact .done _

end Capability

namespace Port

variable {p : Port} {a : Address}

/-- The walk comes to every header, and the last link capabilities lie beyond the last one. -/
theorem retrain_reaches (hr : p.soc.retrains = true) (policy : RetrainPolicy) (patience : Nat)
    (h : a ∈ p.capabilityRegisters) : (p.retrain policy patience).Reaches a := by
  rw [capabilityRegisters, if_pos hr] at h
  obtain ⟨offset, ho, rfl⟩ := List.mem_map.mp h
  obtain ⟨k, hk, hoffset⟩ := List.mem_map.mp ho
  rw [List.mem_range] at hk
  have hfirst : ConfigHeader.firstCapability = 0x40 := rfl
  by_cases hlast : offset ≤ 0xFC
  · have header : (Capability.findFrom p.controller.config Capability.express
        (Capability.maxEntries - 2 + 1) offset).Reaches (p.config offset) :=
      Capability.findFrom_reaches _ (by omega)
    obtain ⟨path, found, hpath, e, he, accesses⟩ := header
    exact .front ⟨_, found, Capability.runs_find ho hlast hpath, e, List.mem_cons_of_mem _ he,
      accesses⟩
  · obtain ⟨header, rfl⟩ : ∃ header, offset = header + ExpressCapability.linkCapabilities :=
      ⟨offset - 0xC, by simp only [ExpressCapability.linkCapabilities]; omega⟩
    simp only [ExpressCapability.linkCapabilities] at hlast hoffset
    have hheader : header ∈ Capability.offsets :=
      List.mem_map.mpr ⟨k - 3, List.mem_range.mpr (by omega), by omega⟩
    exact .back_of (Capability.runs_find hheader (by omega)
      (Capability.runs_findFrom_express (Capability.maxEntries - 2) (by omega)))
      (.front (.read _))

/-! ## Configuration -/

theorem assertPerst_reaches (h : a ∈ p.lineRegisters) : p.assertPerst.Reaches a := by
  unfold lineRegisters at h
  unfold assertPerst
  cases hline : p.perst? with
  | none =>
    rw [hline] at h
    cases h
  | some line =>
    simp only [hline, Option.toList_some, List.flatMap_singleton, List.mem_cons,
      List.not_mem_nil, or_false] at h
    rcases h with rfl | rfl
    · exact .front (.modify _ _)
    · exact .back fun _ => .modify _ _

theorem cycleReset_reaches : p.cycleReset.Reaches p.resetRegister := .front (.modify _ _)

theorem awaitResetDone_reaches (hpolls : ∀ poll ∈ p.soc.control.resetDone, 0 < poll.polls)
    (h : a ∈ p.doneRegisters) : p.awaitResetDone.Reaches a := by
  unfold doneRegisters at h
  unfold awaitResetDone
  cases hdone : p.soc.control.resetDone with
  | none =>
    rw [hdone] at h
    cases h
  | some poll =>
    obtain ⟨polls, hpolls⟩ := Nat.exists_eq_add_of_lt (hpolls poll hdone)
    simp only [hdone, Option.toList_some, List.map_singleton, List.mem_singleton] at h
    rw [h]
    refine .front ?_
    rw [hpolls, Nat.zero_add]
    exact .front (.read _)

theorem tunePhy_reaches (h : a ∈ p.phyRegisters) : p.tunePhy.Reaches a := by
  unfold phyRegisters at h
  unfold tunePhy
  split at h
  · cases h
  · rename_i htable
    rw [if_neg htable]
    cases hphy : p.soc.phyTuning with
    | nil =>
      rw [hphy] at htable
      exact absurd rfl htable
    | cons t rest => exact .front (.front (.front (Phy.read_reaches _ _ h)))

theorem routeMsi_reaches (h : a ∈ p.msiRegisters) : p.routeMsi.Reaches a := by
  unfold msiRegisters at h
  unfold routeMsi
  cases hmsi : p.soc.msi with
  | none =>
    rw [hmsi] at h
    cases h
  | some msi =>
    cases hid : p.controller.msiNumber with
    | none =>
      rw [hmsi, hid] at h
      cases h
    | some id =>
      simp only [hmsi, hid, List.mem_singleton] at h
      rw [h]
      exact .front (.modify _ _)

theorem programLanes_reaches {lanes : LaneCount} (h : a ∈ p.laneRegisters lanes) :
    (p.programLanes lanes).Reaches a := by
  unfold laneRegisters at h
  unfold programLanes
  cases hcount : lanes.predetermined? with
  | none =>
    simp only [hcount, Option.toList_none, List.map_nil, List.append_nil, List.mem_cons,
      List.not_mem_nil, or_false] at h
    rcases h with rfl | rfl
    · exact .front (.modify _ _)
    · exact .back fun _ => .modify _ _
  | some n =>
    simp only [hcount, Option.toList_some, List.map_singleton, List.cons_append, List.nil_append,
      List.mem_cons, List.not_mem_nil, or_false] at h
    rcases h with rfl | rfl | rfl
    · exact .front (.modify _ _)
    · exact .back fun _ => .back fun _ => .modify _ _
    · exact .back fun _ => .front (.modify _ _)

theorem describe_reaches (h : a ∈ p.identityRegisters) : p.describe.Reaches a := by
  simp only [identityRegisters, List.cons_append, List.nil_append, List.mem_cons,
    List.mem_flatMap] at h
  rcases h with rfl | rfl | ⟨lanes, hlanes, ha⟩
  · exact .front (.modify _ _)
  · exact .back fun _ => .front (.modify _ _)
  · have hlanes : p.controller.lanes = some lanes := Option.mem_toList.mp hlanes
    unfold describe
    rw [hlanes]
    exact .back fun _ => .back fun _ => .front (programLanes_reaches ha)

/-! ## The translation unit -/

theorem write_reaches {w : OutboundWindow} {soc : Soc} {index : Nat} {dbi : Address}
    (h : a ∈ regionRegisters (OutboundWindow.registers soc)
      (OutboundWindow.block soc dbi w.region)) : (w.write soc index dbi).Reaches a := by
  refine .back fun _ => .back fun _ => .back fun _ => ?_
  simp only [regionRegisters, List.map_cons, List.map_nil, List.mem_cons, List.not_mem_nil,
    or_false] at h
  rcases h with rfl | rfl | rfl | rfl | rfl | rfl | rfl | rfl
  · exact .back fun _ => .back fun _ => .back fun _ => .back fun _ => .back fun _ =>
      .back fun _ => .back fun _ => .front (.write _ _)
  · exact .front (.write _ _)
  · exact .back fun _ => .front (.write _ _)
  · exact .back fun _ => .back fun _ => .front (.write _ _)
  · exact .back fun _ => .back fun _ => .back fun _ => .front (.write _ _)
  · exact .back fun _ => .back fun _ => .back fun _ => .back fun _ => .back fun _ =>
      .front (.write _ _)
  · exact .back fun _ => .back fun _ => .back fun _ => .back fun _ => .back fun _ =>
      .back fun _ => .front (.write _ _)
  · exact .back fun _ => .back fun _ => .back fun _ => .back fun _ => .front (.write _ _)

/-- Each accepted window is written in its turn. -/
theorem programWindows_reaches {windows : List OutboundWindow} {w : OutboundWindow}
    (haccepted : ∀ w ∈ windows, w.fault? p.soc = none) (hw : w ∈ windows)
    (h : (w.write p.soc p.controller.index p.controller.dbi).Reaches a) :
    (p.programWindows windows).Reaches a := by
  induction windows with
  | nil => cases hw
  | cons v rest ih =>
    obtain ⟨hv, hrest⟩ := List.forall_mem_cons.mp haccepted
    unfold programWindows OutboundWindow.program
    rw [hv]
    rcases List.mem_cons.mp hw with rfl | hw
    · exact .front (.front h)
    · obtain ⟨path, _, hpath⟩ := exists_runs (v.write p.soc p.controller.index p.controller.dbi)
      exact .back_of (runs_bind.mpr ⟨(), path, [], hpath, .done _, rfl⟩) (ih hrest hw)

theorem unit_reaches (haccepted : ∀ w ∈ p.controller.outboundWindows, w.fault? p.soc = none)
    (h : a ∈ p.unitRegisters) :
    (p.programWindows p.controller.outboundWindows).Reaches a := by
  obtain ⟨root, rest, hroot⟩ : ∃ root rest, p.controller.outboundWindows = root :: rest :=
    ⟨_, _, rfl⟩
  have hmem : root ∈ p.controller.outboundWindows := hroot ▸ List.mem_cons_self
  unfold unitRegisters at h
  split at h
  · rename_i hregions
    refine programWindows_reaches haccepted hmem ?_
    rcases List.mem_cons.mp h with rfl | h
    · refine .back fun _ => .back fun _ => .front ?_
      rw [OutboundWindow.select, hregions]
      exact .write _ _
    · refine write_reaches ?_
      rwa [OutboundWindow.registers, OutboundWindow.block, hregions]
  · rename_i hregions
    obtain ⟨w, hw, h⟩ := List.mem_flatMap.mp h
    refine programWindows_reaches haccepted hw (write_reaches ?_)
    rwa [OutboundWindow.registers, hregions]

/-! ## The link -/

theorem runs_watch_found {found : Word → Bool} {s : Sighting} (h : found s.debug = true)
    (left : Nat) : Runs (p.watch found left s) [] s := by
  cases left with
  | zero => exact .done s
  | succ left =>
    unfold watch
    rw [if_pos h]
    exact .done s

theorem reportUp_up (s : Sighting) (recovered : Bool) :
    ∃ path outcome, Runs (p.reportUp s recovered) path outcome ∧ outcome.isUp = true ∧
      ∃ e ∈ path, e.Accesses [p.dbi PortLogic.linkControlStatus] :=
  ⟨_, _, runs_bind.mpr ⟨_, _, _, runs_read_bind.mpr ⟨0, [], rfl, .done _⟩,
    runs_report_bind.mpr ⟨[], rfl, .done _⟩, rfl⟩, rfl, _, List.mem_cons_self, _,
    List.mem_singleton_self _, .inl rfl⟩

/-- A link that is up at the first look ends training, once its speed has been read. -/
theorem train_up : ∃ path outcome, Runs p.train path outcome ∧ outcome.isUp = true ∧
    ∃ e ∈ path, e.Accesses [p.dbi PortLogic.linkControlStatus] := by
  let s : Sighting := ⟨0, 0xD1⟩
  have hpartner : s.state.partnerDetected = true := by decide
  have hsettled : isSettled s.debug = true := by decide
  have hfree : ¬s.state.isLockup = true := by decide
  have hup : LinkDebug.isUp s.debug = true := by decide
  obtain ⟨path, outcome, hreport, houtcome, e, he, accesses⟩ := reportUp_up (p := p) s false
  have awaited : ∃ event, Runs (p.awaitLink s) (⟨.report event, ()⟩ :: path) outcome := by
    refine ⟨_, runs_report_bind.mpr ⟨_, rfl, runs_bind.mpr ⟨s, [], path,
      runs_watch_found hsettled _, ?_, rfl⟩⟩⟩
    rw [if_neg hfree, conclude, if_pos hup]
    exact hreport
  obtain ⟨event, awaited⟩ := awaited
  have trained : Runs p.train (⟨.read (p.control p.soc.control.linkStatus), 0xD1⟩ ::
      ⟨.report event, ()⟩ :: path) outcome := by
    refine runs_read_bind.mpr ⟨0xD1, _, rfl, runs_bind.mpr ⟨s, [], _,
      runs_watch_found hpartner _, ?_, rfl⟩⟩
    rw [if_pos hpartner]
    exact awaited
  exact ⟨_, outcome, trained, houtcome, e, List.mem_cons_of_mem _ (List.mem_cons_of_mem _ he),
    accesses⟩

theorem probeFilter_reaches (h : a ∈ p.probeRegisters) : p.probeFilter.Reaches a := by
  simp only [probeRegisters, List.mem_cons, List.not_mem_nil, or_false] at h
  rcases h with rfl | rfl
  · exact .front (.read _)
  · exact .back fun _ => .back fun _ => .front (.read _)

/-- What a port uses, group by group. -/
theorem mem_registers : a ∈ p.registers ↔
    a = p.ltssmRegister ∨ a = p.resetRegister ∨ a = p.linkStatusRegister ∨
      a ∈ p.doneRegisters ∨ a ∈ p.linkRegisters ∨ a ∈ p.identityRegisters ∨ a ∈ p.phyRegisters ∨
      a ∈ p.unitRegisters ∨ a ∈ p.probeRegisters ∨ a ∈ p.capabilityRegisters ∨
      a ∈ p.lineRegisters ∨ a ∈ p.msiRegisters := by
  simp only [registers, quietRegisters, quietGroups, sharedRegisters, List.flatten_cons,
    List.flatten_nil, List.append_nil, List.mem_cons, List.mem_append, List.not_mem_nil, or_false,
    or_assoc]

end Port

/-- A bring-up comes to all but the capability list, which is left to the retrains. -/
theorem PortState.bringUp_reaches {soc : Soc} (hs : soc ∈ Soc.all) {c : Controller}
    (haccepted : ∀ w ∈ c.outboundWindows, w.fault? soc = none) {a : Address}
    (h : a ∈ Port.registers ⟨soc, c⟩) (hlist : a ∉ Port.capabilityRegisters ⟨soc, c⟩) :
    (PortState.bringUp soc c).Reaches a := by
  have hpolls : ∀ soc ∈ Soc.all, ∀ poll ∈ soc.control.resetDone, 0 < poll.polls := by decide
  have configured (h : (Port.configure ⟨soc, c⟩).Reaches a) : (PortState.bringUp soc c).Reaches a :=
    .back fun _ => .front h
  rcases Port.mem_registers.mp h with
    rfl | rfl | rfl | h | h | h | h | h | h | h | h | h
  · exact configured (.front (.modify _ _))
  · exact configured (.back fun _ => .back fun _ => .front Port.cycleReset_reaches)
  · exact .back fun _ => .back fun _ => .front (.front (.read _))
  · exact configured (.back fun _ => .back fun _ => .back fun _ =>
      .front (Port.awaitResetDone_reaches (hpolls soc hs) h))
  · simp only [Port.linkRegisters, List.mem_cons, List.not_mem_nil, or_false] at h
    rcases h with rfl | rfl
    · obtain ⟨path, outcome, trained, -, e, he, accesses⟩ := Port.train_up (p := ⟨soc, c⟩)
      exact .back fun _ => .back fun _ => .front ⟨path, outcome, trained, e, he, accesses⟩
    · exact configured (.back fun _ => .back fun _ => .back fun _ => .back fun _ => .back fun _ =>
        .back fun _ => .back fun _ => .back fun _ => .back fun _ => .front (.modify _ _))
  · exact configured (.back fun _ => .back fun _ => .back fun _ => .back fun _ => .back fun _ =>
      .back fun _ => .front (Port.describe_reaches h))
  · exact configured (.back fun _ => .back fun _ => .back fun _ => .back fun _ =>
      .front (Port.tunePhy_reaches h))
  · exact configured (.back fun _ => .back fun _ => .back fun _ => .back fun _ => .back fun _ =>
      .back fun _ => .back fun _ => .back fun _ => .front (Port.unit_reaches haccepted h))
  · obtain ⟨path, outcome, trained, hup, -⟩ := Port.train_up (p := ⟨soc, c⟩)
    refine .back fun _ => .back fun _ => .back_of trained ?_
    dsimp only
    rw [if_pos hup]
    exact .front (Port.probeFilter_reaches h)
  · exact absurd h hlist
  · exact configured (.back fun _ => .front (Port.assertPerst_reaches h))
  · exact configured (.back fun _ => .back fun _ => .back fun _ => .back fun _ => .back fun _ =>
      .front (Port.routeMsi_reaches h))

theorem Host.retrainPort_reaches {soc : Soc} (hr : soc.retrains = true) (policy : RetrainPolicy)
    (patience : Nat) {s : PortState} {a : Address}
    (h : a ∈ Port.capabilityRegisters ⟨soc, s.controller⟩) :
    (retrainPort soc policy patience s).Reaches a := by
  have hup : LinkDebug.isUp 0xD1 = true := by decide
  refine .back_of (r := 0xD1) (runs_read.mpr rfl) ?_
  rw [if_pos hup]
  exact .front (Port.retrain_reaches hr policy patience h)

/-! ## The work on one controller -/

namespace Soc

/-- The exchanges are made on behalf of the controller: its port is brought up, or has its turn in
a retrain, which need not come if an earlier turn has not ended. -/
inductive WorksOn (soc : Soc) (c : Controller) : List Exchange → Prop where
  | bringUp {path : List Exchange} {s : PortState} (h : Runs (PortState.bringUp soc c) path s) :
      WorksOn soc c path
  | turn {s : PortState} {policy : RetrainPolicy} {patience : Nat} {path : List Exchange}
      {r : Option (Option RetrainOutcome)} (hr : soc.retrains = true) (hs : s.controller = c)
      (h : Runs (Host.retrainPort soc policy patience s) path r) : WorksOn soc c path
  | idle : WorksOn soc c []

/-- The register is accessed on behalf of the controller, if the hardware answers so. -/
def Uses (soc : Soc) (c : Controller) (a : Address) : Prop :=
  ∃ path, soc.WorksOn c path ∧ ∃ e ∈ path, e.Accesses [a]

variable {soc : Soc} {c : Controller} {a : Address}

theorem mem_registers_of_uses (h : soc.Uses c a) : a ∈ Port.registers ⟨soc, c⟩ := by
  obtain ⟨path, work, e, he, accesses⟩ := h
  cases work with
  | bringUp h => exact accesses.mem (Port.Confines.bringUp.within _ _ h e he)
  | turn hr hs h =>
    obtain rfl := hs
    have hmem := accesses.mem (Host.retrainPort_within hr _ _ _ h e he)
    exact Port.plainRegisters_subset (Port.retrainRegisters_plain hmem)
  | idle => cases he

/-- A port uses each register of its footprint. -/
theorem uses_of_mem (hs : soc ∈ Soc.all)
    (haccepted : ∀ w ∈ c.outboundWindows, w.fault? soc = none)
    (h : a ∈ Port.registers ⟨soc, c⟩) : soc.Uses c a := by
  by_cases hlist : a ∈ Port.capabilityRegisters ⟨soc, c⟩
  · have hr : soc.retrains = true := by
      by_contra hr
      rw [Port.capabilityRegisters, if_neg hr] at hlist
      cases hlist
    obtain ⟨_, s, hbring⟩ := exists_runs (PortState.bringUp soc c)
    obtain ⟨_, _, _, _, -, -, -, rfl, -⟩ := PortState.bringUp_stages hbring
    obtain ⟨path, r, hpath, access⟩ := Host.retrainPort_reaches hr .standard 0 hlist
    exact ⟨path, .turn hr rfl hpath, access⟩
  · obtain ⟨path, s, hpath, access⟩ := PortState.bringUp_reaches hs haccepted h hlist
    exact ⟨path, .bringUp hpath, access⟩

end Soc

namespace Topology

variable {soc : Soc} {nodes : List Node} {c : Controller} {a : Address}

theorem accepted_windows (hs : soc ∈ Soc.all) (hc : c ∈ (load soc nodes).controllers) :
    ∀ w ∈ c.outboundWindows, w.fault? soc = none := by
  obtain ⟨_, _, _, plan⟩ := (admitted hc).windowPlan (Soc.outboundRegions_gt hs)
  exact plan.accepted

/-- The registers that the program accesses for a loaded controller are those of its port. -/
theorem uses_iff (hs : soc ∈ Soc.all) (hc : c ∈ (load soc nodes).controllers) :
    soc.Uses c a ↔ a ∈ Port.registers ⟨soc, c⟩ :=
  ⟨Soc.mem_registers_of_uses, Soc.uses_of_mem hs (accepted_windows hs hc)⟩

end Topology

end RootComplex
