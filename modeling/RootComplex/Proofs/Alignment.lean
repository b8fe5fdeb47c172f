import RootComplex.Proofs.BlockSharing

/-! # Alignment

Registers are words, and only whole words are accessed. Offsets, strides and capability headers are
multiples of four, and so are the blocks that the chip or the loader places. The one block that the
loader takes as it is declared decides: a bring-up keeps to whole words exactly if that block begins
with one. -/

namespace RootComplex

open Program

/-! ## Words -/

/-- A register can be at the address. -/
def Address.WordAligned (a : Address) : Prop := 4 ∣ a.toNat

instance (a : Address) : Decidable a.WordAligned := inferInstanceAs (Decidable (_ ∣ _))

/-- The command accesses no part of a register. -/
def Command.WordAligned : Command → Prop
  | .read a => a.WordAligned
  | .write a _ => a.WordAligned
  | _ => True

theorem Command.Touches.wordAligned {regs : List Address} {c : Command} (h : c.Touches regs)
    (hregs : ∀ a ∈ regs, a.WordAligned) : c.WordAligned := by
  cases c with
  | read a => exact hregs a h
  | write a v => exact hregs a h
  | _ => trivial

theorem Program.Within.wordAligned {α : Type} {p : Program α} {regs : List Address}
    (h : p.Within regs) (hregs : ∀ a ∈ regs, a.WordAligned) : p.Issues Command.WordAligned :=
  Issues.mono h fun _ hc => hc.wordAligned hregs

/-- An offset of whole words keeps the alignment, as sums wrap at a multiple of four. -/
theorem Address.wordAligned_at {base : Address} {offset : Nat} (ho : 4 ∣ offset) :
    (base.at offset).WordAligned ↔ base.WordAligned := by
  rw [WordAligned, WordAligned, Address.at, BitVec.toNat_add, BitVec.toNat_ofNat]
  omega

theorem Address.Aligned.wordAligned {a : Address} (h : a.Aligned) : a.WordAligned := by
  rw [Address.Aligned, Translation.granule] at h
  rw [WordAligned]
  omega

/-! ## Registers of a port -/

namespace Soc

variable {soc : Soc}

theorem control_wordAligned (hs : soc ∈ Soc.all) :
    4 ∣ soc.control.reset ∧ 4 ∣ soc.control.linkStatus ∧ 4 ∣ soc.control.ltssmControl ∧
      ∀ poll ∈ soc.control.resetDone, 4 ∣ poll.offset := by
  revert soc
  decide

theorem shared_wordAligned (hs : soc ∈ Soc.all) {a : Address} (ha : a ∈ soc.sharedRegisters) :
    a.WordAligned := by
  have all : ∀ soc ∈ Soc.all, ∀ m ∈ soc.sharedRegisters.map (·.toNat), 4 ∣ m := by decide
  exact all soc hs a.toNat (List.mem_map_of_mem ha)

theorem numberedBlock_wordAligned (hs : soc ∈ Soc.all) {i : Nat} (hi : i < soc.controllers) :
    (soc.numberedBlock i).WordAligned := by
  revert i
  revert soc
  decide +kernel

/-- A region's registers are whole words into the root port block. -/
theorem exists_unit_offset (hs : soc ∈ Soc.all) (dbi : Address) (region : Nat) :
    ∃ offset, 4 ∣ offset ∧
      ∀ i, (OutboundWindow.block soc dbi region).at i = dbi.at (offset + i) := by
  simp only [Soc.all, List.mem_cons, List.not_mem_nil, or_false] at hs
  rcases hs with rfl | rfl
  · exact ⟨0, dvd_zero 4, fun i => by rw [Nat.zero_add]; rfl⟩
  · have hregions : Bs1000.soc.regions = .mapped (BitVec.ofNat 64 0x80000) := rfl
    refine ⟨0x80000 + region * 0x200, by omega, fun i => ?_⟩
    rw [OutboundWindow.at_block hregions, Nat.add_assoc]

end Soc

namespace Port

variable {p : Port} {a : Address}

/-- All blocks of the port begin with a whole word. -/
structure BlocksAligned (p : Port) : Prop where
  dbi : p.controller.dbi.WordAligned
  control : p.controller.control.WordAligned
  config : p.controller.config.WordAligned

namespace BlocksAligned

theorem dbi_at (h : p.BlocksAligned) {offset : Nat} (ho : 4 ∣ offset) :
    (p.dbi offset).WordAligned := (Address.wordAligned_at ho).mpr h.dbi

theorem control_at (h : p.BlocksAligned) {offset : Nat} (ho : 4 ∣ offset) :
    (p.control offset).WordAligned := (Address.wordAligned_at ho).mpr h.control

theorem config_at (h : p.BlocksAligned) {offset : Nat} (ho : 4 ∣ offset) :
    (p.config offset).WordAligned := (Address.wordAligned_at ho).mpr h.config

theorem identity (h : p.BlocksAligned) (ha : a ∈ p.identityRegisters) : a.WordAligned := by
  simp only [identityRegisters, laneRegisters, List.cons_append, List.nil_append, List.mem_cons,
    List.mem_flatMap, List.mem_map] at ha
  rcases ha with rfl | rfl | ⟨lanes, -, rfl | rfl | ⟨_, -, rfl⟩⟩ <;> exact h.dbi_at (by decide)

theorem phy (h : p.BlocksAligned) (ha : a ∈ p.phyRegisters) : a.WordAligned := by
  unfold phyRegisters at ha
  split at ha
  · cases ha
  · obtain ⟨offset, ho, rfl⟩ := List.mem_map.mp ha
    have words : ∀ offset ∈ [PhyPort.lanes, PhyPort.address, PhyPort.data, PhyPort.status],
        4 ∣ offset := by decide
    exact h.dbi_at (words offset ho)

theorem region (hs : p.soc ∈ Soc.all) (h : p.BlocksAligned) {number : Nat}
    (ha : a ∈ regionRegisters (OutboundWindow.registers p.soc)
      (OutboundWindow.block p.soc p.controller.dbi number)) : a.WordAligned := by
  have words : ∀ soc ∈ Soc.all, let regs := OutboundWindow.registers soc
      ∀ i ∈ [regs.control1, regs.control2, regs.lowerBase, regs.upperBase, regs.limit,
        regs.lowerTarget, regs.upperTarget, regs.upperLimit], 4 ∣ i := by decide
  obtain ⟨i, hi, rfl⟩ := List.mem_map.mp ha
  obtain ⟨offset, ho, at_offset⟩ := Soc.exists_unit_offset hs p.controller.dbi number
  rw [at_offset]
  exact h.dbi_at (Nat.dvd_add ho (words p.soc hs i hi))

theorem unit (hs : p.soc ∈ Soc.all) (h : p.BlocksAligned) (ha : a ∈ p.unitRegisters) :
    a.WordAligned := by
  have region := fun number => @region p a hs h number
  unfold OutboundWindow.registers OutboundWindow.block at region
  unfold unitRegisters OutboundWindow.block at ha
  cases hregions : p.soc.regions with
  | viewport =>
    rw [hregions] at ha region
    rcases List.mem_cons.mp ha with rfl | ha
    · exact h.dbi_at (by decide)
    · exact region 0 ha
  | mapped offset =>
    rw [hregions] at ha region
    obtain ⟨w, -, ha⟩ := List.mem_flatMap.mp ha
    exact region w.region ha

theorem capability (h : p.BlocksAligned) (ha : a ∈ p.capabilityRegisters) : a.WordAligned := by
  unfold capabilityRegisters at ha
  split at ha
  · obtain ⟨offset, ho, rfl⟩ := List.mem_map.mp ha
    obtain ⟨k, -, rfl⟩ := List.mem_map.mp ho
    exact h.config_at (by omega)
  · cases ha

/-- The port then uses whole words only. -/
theorem registers (hs : p.soc ∈ Soc.all) (h : p.BlocksAligned) :
    ∀ a ∈ p.registers, a.WordAligned := by
  intro a ha
  obtain ⟨hreset, hstatus, hltssm, hdone⟩ := Soc.control_wordAligned hs
  rcases mem_registers_iff_own.mp ha with ha | ha
  · simp only [ownRegisters, quietGroups, List.flatten_cons, List.flatten_nil, List.append_nil,
      List.mem_cons, List.mem_append, List.not_mem_nil, or_false] at ha
    rcases ha with rfl | rfl | rfl | ha | ha | ha | ha | ha | ha | ha
    · exact h.control_at hltssm
    · exact h.control_at hreset
    · exact h.control_at hstatus
    · obtain ⟨poll, hpoll, rfl⟩ := List.mem_map.mp ha
      exact h.control_at (hdone poll (Option.mem_toList.mp hpoll))
    · simp only [linkRegisters, List.mem_cons, List.not_mem_nil, or_false] at ha
      rcases ha with rfl | rfl <;> exact h.dbi_at (by decide)
    · exact h.identity ha
    · exact h.phy ha
    · exact h.unit hs ha
    · simp only [probeRegisters, List.mem_cons, List.not_mem_nil, or_false] at ha
      rcases ha with rfl | rfl <;> exact h.config_at (by decide)
    · exact h.capability ha
  · exact Soc.shared_wordAligned hs (sharedRegisters_sublist.subset ha)

end BlocksAligned

end Port

/-! ## Blocks of a loaded controller -/

/-- The base of the register block that the node places as it likes. -/
def Controller.declaredBase (soc : Soc) (c : Controller) : Address :=
  match soc.blocks with
  | .named _ _ => c.dbi
  | .positional _ => c.control

namespace Topology

variable {soc : Soc} {nodes : List Node} {c : Controller}

/-- The chip aligns the numbered block and the loader the config window. -/
theorem blocksAligned_iff (hs : soc ∈ Soc.all) (hc : c ∈ (load soc nodes).controllers) :
    Port.BlocksAligned ⟨soc, c⟩ ↔ (c.declaredBase soc).WordAligned := by
  have numbered : (c.numberedBase soc).WordAligned := by
    rw [numberedBase_of_mem hc]
    exact Soc.numberedBlock_wordAligned hs (index_lt hs hc)
  have config : c.config.WordAligned := (admitted hc).config.2.1.wordAligned
  unfold Controller.numberedBase at numbered
  unfold Controller.declaredBase
  cases hblocks : soc.blocks with
  | named _ _ =>
    rw [hblocks] at numbered
    exact ⟨fun h => h.dbi, fun h => ⟨h, numbered, config⟩⟩
  | positional _ =>
    rw [hblocks] at numbered
    exact ⟨fun h => h.control, fun h => ⟨numbered, h, config⟩⟩

end Topology

/-! ## Accesses of a run -/

/-- Each bring-up of a port looks into two of its blocks, whatever the hardware answers. -/
theorem PortState.bringUp_reads {soc : Soc} {c : Controller} {path : List Exchange} {s : PortState}
    (h : Runs (PortState.bringUp soc c) path s) :
    (∃ v, ⟨.read (c.control.at soc.control.ltssmControl), v⟩ ∈ path) ∧
      ∃ v, ⟨.read (c.dbi.at PortLogic.miscControl1), v⟩ ∈ path := by
  obtain ⟨_, reset, _, _, hreset, -, -, -, -, rfl⟩ := bringUp_stages h
  obtain ⟨off, _, _, _, _, _, describe, _, _, _, _, _, hoff, -, -, -, -, -, hdescribe, -, -, -, -,
    rfl⟩ := Port.configure_stages hreset
  obtain ⟨v, rfl⟩ := Path.of_modify hoff
  obtain ⟨_, writable, _, hwritable, -, rfl⟩ := hdescribe.bind
  obtain ⟨w, rfl⟩ := Path.of_modify hwritable
  constructor
  · refine ⟨v, List.mem_cons_of_mem _ (List.mem_append_left _ (List.mem_append_left _ ?_))⟩
    exact List.mem_cons_self
  · refine ⟨w, List.mem_cons_of_mem _ (List.mem_append_left _ ?_)⟩
    simp [Path.modified, Port.dbi]

namespace Host

variable {soc : Soc} {nodes : List Node} {path : List Exchange}

theorem bringUp_wordAligned_iff (hs : soc ∈ Soc.all) {host : Host}
    (h : Runs (bringUp (Topology.load soc nodes)) path host) :
    (∀ e ∈ path, e.command.WordAligned) ↔
      ∀ c ∈ (Topology.load soc nodes).controllers, (c.declaredBase soc).WordAligned := by
  obtain ⟨hports, -, -⟩ := bringUp_ports h
  constructor
  · intro haligned c hc
    obtain ⟨before, after, hsplit⟩ := List.append_of_mem hc
    rw [hsplit] at hports
    obtain ⟨_, middle, _, _, _, _, -, hmiddle, -, -, rfl⟩ := bringUpPorts_split hports
    obtain ⟨⟨v, hcontrol⟩, w, hdbi⟩ := PortState.bringUp_reads hmiddle
    have inside {e : Exchange} (he : e ∈ middle) : e.command.WordAligned :=
      haligned e (List.mem_append_right _ (List.mem_append_left _ he))
    have control : (c.control.at soc.control.ltssmControl).WordAligned := inside hcontrol
    have dbi : (c.dbi.at PortLogic.miscControl1).WordAligned := inside hdbi
    refine (Topology.blocksAligned_iff hs hc).mp ⟨?_, ?_, ?_⟩
    · exact (Address.wordAligned_at (by decide)).mp dbi
    · exact (Address.wordAligned_at (Soc.control_wordAligned hs).2.2.1).mp control
    · exact (Topology.admitted hc).config.2.1.wordAligned
  · intro hbases e he
    refine (bringUpPorts_within _ _ _ hports e he).wordAligned fun a ha => ?_
    obtain ⟨c, hc, ha⟩ := List.mem_flatMap.mp ha
    exact ((Topology.blocksAligned_iff hs hc).mpr (hbases c hc)).registers hs a ha

/-- All ports of the host have their blocks aligned. -/
def BlocksAligned (h : Host) : Prop :=
  ∀ c ∈ h.ports.map (·.controller), Port.BlocksAligned ⟨h.soc, c⟩

namespace BlocksAligned

variable {h : Host}

theorem retrain (hs : h.soc ∈ Soc.all) (hb : h.BlocksAligned) (policy : RetrainPolicy)
    (patience : Nat) : (h.retrain policy patience).Issues Command.WordAligned := by
  refine h.retrain_within.wordAligned fun a ha => ?_
  obtain ⟨c, hc, ha⟩ := List.mem_flatMap.mp ha
  exact (hb c hc).registers hs a (Port.plainRegisters_subset (Port.retrainRegisters_plain ha))

/-- What a look at a live link reads belongs to the footprint of its port. -/
theorem look (hs : h.soc ∈ Soc.all) (hb : h.BlocksAligned) (i : Nat) :
    (h.isLinkUp i).Issues Command.WordAligned ∧
      (h.negotiatedLink i).Issues Command.WordAligned := by
  unfold isLinkUp negotiatedLink
  cases hport : h.port? i with
  | none => exact ⟨.done _, .done _⟩
  | some s =>
    have hregs := (hb _ (List.mem_map_of_mem (List.mem_of_find?_eq_some hport))).registers hs
    have debug : (Port.linkDebug ⟨h.soc, s.controller⟩).Issues Command.WordAligned :=
      .read (hregs _ (Port.mem_registers.mpr (.inr (.inr (.inl rfl)))))
    have status : (Port.linkStatus ⟨h.soc, s.controller⟩).Issues Command.WordAligned :=
      Port.linkStatus_within.wordAligned fun a ha =>
        hregs a (Port.mem_registers_iff_own.mpr (.inl (Port.linkRegisters_own ha)))
    refine ⟨debug.bind fun _ => .done _, debug.bind fun word => ?_⟩
    split
    · exact status.bind fun _ => .done _
    · exact .done _

end BlocksAligned

end Host

/-- A bring-up keeps to whole words exactly if the block that each node declares begins with one:
the DBI block on the chip that finds its control slices itself, the APB block on the other. The
hosts that come of it keep to whole words as well, through all retrains and looks at their links. -/
theorem accesses_aligned_iff {soc : Soc} (hs : soc ∈ Soc.all) {nodes : List Node}
    {front : List Exchange} {first : Host}
    (h : Runs (Host.bringUp (Topology.load soc nodes)) front first) :
    ((∀ e ∈ front, e.command.WordAligned) ↔
      ∀ c ∈ (Topology.load soc nodes).controllers, (c.declaredBase soc).WordAligned) ∧
    ((∀ c ∈ (Topology.load soc nodes).controllers, (c.declaredBase soc).WordAligned) →
      ∀ patience policies back last calls,
        Runs (Host.retrainAll patience first policies) back (some (last, calls)) →
        (∀ policy more, (last.retrain policy more).Issues Command.WordAligned) ∧
        ∀ i, (last.isLinkUp i).Issues Command.WordAligned ∧
          (last.negotiatedLink i).Issues Command.WordAligned) := by
  refine ⟨Host.bringUp_wordAligned_iff hs h,
    fun hbases patience policies back last calls hback => ?_⟩
  obtain ⟨hports, hsoc, -⟩ := Host.bringUp_ports h
  obtain ⟨hsoc', hcontrollers⟩ := Host.controllers_of_retrainAll hback
  have chip : last.soc = soc := hsoc'.trans hsoc
  have aligned : last.BlocksAligned := by
    rw [Host.BlocksAligned, chip, hcontrollers, Host.controllers_of_bringUpPorts hports]
    exact fun c hc => (Topology.blocksAligned_iff hs hc).mpr (hbases c hc)
  exact ⟨aligned.retrain (chip ▸ hs), aligned.look (chip ▸ hs)⟩

/-- The DBI block of `exampleNode` begins with a word. -/
theorem accesses_aligned_iff_example :
    Bm1000.soc ∈ Soc.all ∧
      ∃ path host, Runs (Host.bringUp (Topology.load Bm1000.soc [exampleNode])) path host ∧
        (∀ e ∈ path, e.command.WordAligned) ∧
        (host.retrain .standard 0).Issues Command.WordAligned := by
  have hs : Bm1000.soc ∈ Soc.all := List.mem_cons_self
  have hbases : ∀ c ∈ (Topology.load Bm1000.soc [exampleNode]).controllers,
      (c.declaredBase Bm1000.soc).WordAligned := by
    rw [load_exampleNode]
    intro c hc
    obtain rfl := List.mem_singleton.mp hc
    decide
  obtain ⟨path, host, h⟩ := exists_runs (Host.bringUp (Topology.load Bm1000.soc [exampleNode]))
  obtain ⟨aligned, later⟩ := accesses_aligned_iff hs h
  obtain ⟨retrain, -⟩ := later hbases 0 [] [] host [] (.done _)
  exact ⟨hs, path, host, h, aligned.mpr hbases, retrain .standard 0⟩

/-- `exampleNode` with its DBI block in the middle of a word. -/
def oddDbiNode : Node := exampleNode.edit
  (.cells "reg" [0, 0x03200002, 0, 0x1000, 0x10, 0, 0, 0x10000000])

/-- `highNode` with its APB block one byte into a word. -/
def oddControlNode : Node := highNode.edit
  (.cells "reg" [0, 0x4D100000, 0, 0x100000, 0, 0x4E080001, 0, 0x1000, 0xF0, 0, 0, 0x310000])

/-- Either chip takes a declared block that no register can begin with. -/
theorem misaligned_block_accessed :
    ¬(Host.bringUp (Topology.load Bm1000.soc [oddDbiNode])).Issues Command.WordAligned ∧
      ¬(Host.bringUp (Topology.load Bs1000.soc [oddControlNode])).Issues Command.WordAligned := by
  constructor
  · intro h
    have hs : Bm1000.soc ∈ Soc.all := List.mem_cons_self
    have hc : { exampleController with dbi := 0x03200002 } ∈
        (Topology.load Bm1000.soc [oddDbiNode]).controllers :=
      Topology.mem_load_iff.mpr (by decide +kernel)
    obtain ⟨path, host, hpath⟩ :=
      exists_runs (Host.bringUp (Topology.load Bm1000.soc [oddDbiNode]))
    have aligned := (Host.bringUp_wordAligned_iff hs hpath).mp (h path host hpath) _ hc
    exact absurd aligned (by decide)
  · intro h
    have hs : Bs1000.soc ∈ Soc.all := List.mem_cons_of_mem _ List.mem_cons_self
    have hc : { highController with control := 0x4E080001 } ∈
        (Topology.load Bs1000.soc [oddControlNode]).controllers :=
      Topology.mem_load_iff.mpr (by decide +kernel)
    obtain ⟨path, host, hpath⟩ :=
      exists_runs (Host.bringUp (Topology.load Bs1000.soc [oddControlNode]))
    have aligned := (Host.bringUp_wordAligned_iff hs hpath).mp (h path host hpath) _ hc
    exact absurd aligned (by decide)

end RootComplex
