import RootComplex.Proofs.ConfigSpace
import RootComplex.Proofs.FirstClaim
import RootComplex.Proofs.Reach
import RootComplex.Proofs.RetrainEnds
import RootComplex.Proofs.TranslationUnit

/-! # Blocks of their own

No two controllers have one number, so the block that the chip gives to a number is used for one
controller only. The bases of the other blocks are what the nodes declare them to be, and the loader
does not compare them: controllers keep their registers to themselves exactly if the blocks that
their nodes declare are apart from the registers of the others. -/

namespace RootComplex

open Program

/-! ## The three blocks of a port -/

namespace Port

variable {p : Port} {a : Address}

def controlRegisters (p : Port) : List Address :=
  [p.ltssmRegister, p.resetRegister, p.linkStatusRegister] ++ p.doneRegisters

def dbiRegisters (p : Port) : List Address :=
  p.linkRegisters ++ p.identityRegisters ++ p.phyRegisters ++ p.unitRegisters

def configRegisters (p : Port) : List Address := p.probeRegisters ++ p.capabilityRegisters

/-- The registers in the block that goes with the controller's number. -/
def numberedRegisters (p : Port) : List Address :=
  match p.soc.blocks with
  | .named _ _ => p.controlRegisters
  | .positional _ => p.dbiRegisters

/-- The registers in the blocks that the node places as it likes. -/
def declaredRegisters (p : Port) : List Address :=
  match p.soc.blocks with
  | .named _ _ => p.dbiRegisters ++ p.configRegisters
  | .positional _ => p.controlRegisters ++ p.configRegisters

theorem mem_ownRegisters :
    a ∈ p.ownRegisters ↔ a ∈ p.numberedRegisters ∨ a ∈ p.declaredRegisters := by
  unfold numberedRegisters declaredRegisters
  split <;>
    simp only [ownRegisters, quietGroups, controlRegisters, dbiRegisters, configRegisters,
      List.flatten_cons, List.flatten_nil, List.append_nil, List.mem_cons, List.mem_append,
      List.not_mem_nil, or_false] <;>
    grind

theorem mem_registers_iff_own : a ∈ p.registers ↔ a ∈ p.ownRegisters ∨ a ∈ p.sharedRegisters := by
  rw [registers, quietRegisters, ← List.cons_append, List.mem_append, ownRegisters]

end Port

/-! ## Blocks that go with a number -/

namespace Soc

/-- Where the block of a controller's number begins. -/
def numberedBlock (soc : Soc) (i : Nat) : Address :=
  match soc.blocks with
  | .named controlBase stride => controlBase + BitVec.ofNat 64 i * stride
  | .positional dbiBases => dbiBases.getD i 0

/-- A slice of the shared control block, or the least distance between two root port blocks. -/
def blockSize (soc : Soc) : Nat :=
  match soc.blocks with
  | .named _ stride => stride.toNat
  | .positional _ => 0x100000

variable {soc : Soc} {i j : Nat}

theorem numberedBlock_fits (hs : soc ∈ Soc.all) (hi : i < soc.controllers) :
    (soc.numberedBlock i).toNat + soc.blockSize ≤ Address.count := by
  revert i
  revert soc
  decide +kernel

theorem numberedBlock_apart (hs : soc ∈ Soc.all) (hi : i < soc.controllers)
    (hj : j < soc.controllers) (hne : i ≠ j) :
    (soc.numberedBlock i).toNat + soc.blockSize ≤ (soc.numberedBlock j).toNat ∨
      (soc.numberedBlock j).toNat + soc.blockSize ≤ (soc.numberedBlock i).toNat := by
  have all : ∀ soc ∈ Soc.all, ∀ i < soc.controllers, ∀ j < soc.controllers, i ≠ j →
      (soc.numberedBlock i).toNat + soc.blockSize ≤ (soc.numberedBlock j).toNat ∨
        (soc.numberedBlock j).toNat + soc.blockSize ≤ (soc.numberedBlock i).toNat := by
    decide +kernel
  exact all soc hs i hi j hj hne

theorem numberedBlock_unshared (hs : soc ∈ Soc.all) (hi : i < soc.controllers) {a : Address}
    (ha : a ∈ soc.sharedRegisters) :
    a.toNat < (soc.numberedBlock i).toNat ∨
      (soc.numberedBlock i).toNat + soc.blockSize ≤ a.toNat := by
  -- over numbers, as a search over all addresses would be tried otherwise
  have all : ∀ soc ∈ Soc.all, ∀ i < soc.controllers, ∀ m ∈ soc.sharedRegisters.map (·.toNat),
      m < (soc.numberedBlock i).toNat ∨ (soc.numberedBlock i).toNat + soc.blockSize ≤ m := by
    decide +kernel
  exact all soc hs i hi a.toNat (List.mem_map_of_mem ha)

end Soc

/-- The base of the block that goes with the controller's number. -/
def Controller.numberedBase (soc : Soc) (c : Controller) : Address :=
  match soc.blocks with
  | .named _ _ => c.control
  | .positional _ => c.dbi

theorem Placement.numbered_of_locate {soc : Soc} {n : Node} {regions : List Region}
    {p : Placement} (h : locate soc n regions = .ok p) :
    (∃ controlBase stride, soc.blocks = .named controlBase stride ∧
      p.control = soc.numberedBlock p.index) ∨
    ∃ dbiBases, soc.blocks = .positional dbiBases ∧ p.dbi.base = soc.numberedBlock p.index := by
  rcases locate_eq_ok h with ⟨controlBase, stride, names, hblocks, -⟩ |
    ⟨dbiBases, apb, hblocks, -, hx, -⟩
  · rw [locate, hblocks] at h
    obtain ⟨_, -, h⟩ := Except.bind_eq_ok.mp h
    obtain ⟨_, -, h⟩ := Except.bind_eq_ok.mp h
    obtain ⟨_, -, h⟩ := Except.bind_eq_ok.mp h
    obtain ⟨_, -, h⟩ := Except.bind_eq_ok.mp h
    cases h
    exact .inl ⟨controlBase, stride, hblocks, by rw [Soc.numberedBlock, hblocks]⟩
  · obtain ⟨hlt, hbase, -⟩ := List.idxOf?_eq_some_iff.mp hx
    have entry : dbiBases.getD p.index 0 = p.dbi.base := by
      rw [List.getD_eq_getElem?_getD, List.getElem?_eq_getElem hlt]
      exact hbase
    refine .inr ⟨dbiBases, hblocks, ?_⟩
    rw [Soc.numberedBlock, hblocks]
    exact entry.symm

theorem Controller.numberedBase_of_ofNode {soc : Soc} {n : Node} {c : Controller}
    (h : Controller.ofNode soc n = .ok c) : c.numberedBase soc = soc.numberedBlock c.index := by
  obtain ⟨p, _, _, _, _, _, hp, -, -, -, -, -, rfl⟩ := ofNode_eq_ok.mp h
  obtain ⟨-, regions, hl⟩ := Placement.locate_of_ofNode hp
  rcases Placement.numbered_of_locate hl with ⟨_, _, hblocks, hbase⟩ | ⟨_, hblocks, hbase⟩
  · rw [numberedBase, hblocks]
    exact hbase
  · rw [numberedBase, hblocks]
    exact hbase

theorem Topology.numberedBase_of_mem {soc : Soc} {nodes : List Node} {c : Controller}
    (hc : c ∈ (load soc nodes).controllers) : c.numberedBase soc = soc.numberedBlock c.index := by
  obtain ⟨_, n, _, -, -, hn, -⟩ := mem_load_iff_first.mp hc
  exact Controller.numberedBase_of_ofNode hn

/-! ## Registers in the numbered block -/

/-- A register of a mapped region, counted from the root port block. -/
theorem OutboundWindow.at_block {soc : Soc} {offset : Nat}
    (hregions : soc.regions = .mapped (BitVec.ofNat 64 offset)) (dbi : Address) (region i : Nat) :
    (block soc dbi region).at i = dbi.at (offset + (region * 0x200 + i)) := by
  rw [block, hregions]
  dsimp only
  rw [TranslationUnit.at_stride, Address.at, Address.at, BitVec.ofNat_add offset,
    BitVec.add_assoc]

namespace Port

variable {soc : Soc} {c : Controller} {a : Address}

theorem exists_offset_bm1000 (h : a ∈ controlRegisters ⟨Bm1000.soc, c⟩) :
    ∃ offset < Bm1000.soc.blockSize, a = c.control.at offset := by
  have offsets : controlRegisters ⟨Bm1000.soc, c⟩ = [Bm1000.generalControlOffset,
      Bm1000.resetOffset, Bm1000.linkStatusOffset].map c.control.at := rfl
  rw [offsets] at h
  obtain ⟨offset, hmem, rfl⟩ := List.mem_map.mp h
  have hbound : ∀ offset ∈ [Bm1000.generalControlOffset, Bm1000.resetOffset,
      Bm1000.linkStatusOffset], offset < Bm1000.soc.blockSize := by decide
  exact ⟨offset, hbound offset hmem, rfl⟩

theorem exists_offset_bs1000 (haccepted : ∀ w ∈ c.outboundWindows, w.fault? Bs1000.soc = none)
    (h : a ∈ dbiRegisters ⟨Bs1000.soc, c⟩) :
    ∃ offset < Bs1000.soc.blockSize, a = c.dbi.at offset := by
  have hregions : Bs1000.soc.regions = .mapped (BitVec.ofNat 64 0x80000) := rfl
  have hsize : Bs1000.soc.blockSize = 0x100000 := rfl
  have hcount : Bs1000.soc.outboundRegions = 16 := rfl
  rw [hsize]
  simp only [dbiRegisters, linkRegisters, identityRegisters, laneRegisters, phyRegisters,
    unitRegisters, hregions, List.mem_append, List.mem_cons, List.mem_flatMap, List.mem_map,
    List.not_mem_nil, or_false] at h
  rcases h with ((h | h) | h) | ⟨w, hw, h⟩
  · rcases h with rfl | rfl <;> exact ⟨_, by decide, rfl⟩
  · rcases h with (rfl | rfl) | ⟨lanes, -, (rfl | rfl) | ⟨_, -, rfl⟩⟩ <;>
      exact ⟨_, by decide, rfl⟩
  · cases h
  · obtain ⟨i, hi, rfl⟩ := List.mem_map.mp h
    have hbound : ∀ i ∈ [Translation.mappedRegisters.control1, Translation.mappedRegisters.control2,
        Translation.mappedRegisters.lowerBase, Translation.mappedRegisters.upperBase,
        Translation.mappedRegisters.limit, Translation.mappedRegisters.lowerTarget,
        Translation.mappedRegisters.upperTarget, Translation.mappedRegisters.upperLimit],
        i < 0x200 := by decide
    have hregion := (OutboundWindow.fault?_eq_none.mp (haccepted w hw)).2.2
    have hi := hbound i hi
    rw [hcount] at hregion
    exact ⟨_, by omega, OutboundWindow.at_block hregions _ _ _⟩

/-- A numbered register is at an offset into the block that goes with the number. -/
theorem exists_offset (hs : soc ∈ Soc.all)
    (haccepted : ∀ w ∈ c.outboundWindows, w.fault? soc = none)
    (h : a ∈ numberedRegisters ⟨soc, c⟩) :
    ∃ offset < soc.blockSize, a = (c.numberedBase soc).at offset := by
  simp only [Soc.all, List.mem_cons, List.not_mem_nil, or_false] at hs
  rcases hs with rfl | rfl
  · exact exists_offset_bm1000 h
  · exact exists_offset_bs1000 haccepted h

end Port

namespace Topology

variable {soc : Soc} {nodes : List Node} {c d : Controller} {a : Address}

theorem numbered_bounds (hs : soc ∈ Soc.all) (hc : c ∈ (load soc nodes).controllers)
    (ha : a ∈ Port.numberedRegisters ⟨soc, c⟩) :
    (soc.numberedBlock c.index).toNat ≤ a.toNat ∧
      a.toNat < (soc.numberedBlock c.index).toNat + soc.blockSize := by
  obtain ⟨offset, hoffset, rfl⟩ := Port.exists_offset hs (accepted_windows hs hc) ha
  have hfits := soc.numberedBlock_fits hs (index_lt hs hc)
  have hcount : Address.count = 2 ^ 64 := rfl
  rw [hcount] at hfits
  rw [numberedBase_of_mem hc, Address.at, BitVec.toNat_add, BitVec.toNat_ofNat]
  omega

/-- The block that goes with a number is used for the controller of this number only. -/
theorem numbered_disjoint (hs : soc ∈ Soc.all) (hc : c ∈ (load soc nodes).controllers)
    (hd : d ∈ (load soc nodes).controllers) (hne : c ≠ d) :
    List.Disjoint (Port.numberedRegisters ⟨soc, c⟩) (Port.numberedRegisters ⟨soc, d⟩) := by
  intro a hac had
  have hindex : c.index ≠ d.index := fun he =>
    hne (List.inj_on_of_nodup_map nodup_index hc hd he)
  have apart := soc.numberedBlock_apart hs (index_lt hs hc) (index_lt hs hd) hindex
  have first := numbered_bounds hs hc hac
  have second := numbered_bounds hs hd had
  omega

theorem numbered_unshared (hs : soc ∈ Soc.all) (hc : c ∈ (load soc nodes).controllers) :
    List.Disjoint (Port.numberedRegisters ⟨soc, c⟩) soc.sharedRegisters := by
  intro a hac has
  have bounds := numbered_bounds hs hc hac
  have apart := soc.numberedBlock_unshared hs (index_lt hs hc) has
  omega

end Topology

/-! ## The work of a host -/

/-- The accesses of a path are made on behalf of these controllers, one after another. -/
def Soc.WorksThrough (soc : Soc) (cs : List Controller) (path : List Exchange) : Prop :=
  ∃ parts : List (List Exchange), List.Forall₂ soc.WorksOn cs parts ∧
    Path.accesses path = Path.accesses parts.flatten

namespace Host

variable {soc : Soc} {policy : RetrainPolicy} {patience : Nat} {path : List Exchange}

theorem bringUp_works {t : Topology} {host : Host} (h : Runs (bringUp t) path host) :
    t.soc.WorksThrough t.controllers path := by
  obtain ⟨hports, -, -⟩ := bringUp_ports h
  obtain ⟨parts, rfl, hparts⟩ := bringUpPorts_parts hports
  refine ⟨parts, ?_, rfl⟩
  rw [← controllers_of_bringUpPorts hports, List.forall₂_map_left_iff]
  exact hparts.imp fun _ _ hpart => .bringUp hpart

theorem works_idle (soc : Soc) (cs : List Controller) :
    ∃ parts : List (List Exchange), List.Forall₂ soc.WorksOn cs parts ∧ parts.flatten = [] := by
  induction cs with
  | nil => exact ⟨[], .nil, rfl⟩
  | cons c rest ih =>
    obtain ⟨parts, hparts, hflat⟩ := ih
    exact ⟨[] :: parts, .cons .idle hparts, by rw [List.flatten_cons, hflat, List.append_nil]⟩

/-- Each port has its turn, and those after a turn that has not ended have none. -/
theorem retrainPorts_works (hr : soc.retrains = true) {ports : List PortState}
    {result : Option (List PortState × List RetrainReport)}
    (h : Runs (retrainPorts soc policy patience ports) path result) :
    ∃ parts, List.Forall₂ soc.WorksOn (ports.map (·.controller)) parts ∧ path = parts.flatten := by
  induction ports generalizing path result with
  | nil => exact ⟨[], .nil, (runs_done.mp h).1⟩
  | cons s rest ih =>
    obtain ⟨r, front, tail, hfront, rfl, hend⟩ := retrainPorts_cons h
    rcases hend with ⟨rfl, rfl, -⟩ | ⟨_, _, rfl, htail, -⟩
    · obtain ⟨parts, hparts, hflat⟩ := works_idle soc (rest.map (·.controller))
      exact ⟨front :: parts, .cons (.turn hr rfl hfront) hparts, by rw [List.flatten_cons, hflat]⟩
    · obtain ⟨parts, hparts, rfl⟩ := ih htail
      exact ⟨front :: parts, .cons (.turn hr rfl hfront) hparts, rfl⟩

theorem retrain_works {h : Host} {result : Option (Host × List RetrainReport)}
    (hr : Runs (h.retrain policy patience) path result) :
    h.soc.WorksThrough (h.ports.map (·.controller)) path := by
  rcases retrain_cases hr with ⟨retrains, r, hports, -⟩ | ⟨-, ⟨_, rfl⟩, -⟩
  · obtain ⟨parts, hparts, rfl⟩ := retrainPorts_works retrains hports
    exact ⟨parts, hparts, rfl⟩
  · obtain ⟨parts, hparts, hflat⟩ := works_idle h.soc (h.ports.map (·.controller))
    exact ⟨parts, hparts, by rw [hflat]; rfl⟩

end Host

/-! ## Controllers that keep to themselves -/

namespace Topology

/-- No register in the blocks of a controller that is accessed on its behalf is accessed on behalf
of another one as well, and two controllers have no others in common than the registers of the
PERST# lines and of the message interrupts. -/
structure Exclusive (t : Topology) : Prop where
  own : ∀ c ∈ t.controllers, ∀ d ∈ t.controllers, c ≠ d → ∀ a ∈ Port.ownRegisters ⟨t.soc, c⟩,
    t.soc.Uses c a → ¬t.soc.Uses d a
  shared : ∀ c ∈ t.controllers, ∀ d ∈ t.controllers, c ≠ d → ∀ a,
    t.soc.Uses c a → t.soc.Uses d a → a ∈ t.soc.sharedRegisters

variable {soc : Soc} {nodes : List Node}

theorem exclusive_iff (hs : soc ∈ Soc.all) : (load soc nodes).Exclusive ↔
    ∀ c ∈ (load soc nodes).controllers, ∀ d ∈ (load soc nodes).controllers, c ≠ d →
      List.Disjoint (Port.declaredRegisters ⟨soc, c⟩) (Port.registers ⟨soc, d⟩) := by
  constructor
  · intro h c hc d hd hne a hac had
    have hown : a ∈ Port.ownRegisters ⟨soc, c⟩ := Port.mem_ownRegisters.mpr (.inr hac)
    have huses : soc.Uses c a := (uses_iff hs hc).mpr (Port.mem_registers_iff_own.mpr (.inl hown))
    exact h.own c hc d hd hne a hown huses ((uses_iff hs hd).mpr had)
  · intro h
    have own : ∀ c ∈ (load soc nodes).controllers, ∀ d ∈ (load soc nodes).controllers, c ≠ d →
        List.Disjoint (Port.ownRegisters ⟨soc, c⟩) (Port.registers ⟨soc, d⟩) := by
      intro c hc d hd hne a hac had
      rcases Port.mem_ownRegisters.mp hac with hnumbered | hdeclared
      · rcases Port.mem_registers_iff_own.mp had with hown | hshared
        · rcases Port.mem_ownRegisters.mp hown with hnumbered' | hdeclared'
          · exact numbered_disjoint hs hc hd hne hnumbered hnumbered'
          · exact h d hd c hc hne.symm hdeclared' (Port.mem_registers_iff_own.mpr (.inl hac))
        · exact numbered_unshared hs hc hnumbered (Port.sharedRegisters_sublist.subset hshared)
      · exact h c hc d hd hne hdeclared had
    refine ⟨fun c hc d hd hne a hac _ had => own c hc d hd hne hac ((uses_iff hs hd).mp had),
      fun c hc d hd hne a hac had => ?_⟩
    rcases Port.mem_registers_iff_own.mp ((uses_iff hs hc).mp hac) with hown | hshared
    · exact absurd ((uses_iff hs hd).mp had) (own c hc d hd hne hown)
    · exact Port.sharedRegisters_sublist.subset hshared

end Topology

/-- A topology keeps the registers of its controllers apart exactly if the blocks that their nodes
declare are apart from what the other controllers use. All accesses of a bring-up, and of a retrain
of the host at any later time, are made on behalf of the controllers, in turn. What is used for a
controller is exactly the registers in its own blocks and its shared ones, and those in the block
that goes with its number are used for no other controller. -/
theorem blocks_exclusive_iff {soc : Soc} (hs : soc ∈ Soc.all) (nodes : List Node) :
    (∀ path host, Runs (Host.bringUp (Topology.load soc nodes)) path host →
      soc.WorksThrough (Topology.load soc nodes).controllers path ∧
      ∀ patience policies back last calls,
        Runs (Host.retrainAll patience host policies) back (some (last, calls)) →
        ∀ policy more path result, Runs (last.retrain policy more) path result →
          soc.WorksThrough (Topology.load soc nodes).controllers path) ∧
    (∀ c ∈ (Topology.load soc nodes).controllers,
      (∀ a, soc.Uses c a ↔
        a ∈ Port.numberedRegisters ⟨soc, c⟩ ∨ a ∈ Port.declaredRegisters ⟨soc, c⟩ ∨
          a ∈ Port.sharedRegisters ⟨soc, c⟩) ∧
      Port.sharedRegisters ⟨soc, c⟩ ⊆ soc.sharedRegisters ∧
      List.Disjoint (Port.numberedRegisters ⟨soc, c⟩) soc.sharedRegisters ∧
      ∀ d ∈ (Topology.load soc nodes).controllers, c ≠ d →
        List.Disjoint (Port.numberedRegisters ⟨soc, c⟩) (Port.numberedRegisters ⟨soc, d⟩)) ∧
    ((Topology.load soc nodes).Exclusive ↔
      ∀ c ∈ (Topology.load soc nodes).controllers, ∀ d ∈ (Topology.load soc nodes).controllers,
        c ≠ d → List.Disjoint (Port.declaredRegisters ⟨soc, c⟩) (Port.registers ⟨soc, d⟩)) := by
  refine ⟨fun path host h => ⟨Host.bringUp_works h, ?_⟩, fun c hc => ⟨fun a => ?_,
    Port.sharedRegisters_sublist.subset, Topology.numbered_unshared hs hc,
    fun d hd hne => Topology.numbered_disjoint hs hc hd hne⟩, Topology.exclusive_iff hs⟩
  · intro patience policies back last calls hback policy more path result hr
    obtain ⟨hports, hsoc, -⟩ := Host.bringUp_ports h
    obtain ⟨hsoc', hcontrollers⟩ := Host.controllers_of_retrainAll hback
    have chip : last.soc = soc := hsoc'.trans hsoc
    have works := Host.retrain_works hr
    rwa [chip, hcontrollers, Host.controllers_of_bringUpPorts hports] at works
  · rw [Topology.uses_iff hs hc, Port.mem_registers_iff_own, Port.mem_ownRegisters, or_assoc]

/-- Neighbours with blocks of their own. -/
theorem blocks_exclusive_iff_example :
    Bm1000.soc ∈ Soc.all ∧
      (Topology.load Bm1000.soc [neighbourNode, exampleNode]).Exclusive := by
  have hs : Bm1000.soc ∈ Soc.all := List.mem_cons_self
  obtain ⟨-, -, exclusive⟩ := blocks_exclusive_iff hs [neighbourNode, exampleNode]
  refine ⟨hs, exclusive.mpr fun c hc d hd hne a hac had => ?_⟩
  have hown : a ∈ Port.ownRegisters ⟨Bm1000.soc, c⟩ := Port.mem_ownRegisters.mpr (.inr hac)
  exact registersDistinct_neighbours.blocksApart.disjoint hc hd hne.symm had hown

/-- The neighbour of `exampleNode`, with the same root port block. -/
def sameDbiNode : Node := neighbourNode.edit
  (.cells "reg" [0, 0x03200000, 0, 0x1000, 0x8, 0, 0, 0x10000000])

/-- The port before that of `highNode`, with the same control block. -/
def sameControlNode : Node := highNode.edit
  (.cells "reg" [0, 0x4D000000, 0, 0x100000, 0, 0x4E080000, 0, 0x1000, 0xE0, 0, 0, 0x310000])

/-- Either chip takes two controllers with one declared block: on one the register that asks for
a speed is used for both, on the other the register that enables the LTSSM. -/
theorem declared_block_shared :
    ¬(Topology.load Bm1000.soc [sameDbiNode, exampleNode]).Exclusive ∧
      ¬(Topology.load Bs1000.soc [sameControlNode, highNode]).Exclusive := by
  constructor
  · intro h
    have hs : Bm1000.soc ∈ Soc.all := List.mem_cons_self
    have hc : exampleController ∈
        (Topology.load Bm1000.soc [sameDbiNode, exampleNode]).controllers :=
      Topology.mem_load_iff.mpr (by decide +kernel)
    have hd : { neighbourController with dbi := 0x03200000 } ∈
        (Topology.load Bm1000.soc [sameDbiNode, exampleNode]).controllers :=
      Topology.mem_load_iff.mpr (by decide +kernel)
    exact (Topology.exclusive_iff hs).mp h _ hc _ hd (by decide)
      (show 0x032000A0 ∈ _ by decide +kernel) (by decide +kernel)
  · intro h
    have hs : Bs1000.soc ∈ Soc.all := List.mem_cons_of_mem _ List.mem_cons_self
    have hc : highController ∈ (Topology.load Bs1000.soc [sameControlNode, highNode]).controllers :=
      Topology.mem_load_iff.mpr (by decide +kernel)
    have hd : { highController with index := 12, dbi := 0x4D000000, config := 0xE000000000 } ∈
        (Topology.load Bs1000.soc [sameControlNode, highNode]).controllers :=
      Topology.mem_load_iff.mpr (by decide +kernel)
    exact (Topology.exclusive_iff hs).mp h _ hc _ hd (by decide)
      (show 0x4E080058 ∈ _ by decide +kernel) (by decide +kernel)

end RootComplex
