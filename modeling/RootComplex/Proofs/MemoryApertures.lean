import Mathlib.Data.Set.BooleanAlgebra
import Mathlib.Order.CompletePartialOrder
import RootComplex.Proofs.ApertureMap
import RootComplex.Proofs.FirstClaim
import RootComplex.Proofs.Reach

/-! # Memory apertures

A bridge publishes an aperture for 32-bit memory and one for memory above 4 GiB. Which of them a
window goes to is read off the space code of its entry, and the bus address beside it is taken as it
comes. So the apertures are on their sides of 4 GiB, and apart, exactly as far as the windows of the
node are. -/

namespace RootComplex

open Program

namespace Aperture

theorem range_none : Aperture.none.range = ∅ :=
  Set.eq_empty_of_forall_notMem fun _ h => absurd (BitVec.le_trans h.1 h.2) (by decide)

/-- Ranges with addresses in them are apart exactly if one of them ends before the other begins. -/
theorem disjoint_range_iff {a b : Aperture} (ha : a.base ≤ a.limit) (hb : b.base ≤ b.limit) :
    Disjoint a.range b.range ↔ a.limit < b.base ∨ b.limit < a.base := by
  rw [Set.disjoint_left]
  constructor
  · intro h
    by_contra hn
    obtain ⟨hab, hba⟩ := not_or.mp hn
    rcases BitVec.le_total a.base b.base with hle | hle
    · exact h ⟨hle, BitVec.not_lt.mp hab⟩ ⟨BitVec.le_refl _, hb⟩
    · exact h ⟨BitVec.le_refl _, ha⟩ ⟨hle, BitVec.not_lt.mp hba⟩
  · rintro (h | h) x hxa hxb
    · exact absurd (BitVec.le_trans hxb.1 hxa.2) (BitVec.not_le.mpr h)
    · exact absurd (BitVec.le_trans hxa.1 hxb.2) (BitVec.not_le.mpr h)

end Aperture

namespace Window

/-- The bus addresses of one window end before those of the other begin. -/
def Before (w v : Window) : Prop := w.pci.toNat + w.size.toNat ≤ v.pci.toNat

theorem Mappable.size_pos {w : Window} (h : w.Mappable) : 0 < w.size.toNat :=
  Nat.lt_of_lt_of_le (by decide) h.minSize

theorem Mappable.base_le_limit {w : Window} (h : w.Mappable) :
    (Aperture.ofWindow w).base ≤ (Aperture.ofWindow w).limit := by
  have hpos := h.size_pos
  rw [BitVec.le_def, h.toNat_limit]
  show w.pci.toNat ≤ _
  omega

theorem Mappable.limit_lt_base_iff {w v : Window} (h : w.Mappable) :
    (Aperture.ofWindow w).limit < (Aperture.ofWindow v).base ↔ w.Before v := by
  have hpos := h.size_pos
  rw [BitVec.lt_def, h.toNat_limit, Before]
  show _ < v.pci.toNat ↔ _
  omega

end Window

/-! ## Apertures and the windows they come from -/

namespace Controller.Admitted

variable {c : Controller}

theorem mappable (h : c.Admitted) {space : Space} {w : Window} (hw : c.window? space = some w) :
    w.Mappable := h.windows w (window?_mem hw).1

theorem aperture_below_iff (h : c.Admitted) (space : Space) (bound : Nat) :
    (((RootBridge.ofController c).aperture space).isEmpty = false →
      ((RootBridge.ofController c).aperture space).limit.toNat < bound) ↔
    ∀ w, c.window? space = some w → w.pci.toNat + w.size.toNat ≤ bound := by
  rw [RootBridge.isEmpty_aperture h, ← exists_window?_iff, forall_exists_index]
  refine forall₂_congr fun w hw => ?_
  have hpos := (h.mappable hw).size_pos
  rw [RootBridge.aperture_ofController, hw, Aperture.ofWindow?, (h.mappable hw).toNat_limit]
  omega

theorem aperture_from_iff (h : c.Admitted) (space : Space) (bound : Nat) :
    (((RootBridge.ofController c).aperture space).isEmpty = false →
      bound ≤ ((RootBridge.ofController c).aperture space).base.toNat) ↔
    ∀ w, c.window? space = some w → bound ≤ w.pci.toNat := by
  rw [RootBridge.isEmpty_aperture h, ← exists_window?_iff, forall_exists_index]
  refine forall₂_congr fun w hw => ?_
  rw [RootBridge.aperture_ofController, hw]
  rfl

theorem apertures_disjoint_iff (h : c.Admitted) (s t : Space) :
    Disjoint ((RootBridge.ofController c).aperture s).range
      ((RootBridge.ofController c).aperture t).range ↔
    ∀ w v, c.window? s = some w → c.window? t = some v → w.Before v ∨ v.Before w := by
  rw [RootBridge.aperture_ofController, RootBridge.aperture_ofController]
  cases hs : c.window? s with
  | none => simp [Aperture.ofWindow?, Aperture.range_none]
  | some w =>
    cases ht : c.window? t with
    | none => simp [Aperture.ofWindow?, Aperture.range_none]
    | some v =>
      have hw := h.mappable hs
      have hv := h.mappable ht
      rw [Aperture.ofWindow?, Aperture.ofWindow?,
        Aperture.disjoint_range_iff hw.base_le_limit hv.base_le_limit, hw.limit_lt_base_iff,
        hv.limit_lt_base_iff]
      simp

end Controller.Admitted

/-! ## The sides of 4 GiB -/

/-- The memory apertures of the bridge are on the sides that they are published for, and apart. -/
structure RootBridge.KeepsSides (b : RootBridge) : Prop where
  low : b.memory.isEmpty = false → b.memory.limit.toNat < Word.count
  high : b.memoryAbove4G.isEmpty = false → Word.count ≤ b.memoryAbove4G.base.toNat
  apart : Disjoint b.memory.range b.memoryAbove4G.range

/-- The windows that the apertures come from are on these sides: of each memory space, the first. -/
structure Controller.KeepsSides (c : Controller) : Prop where
  low : ∀ w, c.window? .mem32 = some w → w.pci.toNat + w.size.toNat ≤ Word.count
  high : ∀ w, c.window? .mem64 = some w → Word.count ≤ w.pci.toNat

theorem Controller.Admitted.keepsSides_iff {c : Controller} (h : c.Admitted) :
    (RootBridge.ofController c).KeepsSides ↔ c.KeepsSides := by
  constructor
  · intro hb
    exact ⟨(h.aperture_below_iff .mem32 _).mp hb.low, (h.aperture_from_iff .mem64 _).mp hb.high⟩
  · intro hc
    refine ⟨(h.aperture_below_iff .mem32 _).mpr hc.low, (h.aperture_from_iff .mem64 _).mpr hc.high,
      (h.apertures_disjoint_iff .mem32 .mem64).mpr fun w v hw hv => ?_⟩
    exact .inl (Nat.le_trans (hc.low w hw) (hc.high v hv))

/-- The bridges of a bring-up are those of the loaded controllers, whatever the hardware answers.
All of them have their memory apertures on their sides of 4 GiB exactly if all nodes have their
windows there. For one controller, each side is kept exactly if the window that decides it keeps
it, and the apertures overlap exactly if the windows do. -/
theorem memory_apertures_keep_sides_iff {soc : Soc} {nodes : List Node} {path : List Exchange}
    {host : Host} (h : Runs (Host.bringUp (Topology.load soc nodes)) path host) :
    host.bridges = (Topology.load soc nodes).controllers.map RootBridge.ofController ∧
    ((∀ b ∈ host.bridges, b.KeepsSides) ↔
      ∀ c ∈ (Topology.load soc nodes).controllers, c.KeepsSides) ∧
    ∀ c ∈ (Topology.load soc nodes).controllers,
      (((RootBridge.ofController c).memory.isEmpty = false →
          (RootBridge.ofController c).memory.limit.toNat < Word.count) ↔
        ∀ w, c.window? .mem32 = some w → w.pci.toNat + w.size.toNat ≤ Word.count) ∧
      (((RootBridge.ofController c).memoryAbove4G.isEmpty = false →
          Word.count ≤ (RootBridge.ofController c).memoryAbove4G.base.toNat) ↔
        ∀ w, c.window? .mem64 = some w → Word.count ≤ w.pci.toNat) ∧
      (Disjoint (RootBridge.ofController c).memory.range
          (RootBridge.ofController c).memoryAbove4G.range ↔
        ∀ w v, c.window? .mem32 = some w → c.window? .mem64 = some v →
          w.Before v ∨ v.Before w) := by
  obtain ⟨hports, -, hbridges⟩ := Host.bringUp_ports h
  have bridges : host.bridges =
      (Topology.load soc nodes).controllers.map RootBridge.ofController := by
    rw [hbridges, ← Host.controllers_of_bringUpPorts hports, List.map_map]
    rfl
  refine ⟨bridges, ?_, fun c hc => ?_⟩
  · rw [bridges, List.forall_mem_map]
    exact forall₂_congr fun c hc => (Topology.admitted hc).keepsSides_iff
  · have admitted := Topology.admitted hc
    exact ⟨admitted.aperture_below_iff .mem32 _, admitted.aperture_from_iff .mem64 _,
      admitted.apertures_disjoint_iff .mem32 .mem64⟩

/-- `exampleNode` has a window on either side. -/
theorem memory_apertures_keep_sides_iff_example :
    ∃ path host, Runs (Host.bringUp (Topology.load Bm1000.soc [exampleNode])) path host ∧
      host.bridges ≠ [] ∧ ∀ b ∈ host.bridges, b.KeepsSides := by
  obtain ⟨path, host, h⟩ := exists_runs (Host.bringUp (Topology.load Bm1000.soc [exampleNode]))
  obtain ⟨bridges, keeps, -⟩ := memory_apertures_keep_sides_iff h
  rw [load_exampleNode] at bridges keeps
  refine ⟨path, host, h, by rw [bridges]; decide, keeps.mpr fun c hc => ?_⟩
  obtain rfl := List.mem_singleton.mp hc
  refine ⟨fun w hw => ?_, fun w hw => ?_⟩
  · cases hw
    decide
  · cases hw
    decide

/-- `exampleNode` with 32-bit memory that ends above 4 GiB and 64-bit memory that begins below. -/
def swappedSidesNode : Node := exampleNode.edit
  (.cells "ranges" [
    0x82000000, 0, 0xC0000000, 0x10, 0x40000000, 0, 0x80000000,
    0x83000000, 0, 0xE0000000, 0x11, 0, 0, 0x80000000])

/-- The controller is loaded and its bridge published with either aperture across 4 GiB, and the
two in each other. -/
theorem apertures_across_four_gib :
    ∃ path host, Runs (Host.bringUp (Topology.load Bm1000.soc [swappedSidesNode])) path host ∧
      ∃ b ∈ host.bridges,
        (b.memory.isEmpty = false ∧ Word.count ≤ b.memory.limit.toNat) ∧
        (b.memoryAbove4G.isEmpty = false ∧ b.memoryAbove4G.base.toNat < Word.count) ∧
        ¬Disjoint b.memory.range b.memoryAbove4G.range := by
  let c := { exampleController with windows := [
    ⟨.mem32, 0x1040000000, 0xC0000000, 0x80000000⟩,
    ⟨.mem64, 0x1100000000, 0xE0000000, 0x80000000⟩] }
  have hc : c ∈ (Topology.load Bm1000.soc [swappedSidesNode]).controllers :=
    Topology.mem_load_iff.mpr (by decide +kernel)
  obtain ⟨path, host, h⟩ :=
    exists_runs (Host.bringUp (Topology.load Bm1000.soc [swappedSidesNode]))
  obtain ⟨hports, -, hbridges⟩ := Host.bringUp_ports h
  have published : RootBridge.ofController c ∈ host.bridges := by
    rw [← Host.controllers_of_bringUpPorts hports] at hc
    obtain ⟨s, hs, hcontroller⟩ := List.mem_map.mp hc
    rw [hbridges, ← hcontroller]
    exact List.mem_map_of_mem hs
  refine ⟨path, host, h, _, published, by decide, by decide, fun hdisjoint => ?_⟩
  have overlap := (Topology.admitted hc).apertures_disjoint_iff .mem32 .mem64
  exact absurd (overlap.mp hdisjoint _ _ rfl rfl) (by unfold Window.Before; decide)

end RootComplex
