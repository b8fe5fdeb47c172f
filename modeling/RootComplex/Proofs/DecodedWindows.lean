import RootComplex.Proofs.ConfigSpace
import RootComplex.Proofs.FirstClaim
import RootComplex.Proofs.Reach

/-! # Decoded windows

A controller decodes the lowest bits of a CPU address. The base of a window is cut to these bits
before its size is added, and the limit is not cut again: it is a decoded address exactly if the
window ends where it begins, in the bits that are not decoded. Otherwise the region matches the
window only up to the end of the decoded addresses. -/

namespace RootComplex

open Program

/-- A run of numbers stays between two multiples of `m` exactly if its remainders do not start
over. -/
theorem add_div_eq_div_iff {m : Nat} (hm : 0 < m) (a d : Nat) :
    (a + d) / m = a / m ↔ a % m + d < m := by
  have hsum : a + d = m * (a / m) + (a % m + d) := by rw [← Nat.add_assoc, Nat.div_add_mod]
  rw [hsum, Nat.mul_add_div hm, Nat.add_eq_left, Nat.div_eq_zero_iff_lt hm]

namespace OutboundWindow

def lastCpu (w : OutboundWindow) : Address := w.cpu + w.size - 1

/-- The first and the last address of the window differ in decoded bits only. -/
def Unbroken (soc : Soc) (index : Nat) (w : OutboundWindow) : Prop :=
  w.lastCpu >>> soc.decodedBits index = w.cpu >>> soc.decodedBits index

instance (soc : Soc) (index : Nat) (w : OutboundWindow) : Decidable (w.Unbroken soc index) :=
  inferInstanceAs (Decidable (_ = _))

/-- What a translation region can take: not empty, shorter than the decoded addresses, and not
beyond the last address there is. -/
structure Placed (w : OutboundWindow) : Prop where
  nonempty : 0 < w.size.toNat
  short : w.size.toNat < Translation.maxSize
  fits : w.cpu.toNat + w.size.toNat ≤ Address.count

end OutboundWindow

/-- How a region decodes its window. Base and limit are as far apart as the ends of the window, and
the base is a decoded address. The limit is one, and is the decoded last address, exactly if the
window is unbroken, and exactly then the region translates the whole window. Of a broken one it
translates the addresses that agree with the first in the bits that are not decoded. -/
structure RegionState.Decodes (r : RegionState) (soc : Soc) (index : Nat) (w : OutboundWindow) :
    Prop where
  base : r.base = w.cpu &&& soc.cpuMask index
  base_le : r.base ≤ soc.cpuMask index
  ordered : r.base ≤ r.limit
  length : r.limit.toNat = r.base.toNat + w.size.toNat - 1
  limit_le : r.limit ≤ soc.cpuMask index ↔ w.Unbroken soc index
  limit_masked : r.limit = w.lastCpu &&& soc.cpuMask index ↔ w.Unbroken soc index
  translates : ∀ x : Address, w.cpu ≤ x → x ≤ w.lastCpu →
    r.translate? (soc.cpuMask index) x =
      if x >>> soc.decodedBits index = w.cpu >>> soc.decodedBits index then
        some (x + (w.pci - w.cpu))
      else none
  whole : (∀ x : Address, w.cpu ≤ x → x ≤ w.lastCpu →
    r.translate? (soc.cpuMask index) x = some (x + (w.pci - w.cpu))) ↔ w.Unbroken soc index

/-! ## The image of a window -/

namespace OutboundWindow.Placed

variable {soc : Soc} {w : OutboundWindow}

theorem toNat_lastCpu (h : w.Placed) : w.lastCpu.toNat = w.cpu.toNat + (w.size.toNat - 1) := by
  obtain ⟨hpos, -, hfits⟩ := h
  have hone : (1 : Address).toNat = 1 := rfl
  simp only [Address.count] at hfits
  rw [lastCpu, BitVec.toNat_sub, BitVec.toNat_add, hone]
  omega

theorem cpu_le_lastCpu (h : w.Placed) : w.cpu ≤ w.lastCpu := by
  rw [BitVec.le_def, h.toNat_lastCpu]
  exact Nat.le_add_right _ _

/-- Two addresses agree in the bits that are not decoded exactly if the run between them does not
start over in the decoded ones. -/
theorem shift_eq_iff (soc : Soc) (index : Nat) {x y : Address} (h : x ≤ y) :
    y >>> soc.decodedBits index = x >>> soc.decodedBits index ↔
      x.toNat % 2 ^ soc.decodedBits index + (y.toNat - x.toNat) < 2 ^ soc.decodedBits index := by
  rw [← BitVec.toNat_inj, BitVec.toNat_ushiftRight, BitVec.toNat_ushiftRight,
    Nat.shiftRight_eq_div_pow, Nat.shiftRight_eq_div_pow,
    ← add_div_eq_div_iff (Nat.two_pow_pos _) x.toNat, Nat.add_sub_cancel' (BitVec.le_def.mp h)]

theorem unbroken_iff (h : w.Placed) {index : Nat} : w.Unbroken soc index ↔
    w.cpu.toNat % 2 ^ soc.decodedBits index + (w.size.toNat - 1) < 2 ^ soc.decodedBits index := by
  rw [Unbroken, shift_eq_iff soc index h.cpu_le_lastCpu, h.toNat_lastCpu, Nat.add_sub_cancel_left]

theorem size_lt (h : w.Placed) (hs : soc ∈ Soc.all) (index : Nat) :
    w.size.toNat < 2 ^ soc.decodedBits index := by
  have hpow : 2 ^ 39 ≤ 2 ^ soc.decodedBits index :=
    Nat.pow_le_pow_right (by decide) (Soc.decodedBits_bounds hs index).1
  have hshort := h.short
  simp only [Translation.maxSize] at hshort
  omega

theorem toNat_base (hs : soc ∈ Soc.all) (index : Nat) (w : OutboundWindow) :
    (w.image soc index).base.toNat = w.cpu.toNat % 2 ^ soc.decodedBits index := by
  rw [base_image, maskedBase, Soc.toNat_and_cpuMask_eq_mod hs]

theorem toNat_limit (h : w.Placed) (hs : soc ∈ Soc.all) (index : Nat) :
    (w.image soc index).limit.toNat =
      w.cpu.toNat % 2 ^ soc.decodedBits index + (w.size.toNat - 1) := by
  obtain ⟨hpos, -, hfits⟩ := h
  have hone : (1 : Address).toNat = 1 := rfl
  have hle := Nat.mod_le w.cpu.toNat (2 ^ soc.decodedBits index)
  simp only [Address.count] at hfits
  rw [limit_image, maskedLimit, maskedBase, BitVec.toNat_sub, BitVec.toNat_add,
    Soc.toNat_and_cpuMask_eq_mod hs, hone]
  omega

/-- Where the remainders start over, they fall below the one that the window begins with. -/
theorem toNat_masked (h : w.Placed) (hs : soc ∈ Soc.all) (index : Nat) {x : Address}
    (hlow : w.cpu ≤ x) (hhigh : x ≤ w.lastCpu) :
    if x >>> soc.decodedBits index = w.cpu >>> soc.decodedBits index then
      (x &&& soc.cpuMask index).toNat =
        w.cpu.toNat % 2 ^ soc.decodedBits index + (x.toNat - w.cpu.toNat)
    else (x &&& soc.cpuMask index).toNat < w.cpu.toNat % 2 ^ soc.decodedBits index := by
  have hsize := h.size_lt hs index
  have hshift := shift_eq_iff soc index hlow
  have hdistance : x.toNat = w.cpu.toNat + (x.toNat - w.cpu.toNat) :=
    (Nat.add_sub_cancel' (BitVec.le_def.mp hlow)).symm
  have hhigh := BitVec.le_def.mp hhigh
  rw [h.toNat_lastCpu] at hhigh
  have hmod := Nat.mod_lt w.cpu.toNat (Nat.two_pow_pos (soc.decodedBits index))
  rw [Soc.toNat_and_cpuMask_eq_mod hs, hdistance, ← Nat.mod_add_mod, Nat.add_sub_cancel_left]
  split
  · rename_i hagree
    exact Nat.mod_eq_of_lt (hshift.mp hagree)
  · rename_i hdiffer
    have hover := Nat.le_of_not_lt (mt hshift.mpr hdiffer)
    rw [Nat.mod_eq_sub_mod hover, Nat.mod_eq_of_lt (by omega)]
    omega

theorem translates (h : w.Placed) (hs : soc ∈ Soc.all) (index : Nat) {x : Address}
    (hlow : w.cpu ≤ x) (hhigh : x ≤ w.lastCpu) :
    (w.image soc index).translate? (soc.cpuMask index) x =
      if x >>> soc.decodedBits index = w.cpu >>> soc.decodedBits index then
        some (x + (w.pci - w.cpu))
      else none := by
  have hmasked := h.toNat_masked hs index hlow hhigh
  have hbase := toNat_base hs index w
  have hlimit := h.toNat_limit hs index
  have hlow := BitVec.le_def.mp hlow
  have hhigh := BitVec.le_def.mp hhigh
  rw [h.toNat_lastCpu] at hhigh
  unfold RegionState.translate?
  by_cases hagree : x >>> soc.decodedBits index = w.cpu >>> soc.decodedBits index
  · rw [if_pos hagree] at hmasked ⊢
    rw [enabled_image, target_image, if_pos ⟨rfl, BitVec.le_def.mpr (by omega),
      BitVec.le_def.mpr (by omega)⟩]
    have hdiff : (x &&& soc.cpuMask index) - (w.image soc index).base = x - w.cpu := by
      apply BitVec.eq_of_toNat_eq
      rw [BitVec.toNat_sub, BitVec.toNat_sub]
      omega
    rw [hdiff, BitVec.sub_eq_add_neg, BitVec.sub_eq_add_neg]
    congr 1
    ac_rfl
  · rw [if_neg hagree] at hmasked ⊢
    refine if_neg fun hmatch => ?_
    have hfrom := BitVec.le_def.mp hmatch.2.1
    omega

/-- A region that holds a window decodes it. -/
theorem decodes (h : w.Placed) (hs : soc ∈ Soc.all) (index : Nat) :
    (w.image soc index).Decodes soc index w := by
  have hbase := toNat_base hs index w
  have hlimit := h.toNat_limit hs index
  have hmask := Soc.toNat_cpuMask hs index
  have hmod := Nat.mod_lt w.cpu.toNat (Nat.two_pow_pos (soc.decodedBits index))
  have hpos := h.nonempty
  constructor
  case base => exact base_image
  case base_le =>
    rw [BitVec.le_def]
    omega
  case ordered =>
    rw [BitVec.le_def]
    omega
  case length => omega
  case limit_le =>
    rw [h.unbroken_iff, BitVec.le_def]
    omega
  case limit_masked =>
    have hlast := h.toNat_masked hs index h.cpu_le_lastCpu (BitVec.le_refl _)
    rw [← BitVec.toNat_inj, hlimit]
    split at hlast
    · rename_i hunbroken
      rw [h.toNat_lastCpu, Nat.add_sub_cancel_left] at hlast
      exact iff_of_true hlast.symm hunbroken
    · rename_i hbroken
      exact iff_of_false (by omega) hbroken
  case translates => exact fun x hlow hhigh => h.translates hs index hlow hhigh
  case whole =>
    constructor
    · intro hwhole
      by_contra hbroken
      have hlast := (h.translates hs index h.cpu_le_lastCpu (BitVec.le_refl _)).trans
        (if_neg hbroken)
      rw [hwhole _ h.cpu_le_lastCpu (BitVec.le_refl _)] at hlast
      cases hlast
    · intro hunbroken x hlow hhigh
      have hlast := h.unbroken_iff.mp hunbroken
      have hx := BitVec.le_def.mp hhigh
      rw [h.toNat_lastCpu] at hx
      rw [h.translates hs index hlow hhigh, if_pos ((shift_eq_iff soc index hlow).mpr (by omega))]

end OutboundWindow.Placed

/-! ## The windows of a loaded controller -/

theorem Controller.Admitted.placed {soc : Soc} {c : Controller} (h : c.Admitted)
    (hs : soc ∈ Soc.all) : ∀ w ∈ c.outboundWindows, w.Placed := by
  obtain ⟨_, _, _, plan⟩ := h.windowPlan (Soc.outboundRegions_gt hs)
  intro w hw
  obtain ⟨⟨hmin, hmax⟩, -, -⟩ := OutboundWindow.fault?_eq_none.mp (plan.accepted w hw)
  refine ⟨Nat.lt_of_lt_of_le (by decide) hmin, hmax, ?_⟩
  rw [outboundWindows_eq] at hw
  rcases List.mem_append.mp hw with hw | hw
  · obtain ⟨⟨-, -, hfits⟩, -⟩ := h.config
    have hbuses := h.buses
    have hcpu := h.config_add_bus
    have hrest := h.configSize_sub_bus
    have hbus : (BitVec.ofNat 64 busSize).toNat = busSize := rfl
    simp only [minConfigSize] at hbuses
    simp only [configWindows, List.mem_cons, List.not_mem_nil, or_false] at hw
    rcases hw with rfl | rfl <;> dsimp only at hfits ⊢ <;> omega
  · obtain ⟨space, v, hv, rfl⟩ := mem_spaceWindows.mp hw
    have hmap := h.windows v (window?_mem hv).1
    have hfits := hmap.cpuFits.2
    have hpos := hmap.minSize
    simp only [Translation.minSize, Translation.granule] at hpos
    simp only [Window.cpuRegion] at hfits
    show v.cpu.toNat + v.size.toNat ≤ Address.count
    omega

/-- Each window of a loaded controller is programmed, and its region decodes it: base and limit are
decoded addresses, and describe the whole window, exactly if the window is unbroken. So it is in
every bring-up once the port's windows are programmed, and if no registers collide, still when the
bring-up ends. -/
theorem windows_decoded_iff {soc : Soc} (hs : soc ∈ Soc.all) {nodes : List Node} {c : Controller}
    (hc : c ∈ (Topology.load soc nodes).controllers) :
    (∀ w ∈ c.outboundWindows, ∀ path r, Runs (w.program soc c.index c.dbi) path r →
      r = .ok () ∧ ∀ u : TranslationUnit,
        ((u.after soc c.dbi path).regions w.region).Decodes soc c.index w) ∧
    ∀ path host, Runs (Host.bringUp (Topology.load soc nodes)) path host →
      ∃ front stage back failures, path = front ++ (stage ++ back) ∧
        Runs (Port.programWindows ⟨soc, c⟩ c.outboundWindows) stage failures ∧
        ∀ w ∈ c.outboundWindows, ∀ u : TranslationUnit,
          ((u.after soc c.dbi (front ++ stage)).regions w.region).Decodes soc c.index w ∧
          ((Topology.load soc nodes).RegistersDistinct →
            ((u.after soc c.dbi path).regions w.region).Decodes soc c.index w) := by
  have placed := (Topology.admitted hc).placed hs
  constructor
  · intro w hw path r h
    have accepted := Topology.accepted_windows hs hc w hw
    rw [OutboundWindow.program, accepted] at h
    obtain ⟨_, write, _, hwrite, hdone, rfl⟩ := h.bind
    obtain ⟨rfl, rfl⟩ := runs_done.mp hdone
    refine ⟨rfl, fun u => ?_⟩
    have hregion := (OutboundWindow.fault?_eq_none.mp accepted).2.2
    rw [List.append_nil, TranslationUnit.after_write hs hregion hwrite, Function.update_self]
    exact (placed w hw).decodes hs c.index
  · intro path host h
    obtain ⟨-, front, stage, back, failures, hpath, hstage, programmed⟩ :=
      Host.bringUp_programs hs hc h
    refine ⟨front, stage, back, failures, hpath, hstage, fun w hw u => ?_⟩
    obtain ⟨during, after⟩ := programmed w hw u
    have decodes := (placed w hw).decodes hs c.index
    exact ⟨during ▸ decodes, fun hd => after hd ▸ decodes⟩

/-- The config window of `highNode` lies above the decoded addresses, but all of it in one run. -/
theorem windows_decoded_iff_example :
    Bs1000.soc ∈ Soc.all ∧ highController ∈ (Topology.load Bs1000.soc [highNode]).controllers ∧
    ∃ path, Runs (highController.rootConfig.program Bs1000.soc 13 0x4D100000) path (.ok ()) ∧
      ∀ u : TranslationUnit,
        ((u.after Bs1000.soc 0x4D100000 path).regions 0).base = 0x7000000000 ∧
        ((u.after Bs1000.soc 0x4D100000 path).regions 0).limit = 0x70000FFFFF ∧
        ((u.after Bs1000.soc 0x4D100000 path).regions 0).translate? (Bs1000.soc.cpuMask 13)
          0xF0000FFFFF = some 0xFFFFF := by
  have hs : Bs1000.soc ∈ Soc.all := List.mem_cons_of_mem _ List.mem_cons_self
  have hc : highController ∈ (Topology.load Bs1000.soc [highNode]).controllers := by
    rw [load_highNode]
    exact List.mem_singleton_self _
  have hw := Controller.mem_outboundWindows_of_config (c := highController) List.mem_cons_self
  obtain ⟨path, r, h⟩ := exists_runs (highController.rootConfig.program Bs1000.soc 13 0x4D100000)
  obtain ⟨rfl, decodes⟩ := (windows_decoded_iff hs hc).1 _ hw path r h
  refine ⟨hs, hc, path, h, fun u => ⟨?_, ?_, ?_⟩⟩
  · exact (decodes u).base.trans (by decide)
  · exact ((decodes u).limit_masked.mpr (by decide)).trans (by decide)
  · exact ((decodes u).whole.mpr (by decide) _ (by decide) (by decide)).trans (by decide)

/-- `highNode` with a memory window across the end of the addresses that its port decodes. -/
def crossingNode : Node := highNode.edit
  (.cells "ranges" [0x82000000, 0, 0x40000000, 0x7F, 0xFFFF0000, 0, 0x20000])

/-- The controller is loaded all the same, and the limit that is programmed for the window is no
decoded address, nor the last address of the window with the high bits cut. The second half of the
window is not translated. -/
theorem crossing_window_cut :
    ∃ c ∈ (Topology.load Bs1000.soc [crossingNode]).controllers, ∃ w ∈ c.outboundWindows,
      ∃ path, Runs (w.program Bs1000.soc c.index c.dbi) path (.ok ()) ∧
        ∀ u : TranslationUnit,
          ((u.after Bs1000.soc c.dbi path).regions w.region).limit = 0x800000FFFF ∧
          ¬0x800000FFFF ≤ Bs1000.soc.cpuMask c.index ∧
          0x800000FFFF ≠ (w.cpu + w.size - 1) &&& Bs1000.soc.cpuMask c.index ∧
          ((u.after Bs1000.soc c.dbi path).regions w.region).translate?
            (Bs1000.soc.cpuMask c.index) (w.cpu + w.size - 1) = none := by
  have hs : Bs1000.soc ∈ Soc.all := List.mem_cons_of_mem _ List.mem_cons_self
  let c := { highController with windows := [⟨.mem32, 0x7FFFFF0000, 0x40000000, 0x20000⟩] }
  let w : OutboundWindow := ⟨2, 0x7FFFFF0000, 0x40000000, 0x20000, .memory⟩
  have hc : c ∈ (Topology.load Bs1000.soc [crossingNode]).controllers :=
    Topology.mem_load_iff.mpr (by decide +kernel)
  have hw : w ∈ c.outboundWindows := by decide
  have placed := (Topology.admitted hc).placed hs w hw
  obtain ⟨path, _, h⟩ := exists_runs (w.write Bs1000.soc c.index c.dbi)
  have programmed : Runs (w.program Bs1000.soc c.index c.dbi) path (.ok ()) := by
    rw [OutboundWindow.program, Topology.accepted_windows hs hc w hw]
    exact runs_bind.mpr ⟨(), path, [], h, .done _, (List.append_nil _).symm⟩
  refine ⟨c, hc, w, hw, path, programmed, fun u => ?_⟩
  rw [TranslationUnit.after_write hs (by decide) h, Function.update_self]
  refine ⟨?_, by decide, by decide, ?_⟩
  · rw [OutboundWindow.limit_image]
    decide
  · exact (placed.translates hs c.index placed.cpu_le_lastCpu (BitVec.le_refl _)).trans
      (if_neg (by decide))

end RootComplex
