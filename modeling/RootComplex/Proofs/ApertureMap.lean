import Mathlib.Data.Nat.ModEq
import Mathlib.Data.Set.Function
import RootComplex.Proofs.Lifecycle
import RootComplex.Proofs.TranslationUnit

/-! # The aperture map

What the translation unit does to the addresses of a window is what the aperture of its
root bridge says. -/

namespace RootComplex

open Program

theorem Address.ofWords_high_low (a : Address) : Address.ofWords a.high a.low = a := by
  apply BitVec.eq_of_getLsbD_eq
  intro i hi
  simp only [Address.ofWords, Address.high, Address.low, BitVec.getLsbD_cast, BitVec.getLsbD_append,
    BitVec.getLsbD_setWidth, BitVec.getLsbD_ushiftRight]
  by_cases h : i < 32
  · simp [h]
  · have h₁ : i - 32 < 32 := by omega
    have h₂ : 32 + (i - 32) = i := by omega
    simp [h, h₁, h₂]

/-- The CPU addresses of a window. -/
def Window.cpuRange (w : Window) : Set Address :=
  {x | w.cpu.toNat ≤ x.toNat ∧ x.toNat < w.cpu.toNat + w.size.toNat}

/-- The bus addresses of an aperture. -/
def Aperture.range (a : Aperture) : Set Address := {x | a.base ≤ x ∧ x ≤ a.limit}

/-- The aperture of a bridge into a space. -/
def RootBridge.aperture (b : RootBridge) : Space → Aperture
  | .io => b.io
  | .mem32 => b.memory
  | .mem64 => b.memoryAbove4G

theorem RootBridge.aperture_ofController (c : Controller) (space : Space) :
    (RootBridge.ofController c).aperture space = Aperture.ofWindow? (c.window? space) := by
  cases space <;> rfl

namespace Window.Mappable

variable {w : Window}

theorem toNat_limit (h : w.Mappable) :
    (Aperture.ofWindow w).limit.toNat = w.pci.toNat + w.size.toNat - 1 := by
  obtain ⟨hne, hfit⟩ := h.pciFits
  have hmin := h.minSize
  simp only [Window.pciRegion, Address.count] at hfit
  simp only [Translation.minSize, Translation.granule] at hmin
  simp only [Aperture.ofWindow, Aperture.lastOf, Address.count, BitVec.toNat_ofNat]
  omega

theorem toNat_add_translation (h : w.Mappable) {x : Address} (hx : x ∈ w.cpuRange) :
    (x + (w.pci - w.cpu)).toNat = w.pci.toNat + (x.toNat - w.cpu.toNat) := by
  obtain ⟨hlow, hhigh⟩ := hx
  obtain ⟨-, hpci⟩ := h.pciFits
  simp only [Window.pciRegion, Address.count] at hpci
  rw [BitVec.toNat_add, BitVec.toNat_sub]
  omega

theorem toNat_sub_translation (h : w.Mappable) {b : Address}
    (hb : b ∈ (Aperture.ofWindow w).range) :
    (b - (w.pci - w.cpu)).toNat = w.cpu.toNat + (b.toNat - w.pci.toNat) := by
  obtain ⟨hlow, hhigh⟩ := hb
  have hlow : w.pci.toNat ≤ b.toNat := BitVec.le_def.mp hlow
  have hhigh := BitVec.le_def.mp hhigh
  rw [h.toNat_limit] at hhigh
  obtain ⟨-, hcpu⟩ := h.cpuFits
  simp only [Window.cpuRegion, Address.count] at hcpu
  rw [BitVec.toNat_sub, BitVec.toNat_sub]
  omega

/-- The aperture of a window is its bus side. -/
theorem bijOn (h : w.Mappable) :
    Set.BijOn (· + (Aperture.ofWindow w).translation) w.cpuRange (Aperture.ofWindow w).range := by
  have htranslation : (Aperture.ofWindow w).translation = w.pci - w.cpu := rfl
  have hbase : (Aperture.ofWindow w).base = w.pci := rfl
  have hlimit := h.toNat_limit
  rw [htranslation]
  refine ⟨fun x hx => ?_, fun x _ y _ heq => (BitVec.add_left_inj _).mp heq, fun b hb => ?_⟩
  · have hsum := h.toNat_add_translation hx
    obtain ⟨hlow, hhigh⟩ := hx
    refine ⟨BitVec.le_def.mpr ?_, BitVec.le_def.mpr ?_⟩
    · rw [hbase, hsum]
      omega
    · rw [hlimit, hsum]
      omega
  · have hdiff := h.toNat_sub_translation hb
    obtain ⟨hlow, hhigh⟩ := hb
    have hlow := BitVec.le_def.mp hlow
    have hhigh := BitVec.le_def.mp hhigh
    rw [hbase] at hlow
    rw [hlimit] at hhigh
    have hmin := h.minSize
    simp only [Translation.minSize, Translation.granule] at hmin
    refine ⟨b - (w.pci - w.cpu), ⟨?_, ?_⟩, BitVec.sub_add_cancel b _⟩
    · rw [hdiff]
      omega
    · rw [hdiff]
      omega

end Window.Mappable

theorem Soc.decodedBits_bounds {soc : Soc} (hs : soc ∈ Soc.all) (index : Nat) :
    39 ≤ soc.decodedBits index ∧ soc.decodedBits index ≤ 64 := by
  simp only [Soc.all, List.mem_cons, List.not_mem_nil, or_false] at hs
  rcases hs with rfl | rfl
  · simp only [Bm1000.soc]
    decide
  · simp only [Bs1000.soc]
    split <;> decide

theorem Soc.toNat_cpuMask {soc : Soc} (hs : soc ∈ Soc.all) (index : Nat) :
    (soc.cpuMask index).toNat = 2 ^ soc.decodedBits index - 1 := by
  have hbits := (Soc.decodedBits_bounds hs index).2
  have hpow : 2 ^ soc.decodedBits index ≤ 2 ^ 64 := Nat.pow_le_pow_right (by decide) hbits
  rw [Soc.cpuMask, BitVec.toNat_setWidth, BitVec.toNat_allOnes, Nat.mod_eq_of_lt (by omega)]

/-- A controller tells addresses apart by their lowest bits. -/
theorem Soc.toNat_and_cpuMask_eq_mod {soc : Soc} (hs : soc ∈ Soc.all) (index : Nat) (x : Address) :
    (x &&& soc.cpuMask index).toNat = x.toNat % 2 ^ soc.decodedBits index := by
  rw [BitVec.toNat_and, Soc.toNat_cpuMask hs, Nat.and_two_pow_sub_one_eq_mod]

/-- A range that is decoded without a gap stays a range. -/
theorem Soc.toNat_and_cpuMask {soc : Soc} (hs : soc ∈ Soc.all) {index : Nat} {base x : Address}
    {size : Nat}
    (hfit : (base &&& soc.cpuMask index).toNat + size - 1 ≤ (soc.cpuMask index).toNat)
    (hlow : base.toNat ≤ x.toNat) (hhigh : x.toNat < base.toNat + size) :
    (x &&& soc.cpuMask index).toNat =
      (base &&& soc.cpuMask index).toNat + (x.toNat - base.toNat) := by
  have hmask := Soc.toNat_cpuMask hs index
  have hbase := Soc.toNat_and_cpuMask_eq_mod hs index base
  have hpow := Nat.two_pow_pos (soc.decodedBits index)
  have hi : (x.toNat - base.toNat) % 2 ^ soc.decodedBits index = x.toNat - base.toNat :=
    Nat.mod_eq_of_lt (by omega)
  have hsum := Nat.add_mod_of_add_mod_lt (a := base.toNat) (b := x.toNat - base.toNat)
    (c := 2 ^ soc.decodedBits index) (by omega)
  rw [hi, Nat.add_sub_cancel' hlow] at hsum
  rw [Soc.toNat_and_cpuMask_eq_mod hs, hsum, hbase]

namespace OutboundWindow

variable {soc : Soc} {index : Nat} {w : OutboundWindow}

theorem enabled_image : (w.image soc index).enabled = true := by
  cases ht : w.type <;> simp [RegionState.enabled, image, control2, ht] <;> decide

theorem base_image : (w.image soc index).base = w.maskedBase soc index :=
  Address.ofWords_high_low _

theorem limit_image : (w.image soc index).limit = w.maskedLimit soc index :=
  Address.ofWords_high_low _

theorem target_image : (w.image soc index).target = w.pci :=
  Address.ofWords_high_low _

theorem toNat_maskedLimit (hsize : 0 < w.size.toNat)
    (hfit : (w.maskedBase soc index).toNat + w.size.toNat - 1 ≤ (soc.cpuMask index).toNat) :
    (w.maskedLimit soc index).toNat = (w.maskedBase soc index).toNat + w.size.toNat - 1 := by
  have hmask := (soc.cpuMask index).isLt
  have hbound := w.size.isLt
  have hone : (1 : Address).toNat = 1 := rfl
  unfold maskedLimit
  rw [BitVec.toNat_sub, BitVec.toNat_add, hone]
  omega

/-- A region that holds its window maps the CPU addresses of the window to its bus
addresses, if the chip decodes the window without a gap. -/
theorem translate?_image (hs : soc ∈ Soc.all) (hsize : 0 < w.size.toNat)
    (hfit : (w.maskedBase soc index).toNat + w.size.toNat - 1 ≤ (soc.cpuMask index).toNat)
    {x : Address} (hlow : w.cpu.toNat ≤ x.toNat) (hhigh : x.toNat < w.cpu.toNat + w.size.toNat) :
    (w.image soc index).translate? (soc.cpuMask index) x = some (x + (w.pci - w.cpu)) := by
  have hlimit := toNat_maskedLimit hsize hfit
  have hx : (x &&& soc.cpuMask index).toNat =
      (w.maskedBase soc index).toNat + (x.toNat - w.cpu.toNat) :=
    Soc.toNat_and_cpuMask hs hfit hlow hhigh
  unfold RegionState.translate?
  rw [enabled_image, base_image, limit_image, target_image, if_pos]
  · congr 1
    have hdiff : (x &&& soc.cpuMask index) - w.maskedBase soc index = x - w.cpu := by
      apply BitVec.eq_of_toNat_eq
      rw [BitVec.toNat_sub, BitVec.toNat_sub, hx]
      omega
    rw [hdiff, BitVec.sub_eq_add_neg, BitVec.sub_eq_add_neg]
    ac_rfl
  · refine ⟨rfl, BitVec.le_def.mpr ?_, BitVec.le_def.mpr ?_⟩
    · omega
    · omega

/-- The region leaves addresses alone that the chip decodes outside of its window. -/
theorem translate?_image_eq_none (hsize : 0 < w.size.toNat)
    (hfit : (w.maskedBase soc index).toNat + w.size.toNat - 1 ≤ (soc.cpuMask index).toNat)
    {x : Address} (hout : (x &&& soc.cpuMask index).toNat < (w.maskedBase soc index).toNat ∨
      (w.maskedBase soc index).toNat + w.size.toNat ≤ (x &&& soc.cpuMask index).toNat) :
    (w.image soc index).translate? (soc.cpuMask index) x = none := by
  have hlimit := toNat_maskedLimit hsize hfit
  refine if_neg ?_
  rw [base_image, limit_image, BitVec.le_def, BitVec.le_def]
  rintro ⟨-, hlow, hhigh⟩
  omega

end OutboundWindow

/-- A bridge forwards accesses to a space exactly if its controller has a window into it. -/
theorem RootBridge.isEmpty_aperture {c : Controller} (h : c.Admitted) (space : Space) :
    ((RootBridge.ofController c).aperture space).isEmpty = false ↔
      ∃ w ∈ c.windows, w.space = space := by
  rw [aperture_ofController]
  cases hw : c.window? space with
  | none =>
    constructor
    · intro he
      cases he
    · rintro ⟨w, hmem, hspace⟩
      have := List.find?_eq_none.mp hw w hmem
      simp [hspace] at this
  | some w =>
    obtain ⟨hmem, hspace⟩ := Controller.window?_mem hw
    have hm := h.windows w hmem
    have hlimit := hm.toNat_limit
    have hmin := hm.minSize
    simp only [Translation.minSize, Translation.granule] at hmin
    refine ⟨fun _ => ⟨w, hmem, hspace⟩, fun _ => ?_⟩
    have hle : (Aperture.ofWindow w).base ≤ (Aperture.ofWindow w).limit := by
      rw [BitVec.le_def, hlimit]
      show w.pci.toNat ≤ _
      omega
    exact decide_eq_false (BitVec.not_lt.mpr hle)

/-- The region translates the CPU addresses of the window as the aperture says. -/
def RegionState.Maps (r : RegionState) (mask : Address) (w : Window) (a : Aperture) : Prop :=
  ∀ x ∈ w.cpuRange, r.translate? mask x = some (x + a.translation)

/-! ## The unit after a bring-up -/

/-- The programming of one port's windows in a bring-up, and what follows it: training, and
the other ports. -/
theorem Host.bringUpPorts_around {soc : Soc} {before after : List Controller} {c : Controller}
    {path : List Exchange} {states : List PortState}
    (h : Runs (Host.bringUpPorts soc (before ++ c :: after)) path states) :
    ∃ front stage late back failures others, path = front ++ (stage ++ (late ++ back)) ∧
      Runs (Port.programWindows ⟨soc, c⟩ c.outboundWindows) stage failures ∧
      (∀ e ∈ late, e.command.Touches (Port.trainingRegisters ⟨soc, c⟩)) ∧
      Runs (Host.bringUpPorts soc after) back others := by
  obtain ⟨early, middle, back, s, _, others, -, hs, hback, -, rfl⟩ := Host.bringUpPorts_split h
  obtain ⟨event, reset, train, probe, hreset, htrain, hprobe, -, -, rfl⟩ :=
    PortState.bringUp_stages hs
  obtain ⟨off, assert, cycle, wait, phy, msi, describe, release, windows, speed, on, report, -, -,
    -, -, -, -, -, -, hwindows, hspeed, hon, rfl⟩ := Port.configure_stages hreset
  refine ⟨early ++ (⟨.report event, ()⟩ :: (off ++ (assert ++ (cycle ++ (wait ++ (phy ++ (msi ++
    (describe ++ release)))))))), windows, speed ++ (on ++ (⟨.report report, ()⟩ ::
    (train ++ probe))), back, _, others, by simp, hwindows, ?_, hback⟩
  have hlink : Port.linkRegisters ⟨soc, c⟩ ⊆ Port.trainingRegisters ⟨soc, c⟩ :=
    fun a ha => by simp [Port.trainingRegisters, ha]
  have hprobes : Port.probeRegisters ⟨soc, c⟩ ⊆ Port.trainingRegisters ⟨soc, c⟩ :=
    fun a ha => by simp [Port.trainingRegisters, ha]
  have probed : (if s.outcome.isUp then Port.probeFilter ⟨soc, c⟩ else pure false).Within
      (Port.trainingRegisters ⟨soc, c⟩) := by
    split
    · exact Port.probeFilter_within.mono hprobes
    · exact .done false
  intro e he
  simp only [List.mem_append, List.mem_cons] at he
  rcases he with he | he | rfl | he | he
  · exact (Port.setTargetSpeed_within _).mono hlink _ _ hspeed e he
  · exact ((Port.setLtssm_within true).mono Port.searchRegisters_subset) _ _ hon e he
  · trivial
  · exact Port.train_within _ _ htrain e he
  · exact probed _ _ hprobe e he

namespace TranslationUnit

variable {soc : Soc} {c : Controller}

/-- The registers of a region that serves a window are among those of the port. -/
theorem registerAt_mem {w : OutboundWindow} (hw : w ∈ c.outboundWindows) (r : RegionRegister) :
    registerAt soc c.dbi w.region r ∈ Port.unitRegisters ⟨soc, c⟩ := by
  unfold registerAt Port.unitRegisters
  cases hr : soc.regions with
  | viewport =>
    refine List.mem_cons_of_mem _ ?_
    cases r <;> simp [Port.regionRegisters, RegionRegister.offset]
  | mapped offset =>
    refine List.mem_flatMap.mpr ⟨w, hw, ?_⟩
    cases r <;> simp [Port.regionRegisters, RegionRegister.offset, OutboundWindow.block, hr]

end TranslationUnit

theorem Controller.serving_mem {c : Controller} {space : Space} {w : Window}
    (hw : c.window? space = some w) : c.serving space w ∈ c.outboundWindows := by
  rw [Controller.outboundWindows_eq]
  exact List.mem_append_right _ (Controller.mem_spaceWindows.mpr ⟨space, w, hw, rfl⟩)

/-- Programming the windows of a port sets up the mapping of its aperture. -/
theorem maps_of_programWindows {soc : Soc} (hs : soc ∈ Soc.all) {c : Controller}
    (ha : c.Admitted) {path : List Exchange} {failures : Nat}
    (h : Runs (Port.programWindows ⟨soc, c⟩ c.outboundWindows) path failures) {space : Space}
    {w : Window} (hw : c.window? space = some w)
    (hfit : (w.cpu &&& soc.cpuMask c.index).toNat + w.size.toNat - 1 ≤
      (soc.cpuMask c.index).toNat) (u : TranslationUnit) :
    ((u.after soc c.dbi path).regions (c.regionOf space)).Maps (soc.cpuMask c.index) w
      (Aperture.ofWindow w) := by
  obtain ⟨_, _, _, plan⟩ := ha.windowPlan (Soc.outboundRegions_gt hs)
  obtain ⟨programmed, -⟩ := TranslationUnit.after_programWindows (u := u) hs plan.accepted
    plan.regions h
  have hregion := programmed _ (Controller.serving_mem hw)
  have hmin := (ha.windows w (Controller.window?_mem hw).1).minSize
  simp only [Translation.minSize, Translation.granule] at hmin
  intro x hx
  obtain ⟨hlow, hhigh⟩ := hx
  have translated := OutboundWindow.translate?_image (w := c.serving space w) hs
    (show 0 < w.size.toNat by omega) hfit hlow hhigh
  rw [← hregion] at translated
  exact translated

/-- The ports that are brought up later leave the translation unit of a port alone. -/
theorem after_bringUpPorts {soc : Soc} (hs : soc ∈ Soc.all) {nodes : List Node}
    (hd : (Topology.load soc nodes).RegistersDistinct) {before after : List Controller}
    {c : Controller} (hsplit : (Topology.load soc nodes).controllers = before ++ c :: after)
    {path : List Exchange} {states : List PortState}
    (h : Runs (Host.bringUpPorts soc after) path states) {w : OutboundWindow}
    (hw : w ∈ c.outboundWindows) (u : TranslationUnit) :
    (u.after soc c.dbi path).regions w.region = u.regions w.region := by
  have independent := hd.independent hs
  have indices := independent.indices
  rw [hsplit, List.map_append, List.map_cons] at indices
  have hlater : ∀ d ∈ after, d ∈ (Topology.load soc nodes).controllers := by
    intro d hm
    rw [hsplit]
    exact List.mem_append_right _ (List.mem_cons_of_mem _ hm)
  have round := Host.bringUpPorts_round (fun d hm => independent.isolated d (hlater d hm)) h
  refine TranslationUnit.after_untouched round.touches fun r hm => ?_
  obtain ⟨part, hpart, hreg⟩ := List.mem_flatMap.mp hm
  obtain ⟨s, hstate, rfl⟩ := List.mem_map.mp hpart
  have hmem : s.controller ∈ after := by
    rw [← Host.controllers_of_bringUpPorts h]
    exact List.mem_map_of_mem hstate
  have hc : c ∈ (Topology.load soc nodes).controllers := by
    rw [hsplit]
    exact List.mem_append_right _ List.mem_cons_self
  have hne : c.index ≠ s.controller.index := by
    intro he
    refine (List.nodup_cons.mp (List.nodup_append.mp indices).2.1).1 ?_
    rw [he]
    exact List.mem_map_of_mem hmem
  have hown : TranslationUnit.registerAt soc c.dbi w.region r ∈ Port.ownRegisters ⟨soc, c⟩ :=
    List.mem_cons_of_mem _ (List.mem_flatten_of_mem (by simp [Port.quietGroups])
      (TranslationUnit.registerAt_mem hw r))
  exact hd.not_mem_registers hc (hlater _ hmem) hne hown hreg

/-- What bring-up programs for the first window into a space and what the root bridge
publishes for that space are one mapping. It is in force once the port's windows are
programmed, and if no registers collide, it still is when the bring-up ends. -/
theorem apertures_match_regions {soc : Soc} (hs : soc ∈ Soc.all) {nodes : List Node}
    {c : Controller} (hc : c ∈ (Topology.load soc nodes).controllers) :
    (∀ space, ((RootBridge.ofController c).aperture space).isEmpty = false ↔
      ∃ w ∈ c.windows, w.space = space) ∧
    ∀ path host, Runs (Host.bringUp (Topology.load soc nodes)) path host →
      RootBridge.ofController c ∈ host.bridges ∧
      ∃ front stage back failures, path = front ++ (stage ++ back) ∧
        Runs (Port.programWindows ⟨soc, c⟩ c.outboundWindows) stage failures ∧
        ∀ space w, c.window? space = some w →
          (w.cpu &&& soc.cpuMask c.index).toNat + w.size.toNat - 1 ≤
            (soc.cpuMask c.index).toNat →
          Set.BijOn (· + ((RootBridge.ofController c).aperture space).translation) w.cpuRange
            ((RootBridge.ofController c).aperture space).range ∧
          ∀ u : TranslationUnit,
            ((u.after soc c.dbi (front ++ stage)).regions (c.regionOf space)).Maps
              (soc.cpuMask c.index) w ((RootBridge.ofController c).aperture space) ∧
            ((Topology.load soc nodes).RegistersDistinct →
              ((u.after soc c.dbi path).regions (c.regionOf space)).Maps
                (soc.cpuMask c.index) w ((RootBridge.ofController c).aperture space)) := by
  have admitted := Topology.admitted hc
  refine ⟨RootBridge.isEmpty_aperture admitted, fun path host h => ?_⟩
  obtain ⟨hports, -, hbridges⟩ := Host.bringUp_ports h
  have hcs := Host.controllers_of_bringUpPorts hports
  have hmem : RootBridge.ofController c ∈ host.bridges := by
    rw [hbridges]
    rw [← hcs] at hc
    obtain ⟨s, hs, rfl⟩ := List.mem_map.mp hc
    exact List.mem_map_of_mem hs
  obtain ⟨before, after, hsplit⟩ := List.append_of_mem hc
  rw [hsplit] at hports
  obtain ⟨front, stage, late, back, failures, others, rfl, hstage, hlate, hback⟩ :=
    Host.bringUpPorts_around hports
  refine ⟨hmem, front, stage, late ++ back, failures, rfl, hstage, fun space w hw hfit => ?_⟩
  have haperture : (RootBridge.ofController c).aperture space = Aperture.ofWindow w := by
    rw [RootBridge.aperture_ofController, hw]
    rfl
  rw [haperture]
  refine ⟨(admitted.windows w (Controller.window?_mem hw).1).bijOn, fun u => ?_⟩
  have programmed := maps_of_programWindows hs admitted hstage hw hfit (u.after soc c.dbi front)
  rw [← TranslationUnit.after_append] at programmed
  refine ⟨programmed, fun hd => ?_⟩
  have hserving := Controller.serving_mem hw
  have quiet := TranslationUnit.after_untouched (u := u.after soc c.dbi (front ++ stage)) hlate
    fun r => hd.not_mem_training hc (TranslationUnit.registerAt_mem hserving r)
  have kept := after_bringUpPorts hs hd hsplit hback hserving
    ((u.after soc c.dbi (front ++ stage)).after soc c.dbi late)
  rw [← List.append_assoc, TranslationUnit.after_append, TranslationUnit.after_append]
  show RegionState.Maps (TranslationUnit.regions _ (c.serving space w).region) _ _ _
  rw [kept.trans quiet]
  exact programmed

theorem apertures_match_regions_example :
    ∃ path host, Runs (Host.bringUp (Topology.load Bm1000.soc [exampleNode])) path host ∧
      ∀ u : TranslationUnit,
        ((u.after Bm1000.soc 0x03200000 path).regions 2).translate? (Bm1000.soc.cpuMask 1)
          0x1040000010 = some 0x40000010 ∧
        ((u.after Bm1000.soc 0x03200000 path).regions 4).translate? (Bm1000.soc.cpuMask 1)
          0x1100000010 = some 0x1100000010 ∧
        ((u.after Bm1000.soc 0x03200000 path).regions 3).translate? (Bm1000.soc.cpuMask 1)
          0x1010000010 = some 0x10 := by
  have hs : Bm1000.soc ∈ Soc.all := List.mem_cons_self
  have hc : exampleController ∈ (Topology.load Bm1000.soc [exampleNode]).controllers := by
    rw [load_exampleNode]
    exact List.mem_singleton_self _
  have hd := registersDistinct_exampleNode
  have hrun := runs_exchanges losingPlatform
    (Host.bringUp (Topology.load Bm1000.soc [exampleNode])) ()
  obtain ⟨-, front, stage, back, _, -, -, matched⟩ :=
    (apertures_match_regions hs hc).2 _ _ hrun
  refine ⟨_, _, hrun, fun u => ⟨?_, ?_, ?_⟩⟩
  · exact ((matched .mem32 _ rfl (by decide)).2 u).2 hd _ ⟨by decide, by decide⟩
  · exact ((matched .mem64 _ rfl (by decide)).2 u).2 hd _ ⟨by decide, by decide⟩
  · exact ((matched .io _ rfl (by decide)).2 u).2 hd _ ⟨by decide, by decide⟩

end RootComplex
