import Mathlib.Data.Set.Function
import RootComplex.Proofs.ApertureMap

/-! # Config space

The config window of a controller leads to every bus that its root bridge publishes. Each
register of each function on such a bus has an address of its own inside the window, and the
two config regions share them out: the first takes the root bus, the second all others. -/

namespace RootComplex

open Program

/-- A byte of the configuration space of a function. -/
@[ext] structure ConfigRegister where
  bus : Nat
  device : Fin 32
  function : Fin 8
  register : Fin 4096
  deriving DecidableEq, Repr

namespace ConfigRegister

/-- Where the register is in a window that spans all buses. -/
def offset (r : ConfigRegister) : Nat := ConfigHeader.offset r.bus r.device r.function r.register

/-- Bus, device, function and register have address bits of their own. -/
theorem offset_eq (r : ConfigRegister) :
    r.offset = r.bus * 0x100000 + r.device * 0x8000 + r.function * 0x1000 + r.register := by
  have hdevice : r.device.val &&& 0x1f = r.device :=
    Nat.and_two_pow_sub_one_of_lt_two_pow (n := 5) r.device.isLt
  have hfunction : r.function.val &&& 0x7 = r.function :=
    Nat.and_two_pow_sub_one_of_lt_two_pow (n := 3) r.function.isLt
  have hregister : r.register.val &&& 0xfff = r.register :=
    Nat.and_two_pow_sub_one_of_lt_two_pow (n := 12) r.register.isLt
  have hd := r.device.isLt
  have hf := r.function.isLt
  have hr := r.register.isLt
  unfold offset ConfigHeader.offset
  rw [hdevice, hfunction, hregister, Nat.or_assoc, Nat.or_assoc,
    ← Nat.shiftLeft_add_eq_or_of_lt (by omega) r.function.val,
    ← Nat.shiftLeft_add_eq_or_of_lt (by simp only [Nat.shiftLeft_eq]; omega) r.device.val,
    ← Nat.shiftLeft_add_eq_or_of_lt (by simp only [Nat.shiftLeft_eq]; omega) r.bus]
  simp only [Nat.shiftLeft_eq]
  omega

theorem offset_injective : Function.Injective offset := by
  intro r s h
  rw [offset_eq, offset_eq] at h
  have hr := r.register.isLt
  have hs := s.register.isLt
  ext <;> omega

/-- The registers of a bus are in its slot of the window. -/
theorem offset_mem_slot (r : ConfigRegister) :
    r.bus * busSize ≤ r.offset ∧ r.offset < (r.bus + 1) * busSize := by
  have hd := r.device.isLt
  have hf := r.function.isLt
  have hr := r.register.isLt
  rw [offset_eq]
  simp only [busSize]
  omega

theorem offset_lt_busSize_iff (r : ConfigRegister) : r.offset < busSize ↔ r.bus = 0 := by
  obtain ⟨hslot, hnext⟩ := r.offset_mem_slot
  simp only [busSize] at hslot hnext ⊢
  omega

/-- The CPU address of a register behind a controller. -/
def address (c : Controller) (r : ConfigRegister) : Address := c.config.at r.offset

end ConfigRegister

/-- The CPU addresses of the config window. -/
def Controller.configRange (c : Controller) : Set Address :=
  {x | c.config.toNat ≤ x.toNat ∧ x.toNat < c.config.toNat + c.configSize.toNat}

namespace Controller.Admitted

variable {c : Controller} {r : ConfigRegister}

/-- The slots of the published buses fit into the config window, and one more does not,
unless there are no more bus numbers. -/
theorem busLimit (h : c.Admitted) :
    ((RootBridge.ofController c).busLimit + 1) * busSize ≤ c.configSize.toNat ∧
    ((RootBridge.ofController c).busLimit = 255 ∨
      c.configSize.toNat < ((RootBridge.ofController c).busLimit + 1) * busSize + busSize) := by
  have hb := h.buses
  simp only [RootBridge.ofController, RootBridge.busLimitOf, maxBus, minConfigSize, busSize] at hb ⊢
  omega

/-- A register on a published bus is inside the config window. -/
theorem toNat_address (h : c.Admitted) (hbus : r.bus ≤ (RootBridge.ofController c).busLimit) :
    (r.address c).toNat = c.config.toNat + r.offset ∧ r.offset < c.configSize.toNat := by
  obtain ⟨⟨-, -, hfit⟩, -⟩ := h.config
  obtain ⟨hlast, -⟩ := h.busLimit
  obtain ⟨-, hslot⟩ := r.offset_mem_slot
  have hsize : r.offset < c.configSize.toNat := by
    simp only [busSize] at hlast hslot
    omega
  refine ⟨?_, hsize⟩
  simp only [Address.count] at hfit
  rw [ConfigRegister.address, Address.at, BitVec.toNat_add, BitVec.toNat_ofNat]
  omega

theorem address_mem (h : c.Admitted) (hbus : r.bus ≤ (RootBridge.ofController c).busLimit) :
    r.address c ∈ c.configRange := by
  obtain ⟨haddress, hsize⟩ := h.toNat_address hbus
  refine ⟨?_, ?_⟩
  · rw [haddress]
    exact Nat.le_add_right _ _
  · rw [haddress]
    omega

theorem address_injOn (h : c.Admitted) :
    Set.InjOn (ConfigRegister.address c) {r | r.bus ≤ (RootBridge.ofController c).busLimit} := by
  intro r hr s hs he
  have hrs := congrArg BitVec.toNat he
  rw [(h.toNat_address hr).1, (h.toNat_address hs).1] at hrs
  exact ConfigRegister.offset_injective (Nat.add_left_cancel hrs)

end Controller.Admitted

/-! ## The two config regions -/

namespace Controller

/-- The window to the root bus. -/
def rootConfig (c : Controller) : OutboundWindow :=
  ⟨OutboundRegion.config0, c.config, 0, BitVec.ofNat 64 busSize, .config0⟩

/-- The window to the buses behind the root bus. -/
def otherConfig (c : Controller) : OutboundWindow :=
  ⟨OutboundRegion.config1, c.config + BitVec.ofNat 64 busSize, BitVec.ofNat 64 busSize,
    c.configSize - BitVec.ofNat 64 busSize, .config1⟩

theorem mem_outboundWindows_of_config {c : Controller} {w : OutboundWindow}
    (h : w ∈ [c.rootConfig, c.otherConfig]) : w ∈ c.outboundWindows := by
  rw [outboundWindows_eq]
  exact List.mem_append_left _ h

/-- The two config regions make config requests of the two kinds, which take bus, device and
function from the address. Of the registers on the buses up to `limit`, the first region
matches those on the root bus and the second all others, and each register is sent to its
own offset. -/
structure ReachesConfig (soc : Soc) (c : Controller) (regions : Nat → RegionState)
    (limit : Nat) : Prop where
  rootType : RegionControl1.regionType.get (regions OutboundRegion.config0 .control1) =
    Translation.typeConfig0
  othersType : RegionControl1.regionType.get (regions OutboundRegion.config1 .control1) =
    Translation.typeConfig1
  shifted : ∀ n ∈ [OutboundRegion.config0, OutboundRegion.config1],
    RegionControl2.configShiftMode.test (regions n .control2) = true
  root : ∀ r : ConfigRegister, r.bus ≤ limit →
    (regions OutboundRegion.config0).translate? (soc.cpuMask c.index) (r.address c) =
      if r.bus = 0 then some (BitVec.ofNat 64 r.offset) else none
  others : ∀ r : ConfigRegister, r.bus ≤ limit →
    (regions OutboundRegion.config1).translate? (soc.cpuMask c.index) (r.address c) =
      if 1 ≤ r.bus then some (BitVec.ofNat 64 r.offset) else none

variable {soc : Soc} {c : Controller} {r : ConfigRegister}

/-- A slice of the config window, from `start` on, that is mapped to its own offsets
translates the registers in it and no others. -/
theorem Admitted.translate?_slice (h : c.Admitted) (hs : soc ∈ Soc.all)
    (hfit : (c.config &&& soc.cpuMask c.index).toNat + c.configSize.toNat - 1 ≤
      (soc.cpuMask c.index).toNat) {w : OutboundWindow} (start : Nat)
    (hcpu : w.cpu.toNat = c.config.toNat + start) (hpci : w.pci.toNat = start)
    (hpos : 0 < w.size.toNat) (hend : start + w.size.toNat ≤ c.configSize.toNat)
    (hbus : r.bus ≤ (RootBridge.ofController c).busLimit) :
    (w.image soc c.index).translate? (soc.cpuMask c.index) (r.address c) =
      if start ≤ r.offset ∧ r.offset < start + w.size.toNat then
        some (BitVec.ofNat 64 r.offset)
      else none := by
  obtain ⟨haddress, hinside⟩ := h.toNat_address hbus
  have hbase : (w.maskedBase soc c.index).toNat =
      (c.config &&& soc.cpuMask c.index).toNat + start := by
    rw [OutboundWindow.maskedBase,
      Soc.toNat_and_cpuMask hs hfit (by rw [hcpu]; omega) (by rw [hcpu]; omega), hcpu,
      Nat.add_sub_cancel_left]
  have hmasked : (r.address c &&& soc.cpuMask c.index).toNat =
      (c.config &&& soc.cpuMask c.index).toNat + r.offset := by
    rw [Soc.toNat_and_cpuMask hs hfit (by rw [haddress]; omega) (by rw [haddress]; omega),
      haddress, Nat.add_sub_cancel_left]
  have hfits : (w.maskedBase soc c.index).toNat + w.size.toNat - 1 ≤
      (soc.cpuMask c.index).toNat := by
    rw [hbase]
    omega
  split
  · rename_i hin
    rw [OutboundWindow.translate?_image hs hpos hfits (by rw [haddress, hcpu]; omega)
      (by rw [haddress, hcpu]; omega)]
    congr 1
    apply BitVec.eq_of_toNat_eq
    rw [BitVec.toNat_add, BitVec.toNat_sub, haddress, hcpu, hpci, BitVec.toNat_ofNat]
    omega
  · rename_i hout
    refine OutboundWindow.translate?_image_eq_none hpos hfits ?_
    rw [hmasked, hbase]
    omega

/-- Regions that hold the two config windows lead to every published bus. -/
theorem Admitted.reachesConfig (h : c.Admitted) (hs : soc ∈ Soc.all)
    (hfit : (c.config &&& soc.cpuMask c.index).toNat + c.configSize.toNat - 1 ≤
      (soc.cpuMask c.index).toNat) {regions : Nat → RegionState}
    (hroot : regions OutboundRegion.config0 = c.rootConfig.image soc c.index)
    (hothers : regions OutboundRegion.config1 = c.otherConfig.image soc c.index) :
    c.ReachesConfig soc regions (RootBridge.ofController c).busLimit := by
  have hb := h.buses
  have hbus : (BitVec.ofNat 64 busSize).toNat = busSize := rfl
  have hrest : c.otherConfig.size.toNat = c.configSize.toNat - busSize := h.configSize_sub_bus
  have hcpu : c.otherConfig.cpu.toNat = c.config.toNat + busSize := h.config_add_bus
  simp only [minConfigSize] at hb
  constructor
  case rootType =>
    rw [hroot]
    exact (by decide : RegionControl1.regionType.get
      (RegionControl1.regionType.set RequestType.config0.code 0) = Translation.typeConfig0)
  case othersType =>
    rw [hothers]
    exact (by decide : RegionControl1.regionType.get
      (RegionControl1.regionType.set RequestType.config1.code 0) = Translation.typeConfig1)
  case shifted =>
    have hshift : RegionControl2.configShiftMode.test (RegionControl2.configShiftMode.put true
        (RegionControl2.regionEnable.put true 0)) = true := by decide
    intro n hn
    simp only [List.mem_cons, List.not_mem_nil, or_false] at hn
    rcases hn with rfl | rfl
    · rw [hroot]
      exact hshift
    · rw [hothers]
      exact hshift
  case root =>
    intro r hr
    have hsize : c.rootConfig.size.toNat = busSize := rfl
    rw [hroot, h.translate?_slice hs hfit 0 rfl rfl (by rw [hsize]; decide)
      (by rw [hsize]; omega) hr, hsize]
    refine if_congr ?_ rfl rfl
    rw [Nat.zero_add, r.offset_lt_busSize_iff]
    exact and_iff_right (Nat.zero_le _)
  case others =>
    intro r hr
    obtain ⟨-, hinside⟩ := h.toNat_address hr
    have hpos : 0 < busSize := by decide
    rw [hothers, h.translate?_slice hs hfit busSize hcpu hbus (by rw [hrest]; omega)
      (by rw [hrest]; omega) hr, hrest]
    refine if_congr ?_ rfl rfl
    have hroot := r.offset_lt_busSize_iff
    omega

end Controller

/-! ## The regions in a bring-up -/

/-- A bring-up programs the windows of a controller at one place. Then their regions hold
them, and if no registers collide, they still do when the bring-up ends. -/
theorem Host.bringUp_programs {soc : Soc} (hs : soc ∈ Soc.all) {nodes : List Node}
    {c : Controller} (hc : c ∈ (Topology.load soc nodes).controllers) {path : List Exchange}
    {host : Host} (h : Runs (Host.bringUp (Topology.load soc nodes)) path host) :
    RootBridge.ofController c ∈ host.bridges ∧
    ∃ front stage back failures, path = front ++ (stage ++ back) ∧
      Runs (Port.programWindows ⟨soc, c⟩ c.outboundWindows) stage failures ∧
      ∀ w ∈ c.outboundWindows, ∀ u : TranslationUnit,
        (u.after soc c.dbi (front ++ stage)).regions w.region = w.image soc c.index ∧
        ((Topology.load soc nodes).RegistersDistinct →
          (u.after soc c.dbi path).regions w.region = w.image soc c.index) := by
  obtain ⟨_, _, _, plan⟩ := (Topology.admitted hc).windowPlan (Soc.outboundRegions_gt hs)
  obtain ⟨hports, -, hbridges⟩ := Host.bringUp_ports h
  have hcs := Host.controllers_of_bringUpPorts hports
  have hmem : RootBridge.ofController c ∈ host.bridges := by
    rw [hbridges]
    rw [← hcs] at hc
    obtain ⟨s, hs, rfl⟩ := List.mem_map.mp hc
    exact List.mem_map_of_mem hs
  obtain ⟨before, after, hsplit⟩ := List.append_of_mem hc
  rw [hsplit] at hports
  obtain ⟨front, stage, late, back, failures, others, rfl, hstage, hlate, hback⟩ :=
    Host.bringUpPorts_around hports
  refine ⟨hmem, front, stage, late ++ back, failures, rfl, hstage, fun w hw u => ?_⟩
  have programmed : (u.after soc c.dbi (front ++ stage)).regions w.region =
      w.image soc c.index := by
    rw [TranslationUnit.after_append]
    exact (TranslationUnit.after_programWindows hs plan.accepted plan.regions hstage).1 w hw
  refine ⟨programmed, fun hd => ?_⟩
  have quiet := TranslationUnit.after_untouched (u := u.after soc c.dbi (front ++ stage)) hlate
    fun r => hd.not_mem_training hc (TranslationUnit.registerAt_mem hw r)
  have kept := after_bringUpPorts hs hd hsplit hback hw
    ((u.after soc c.dbi (front ++ stage)).after soc c.dbi late)
  rw [← List.append_assoc, TranslationUnit.after_append, TranslationUnit.after_append]
  exact (kept.trans quiet).trans programmed

/-- Every published bus is reached through the config window. Each register on it has an
address of its own inside the window, and the window has no room for a further bus. In a
bring-up, if the chip decodes the window without a gap, exactly one of the two config regions
sends the address to the register's offset: from the time the port's windows are programmed,
and if no registers collide, still when the bring-up ends. -/
theorem published_buses_reached {soc : Soc} (hs : soc ∈ Soc.all) {nodes : List Node}
    {c : Controller} (hc : c ∈ (Topology.load soc nodes).controllers) :
    (RootBridge.ofController c).busBase = 0 ∧
    ((RootBridge.ofController c).busLimit = 255 ∨
      c.configSize.toNat < ((RootBridge.ofController c).busLimit + 1) * busSize + busSize) ∧
    (∀ r : ConfigRegister, r.bus ≤ (RootBridge.ofController c).busLimit →
      r.address c ∈ c.configRange) ∧
    Set.InjOn (ConfigRegister.address c) {r | r.bus ≤ (RootBridge.ofController c).busLimit} ∧
    ∀ path host, Runs (Host.bringUp (Topology.load soc nodes)) path host →
      RootBridge.ofController c ∈ host.bridges ∧
      ∃ front stage back failures, path = front ++ (stage ++ back) ∧
        Runs (Port.programWindows ⟨soc, c⟩ c.outboundWindows) stage failures ∧
        ((c.config &&& soc.cpuMask c.index).toNat + c.configSize.toNat - 1 ≤
            (soc.cpuMask c.index).toNat →
          ∀ u : TranslationUnit,
            c.ReachesConfig soc (u.after soc c.dbi (front ++ stage)).regions
              (RootBridge.ofController c).busLimit ∧
            ((Topology.load soc nodes).RegistersDistinct →
              c.ReachesConfig soc (u.after soc c.dbi path).regions
                (RootBridge.ofController c).busLimit)) := by
  have admitted := Topology.admitted hc
  refine ⟨rfl, admitted.busLimit.2, fun r hr => admitted.address_mem hr, admitted.address_injOn,
    fun path host h => ?_⟩
  obtain ⟨hmem, front, stage, back, failures, hpath, hstage, programmed⟩ :=
    Host.bringUp_programs hs hc h
  refine ⟨hmem, front, stage, back, failures, hpath, hstage, fun hfit u => ?_⟩
  have root := programmed _ (Controller.mem_outboundWindows_of_config List.mem_cons_self) u
  have others := programmed _
    (Controller.mem_outboundWindows_of_config (List.mem_cons_of_mem _ List.mem_cons_self)) u
  exact ⟨admitted.reachesConfig hs hfit root.1 others.1,
    fun hd => admitted.reachesConfig hs hfit (root.2 hd) (others.2 hd)⟩

/-- The last port of the larger chip. Its config window is above the addresses that the port
decodes, and ends a little after its third bus. -/
def highNode : Node := Node.build "pcie@4d100000" [
  .cells "reg" [0, 0x4D100000, 0, 0x100000, 0, 0x4E080000, 0, 0x1000, 0xF0, 0, 0, 0x310000]]

def highController : Controller where
  index := 13
  name := "pcie@4d100000"
  dbi := 0x4D100000
  control := 0x4E080000
  config := 0xF000000000
  configSize := 0x310000
  lanes := none
  windows := []
  resetLine := none
  msiNumber := none
  maxSpeed := 3

theorem load_highNode :
    (Topology.load Bs1000.soc [highNode]).controllers = [highController] := by
  decide +kernel

theorem registersDistinct_highNode : (Topology.load Bs1000.soc [highNode]).RegistersDistinct := by
  decide +kernel

theorem published_buses_reached_example :
    (RootBridge.ofController highController).busLimit = 2 ∧
    ∃ path host, Runs (Host.bringUp (Topology.load Bs1000.soc [highNode])) path host ∧
      ∀ u : TranslationUnit,
        ((u.after Bs1000.soc 0x4D100000 path).regions 0).translate? (Bs1000.soc.cpuMask 13)
          (ConfigRegister.address highController ⟨0, 1, 0, 0⟩) = some 0x8000 ∧
        ((u.after Bs1000.soc 0x4D100000 path).regions 0).translate? (Bs1000.soc.cpuMask 13)
          (ConfigRegister.address highController ⟨2, 31, 7, 4092⟩) = none ∧
        ((u.after Bs1000.soc 0x4D100000 path).regions 1).translate? (Bs1000.soc.cpuMask 13)
          (ConfigRegister.address highController ⟨2, 31, 7, 4092⟩) = some 0x2FFFFC := by
  have hs : Bs1000.soc ∈ Soc.all := List.mem_cons_of_mem _ List.mem_cons_self
  have hc : highController ∈ (Topology.load Bs1000.soc [highNode]).controllers := by
    rw [load_highNode]
    exact List.mem_singleton_self _
  have hrun := runs_exchanges losingPlatform
    (Host.bringUp (Topology.load Bs1000.soc [highNode])) ()
  obtain ⟨-, -, -, -, reached⟩ := published_buses_reached hs hc
  obtain ⟨-, front, stage, back, _, -, -, reaches⟩ := reached _ _ hrun
  refine ⟨by decide, _, _, hrun, fun u => ?_⟩
  have all := (reaches (by decide) u).2 registersDistinct_highNode
  exact ⟨all.root _ (by decide), all.root _ (by decide), all.others _ (by decide)⟩

end RootComplex
