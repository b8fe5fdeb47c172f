import RootComplex.Proofs.DecodedWindows

/-! # Window arithmetic

The outbound windows of a controller, their limits and the apertures of its bridge are sums and
differences of addresses. Here each is computed once more, in the same order, by steps that refuse
to pass the ends of the address space. For a loaded controller no step does so, but for one: a
window that ends with the last address there is, on a chip that decodes all address bits, has a
first sum that passes it. The step after that one comes back, so its limit is right all the same. -/

namespace RootComplex

/-- A step that leaves the address space. -/
inductive Address.Overflow where
  | sum (a b : Address)
  | difference (a b : Address)
  deriving DecidableEq, Repr

namespace Address

def sum (a b : Address) : Except Overflow Address :=
  if a.uaddOverflow b then .error (.sum a b) else .ok (a + b)

def difference (a b : Address) : Except Overflow Address :=
  if a.usubOverflow b then .error (.difference a b) else .ok (a - b)

theorem sum_eq_ok {a b s : Address} :
    a.sum b = .ok s ↔ a.toNat + b.toNat < count ∧ a + b = s := by
  unfold sum BitVec.uaddOverflow count
  split <;> simp_all

theorem sum_eq_error {a b : Address} {e : Overflow} :
    a.sum b = .error e ↔ count ≤ a.toNat + b.toNat ∧ .sum a b = e := by
  unfold sum BitVec.uaddOverflow count
  split <;> simp_all

theorem difference_eq_ok {a b d : Address} :
    a.difference b = .ok d ↔ b.toNat ≤ a.toNat ∧ a - b = d := by
  unfold difference BitVec.usubOverflow
  split <;> simp_all

end Address

/-! ## The steps -/

namespace Controller

/-- The first bus of the config window and the rest of it, by checked steps. -/
def checkedConfigWindows (c : Controller) : Except Address.Overflow (List OutboundWindow) := do
  let bus := BitVec.ofNat 64 busSize
  let others ← c.config.sum bus
  let rest ← c.configSize.difference bus
  return [⟨OutboundRegion.config0, c.config, 0, bus, .config0⟩,
    ⟨OutboundRegion.config1, others, bus, rest, .config1⟩]

def checkedOutboundWindows (c : Controller) : Except Address.Overflow (List OutboundWindow) := do
  let config ← c.checkedConfigWindows
  return config ++ c.memoryWindows ++ c.ioWindows

end Controller

namespace OutboundWindow

/-- The size is added to the masked base before one is taken off. -/
def checkedLimit (soc : Soc) (index : Nat) (w : OutboundWindow) :
    Except Address.Overflow Address := do
  let next ← (w.maskedBase soc index).sum w.size
  next.difference 1

/-- The window ends with the last address there is. -/
def ReachesEnd (w : OutboundWindow) : Prop := w.cpu.toNat + w.size.toNat = Address.count

instance (w : OutboundWindow) : Decidable w.ReachesEnd := inferInstanceAs (Decidable (_ = _))

end OutboundWindow

namespace Aperture

/-- The translation wraps on purpose, and is no checked step. -/
def checkedOfWindow (w : Window) : Except Address.Overflow Aperture := do
  let most ← w.size.difference 1
  let last ← w.pci.sum most
  return ⟨w.pci, last, w.pci - w.cpu⟩

def checkedOfWindow? : Option Window → Except Address.Overflow Aperture
  | some w => checkedOfWindow w
  | .none => return none

end Aperture

namespace RootBridge

def checkedBusLimit (configSize : Address) : Except Address.Overflow Nat := do
  let last ← Address.difference (configSize / BitVec.ofNat 64 busSize) 1
  return min last.toNat maxBus

def checkedOfController (c : Controller) : Except Address.Overflow RootBridge := do
  let memoryAbove4G ← Aperture.checkedOfWindow? (c.window? .mem64)
  let busLimit ← checkedBusLimit c.configSize
  let io ← Aperture.checkedOfWindow? (c.window? .io)
  let memory ← Aperture.checkedOfWindow? (c.window? .mem32)
  return {
    segment := c.index
    attributes := AllocationAttributes.memory64Decode.put (!memoryAbove4G.isEmpty)
      (AllocationAttributes.combinePrefetchable.put true 0)
    dmaAbove4G := true
    busBase := 0
    busLimit := busLimit
    io := io
    memory := memory
    memoryAbove4G := memoryAbove4G
    prefetchable := Aperture.none
    prefetchableAbove4G := Aperture.none
    devicePath := DevicePath.ofSegment c.index }

end RootBridge

/-! ## What the steps come to -/

namespace OutboundWindow.Placed

variable {soc : Soc} {w : OutboundWindow} {index : Nat}

/-- The one sum that can leave the address space, and where it does. -/
theorem sum_overflows_iff (h : w.Placed) (hs : soc ∈ Soc.all) (index : Nat) :
    Address.count ≤ (w.maskedBase soc index).toNat + w.size.toNat ↔
      soc = Bm1000.soc ∧ w.ReachesEnd := by
  have hfits := h.fits
  have hshort := h.short
  have hbase := toNat_base hs index w
  rw [base_image] at hbase
  simp only [Translation.maxSize] at hshort
  simp only [ReachesEnd, Address.count] at hfits ⊢
  simp only [Soc.all, List.mem_cons, List.not_mem_nil, or_false] at hs
  rcases hs with rfl | rfl
  -- all bits are decoded, and the masked base is the base
  · have hbits : Bm1000.soc.decodedBits index = 64 := rfl
    rw [hbits, Nat.mod_eq_of_lt w.cpu.isLt] at hbase
    rw [hbase]
    simp only [true_and]
    omega
  -- the masked base and the size are far too small
  · have hbits : 2 ^ Bs1000.soc.decodedBits index ≤ 2 ^ 40 := by
      refine Nat.pow_le_pow_right (by decide) ?_
      simp only [Bs1000.soc]
      split <;> decide
    have hmod := Nat.mod_lt w.cpu.toNat (Nat.two_pow_pos (Bs1000.soc.decodedBits index))
    have hchips : Bs1000.soc ≠ Bm1000.soc := fun h => absurd (congrArg Soc.name h) (by decide)
    simp only [hchips, false_and, iff_false]
    omega

theorem checkedLimit_eq_ok (h : w.Placed) (hs : soc ∈ Soc.all) (index : Nat) :
    w.checkedLimit soc index = .ok (w.maskedLimit soc index) ↔
      ¬(soc = Bm1000.soc ∧ w.ReachesEnd) := by
  rw [← h.sum_overflows_iff hs index, Nat.not_le, checkedLimit, Except.bind_eq_ok]
  constructor
  · rintro ⟨_, hsum, -⟩
    exact (Address.sum_eq_ok.mp hsum).1
  · intro hlt
    have hpos := h.nonempty
    refine ⟨_, Address.sum_eq_ok.mpr ⟨hlt, rfl⟩, Address.difference_eq_ok.mpr ⟨?_, rfl⟩⟩
    rw [BitVec.toNat_add_of_lt hlt]
    show 1 ≤ _
    omega

theorem checkedLimit_eq_error (h : w.Placed) (hs : soc ∈ Soc.all) (index : Nat) :
    w.checkedLimit soc index = .error (.sum (w.maskedBase soc index) w.size) ↔
      soc = Bm1000.soc ∧ w.ReachesEnd := by
  rw [← h.sum_overflows_iff hs index]
  constructor
  · intro herror
    refine Nat.le_of_not_lt fun hlt => ?_
    have hok := (h.checkedLimit_eq_ok hs index).mpr fun hend =>
      absurd ((h.sum_overflows_iff hs index).mpr hend) (Nat.not_le.mpr hlt)
    rw [hok] at herror
    cases herror
  · intro hle
    rw [checkedLimit, Address.sum_eq_error.mpr ⟨hle, rfl⟩]
    rfl

end OutboundWindow.Placed

namespace Controller.Admitted

variable {c : Controller}

theorem checkedOutboundWindows_eq (h : c.Admitted) :
    c.checkedOutboundWindows = .ok c.outboundWindows := by
  have hb := h.buses
  have hbus : (BitVec.ofNat 64 busSize).toNat = 0x100000 := rfl
  obtain ⟨⟨-, -, hfit⟩, -⟩ := h.config
  simp only [minConfigSize, busSize] at hb hfit
  have config : c.checkedConfigWindows = .ok c.configWindows := by
    refine Except.bind_eq_ok.mpr ⟨_, Address.sum_eq_ok.mpr ⟨?_, rfl⟩,
      Except.bind_eq_ok.mpr ⟨_, Address.difference_eq_ok.mpr ⟨?_, rfl⟩, rfl⟩⟩
    · rw [hbus]
      omega
    · rw [hbus]
      omega
  exact Except.bind_eq_ok.mpr ⟨_, config, rfl⟩

theorem not_reachesEnd_of_config0 (h : c.Admitted) {w : OutboundWindow}
    (hw : w ∈ c.outboundWindows) (ht : w.type = .config0) : ¬w.ReachesEnd := by
  rw [outboundWindows_eq] at hw
  rcases List.mem_append.mp hw with hw | hw
  · simp only [configWindows, List.mem_cons, List.not_mem_nil, or_false] at hw
    rcases hw with rfl | rfl
    · have hb := h.buses
      have hbus : (BitVec.ofNat 64 busSize).toNat = 0x100000 := rfl
      obtain ⟨⟨-, -, hfit⟩, -⟩ := h.config
      simp only [minConfigSize, busSize] at hb hfit
      simp only [OutboundWindow.ReachesEnd, hbus]
      omega
    · cases ht
  · obtain ⟨space, v, -, rfl⟩ := mem_spaceWindows.mp hw
    cases space <;> cases ht

theorem checkedOfWindow?_eq (h : c.Admitted) (space : Space) :
    Aperture.checkedOfWindow? (c.window? space) = .ok (Aperture.ofWindow? (c.window? space)) := by
  cases hw : c.window? space with
  | none => rfl
  | some w =>
    have hm := h.windows w (window?_mem hw).1
    have hpos := hm.minSize
    obtain ⟨-, hfit⟩ := hm.pciFits
    have hone : (1 : Address).toNat = 1 := rfl
    simp only [Translation.minSize, Translation.granule] at hpos
    simp only [Window.pciRegion] at hfit
    have hmost : (w.size - 1).toNat = w.size.toNat - 1 :=
      BitVec.toNat_sub_of_le (BitVec.le_def.mpr (by omega))
    refine Except.bind_eq_ok.mpr ⟨_, Address.difference_eq_ok.mpr ⟨by omega, rfl⟩,
      Except.bind_eq_ok.mpr ⟨_, Address.sum_eq_ok.mpr ⟨by rw [hmost]; exact hfit, rfl⟩, ?_⟩⟩
    have hlast : w.pci + (w.size - 1) = Aperture.lastOf w.pci w.size := by
      apply BitVec.eq_of_toNat_eq
      simp only [Address.count] at hfit
      rw [BitVec.toNat_add, hmost, Aperture.lastOf, BitVec.toNat_ofNat, Address.count]
      omega
    rw [hlast]
    rfl

theorem checkedBusLimit_eq (h : c.Admitted) :
    RootBridge.checkedBusLimit c.configSize = .ok (RootBridge.busLimitOf c.configSize) := by
  have hb := h.buses
  have hbuses : (c.configSize / BitVec.ofNat 64 busSize).toNat = c.configSize.toNat / busSize :=
    BitVec.toNat_udiv
  have hone : (1 : Address).toNat = 1 := rfl
  simp only [minConfigSize, busSize] at hb hbuses
  have hle : (1 : Address).toNat ≤ (c.configSize / BitVec.ofNat 64 busSize).toNat := by
    simp only [busSize]
    omega
  refine Except.bind_eq_ok.mpr ⟨_, Address.difference_eq_ok.mpr ⟨hle, rfl⟩, ?_⟩
  rw [BitVec.toNat_sub_of_le (BitVec.le_def.mpr hle)]
  simp only [busSize, hbuses, hone, RootBridge.busLimitOf]
  rfl

theorem checkedOfController_eq (h : c.Admitted) :
    RootBridge.checkedOfController c = .ok (RootBridge.ofController c) := by
  unfold RootBridge.checkedOfController
  rw [h.checkedOfWindow?_eq, h.checkedOfWindow?_eq, h.checkedOfWindow?_eq, h.checkedBusLimit_eq]
  rfl

end Controller.Admitted

/-- No step on the way to the windows and the bridge of a loaded controller leaves the address
space. On the way to the limit of a window the first sum does, exactly on BM1000 and for a window
that ends with the last address there is, which the first bus of the config window never does;
and the limit is the last address of the window even then. -/
theorem window_arithmetic_exact {soc : Soc} (hs : soc ∈ Soc.all) {nodes : List Node}
    {c : Controller} (hc : c ∈ (Topology.load soc nodes).controllers) :
    c.checkedOutboundWindows = .ok c.outboundWindows ∧
    RootBridge.checkedOfController c = .ok (RootBridge.ofController c) ∧
    ∀ w ∈ c.outboundWindows,
      (w.checkedLimit soc c.index = .error (.sum (w.maskedBase soc c.index) w.size) ↔
        soc = Bm1000.soc ∧ w.ReachesEnd) ∧
      (w.checkedLimit soc c.index = .ok (w.maskedLimit soc c.index) ↔
        ¬(soc = Bm1000.soc ∧ w.ReachesEnd)) ∧
      (w.type = .config0 → ¬w.ReachesEnd) ∧
      (w.maskedLimit soc c.index).toNat =
        (w.maskedBase soc c.index).toNat + (w.size.toNat - 1) := by
  have h := Topology.admitted hc
  refine ⟨h.checkedOutboundWindows_eq, h.checkedOfController_eq, fun w hw => ?_⟩
  have placed := h.placed hs w hw
  refine ⟨placed.checkedLimit_eq_error hs c.index, placed.checkedLimit_eq_ok hs c.index,
    h.not_reachesEnd_of_config0 hw, ?_⟩
  have hlimit := placed.toNat_limit hs c.index
  have hbase := OutboundWindow.Placed.toNat_base hs c.index w
  rw [OutboundWindow.limit_image] at hlimit
  rw [OutboundWindow.base_image] at hbase
  rw [hlimit, hbase]

/-- `exampleNode` with its config window at the end of the address space, and a memory window on
the last page. -/
def lastPageNode : Node := (exampleNode.edit
  (.cells "reg" [0, 0x03200000, 0, 0x1000, 0xFFFFFFFF, 0xF0000000, 0, 0x10000000])).edit
  (.cells "ranges" [0x83000000, 0x11, 0, 0xFFFFFFFF, 0xFFFF0000, 0, 0x10000])

/-- The sums for the memory window and for the buses behind the first pass the last address, the
one for the first bus does not. -/
theorem window_arithmetic_exact_example :
    ∃ c ∈ (Topology.load Bm1000.soc [lastPageNode]).controllers,
      ∃ root others memory, c.outboundWindows = [root, others, memory] ∧
        root.checkedLimit Bm1000.soc c.index = .ok 0xFFFFFFFFF00FFFFF ∧
        others.checkedLimit Bm1000.soc c.index = .error (.sum 0xFFFFFFFFF0100000 0xFF00000) ∧
        memory.checkedLimit Bm1000.soc c.index = .error (.sum 0xFFFFFFFFFFFF0000 0x10000) := by
  have hs : Bm1000.soc ∈ Soc.all := List.mem_cons_self
  let c := { exampleController with
    config := 0xFFFFFFFFF0000000
    windows := [⟨.mem64, 0xFFFFFFFFFFFF0000, 0x1100000000, 0x10000⟩] }
  have hc : c ∈ (Topology.load Bm1000.soc [lastPageNode]).controllers :=
    Topology.mem_load_iff.mpr (by decide +kernel)
  obtain ⟨-, -, steps⟩ := window_arithmetic_exact hs hc
  let root : OutboundWindow := ⟨0, 0xFFFFFFFFF0000000, 0, 0x100000, .config0⟩
  let others : OutboundWindow := ⟨1, 0xFFFFFFFFF0100000, 0x100000, 0xFF00000, .config1⟩
  let memory : OutboundWindow := ⟨2, 0xFFFFFFFFFFFF0000, 0x1100000000, 0x10000, .memory⟩
  have windows : c.outboundWindows = [root, others, memory] := by decide
  refine ⟨c, hc, root, others, memory, windows, ?_, ?_, ?_⟩
  · have first := (steps root (by rw [windows]; decide)).2.1
    exact (first.mpr fun h => absurd h.2 (by decide)).trans (by decide)
  · have sum := (steps others (by rw [windows]; decide)).1
    exact (sum.mpr ⟨rfl, by decide⟩).trans (by decide)
  · have sum := (steps memory (by rw [windows]; decide)).1
    exact (sum.mpr ⟨rfl, by decide⟩).trans (by decide)

end RootComplex
