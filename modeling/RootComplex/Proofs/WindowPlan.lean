import Mathlib.Data.List.Nodup
import RootComplex.Proofs.Admission
import RootComplex.Proofs.Stages

/-! # The window plan

Whatever the loader admits, the translation unit accepts: the outbound windows of a
loaded controller split its config window at the first bus, and place the first window
into each space in a region of its own. Programming them therefore never fails. -/

namespace RootComplex

open Program

/-- The requests that a window into a space turns accesses into. -/
def Space.request : Space → RequestType
  | .io => .io
  | .mem32 | .mem64 => .memory

/-- What the translation unit asks of a window. -/
theorem OutboundWindow.fault?_eq_none {soc : Soc} {w : OutboundWindow} :
    w.fault? soc = none ↔
      (Translation.minSize ≤ w.size.toNat ∧ w.size.toNat < Translation.maxSize) ∧
      (w.cpu.Aligned ∧ w.pci.Aligned ∧ w.size.Aligned) ∧ w.region < soc.outboundRegions := by
  unfold fault?
  constructor
  · intro h
    split at h
    · cases h
    · rename_i hs
      split at h
      · cases h
      · rename_i ha
        split at h
        · cases h
        · rename_i hr
          simp only [not_or, Classical.not_not] at ha
          exact ⟨by omega, ha, by omega⟩
  · rintro ⟨hs, ⟨hcpu, hpci, hsize⟩, hr⟩
    rw [if_neg (by omega), if_neg (by simp [hcpu, hpci, hsize]), if_neg (by omega)]

namespace Controller

/-- `w` is the first window of the controller into the space. -/
def FirstInto (c : Controller) (space : Space) (w : Window) : Prop :=
  ∃ before after, c.windows = before ++ w :: after ∧ w.space = space ∧
    ∀ v ∈ before, v.space ≠ space

theorem window?_eq_some {c : Controller} {space : Space} {w : Window} :
    c.window? space = some w ↔ c.FirstInto space w := by
  rw [window?, List.find?_eq_some_iff_append]
  simp only [beq_iff_eq, Bool.not_eq_true', beq_eq_false_iff_ne]
  constructor
  · intro h
    obtain ⟨hspace, before, after, hwindows, hbefore⟩ := h
    exact ⟨before, after, hwindows, hspace, hbefore⟩
  · intro h
    obtain ⟨before, after, hwindows, hspace, hbefore⟩ := h
    exact ⟨hspace, before, after, hwindows, hbefore⟩

theorem window?_mem {c : Controller} {space : Space} {w : Window}
    (h : c.window? space = some w) : w ∈ c.windows ∧ w.space = space :=
  ⟨List.mem_of_find?_eq_some h, by simpa using List.find?_some h⟩

theorem exists_window?_iff {c : Controller} {space : Space} :
    (∃ w, c.window? space = some w) ↔ ∃ w ∈ c.windows, w.space = space := by
  constructor
  · rintro ⟨w, hw⟩
    exact ⟨w, window?_mem hw⟩
  · rintro ⟨w, hmem, hspace⟩
    exact Option.isSome_iff_exists.mp (List.find?_isSome.mpr ⟨w, hmem, by simpa using hspace⟩)

/-- The region for the first window into a space: three for I/O, two for the first
memory window there is and four for the second. -/
def regionOf (c : Controller) : Space → Nat
  | .io => 3
  | .mem32 => 2
  | .mem64 => if ∃ w ∈ c.windows, w.space = .mem32 then 4 else 2

@[simp] theorem regionOf_io (c : Controller) : c.regionOf .io = 3 := rfl

@[simp] theorem regionOf_mem32 (c : Controller) : c.regionOf .mem32 = 2 := rfl

theorem regionOf_mem64 (c : Controller) :
    c.regionOf .mem64 = if (c.window? .mem32).isSome then 4 else 2 := by
  simp only [regionOf, Option.isSome_iff_exists, exists_window?_iff]

/-- The outbound window that serves a window into a space. -/
def serving (c : Controller) (space : Space) (w : Window) : OutboundWindow :=
  ⟨c.regionOf space, w.cpu, w.pci, w.size, space.request⟩

/-- `root` and `others` map the config window and `spaces` maps everything else. -/
structure WindowPlan (soc : Soc) (c : Controller) (root others : OutboundWindow)
    (spaces : List OutboundWindow) : Prop where
  windows : c.outboundWindows = root :: others :: spaces
  accepted : ∀ w ∈ c.outboundWindows, w.fault? soc = none
  regions : (c.outboundWindows.map (·.region)).Nodup
  rootType : root.type = .config0
  othersType : others.type = .config1
  rootTarget : root.pci = 0
  othersTarget : others.pci = 0x100000
  /-- The two config windows follow each other, and together they are the config window. -/
  first : root.cpu = c.config
  adjacent : root.cpu.toNat + root.size.toNat = others.cpu.toNat
  last : others.cpu.toNat + others.size.toNat = c.config.toNat + c.configSize.toNat
  once : ∀ space w, c.FirstInto space w → spaces.count (c.serving space w) = 1
  only : ∀ v ∈ spaces, ∃ space w, c.FirstInto space w ∧ v = c.serving space w

/-- The windows of the spaces, in the order they are programmed in. -/
def spaceWindows (c : Controller) : List OutboundWindow :=
  [Space.mem32, .mem64, .io].filterMap fun space => (c.window? space).map (c.serving space)

theorem outboundWindows_eq (c : Controller) :
    c.outboundWindows = c.configWindows ++ c.spaceWindows := by
  cases h₃₂ : c.window? .mem32 <;> cases h₆₄ : c.window? .mem64 <;> cases hio : c.window? .io <;>
    simp [outboundWindows, memoryWindows, ioWindows, spaceWindows, serving, regionOf_mem64,
      outboundOf, Space.request, OutboundRegion.memory, OutboundRegion.memoryHigh,
      OutboundRegion.io, h₃₂, h₆₄, hio]

/-! ## The config window -/

variable {c : Controller}

theorem Admitted.config_add_bus (h : c.Admitted) :
    (c.config + BitVec.ofNat 64 busSize).toNat = c.config.toNat + busSize := by
  obtain ⟨⟨-, -, hfit⟩, -⟩ := h.config
  have hb := h.buses
  simp only [Address.count] at hfit
  simp only [minConfigSize, busSize] at hb ⊢
  rw [BitVec.toNat_add, BitVec.toNat_ofNat]
  omega

theorem Admitted.configSize_sub_bus (h : c.Admitted) :
    (c.configSize - BitVec.ofNat 64 busSize).toNat = c.configSize.toNat - busSize := by
  have hb := h.buses
  simp only [minConfigSize, busSize] at hb ⊢
  rw [BitVec.toNat_sub, BitVec.toNat_ofNat]
  omega

theorem Admitted.configWindows_accepted {soc : Soc} (h : c.Admitted)
    (hr : 4 < soc.outboundRegions) : ∀ w ∈ c.configWindows, w.fault? soc = none := by
  obtain ⟨-, hbase, hsize, hmax⟩ := h.config
  have hb := h.buses
  have hcpu := h.config_add_bus
  have hrest := h.configSize_sub_bus
  have hbus : (BitVec.ofNat 64 busSize).toNat = 0x100000 := rfl
  simp only [Address.Aligned, Translation.granule, Translation.maxSize, minConfigSize,
    busSize] at hbase hsize hmax hb hcpu hrest hbus
  intro w hw
  simp only [configWindows, List.mem_cons, List.not_mem_nil, or_false] at hw
  rcases hw with rfl | rfl <;>
    refine OutboundWindow.fault?_eq_none.mpr ⟨⟨?_, ?_⟩, ⟨?_, ?_, ?_⟩, ?_⟩ <;>
    simp only [Translation.minSize, Translation.maxSize, Address.Aligned, Translation.granule,
      OutboundRegion.config0, OutboundRegion.config1, BitVec.ofNat_eq_ofNat, BitVec.toNat_ofNat,
      busSize] <;>
    omega

/-! ## The spaces -/

theorem regionOf_lt (c : Controller) (space : Space) : c.regionOf space < 5 := by
  unfold regionOf
  split
  · decide
  · decide
  · split <;> decide

theorem mem_spaceWindows {v : OutboundWindow} :
    v ∈ c.spaceWindows ↔ ∃ space w, c.window? space = some w ∧ v = c.serving space w := by
  simp only [spaceWindows, List.mem_filterMap, Option.map_eq_some_iff]
  constructor
  · rintro ⟨space, -, w, hw, rfl⟩
    exact ⟨space, w, hw, rfl⟩
  · rintro ⟨space, w, hw, rfl⟩
    exact ⟨space, by cases space <;> simp, w, hw, rfl⟩

theorem Admitted.spaceWindows_accepted {soc : Soc} (h : c.Admitted)
    (hr : 4 < soc.outboundRegions) : ∀ w ∈ c.spaceWindows, w.fault? soc = none := by
  intro v hv
  obtain ⟨space, w, hw, rfl⟩ := mem_spaceWindows.mp hv
  have hm := h.windows w (window?_mem hw).1
  have hregion := c.regionOf_lt space
  exact OutboundWindow.fault?_eq_none.mpr ⟨⟨hm.minSize, hm.maxSize⟩,
    ⟨hm.cpuAligned, hm.pciAligned, hm.sizeAligned⟩, Nat.lt_of_lt_of_le hregion hr⟩

theorem nodup_regions (c : Controller) : (c.outboundWindows.map (·.region)).Nodup := by
  rw [outboundWindows_eq]
  cases h₃₂ : c.window? .mem32 <;> cases h₆₄ : c.window? .mem64 <;> cases hio : c.window? .io <;>
    simp [configWindows, spaceWindows, serving, regionOf_mem64, OutboundRegion.config0,
      OutboundRegion.config1, h₃₂, h₆₄, hio]

/-- Every loaded controller has its plan. -/
theorem Admitted.windowPlan {soc : Soc} (h : c.Admitted) (hr : 4 < soc.outboundRegions) :
    ∃ root others spaces, c.WindowPlan soc root others spaces := by
  have hcpu := h.config_add_bus
  have hrest := h.configSize_sub_bus
  have hb := h.buses
  let bus := BitVec.ofNat 64 busSize
  refine ⟨⟨OutboundRegion.config0, c.config, 0, bus, .config0⟩,
    ⟨OutboundRegion.config1, c.config + bus, bus, c.configSize - bus, .config1⟩,
    c.spaceWindows, ?_⟩
  constructor
  case windows => exact c.outboundWindows_eq
  case accepted =>
    intro w hw
    rw [outboundWindows_eq] at hw
    rcases List.mem_append.mp hw with hw | hw
    · exact h.configWindows_accepted hr w hw
    · exact h.spaceWindows_accepted hr w hw
  case regions => exact c.nodup_regions
  case rootType => rfl
  case othersType => rfl
  case rootTarget => rfl
  case othersTarget => rfl
  case first => rfl
  case adjacent => exact hcpu.symm
  case last =>
    rw [hcpu, hrest]
    simp only [minConfigSize] at hb
    omega
  case once =>
    intro space w hw
    have hd : c.spaceWindows.Nodup := by
      have hn := c.nodup_regions
      rw [outboundWindows_eq, List.map_append] at hn
      exact List.Nodup.of_map _ (List.nodup_append.mp hn).2.1
    exact List.count_eq_one_of_mem hd
      (mem_spaceWindows.mpr ⟨space, w, window?_eq_some.mpr hw, rfl⟩)
  case only =>
    intro v hv
    obtain ⟨space, w, hw, rfl⟩ := mem_spaceWindows.mp hv
    exact ⟨space, w, window?_eq_some.mp hw, rfl⟩

end Controller

/-! ## Programming the plan -/

namespace Port

variable {p : Port} {path : List Exchange}

/-- An accepted window is written and counts no failure. -/
theorem programWindows_cons {w : OutboundWindow} {rest : List OutboundWindow} {n : Nat}
    (hw : w.fault? p.soc = none) (h : Runs (p.programWindows (w :: rest)) path n) :
    ∃ front back, Runs (w.write p.soc p.controller.index p.controller.dbi) front () ∧
      Runs (p.programWindows rest) back n ∧ path = front ++ back := by
  simp only [programWindows, OutboundWindow.program, hw] at h
  obtain ⟨result, front, back, hp, hb, rfl⟩ := h.bind
  obtain ⟨_, write, _, hwrite, hd, rfl⟩ := hp.bind
  obtain ⟨rfl, rfl⟩ := runs_done.mp hd
  exact ⟨write, back, hwrite, hb, by rw [List.append_nil]⟩

theorem programWindows_accepted {windows : List OutboundWindow} {n : Nat}
    (hw : ∀ w ∈ windows, w.fault? p.soc = none)
    (h : Runs (p.programWindows windows) path n) : n = 0 := by
  induction windows generalizing path with
  | nil => exact (runs_done.mp h).2
  | cons w rest ih =>
    obtain ⟨_, _, -, hb, -⟩ := programWindows_cons (hw w List.mem_cons_self) h
    exact ih (fun v hv => hw v (List.mem_cons_of_mem _ hv)) hb

end Port

theorem Soc.outboundRegions_gt {soc : Soc} (h : soc ∈ Soc.all) : 4 < soc.outboundRegions := by
  revert soc
  decide

/-- Every loaded controller has its plan, and whatever the hardware answers, no bring-up
counts a window failure. -/
theorem windows_never_fail {soc : Soc} (hs : soc ∈ Soc.all) (nodes : List Node) :
    (∀ c ∈ (Topology.load soc nodes).controllers,
      ∃ root others spaces, c.WindowPlan soc root others spaces) ∧
    ∀ path host, Runs (Host.bringUp (Topology.load soc nodes)) path host →
      host.ports.map (·.controller) = (Topology.load soc nodes).controllers ∧
      ∀ s ∈ host.ports, s.reset.windowFailures = 0 := by
  have hr := Soc.outboundRegions_gt hs
  refine ⟨fun c hc => (Topology.admitted hc).windowPlan hr, ?_⟩
  intro path host h
  obtain ⟨hports, -, -⟩ := Host.bringUp_ports h
  have hcs := Host.controllers_of_bringUpPorts hports
  refine ⟨hcs, ?_⟩
  intro s hmem
  have hc : s.controller ∈ (Topology.load soc nodes).controllers := by
    rw [← hcs]
    exact List.mem_map_of_mem hmem
  obtain ⟨root, others, spaces, plan⟩ := (Topology.admitted hc).windowPlan hr
  obtain ⟨reset, hreset⟩ := Host.configured_of_mem hports hmem
  obtain ⟨_, _, _, _, _, _, _, _, windows, _, _, _, -, -, -, -, -, -, -, -, hw, -⟩ :=
    Port.configure_stages hreset
  exact Port.programWindows_accepted plan.accepted hw

theorem windows_never_fail_example :
    Bm1000.soc ∈ Soc.all ∧ (∃ root others spaces,
      exampleController.WindowPlan Bm1000.soc root others spaces) ∧
    ∀ path host, Runs (Host.bringUp (Topology.load Bm1000.soc [exampleNode])) path host →
      host.ports.map (·.reset.windowFailures) = [0] := by
  have hs : Bm1000.soc ∈ Soc.all := List.mem_cons_self
  obtain ⟨hplan, hrun⟩ := windows_never_fail hs [exampleNode]
  refine ⟨hs, hplan exampleController ?_, ?_⟩
  · rw [load_exampleNode]
    exact List.mem_singleton_self _
  · intro path host h
    obtain ⟨hcs, hzero⟩ := hrun path host h
    rw [load_exampleNode] at hcs
    obtain ⟨s, hports, -⟩ := List.map_eq_singleton_iff.mp hcs
    rw [hports] at hzero ⊢
    simpa using hzero

end RootComplex
