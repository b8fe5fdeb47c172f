import RootComplex.Topology.Load

/-! # Admission

What a node has to satisfy for its controller to be in the topology. The checks of the
node are read back as predicates on the controller that was made of it, so that nothing
after the loader has to look at nodes again. -/

namespace RootComplex

/-- Splits a sequence of checks that all passed. -/
theorem Except.bind_eq_ok {ε α β : Type} {x : Except ε α} {f : α → Except ε β} {b : β} :
    x >>= f = .ok b ↔ ∃ a, x = .ok a ∧ f a = .ok b := by
  cases x <;> simp [bind, Except.bind]

/-- One translation region can map the window. -/
structure Window.Mappable (w : Window) : Prop where
  minSize : Translation.minSize ≤ w.size.toNat
  maxSize : w.size.toNat < Translation.maxSize
  cpuAligned : w.cpu.Aligned
  pciAligned : w.pci.Aligned
  sizeAligned : w.size.Aligned
  cpuFits : w.cpuRegion.Fits
  pciFits : w.pciRegion.Fits

theorem Window.check_eq_ok {w v : Window} : w.check = .ok v ↔ v = w ∧ w.Mappable := by
  unfold Window.check
  constructor
  · intro h
    split at h
    · cases h
    · rename_i hs
      split at h
      · cases h
      · rename_i ha
        split at h
        · cases h
        · rename_i hf
          obtain ⟨hcpu, hpci, hsize⟩ := Classical.not_not.mp ha
          obtain ⟨hcf, hpf⟩ := Classical.not_not.mp hf
          cases h
          exact ⟨rfl, by omega, by omega, hcpu, hpci, hsize, hcf, hpf⟩
  · rintro ⟨rfl, h⟩
    have hs : ¬(v.size.toNat < Translation.minSize ∨ Translation.maxSize ≤ v.size.toNat) := by
      have := h.minSize
      have := h.maxSize
      omega
    rw [if_neg hs, if_neg (fun hn => hn ⟨h.cpuAligned, h.pciAligned, h.sizeAligned⟩),
      if_neg (fun hn => hn ⟨h.cpuFits, h.pciFits⟩)]
    rfl

theorem Window.mappable_of_ofCells {cells : List Word} {windows : List Window}
    (h : Window.ofCells cells = .ok windows) : ∀ w ∈ windows, w.Mappable := by
  fun_induction Window.ofCells cells generalizing windows with
  | case1 kind a b c d e f rest hs ih => exact ih h
  | case2 kind a b c d e f rest space hs ih =>
    obtain ⟨first, hc, h⟩ := Except.bind_eq_ok.mp h
    obtain ⟨others, ho, h⟩ := Except.bind_eq_ok.mp h
    cases h
    obtain ⟨rfl, hm⟩ := Window.check_eq_ok.mp hc
    intro w hw
    rcases List.mem_cons.mp hw with rfl | hw
    · exact hm
    · exact ih ho w hw
  | case3 =>
    cases h
    intro w hw
    cases hw

theorem Window.mappable_of_ofNode {n : Node} {windows : List Window}
    (h : Window.ofNode n = .ok windows) : ∀ w ∈ windows, w.Mappable := by
  obtain ⟨cells, -, h⟩ := Except.bind_eq_ok.mp h
  cases cells with
  | none =>
    cases h
    intro w hw
    cases hw
  | some cells =>
    dsimp only at h
    split at h
    · exact Window.mappable_of_ofCells h
    · cases h

theorem Placement.check_eq_ok {p q : Placement} :
    p.check = .ok q ↔ q = p ∧ p.dbi.Usable ∧ Placement.ConfigUsable p.config ∧
      minConfigSize ≤ p.config.size.toNat := by
  unfold Placement.check
  constructor
  · intro h
    split at h
    · cases h
    · rename_i hd
      split at h
      · cases h
      · rename_i hc
        split at h
        · cases h
        · rename_i hs
          cases h
          exact ⟨rfl, Classical.not_not.mp hd, Classical.not_not.mp hc, Nat.le_of_not_lt hs⟩
  · rintro ⟨rfl, hd, hc, hs⟩
    rw [if_neg (fun hn => hn hd), if_neg (fun hn => hn hc), if_neg (Nat.not_lt.mpr hs)]
    rfl

/-- A placement is found among the entries of the node, and its blocks can be used. -/
theorem Placement.ofNode_eq_ok {soc : Soc} {n : Node} {p : Placement} :
    Placement.ofNode soc n = .ok p ↔ ∃ regions, n.regions = .ok regions ∧
      locate soc n regions = .ok p ∧ p.dbi.Usable ∧ Placement.ConfigUsable p.config ∧
      minConfigSize ≤ p.config.size.toNat := by
  unfold Placement.ofNode
  simp only [Except.bind_eq_ok, check_eq_ok]
  refine exists_congr fun regions => and_congr_right fun _ => ?_
  constructor
  · rintro ⟨q, hq, rfl, usable⟩
    exact ⟨hq, usable⟩
  · rintro ⟨hp, usable⟩
    exact ⟨p, hp, rfl, usable⟩

/-- A controller is put together from what the properties of its node say. -/
theorem Controller.ofNode_eq_ok {soc : Soc} {n : Node} {c : Controller} :
    Controller.ofNode soc n = .ok c ↔ ∃ p windows lanes speed line number,
      Placement.ofNode soc n = .ok p ∧ Window.ofNode n = .ok windows ∧
      lanesOfNode n = .ok lanes ∧ maxSpeedOfNode n = .ok speed ∧
      resetLineOfNode n = .ok line ∧ msiNumberOfNode soc n = .ok number ∧
      c = ⟨p.index, n.name, p.dbi.base, p.control, p.config.base, p.config.size, lanes, windows,
        line, number, speed.code⟩ := by
  unfold Controller.ofNode
  simp only [Except.bind_eq_ok]
  constructor
  · rintro ⟨p, hp, windows, hw, lanes, hl, speed, hs, line, hr, number, hm, hc⟩
    cases hc
    exact ⟨p, windows, lanes, speed, line, number, hp, hw, hl, hs, hr, hm, rfl⟩
  · rintro ⟨p, windows, lanes, speed, line, number, hp, hw, hl, hs, hr, hm, rfl⟩
    exact ⟨p, hp, windows, hw, lanes, hl, speed, hs, line, hr, number, hm, rfl⟩

/-- What the loader promises of every controller it returns. -/
structure Controller.Admitted (c : Controller) : Prop where
  config : Placement.ConfigUsable ⟨c.config, c.configSize⟩
  buses : minConfigSize ≤ c.configSize.toNat
  windows : ∀ w ∈ c.windows, w.Mappable

theorem Controller.admitted_of_ofNode {soc : Soc} {n : Node} {c : Controller}
    (h : Controller.ofNode soc n = .ok c) : c.Admitted := by
  obtain ⟨p, windows, _, _, _, _, hp, hw, -, -, -, -, rfl⟩ := ofNode_eq_ok.mp h
  obtain ⟨_, -, -, -, hc, hs⟩ := Placement.ofNode_eq_ok.mp hp
  exact ⟨hc, hs, Window.mappable_of_ofNode hw⟩

/-- What the description puts into fields of registers fits them. -/
structure Controller.Encodable (c : Controller) : Prop where
  pin : ∀ line, c.resetLine = some line → line.pin < GpioPort.pins
  number : ∀ id, c.msiNumber = some id → id < 4
  speed : 1 ≤ c.maxSpeed ∧ c.maxSpeed ≤ 5

theorem Controller.pin_lt_of_resetLineOfNode {n : Node} {line : ResetLine}
    (h : resetLineOfNode n = .ok (some line)) : line.pin < GpioPort.pins := by
  obtain ⟨cells, -, h⟩ := Except.bind_eq_ok.mp h
  cases cells with
  | none => cases h
  | some cells =>
    dsimp only at h
    split at h
    · split at h
      · rename_i hpin
        cases h
        exact hpin
      · cases h
    · cases h

theorem Controller.number_lt_of_msiNumberOfNode {soc : Soc} {n : Node} {id : Nat}
    (h : msiNumberOfNode soc n = .ok (some id)) : id < 4 := by
  unfold msiNumberOfNode at h
  split at h
  · cases h
  · obtain ⟨cells, -, h⟩ := Except.bind_eq_ok.mp h
    split at h
    · cases h
    · cases h
      exact Nat.mod_lt _ (by decide)
    · cases h

theorem LinkSpeed.code_bounds (s : LinkSpeed) : 1 ≤ s.code ∧ s.code ≤ 5 := by
  cases s <;> decide

theorem Controller.encodable_of_ofNode {soc : Soc} {n : Node} {c : Controller}
    (h : Controller.ofNode soc n = .ok c) : c.Encodable := by
  obtain ⟨_, _, _, speed, line, number, -, -, -, -, hline, hnumber, rfl⟩ := ofNode_eq_ok.mp h
  refine ⟨fun pin hpin => ?_, fun id hid => ?_, speed.code_bounds⟩
  · cases hpin
    exact pin_lt_of_resetLineOfNode hline
  · cases hid
    exact number_lt_of_msiNumberOfNode hnumber

namespace Topology

variable {soc : Soc} {nodes : List Node} {c : Controller}

theorem mem_controllers : c ∈ (load soc nodes).controllers ↔ c ∈ accepted soc nodes :=
  List.mem_mergeSort

/-- An accepted controller comes from a node, under a number that was still free. -/
theorem ofNode_of_mem_verdictsAfter {taken : List Nat} {n : Node}
    (h : (n, Verdict.accepted c) ∈ verdictsAfter soc taken nodes) :
    Controller.ofNode soc n = .ok c ∧ c.index ∉ taken := by
  induction nodes generalizing taken with
  | nil => cases h
  | cons m rest ih =>
    rcases List.mem_cons.mp h with h | h
    · obtain ⟨rfl, hv⟩ := Prod.mk.inj h
      unfold Verdict.ofNode at hv
      split at hv
      · split at hv
        · cases hv
        · rename_i hn
          split at hv
          · cases hv
          · rename_i ht
            cases hv
            exact ⟨hn, by simpa using ht⟩
      · cases hv
    · obtain ⟨hn, ht⟩ := ih h
      exact ⟨hn, fun hm => ht (List.mem_append_right _ hm)⟩

theorem exists_mem_verdictsAfter {taken : List Nat}
    (h : c ∈ (verdictsAfter soc taken nodes).filterMap (·.2.controller?)) :
    ∃ n, (n, Verdict.accepted c) ∈ verdictsAfter soc taken nodes := by
  obtain ⟨⟨n, v⟩, hm, hv⟩ := List.mem_filterMap.mp h
  cases v with
  | accepted d =>
    cases hv
    exact ⟨n, hm⟩
  | _ => cases hv

theorem admitted (h : c ∈ (load soc nodes).controllers) : c.Admitted := by
  obtain ⟨n, hn⟩ := exists_mem_verdictsAfter (mem_controllers.mp h)
  exact Controller.admitted_of_ofNode (ofNode_of_mem_verdictsAfter hn).1

theorem encodable (h : c ∈ (load soc nodes).controllers) : c.Encodable := by
  obtain ⟨n, hn⟩ := exists_mem_verdictsAfter (mem_controllers.mp h)
  exact Controller.encodable_of_ofNode (ofNode_of_mem_verdictsAfter hn).1

theorem nodup_index_verdictsAfter (taken : List Nat) :
    (((verdictsAfter soc taken nodes).filterMap (·.2.controller?)).map (·.index)).Nodup := by
  induction nodes generalizing taken with
  | nil => exact .nil
  | cons n rest ih =>
    rw [verdictsAfter]
    cases hv : Verdict.ofNode soc taken n with
    | disabled => exact ih _
    | refused e => exact ih _
    | accepted d =>
      refine List.nodup_cons.mpr ⟨?_, ih _⟩
      intro hm
      obtain ⟨c, hc, hi⟩ := List.mem_map.mp hm
      obtain ⟨m, hm⟩ := exists_mem_verdictsAfter hc
      have := (ofNode_of_mem_verdictsAfter hm).2
      simp [Verdict.claims, hi] at this

/-- No two controllers of a topology have one number. -/
theorem nodup_index : ((load soc nodes).controllers.map (·.index)).Nodup :=
  ((List.mergeSort_perm _ _).map _).nodup_iff.mpr (nodup_index_verdictsAfter [])

end Topology

/-! ## A node that is admitted -/

/-- A port of four lanes with a window into every space, a PERST# line and a number for
its message interrupts. -/
def exampleNode : Node := Node.build "pcie@3200000" [
  .strings "reg-names" ["dbi", "config"],
  .cells "reg" [0, 0x03200000, 0, 0x1000, 0x10, 0, 0, 0x10000000],
  .cells "baikal,pcie-lcru" [1, 1],
  .cells "ranges" [
    0x82000000, 0, 0x40000000, 0x10, 0x40000000, 0, 0x30000000,
    0x83000000, 0x11, 0, 0x11, 0, 0, 0x80000000,
    0x81000000, 0, 0, 0x10, 0x10000000, 0, 0x100000],
  .cells "num-lanes" [4],
  .cells "reset-gpios" [7, 6, 1],
  .cells "msi-map" [0, 9, 0x10000, 0x10000]]

def exampleController : Controller where
  index := 1
  name := "pcie@3200000"
  dbi := 0x03200000
  control := 0x02050020
  config := 0x1000000000
  configSize := 0x10000000
  lanes := some .x4
  windows := [
    ⟨.mem32, 0x1040000000, 0x40000000, 0x30000000⟩,
    ⟨.mem64, 0x1100000000, 0x1100000000, 0x80000000⟩,
    ⟨.io, 0x1010000000, 0, 0x100000⟩]
  resetLine := some ⟨6, true⟩
  msiNumber := some 1
  maxSpeed := 3

theorem load_exampleNode :
    (Topology.load Bm1000.soc [exampleNode]).controllers = [exampleController] := by
  decide +kernel

end RootComplex
