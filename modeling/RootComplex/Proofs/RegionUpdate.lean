import RootComplex.Proofs.ApertureMap

/-! # Updating a region

A region is programmed by nine writes, and the unit may be asked to translate between any two
of them. At each of these points the region is as it was, or switched off, or complete; and no
other region changes. -/

namespace RootComplex

open Program

/-- The region holds the window and nothing else: the addresses as the chip decodes them, the
kind of request, and no further bit in its control registers. -/
structure RegionState.Carries (r : RegionState) (soc : Soc) (index : Nat) (w : OutboundWindow) :
    Prop where
  enabled : r.enabled = true
  base : r.base = w.cpu &&& soc.cpuMask index
  /-- The limit is the last address. -/
  limit : r.limit + 1 = r.base + w.size
  target : r.target = w.pci
  type : (r .control1).toNat = w.type.code
  shift : RegionControl2.configShiftMode.test (r .control2) = true ↔
    w.type = .config0 ∨ w.type = .config1
  flags : ∀ i, (r .control2).getLsbD i = true → i = 28 ∨ i = 31

/-- A field of one bit covers that bit only. -/
theorem Field.covers_bit {w n i : Nat} {inside : Nat.ble (n + 1) w = true}
    (h : (Field.mk n 1 inside : Field w).covers i = true) : i = n := by
  simp only [Field.covers, Bool.and_eq_true, decide_eq_true_eq] at h
  omega

namespace OutboundWindow

variable {soc : Soc} {index : Nat} {w : OutboundWindow}

theorem image_carries : (w.image soc index).Carries soc index w where
  enabled := enabled_image
  base := base_image
  limit := by
    rw [limit_image, base_image, maskedLimit, BitVec.sub_add_cancel]
  target := target_image
  type := by
    show w.control1.toNat = _
    cases ht : w.type <;> simp [control1, ht] <;> decide
  shift := by
    show RegionControl2.configShiftMode.test w.control2 = true ↔ _
    cases ht : w.type <;> simp [control2, ht] <;> decide
  flags i hi := by
    change w.control2.getLsbD i = true at hi
    rw [control2, Field.put, Field.put, Field.getLsbD_set, Field.getLsbD_set] at hi
    split at hi
    · rename_i hc
      exact .inl (Field.covers_bit hc)
    · split at hi
      · rename_i hc
        exact .inr (Field.covers_bit hc)
      · simp at hi

/-! ## Between two writes -/

/-- The registers that stand between switching the region off and switching it on. -/
def mappingWrites (soc : Soc) (index : Nat) (w : OutboundWindow) : List (RegionRegister × Word) :=
  [RegionRegister.lowerBase, .upperBase, .limit, .upperLimit, .lowerTarget, .upperTarget,
    .control1].map fun r => (r, w.image soc index r)

/-- All writes to the region. The first one switches it off and the last one on. -/
def regionUpdate (soc : Soc) (index : Nat) (w : OutboundWindow) : List (RegionRegister × Word) :=
  (.control2, 0) :: (w.mappingWrites soc index ++ [(.control2, w.control2)])

end OutboundWindow

namespace RegionState

/-- What a region holds after some writes to it. -/
def written (r : RegionState) (writes : List (RegionRegister × Word)) : RegionState :=
  writes.foldl (fun state w => Function.update state w.1 w.2) r

variable {r : RegionState}

/-- A register that is not written keeps its value. -/
theorem written_of_not_mem {writes : List (RegionRegister × Word)} {s : RegionRegister}
    (h : s ∉ writes.map (·.1)) : r.written writes s = r s := by
  induction writes generalizing r with
  | nil => rfl
  | cons w rest ih =>
    rw [List.map_cons, List.mem_cons, not_or] at h
    show written (Function.update r w.1 w.2) rest s = r s
    rw [ih h.2, Function.update_of_ne h.1]

theorem written_regionUpdate {soc : Soc} {index : Nat} {w : OutboundWindow} :
    r.written (w.regionUpdate soc index) = w.image soc index := by
  funext s
  cases s <;> rfl

/-- However far the update of a region has come, the region is as it was, off or complete. The
first write clears the enable bit, and up to the last one no other touches that register. -/
theorem written_partly {soc : Soc} {index : Nat} {w : OutboundWindow}
    {done rest : List (RegionRegister × Word)} (h : w.regionUpdate soc index = done ++ rest) :
    r.written done = r ∨ (r.written done).enabled = false ∨
      rest = [] ∧ r.written done = w.image soc index := by
  cases done with
  | nil => exact .inl rfl
  | cons first done =>
    have hfirst : (RegionRegister.control2, 0) = first := (List.cons.inj h).1
    have hlater : w.mappingWrites soc index ++ [(.control2, w.control2)] = done ++ rest :=
      (List.cons.inj h).2
    rcases List.eq_nil_or_concat rest with rfl | ⟨late, last, rfl⟩
    · rw [List.append_nil] at h
      rw [← h]
      exact .inr (.inr ⟨rfl, written_regionUpdate⟩)
    · rw [List.concat_eq_append, ← List.append_assoc] at hlater
      obtain ⟨hmapping, -⟩ := List.append_inj' hlater rfl
      have hkept : RegionRegister.control2 ∉ done.map (·.1) := by
        intro hm
        have hmem := (List.sublist_append_left done late).map (·.1) |>.subset hm
        rw [← hmapping] at hmem
        simp [OutboundWindow.mappingWrites] at hmem
      refine .inr (.inl ?_)
      rw [← hfirst]
      show RegionControl2.regionEnable.test (written (Function.update r _ 0) done .control2) = _
      rw [written_of_not_mem hkept, Function.update_self]
      rfl

end RegionState

namespace TranslationUnit

variable {soc : Soc} {dbi : Address} {u : TranslationUnit} {index : Nat} {w : OutboundWindow}
  {path front back : List Exchange}

theorem writes_regionWrites {n : Nat} {writes : List (RegionRegister × Word)} :
    Path.writes (regionWrites soc dbi n writes) =
      writes.map fun w => (registerAt soc dbi n w.1, w.2) := by
  unfold Path.writes regionWrites
  rw [List.filterMap_map, ← List.filterMap_eq_map]
  rfl

/-- Selecting a region writes no register of any. -/
theorem select_apart {n : Nat} (h : Runs (OutboundWindow.select soc dbi n) path ()) :
    ∃ regs, (∀ e ∈ path, e.command.Touches regs) ∧ ∀ m r, registerAt soc dbi m r ∉ regs := by
  unfold OutboundWindow.select at h
  split at h
  · rename_i hv
    refine ⟨[dbi.at Translation.viewport], Within.write _ List.mem_cons_self _ _ h, ?_⟩
    intro m r hm
    exact viewport_ne hv m r (List.mem_singleton.mp hm).symm
  · obtain ⟨rfl, -⟩ := runs_done.mp h
    exact ⟨[], by simp, fun _ _ => List.not_mem_nil⟩

/-- Where a path of programming a window may be cut: before the region is touched, or between
two of the writes to it. -/
theorem cut_write (hs : soc ∈ Soc.all) (hn : w.region < soc.outboundRegions)
    (h : Runs (w.write soc index dbi) (front ++ back) ()) :
    (Path.writes back ≠ [] ∧ ∀ u : TranslationUnit, (u.after soc dbi front).regions = u.regions) ∨
    ∃ done rest, w.regionUpdate soc index = done ++ rest ∧
      (Path.writes back = [] ↔ rest = []) ∧ ∀ u : TranslationUnit,
        (u.after soc dbi front).regions =
          Function.update u.regions w.region ((u.regions w.region).written done) := by
  obtain ⟨event, select, hselect, hpath⟩ := write_path h
  have hpath : front ++ back = (⟨.report event, ()⟩ :: ⟨.barrier, ()⟩ :: select) ++
      regionWrites soc dbi w.region (w.regionUpdate soc index) := hpath
  rcases List.append_eq_append_iff.mp hpath with ⟨late, hselected, hback⟩ | ⟨done, hfront, hrest⟩
  · left
    constructor
    · rw [hback, Path.writes_append, writes_regionWrites]
      simp [OutboundWindow.regionUpdate]
    · intro u
      obtain ⟨regs, htouches, hapart⟩ := select_apart hselect
      funext n
      refine after_untouched (fun e he => ?_) (fun r => hapart n r)
      have hmem : e ∈ (⟨.report event, ()⟩ :: ⟨.barrier, ()⟩ :: select : List Exchange) := by
        rw [hselected]
        exact List.mem_append_left _ he
      simp only [List.mem_cons] at hmem
      rcases hmem with rfl | rfl | hmem
      · trivial
      · trivial
      · exact htouches e hmem
  · right
    obtain ⟨done, rest, hupdate, rfl, rfl⟩ := List.map_eq_append_iff.mp hrest
    refine ⟨done, rest, hupdate, ?_, fun u => ?_⟩
    · show Path.writes (regionWrites soc dbi w.region rest) = [] ↔ _
      rw [writes_regionWrites, List.map_eq_nil_iff]
    · obtain ⟨shown, same⟩ := after_select (u := u) hselect
      rw [hfront]
      show ((u.after soc dbi (select ++ regionWrites soc dbi w.region done))).regions = _
      rw [after_append, after_regionWrites hs hn shown, same]
      rfl

theorem barrier_first {a : Address} {v : Word}
    (h : Runs (w.write soc index dbi) (front ++ ⟨.write a v, ()⟩ :: back) ()) :
    ⟨.barrier, ()⟩ ∈ front := by
  obtain ⟨_, hreport, h₁⟩ := runs_report_bind.mp h
  obtain ⟨_, rfl, -⟩ := runs_barrier_bind.mp h₁
  rcases front with _ | ⟨first, _ | ⟨second, front⟩⟩
  · cases hreport
  · cases hreport
  · obtain ⟨-, hbarrier⟩ := List.cons.inj hreport
    rw [(List.cons.inj hbarrier).1]
    simp

end TranslationUnit

/-- A region is never live with a half-written mapping. Whatever a unit holds before, a window
that it cannot represent is refused without any access. Any other window is programmed after a
barrier; wherever its programming is interrupted the other regions are unchanged, and the
window's region is unchanged, or switched off, or nothing is left to write and the region
carries the window. -/
theorem region_never_half_written {soc : Soc} (hs : soc ∈ Soc.all) {index : Nat} {dbi : Address}
    {w : OutboundWindow} {path : List Exchange} {result : Except OutboundError Unit}
    (h : Runs (w.program soc index dbi) path result) :
    (∀ e, w.fault? soc = some e → path = [] ∧ result = .error e) ∧
    (w.fault? soc = none → result = .ok () ∧
      (∀ front a v back, path = front ++ ⟨.write a v, ()⟩ :: back → ⟨.barrier, ()⟩ ∈ front) ∧
      ∀ (u : TranslationUnit) (front back : List Exchange), path = front ++ back →
        (∀ n, n ≠ w.region → (u.after soc dbi front).regions n = u.regions n) ∧
        ((u.after soc dbi front).regions w.region = u.regions w.region ∨
          ((u.after soc dbi front).regions w.region).enabled = false ∨
          Path.writes back = [] ∧
            ((u.after soc dbi front).regions w.region).Carries soc index w) ∧
        (Path.writes back = [] →
          ((u.after soc dbi front).regions w.region).Carries soc index w)) := by
  unfold OutboundWindow.program at h
  constructor
  · intro e he
    rw [he] at h
    exact runs_done.mp h
  · intro haccepted
    rw [haccepted] at h
    obtain ⟨_, write, _, hwrite, hd, rfl⟩ := h.bind
    obtain ⟨rfl, rfl⟩ := runs_done.mp hd
    rw [List.append_nil]
    refine ⟨rfl, ?_, ?_⟩
    · intro front a v back hsplit
      exact TranslationUnit.barrier_first (hsplit ▸ hwrite)
    · rintro u front back rfl
      have hn := (OutboundWindow.fault?_eq_none.mp haccepted).2.2
      rcases TranslationUnit.cut_write hs hn hwrite with
        ⟨hleft, same⟩ | ⟨done, rest, hupdate, hleft, changed⟩
      · rw [same u]
        exact ⟨fun _ _ => rfl, .inl rfl, fun hnone => absurd hnone hleft⟩
      · rw [changed u, Function.update_self]
        refine ⟨fun n hne => Function.update_of_ne hne _ _, ?_, fun hnone => ?_⟩
        · rcases RegionState.written_partly (r := u.regions w.region) hupdate with
            hsame | hoff | ⟨hrest, himage⟩
          · exact .inl hsame
          · exact .inr (.inl hoff)
          · rw [himage]
            exact .inr (.inr ⟨hleft.mpr hrest, OutboundWindow.image_carries⟩)
        · rw [hleft.mp hnone, List.append_nil] at hupdate
          rw [← hupdate, RegionState.written_regionUpdate]
          exact OutboundWindow.image_carries

/-- The memory window of `exampleController`, in the first memory region. -/
def exampleWindow : OutboundWindow := ⟨2, 0x1040000000, 0x40000000, 0x30000000, .memory⟩

/-- Region three stays as it is while region two is programmed, and region two translates by the
new window or not at all as soon as it does not translate by the old one. -/
theorem region_never_half_written_example :
    ∃ path, Runs (exampleWindow.program Bm1000.soc 1 0x03200000) path (.ok ()) ∧
      ∀ (u : TranslationUnit) (front back : List Exchange), path = front ++ back →
        (u.after Bm1000.soc 0x03200000 front).regions 3 = u.regions 3 ∧
        ((u.after Bm1000.soc 0x03200000 front).regions 2 = u.regions 2 ∨
          ((u.after Bm1000.soc 0x03200000 front).regions 2).enabled = false ∨
          ((u.after Bm1000.soc 0x03200000 front).regions 2).Carries Bm1000.soc 1
            exampleWindow) := by
  have hs : Bm1000.soc ∈ Soc.all := List.mem_cons_self
  have hrun := runs_exchanges losingPlatform (exampleWindow.program Bm1000.soc 1 0x03200000) ()
  obtain ⟨hresult, -, points⟩ := (region_never_half_written hs hrun).2 (by decide)
  rw [hresult] at hrun
  refine ⟨_, hrun, fun u front back hsplit => ?_⟩
  obtain ⟨others, own, -⟩ := points u front back hsplit
  exact ⟨others 3 (by decide), own.imp_right (.imp_right And.right)⟩

end RootComplex
