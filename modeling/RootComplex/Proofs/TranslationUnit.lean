import Mathlib.Logic.Function.Basic
import RootComplex.Proofs.WindowPlan

/-! # The translation unit

The outbound translation unit as the hardware has it: regions with eight registers each,
shown one at a time or all at once, and the mapping of addresses that they describe. What
the unit holds after a path follows from what the path wrote. -/

namespace RootComplex

open Program

inductive RegionRegister where
  | control1 | control2 | lowerBase | upperBase | limit | upperLimit | lowerTarget | upperTarget
  deriving DecidableEq, Repr

def RegionRegister.offset (regs : Translation.RegionRegisters) : RegionRegister → Nat
  | control1 => regs.control1
  | control2 => regs.control2
  | lowerBase => regs.lowerBase
  | upperBase => regs.upperBase
  | limit => regs.limit
  | upperLimit => regs.upperLimit
  | lowerTarget => regs.lowerTarget
  | upperTarget => regs.upperTarget

/-- What the registers of a region hold. -/
abbrev RegionState := RegionRegister → Word

namespace RegionState

def enabled (r : RegionState) : Bool := RegionControl2.regionEnable.test (r .control2)

def base (r : RegionState) : Address := .ofWords (r .upperBase) (r .lowerBase)

def limit (r : RegionState) : Address := .ofWords (r .upperLimit) (r .limit)

def target (r : RegionState) : Address := .ofWords (r .upperTarget) (r .lowerTarget)

/-- Where an enabled region sends a CPU address, of which it decodes the bits in `mask`. -/
def translate? (r : RegionState) (mask x : Address) : Option Address :=
  if r.enabled = true ∧ r.base ≤ x &&& mask ∧ x &&& mask ≤ r.limit then
    some (r.target + ((x &&& mask) - r.base))
  else none

end RegionState

/-- The region that is shown, if the unit shows one at a time, and all regions. -/
@[ext] structure TranslationUnit where
  viewport : Word
  regions : Nat → RegionState

namespace TranslationUnit

/-- Where a register of a region is while the region is shown. -/
def registerAt (soc : Soc) (dbi : Address) (n : Nat) (r : RegionRegister) : Address :=
  match soc.regions with
  | .viewport => dbi.at (r.offset Translation.viewportRegisters)
  | .mapped offset => (dbi + offset + BitVec.ofNat 64 n * Translation.regionStride).at
      (r.offset Translation.mappedRegisters)

def Shows (soc : Soc) (u : TranslationUnit) (n : Nat) : Prop :=
  soc.regions = .viewport → u.viewport = BitVec.ofNat 32 n

instance (soc : Soc) (u : TranslationUnit) (n : Nat) : Decidable (u.Shows soc n) :=
  inferInstanceAs (Decidable (_ → _))

/-- A write to any address. The unit takes it if one of its registers is there. -/
def write (soc : Soc) (dbi : Address) (u : TranslationUnit) (a : Address) (v : Word) :
    TranslationUnit where
  viewport :=
    if soc.regions = .viewport ∧ a = dbi.at Translation.viewport then v else u.viewport
  regions n r :=
    if n < soc.outboundRegions ∧ u.Shows soc n ∧ a = registerAt soc dbi n r then v
    else u.regions n r

/-- The unit after the writes of a path. -/
def after (soc : Soc) (dbi : Address) (u : TranslationUnit) (path : List Exchange) :
    TranslationUnit :=
  path.foldl (fun u e => match e.command with
    | .write a v => u.write soc dbi a v
    | _ => u) u

variable {soc : Soc} {dbi : Address} {u : TranslationUnit} {n : Nat}

theorem after_append (front back : List Exchange) :
    u.after soc dbi (front ++ back) = (u.after soc dbi front).after soc dbi back :=
  List.foldl_append

/-! ## The registers are apart -/

theorem at_inj {a : Address} {i j : Nat} (hi : i < 0x10000) (hj : j < 0x10000)
    (h : a.at i = a.at j) : i = j := by
  have hsum := congrArg BitVec.toNat ((BitVec.add_right_inj a).mp h)
  simp only [BitVec.toNat_ofNat] at hsum
  omega

theorem at_stride (a : Address) (n i : Nat) :
    (a + BitVec.ofNat 64 n * Translation.regionStride).at i = a.at (n * 0x200 + i) := by
  unfold Address.at
  rw [BitVec.ofNat_add, BitVec.ofNat_mul, BitVec.add_assoc]
  rfl

theorem offset_viewport_inj {r s : RegionRegister}
    (h : r.offset Translation.viewportRegisters = s.offset Translation.viewportRegisters) :
    r = s := by
  cases r <;> cases s <;> first | rfl | cases h

theorem offset_mapped_inj {r s : RegionRegister}
    (h : r.offset Translation.mappedRegisters = s.offset Translation.mappedRegisters) : r = s := by
  cases r <;> cases s <;> first | rfl | cases h

theorem offset_viewport_bounds (r : RegionRegister) :
    Translation.viewport < r.offset Translation.viewportRegisters ∧
      r.offset Translation.viewportRegisters < 0x1000 := by
  cases r <;> decide

theorem offset_mapped_lt (r : RegionRegister) : r.offset Translation.mappedRegisters < 0x200 := by
  cases r <;> decide

/-- Of the regions that are shown, each register is at an address of its own. -/
theorem registerAt_inj (hs : soc ∈ Soc.all) {m n : Nat} {r s : RegionRegister}
    (hm : m < soc.outboundRegions) (hn : n < soc.outboundRegions) (um : u.Shows soc m)
    (un : u.Shows soc n) (h : registerAt soc dbi m r = registerAt soc dbi n s) :
    m = n ∧ r = s := by
  simp only [Soc.all, List.mem_cons, List.not_mem_nil, or_false] at hs
  rcases hs with rfl | rfl
  · have hr := offset_viewport_bounds r
    have hs := offset_viewport_bounds s
    refine ⟨?_, offset_viewport_inj (at_inj (by omega) (by omega) h)⟩
    have hw := congrArg BitVec.toNat ((um rfl).symm.trans (un rfl))
    simp only [Bm1000.soc, BitVec.toNat_ofNat] at hw hm hn
    omega
  · have hr := offset_mapped_lt r
    have hs := offset_mapped_lt s
    simp only [Bs1000.soc] at hm hn
    simp only [registerAt, Bs1000.soc, at_stride] at h
    have hsum := at_inj (by omega) (by omega) h
    exact ⟨by omega, offset_mapped_inj (by omega)⟩

/-- The viewport register is no register of a region. -/
theorem viewport_ne (hv : soc.regions = .viewport) (n : Nat)
    (r : RegionRegister) : dbi.at Translation.viewport ≠ registerAt soc dbi n r := by
  intro h
  have hr := offset_viewport_bounds r
  simp only [registerAt, hv] at h
  have := at_inj (by decide) (by omega) h
  omega

/-! ## Writing a region -/

theorem write_registerAt (hs : soc ∈ Soc.all) (hn : n < soc.outboundRegions)
    (un : u.Shows soc n) (r : RegionRegister) (v : Word) :
    u.write soc dbi (registerAt soc dbi n r) v =
      { u with regions := Function.update u.regions n (Function.update (u.regions n) r v) } := by
  ext1
  · exact if_neg fun ⟨hv, h⟩ => viewport_ne hv n r h.symm
  · funext m s
    show _ = Function.update u.regions n (Function.update (u.regions n) r v) m s
    by_cases hm : m = n
    · subst hm
      rw [Function.update_self]
      by_cases hr : s = r
      · subst hr
        rw [Function.update_self]
        exact if_pos ⟨hn, un, rfl⟩
      · rw [Function.update_of_ne hr]
        exact if_neg fun ⟨_, _, h⟩ => hr (registerAt_inj hs hn hn un un h).2.symm
    · rw [Function.update_of_ne hm]
      exact if_neg fun ⟨hlt, um, h⟩ => hm (registerAt_inj hs hn hlt un um h).1.symm

/-- Writes to registers of one region. -/
def regionWrites (soc : Soc) (dbi : Address) (n : Nat) (writes : List (RegionRegister × Word)) :
    List Exchange :=
  writes.map fun w => ⟨.write (registerAt soc dbi n w.1) w.2, ()⟩

/-- Writes to a region that is shown change nothing else. -/
theorem after_regionWrites (hs : soc ∈ Soc.all) (hn : n < soc.outboundRegions)
    (un : u.Shows soc n) (writes : List (RegionRegister × Word)) :
    (u.after soc dbi (regionWrites soc dbi n writes)).regions = Function.update u.regions n
      (writes.foldl (fun state w => Function.update state w.1 w.2) (u.regions n)) := by
  induction writes generalizing u with
  | nil => exact (Function.update_eq_self n u.regions).symm
  | cons w rest ih =>
    show ((u.write soc dbi (registerAt soc dbi n w.1) w.2).after soc dbi
      (regionWrites soc dbi n rest)).regions = _
    have shown : Shows soc (u.write soc dbi (registerAt soc dbi n w.1) w.2) n := by
      rwa [write_registerAt hs hn un]
    rw [ih shown, write_registerAt hs hn un]
    simp

theorem after_select {path : List Exchange} (h : Runs (OutboundWindow.select soc dbi n) path ()) :
    (u.after soc dbi path).Shows soc n ∧ (u.after soc dbi path).regions = u.regions := by
  unfold OutboundWindow.select at h
  split at h
  · rename_i hv
    obtain rfl := runs_write.mp h
    refine ⟨fun _ => if_pos ⟨hv, rfl⟩, ?_⟩
    funext m r
    exact if_neg fun ⟨_, _, ha⟩ => viewport_ne hv m r ha
  · rename_i hv
    obtain ⟨rfl, -⟩ := runs_done.mp h
    refine ⟨fun hw => ?_, rfl⟩
    rw [hv] at hw
    cases hw

end TranslationUnit

/-- What the registers of a window's region are to hold. -/
def OutboundWindow.image (soc : Soc) (index : Nat) (w : OutboundWindow) : RegionState
  | .control1 => w.control1
  | .control2 => w.control2
  | .lowerBase => (w.maskedBase soc index).low
  | .upperBase => (w.maskedBase soc index).high
  | .limit => (w.maskedLimit soc index).low
  | .upperLimit => (w.maskedLimit soc index).high
  | .lowerTarget => Address.low w.pci
  | .upperTarget => Address.high w.pci

namespace TranslationUnit

variable {soc : Soc} {dbi : Address} {u : TranslationUnit} {index : Nat} {path : List Exchange}

/-- The accesses of a window, after the events and the barrier. -/
theorem write_path {w : OutboundWindow} (h : Runs (w.write soc index dbi) path ()) :
    ∃ event select, Runs (OutboundWindow.select soc dbi w.region) select () ∧
      path = ⟨.report event, ()⟩ :: ⟨.barrier, ()⟩ :: (select ++
        regionWrites soc dbi w.region ((.control2, 0) :: [RegionRegister.lowerBase, .upperBase,
          .limit, .upperLimit, .lowerTarget, .upperTarget, .control1, .control2].map fun r =>
            (r, w.image soc index r))) := by
  have haddress (r : RegionRegister) : registerAt soc dbi w.region r =
      (OutboundWindow.block soc dbi w.region).at (r.offset (OutboundWindow.registers soc)) := by
    unfold registerAt OutboundWindow.block OutboundWindow.registers
    cases soc.regions <;> rfl
  obtain ⟨_, rfl, h₁⟩ := runs_report_bind.mp h
  obtain ⟨_, rfl, h₂⟩ := runs_barrier_bind.mp h₁
  obtain ⟨_, select, rest, hselect, h₃, rfl⟩ := h₂.bind
  refine ⟨w.event soc index, select, hselect, ?_⟩
  simp only [runs_write_bind, runs_write] at h₃
  obtain ⟨_, rfl, _, rfl, _, rfl, _, rfl, _, rfl, _, rfl, _, rfl, _, rfl, rfl⟩ := h₃
  simp [regionWrites, haddress, RegionRegister.offset, OutboundWindow.image]

theorem after_write (hs : soc ∈ Soc.all) {w : OutboundWindow}
    (hn : w.region < soc.outboundRegions) (h : Runs (w.write soc index dbi) path ()) :
    (u.after soc dbi path).regions =
      Function.update u.regions w.region (w.image soc index) := by
  obtain ⟨event, select, hselect, rfl⟩ := write_path h
  obtain ⟨shown, same⟩ := after_select (u := u) hselect
  show (u.after soc dbi (select ++ _)).regions = _
  rw [after_append, after_regionWrites hs hn shown, same]
  congr 1
  funext r
  cases r <;> rfl

/-- A list of windows for different regions leaves each region with its window and all
other regions alone. -/
theorem after_programWindows {p : Port} {windows : List OutboundWindow} {k : Nat}
    (hs : p.soc ∈ Soc.all) (hw : ∀ w ∈ windows, w.fault? p.soc = none)
    (hn : (windows.map (·.region)).Nodup) (h : Runs (p.programWindows windows) path k) :
    (∀ w ∈ windows, (u.after p.soc p.controller.dbi path).regions w.region =
      w.image p.soc p.controller.index) ∧
    ∀ n, n ∉ windows.map (·.region) →
      (u.after p.soc p.controller.dbi path).regions n = u.regions n := by
  induction windows generalizing u path with
  | nil =>
    obtain ⟨rfl, -⟩ := runs_done.mp h
    exact ⟨by simp, fun n _ => rfl⟩
  | cons w rest ih =>
    have hfault := hw w List.mem_cons_self
    obtain ⟨front, back, hfront, hback, rfl⟩ := Port.programWindows_cons hfault h
    rw [List.map_cons, List.nodup_cons] at hn
    have first := after_write (u := u) hs (OutboundWindow.fault?_eq_none.mp hfault).2.2 hfront
    obtain ⟨written, kept⟩ := ih (u := u.after p.soc p.controller.dbi front)
      (fun v hv => hw v (List.mem_cons_of_mem _ hv)) hn.2 hback
    rw [after_append]
    refine ⟨fun v hv => ?_, fun n hm => ?_⟩
    · rcases List.mem_cons.mp hv with rfl | hv
      · rw [kept _ hn.1, first, Function.update_self]
      · exact written v hv
    · rw [List.map_cons, List.mem_cons, not_or] at hm
      rw [kept n hm.2, first, Function.update_of_ne hm.1]

/-- A region stays as it is as long as nothing is written to its registers. -/
theorem after_untouched {regs : List Address} {n : Nat}
    (h : ∀ e ∈ path, e.command.Touches regs) (ha : ∀ r, registerAt soc dbi n r ∉ regs) :
    (u.after soc dbi path).regions n = u.regions n := by
  induction path generalizing u with
  | nil => rfl
  | cons e rest ih =>
    have ht := h e List.mem_cons_self
    rw [← List.singleton_append, after_append, ih fun e he => h e (List.mem_cons_of_mem _ he)]
    unfold after
    rw [List.foldl_cons, List.foldl_nil]
    split
    · rename_i a v hc
      rw [hc] at ht
      funext r
      exact if_neg fun ⟨_, _, heq⟩ => ha r (heq ▸ ht)
    · rfl

end TranslationUnit

end RootComplex
