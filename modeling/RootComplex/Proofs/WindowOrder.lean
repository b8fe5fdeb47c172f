import RootComplex.Proofs.RegionUpdate
import RootComplex.Proofs.Separation

/-! # The order of windows

What a list of writes leaves in memory is decided, cell by cell, by the last write to the cell
and by the bits that the cell lets be written. So a window that is programmed twice is the same
as once, and windows for different regions, whose cells are apart, may be programmed in any
order. On a unit that shows one region at a time the cells are apart only behind the viewport. -/

namespace RootComplex

open Program

/-- What a write of `new` leaves in a register of which the bits under `mask` are writable. -/
def Word.overwrite (mask old new : Word) : Word := (old &&& ~~~mask) ||| (new &&& mask)

namespace Word

variable (mask old new : Word)

theorem overwrite_readOnly : overwrite mask old new &&& ~~~mask = old &&& ~~~mask := by
  ext i hi
  simp only [overwrite, BitVec.getElem_and, BitVec.getElem_or, BitVec.getElem_not]
  grind

theorem overwrite_writable : overwrite mask old new &&& mask = new &&& mask := by
  ext i hi
  simp only [overwrite, BitVec.getElem_and, BitVec.getElem_or, BitVec.getElem_not]
  grind

/-- The later of two writes decides. -/
theorem overwrite_overwrite (later : Word) :
    overwrite mask (overwrite mask old new) later = overwrite mask old later := by
  rw [overwrite, overwrite_readOnly]
  rfl

end Word

/-! ## Memory with write masks -/

namespace Memory

variable {κ β : Type} [DecidableEq κ]

/-- Writes one cell. -/
def write (mask memory : κ → Word) (w : κ × Word) : κ → Word :=
  Function.update memory w.1 (Word.overwrite (mask w.1) (memory w.1) w.2)

/-- The memory after some writes. -/
def after (mask memory : κ → Word) (writes : List (κ × Word)) : κ → Word :=
  writes.foldl (write mask) memory

variable {mask memory other : κ → Word} {writes front back : List (κ × Word)} {k : κ}

theorem after_append :
    after mask memory (front ++ back) = after mask (after mask memory front) back :=
  List.foldl_append

theorem write_self (v : Word) :
    write mask memory (k, v) k = Word.overwrite (mask k) (memory k) v :=
  Function.update_self ..

theorem write_of_ne {w : κ × Word} (h : k ≠ w.1) : write mask memory w k = memory k :=
  Function.update_of_ne h ..

theorem after_of_not_mem (h : k ∉ writes.map (·.1)) : after mask memory writes k = memory k := by
  induction writes generalizing memory with
  | nil => rfl
  | cons w rest ih =>
    rw [List.map_cons, List.mem_cons, not_or] at h
    show after mask (write mask memory w) rest k = _
    rw [ih h.2, write_of_ne h.1]

/-- Writes never change the read-only bits. -/
theorem after_readOnly : after mask memory writes k &&& ~~~mask k = memory k &&& ~~~mask k := by
  induction writes generalizing memory with
  | nil => rfl
  | cons w rest ih =>
    show after mask (write mask memory w) rest k &&& _ = _
    rw [ih]
    by_cases hk : k = w.1
    · rw [hk, write_self, Word.overwrite_readOnly]
    · rw [write_of_ne hk]

/-- What a cell holds after some writes depends on what it held before, and on no other cell. -/
theorem after_congr (h : memory k = other k) :
    after mask memory writes k = after mask other writes k := by
  induction writes generalizing memory other with
  | nil => exact h
  | cons w rest ih =>
    apply ih
    by_cases hk : k = w.1
    · rw [hk] at h ⊢
      rw [write_self, write_self, h]
    · rw [write_of_ne hk, write_of_ne hk, h]

/-- Of a cell that is written only the read-only bits matter. -/
theorem after_congr_of_mem (hk : k ∈ writes.map (·.1))
    (h : memory k &&& ~~~mask k = other k &&& ~~~mask k) :
    after mask memory writes k = after mask other writes k := by
  induction writes generalizing memory other with
  | nil => cases hk
  | cons w rest ih =>
    show after mask (write mask memory w) rest k = after mask (write mask other w) rest k
    by_cases hw : k = w.1
    · apply after_congr
      rw [hw] at h ⊢
      rw [write_self, write_self, Word.overwrite, Word.overwrite, h]
    · rw [List.map_cons, List.mem_cons] at hk
      apply ih (hk.resolve_left hw)
      rw [write_of_ne hw, write_of_ne hw, h]

/-- The same writes once more change nothing. -/
theorem after_append_self (mask memory : κ → Word) (writes : List (κ × Word)) :
    after mask memory (writes ++ writes) = after mask memory writes := by
  rw [after_append]
  funext k
  by_cases hk : k ∈ writes.map (·.1)
  · exact after_congr_of_mem hk after_readOnly
  · exact after_of_not_mem hk

theorem write_write {w : κ × Word} :
    write mask (write mask memory w) w = write mask memory w :=
  after_append_self mask memory [w]

/-- Writes to other cells may come before or after. -/
theorem after_append_comm (h : List.Disjoint (front.map (·.1)) (back.map (·.1))) :
    after mask memory (front ++ back) = after mask memory (back ++ front) := by
  rw [after_append, after_append]
  funext k
  by_cases hk : k ∈ front.map (·.1)
  · rw [after_of_not_mem (h hk)]
    exact after_congr (after_of_not_mem (h hk)).symm
  · rw [after_of_not_mem hk]
    exact after_congr (after_of_not_mem hk)

/-- Blocks of writes that share no cell may come in any order. -/
theorem after_flatMap_perm {block : β → List (κ × Word)} {xs ys : List β} (h : xs.Perm ys)
    (hd : xs.Pairwise fun x y => List.Disjoint ((block x).map (·.1)) ((block y).map (·.1))) :
    after mask memory (xs.flatMap block) = after mask memory (ys.flatMap block) := by
  induction h generalizing memory with
  | nil => rfl
  | cons x _ ih =>
    rw [List.flatMap_cons, List.flatMap_cons, after_append, after_append]
    exact ih (List.pairwise_cons.mp hd).2
  | swap x y rest =>
    have hyx := (List.pairwise_cons.mp hd).1 x List.mem_cons_self
    simp only [List.flatMap_cons]
    rw [← List.append_assoc, after_append, after_append_comm hyx, ← after_append,
      List.append_assoc]
  | trans hxy _ ihxy ihyz =>
    refine (ihxy hd).trans (ihyz ?_)
    exact (hxy.pairwise_iff List.disjoint_symm).mp hd

end Memory
/-- A register file is a memory with write masks. What a program leaves in it is decided by the
writes on its path. -/
theorem Recording.peek_run {α : Type} (q : Program α) (r : Recording) :
    (q.run platform r).2.file.peek =
      Memory.after r.file.mask r.file.peek (Path.writes (q.exchanges platform r)) := by
  induction q generalizing r with
  | done a => rfl
  | step c next ih =>
    have hmask : (platform.answer c r).2.file.mask = r.file.mask := by
      cases c with
      | read a =>
        show (r.file.read a).2.mask = r.file.mask
        unfold RegisterFile.read
        split <;> rfl
      | report e =>
        show (r.keep e).file.mask = _
        rw [file_keep]
      | _ => rfl
    show ((next _).run platform (platform.answer c r).2).2.file.peek = _
    rw [ih, hmask]
    cases c with
    | read a =>
      have hpeek : (r.file.read a).2.peek = r.file.peek := funext (r.file.peek_read a)
      show Memory.after _ (r.file.read a).2.peek _ = _
      rw [hpeek]
      rfl
    | write a v =>
      have hpeek : (r.file.write a v).peek = Memory.write r.file.mask r.file.peek (a, v) := by
        funext b
        rw [RegisterFile.peek_write]
        by_cases h : b = a
        · rw [h, Memory.write_self, if_pos rfl]
          rfl
        · rw [Memory.write_of_ne h, if_neg (Ne.symm h)]
      show Memory.after _ (r.file.write a v).peek _ = _
      rw [hpeek]
      rfl
    | report e =>
      show Memory.after _ (r.keep e).file.peek _ = _
      rw [file_keep]
      rfl
    | _ => rfl

/-! ## The writes of a window -/

namespace OutboundWindow

variable {soc : Soc} {index : Nat} {dbi : Address} {w : OutboundWindow} {path : List Exchange}

/-- The writes that select a region. -/
def selectWrites (soc : Soc) (dbi : Address) (n : Nat) : List (Address × Word) :=
  match soc.regions with
  | .viewport => [(dbi.at Translation.viewport, BitVec.ofNat 32 n)]
  | .mapped _ => []

/-- All writes that program a window, in order. -/
def writes (soc : Soc) (index : Nat) (dbi : Address) (w : OutboundWindow) :
    List (Address × Word) :=
  selectWrites soc dbi w.region ++ (w.regionUpdate soc index).map fun x =>
    (TranslationUnit.registerAt soc dbi w.region x.1, x.2)

theorem writes_of_write (h : Runs (w.write soc index dbi) path ()) :
    Path.writes path = w.writes soc index dbi := by
  obtain ⟨event, picked, hselect, rfl⟩ := TranslationUnit.write_path h
  show Path.writes (picked ++ TranslationUnit.regionWrites soc dbi w.region
    (w.regionUpdate soc index)) = _
  rw [Path.writes_append, TranslationUnit.writes_regionWrites, writes]
  congr 1
  unfold select at hselect
  unfold selectWrites
  cases hr : soc.regions with
  | viewport =>
    rw [hr] at hselect
    obtain rfl := runs_write.mp hselect
    rfl
  | mapped offset =>
    rw [hr] at hselect
    obtain ⟨rfl, -⟩ := runs_done.mp hselect
    rfl

theorem writes_of_program {result : Except OutboundError Unit} (haccepted : w.fault? soc = none)
    (h : Runs (w.program soc index dbi) path result) :
    Path.writes path = w.writes soc index dbi := by
  unfold program at h
  rw [haccepted] at h
  obtain ⟨_, front, _, hwrite, hd, rfl⟩ := h.bind
  obtain ⟨rfl, -⟩ := runs_done.mp hd
  rw [List.append_nil]
  exact writes_of_write hwrite

end OutboundWindow

theorem Port.writes_of_programWindows {p : Port} {windows : List OutboundWindow} {k : Nat}
    {path : List Exchange} (hw : ∀ w ∈ windows, w.fault? p.soc = none)
    (h : Runs (p.programWindows windows) path k) :
    Path.writes path =
      windows.flatMap (·.writes p.soc p.controller.index p.controller.dbi) := by
  induction windows generalizing path with
  | nil =>
    obtain ⟨rfl, -⟩ := runs_done.mp h
    rfl
  | cons w rest ih =>
    obtain ⟨front, back, hfront, hback, rfl⟩ := programWindows_cons (hw w List.mem_cons_self) h
    rw [Path.writes_append, OutboundWindow.writes_of_write hfront, List.flatMap_cons,
      ih (fun v hv => hw v (List.mem_cons_of_mem _ hv)) hback]

/-! ## Regions behind a viewport -/

theorem Soc.outboundRegions_le {soc : Soc} (h : soc ∈ Soc.all) : soc.outboundRegions ≤ 16 := by
  revert soc
  decide

/-- The registers that a viewport shows of one region. -/
def RegionRegister.all : List RegionRegister :=
  [.control1, .control2, .lowerBase, .upperBase, .limit, .upperLimit, .lowerTarget, .upperTarget]

/-- The register of the shown region that is at an address. -/
def RegionRegister.at? (dbi a : Address) : Option RegionRegister :=
  all.find? fun r => dbi.at (r.offset Translation.viewportRegisters) = a

/-- A memory with write masks in which the registers of the regions are banked: of each only
that of the region is shown whose number the viewport register holds. -/
structure BankedUnit (soc : Soc) (dbi : Address) where
  cells : Address → Word
  mask : Address → Word
  /-- The registers of the regions, by what the viewport register holds. -/
  banks : Word × RegionRegister → Word
  bankMask : Word × RegionRegister → Word
  /-- The viewport register can hold the number of every region. -/
  holds : ∀ n, n < soc.outboundRegions →
    BitVec.ofNat 32 n &&& mask (dbi.at Translation.viewport) = BitVec.ofNat 32 n

namespace BankedUnit

variable {soc : Soc} {dbi : Address}

/-- Every cell may be writable throughout. -/
instance : Inhabited (BankedUnit soc dbi) where
  default := ⟨fun _ => 0, fun _ => BitVec.allOnes 32, fun _ => 0, fun _ => BitVec.allOnes 32,
    fun _ _ => BitVec.and_allOnes⟩

def shown (u : BankedUnit soc dbi) : Word := u.cells (dbi.at Translation.viewport)

def read (u : BankedUnit soc dbi) (a : Address) : Word :=
  match RegionRegister.at? dbi a with
  | some r => u.banks (u.shown, r)
  | none => u.cells a

def write (u : BankedUnit soc dbi) (a : Address) (v : Word) : BankedUnit soc dbi :=
  match RegionRegister.at? dbi a with
  | some r => { u with banks := Memory.write u.bankMask u.banks ((u.shown, r), v) }
  | none => { u with cells := Memory.write u.mask u.cells (a, v) }

def answer : (c : Command) → BankedUnit soc dbi → c.Answer × BankedUnit soc dbi
  | .read a, u => (u.read a, u)
  | .write a v, u => ((), u.write a v)
  | .barrier, u => ((), u)
  | .stall _, u => ((), u)
  | .listens _, u => (true, u)
  | .report _, u => ((), u)

def platform : Platform (BankedUnit soc dbi) := ⟨answer⟩

/-- The unit after some writes. -/
def after (u : BankedUnit soc dbi) (writes : List (Address × Word)) : BankedUnit soc dbi :=
  writes.foldl (fun u w => u.write w.1 w.2) u

theorem after_cons (u : BankedUnit soc dbi) (w : Address × Word) (rest : List (Address × Word)) :
    u.after (w :: rest) = (u.write w.1 w.2).after rest :=
  List.foldl_cons ..

theorem after_append (u : BankedUnit soc dbi) (front back : List (Address × Word)) :
    u.after (front ++ back) = (u.after front).after back :=
  List.foldl_append

theorem run_platform {α : Type} (q : Program α) (u : BankedUnit soc dbi) :
    (q.run platform u).2 = u.after (Path.writes (q.exchanges platform u)) := by
  induction q generalizing u with
  | done a => rfl
  | step c next ih =>
    have first : (answer c u).2 = u.after (Path.writes [⟨c, (answer c u).1⟩]) := by
      cases c with
      | write a v => simp only [answer, after, Path.writes, Exchange.write?, List.filterMap_cons,
          List.filterMap_nil, List.foldl_cons, List.foldl_nil]
      | _ => rfl
    show ((next (answer c u).1).run platform (answer c u).2).2 = u.after
      (Path.writes ([⟨c, (answer c u).1⟩] ++ (next (answer c u).1).exchanges platform (answer c u).2))
    rw [Path.writes_append, after_append, ← first, ih]

/-- What the viewport register holds once the number of a region is written to it. -/
def selected (u : BankedUnit soc dbi) (n : Nat) : Word :=
  Word.overwrite (u.mask (dbi.at Translation.viewport)) u.shown (BitVec.ofNat 32 n)

theorem at?_registerAt (hv : soc.regions = .viewport) (n : Nat) (r : RegionRegister) :
    RegionRegister.at? dbi (TranslationUnit.registerAt soc dbi n r) = some r := by
  unfold TranslationUnit.registerAt RegionRegister.at?
  rw [hv]
  cases hf : RegionRegister.all.find? fun s => dbi.at (s.offset Translation.viewportRegisters) =
      dbi.at (r.offset Translation.viewportRegisters) with
  | none =>
    have hmem : r ∈ RegionRegister.all := by cases r <;> simp [RegionRegister.all]
    simpa using List.find?_eq_none.mp hf r hmem
  | some s =>
    have hat : dbi.at (s.offset Translation.viewportRegisters) =
        dbi.at (r.offset Translation.viewportRegisters) := by simpa using List.find?_some hf
    have hr := TranslationUnit.offset_viewport_bounds r
    have hs := TranslationUnit.offset_viewport_bounds s
    rw [TranslationUnit.offset_viewport_inj (TranslationUnit.at_inj (by omega) (by omega) hat)]

theorem at?_viewport (hv : soc.regions = .viewport) :
    RegionRegister.at? dbi (dbi.at Translation.viewport) = none := by
  apply List.find?_eq_none.mpr
  intro r _ h
  have hne : dbi.at Translation.viewport ≠ TranslationUnit.registerAt soc dbi 0 r :=
    TranslationUnit.viewport_ne hv 0 r
  rw [TranslationUnit.registerAt, hv] at hne
  exact hne (decide_eq_true_eq.mp h).symm

variable {u : BankedUnit soc dbi} {index n : Nat}

theorem write_registerAt (hv : soc.regions = .viewport) (r : RegionRegister) (v : Word) :
    u.write (TranslationUnit.registerAt soc dbi n r) v =
      { u with banks := Memory.write u.bankMask u.banks ((u.shown, r), v) } := by
  unfold write
  rw [at?_registerAt hv]

theorem write_viewport (hv : soc.regions = .viewport) (v : Word) :
    u.write (dbi.at Translation.viewport) v =
      { u with cells := Memory.write u.mask u.cells (dbi.at Translation.viewport, v) } := by
  unfold write
  rw [at?_viewport hv]

/-- Writes to a region go to the bank that is shown. -/
theorem after_region (hv : soc.regions = .viewport) (writes : List (RegionRegister × Word)) :
    u.after (writes.map fun x => (TranslationUnit.registerAt soc dbi n x.1, x.2)) =
      { u with banks :=
          Memory.after u.bankMask u.banks (writes.map fun x => ((u.shown, x.1), x.2)) } := by
  induction writes generalizing u with
  | nil => rfl
  | cons w rest ih =>
    rw [List.map_cons, after_cons, ih, write_registerAt hv]
    rfl

/-- The writes of a window, to the bank that its region has behind the viewport. -/
def bankWrites (u : BankedUnit soc dbi) (index : Nat) (w : OutboundWindow) :
    List ((Word × RegionRegister) × Word) :=
  (w.regionUpdate soc index).map fun x => ((u.selected w.region, x.1), x.2)

theorem after_window (hv : soc.regions = .viewport) (index : Nat) (w : OutboundWindow) :
    u.after (w.writes soc index dbi) =
      { u with
        cells := Memory.write u.mask u.cells
          (dbi.at Translation.viewport, BitVec.ofNat 32 w.region)
        banks := Memory.after u.bankMask u.banks (u.bankWrites index w) } := by
  have hselect : OutboundWindow.selectWrites soc dbi w.region =
      [(dbi.at Translation.viewport, BitVec.ofNat 32 w.region)] := by
    rw [OutboundWindow.selectWrites, hv]
  rw [OutboundWindow.writes, hselect, List.singleton_append, after_cons, write_viewport hv,
    after_region hv]
  unfold bankWrites selected shown
  dsimp only
  rw [Memory.write_self]

/-- Selecting one region does not change what selects another. -/
theorem selected_after_window (hv : soc.regions = .viewport) (w : OutboundWindow) :
    (u.after (w.writes soc index dbi)).selected = u.selected := by
  funext n
  rw [after_window hv]
  unfold selected shown
  dsimp only
  rw [Memory.write_self, Word.overwrite_overwrite]

theorem bankWrites_after_window (hv : soc.regions = .viewport) (w : OutboundWindow) :
    (u.after (w.writes soc index dbi)).bankWrites = u.bankWrites := by
  unfold bankWrites
  rw [selected_after_window hv]

theorem selected_injective (hs : soc ∈ Soc.all) {m n : Nat} (hm : m < soc.outboundRegions)
    (hn : n < soc.outboundRegions) (h : u.selected m = u.selected n) : m = n := by
  have hcount := Soc.outboundRegions_le hs
  have hwritable := congrArg (· &&& u.mask (dbi.at Translation.viewport)) h
  simp only [selected, Word.overwrite_writable] at hwritable
  rw [u.holds m hm, u.holds n hn] at hwritable
  have hnumber := congrArg BitVec.toNat hwritable
  simp only [BitVec.toNat_ofNat] at hnumber
  omega

/-- A list of windows leaves the banks with all their writes, and of the other cells only the
viewport register is changed. -/
theorem after_windows (hv : soc.regions = .viewport) (index : Nat)
    (windows : List OutboundWindow) :
    (u.after (windows.flatMap (·.writes soc index dbi))).banks =
        Memory.after u.bankMask u.banks (windows.flatMap (u.bankWrites index)) ∧
      ∀ a, a ≠ dbi.at Translation.viewport →
        (u.after (windows.flatMap (·.writes soc index dbi))).cells a = u.cells a := by
  induction windows generalizing u with
  | nil => exact ⟨rfl, fun _ _ => rfl⟩
  | cons w rest ih =>
    have hwindow := after_window (u := u) hv index w
    obtain ⟨banks, cells⟩ := ih (u := u.after (w.writes soc index dbi))
    rw [List.flatMap_cons, List.flatMap_cons, after_append, Memory.after_append]
    constructor
    · rw [banks, bankWrites_after_window hv, hwindow]
    · intro a ha
      have hne : a ≠ (dbi.at Translation.viewport, BitVec.ofNat 32 w.region).1 := ha
      rw [cells a ha, hwindow]
      dsimp only
      rw [Memory.write_of_ne hne]

/-- A window that is programmed again changes nothing. -/
theorem after_window_twice (hv : soc.regions = .viewport) (w : OutboundWindow) :
    (u.after (w.writes soc index dbi)).after (w.writes soc index dbi) =
      u.after (w.writes soc index dbi) := by
  have hbanks := Memory.after_append_self u.bankMask u.banks (u.bankWrites index w)
  rw [Memory.after_append] at hbanks
  rw [after_window hv index w, bankWrites_after_window hv, after_window hv index w]
  dsimp only
  rw [hbanks, Memory.write_write]

/-- Behind the viewport windows for different regions share no cell. -/
theorem bankWrites_disjoint (hs : soc ∈ Soc.all) {v w : OutboundWindow}
    (hv : v.region < soc.outboundRegions) (hw : w.region < soc.outboundRegions)
    (hne : v.region ≠ w.region) :
    List.Disjoint ((u.bankWrites index v).map (·.1)) ((u.bankWrites index w).map (·.1)) := by
  have keys (x : OutboundWindow) {k : Word × RegionRegister}
      (hk : k ∈ (u.bankWrites index x).map (·.1)) : k.1 = u.selected x.region := by
    rw [bankWrites, List.map_map] at hk
    obtain ⟨y, -, rfl⟩ := List.mem_map.mp hk
    rfl
  intro k hkv hkw
  exact hne (selected_injective hs hv hw ((keys v hkv).symm.trans (keys w hkw)))

end BankedUnit

/-! ## Order -/

namespace Port

variable {p : Port}

/-- Programs one window of the port. -/
def programWindow (p : Port) (w : OutboundWindow) : Program (Except OutboundError Unit) :=
  w.program p.soc p.controller.index p.controller.dbi

theorem writes_of_programWindow {w : OutboundWindow} (haccepted : w.fault? p.soc = none)
    {path : List Exchange} {result : Except OutboundError Unit}
    (h : Runs (p.programWindow w) path result) :
    Path.writes path = w.writes p.soc p.controller.index p.controller.dbi :=
  OutboundWindow.writes_of_program haccepted h

theorem writes_of_programWindow_twice {w : OutboundWindow} (haccepted : w.fault? p.soc = none)
    {path : List Exchange} {result : Except OutboundError Unit}
    (h : Runs (p.programWindow w >>= fun _ => p.programWindow w) path result) :
    Path.writes path = w.writes p.soc p.controller.index p.controller.dbi ++
      w.writes p.soc p.controller.index p.controller.dbi := by
  obtain ⟨_, front, back, hfront, hback, rfl⟩ := h.bind
  rw [Path.writes_append, writes_of_programWindow haccepted hfront,
    writes_of_programWindow haccepted hback]

end Port

/-- On a unit that shows all regions, windows for different regions share no cell. -/
theorem OutboundWindow.writes_disjoint {soc : Soc} (hs : soc ∈ Soc.all) {offset : Address}
    (hm : soc.regions = .mapped offset) {index : Nat} {dbi : Address} {v w : OutboundWindow}
    (hv : v.fault? soc = none) (hw : w.fault? soc = none) (hne : v.region ≠ w.region) :
    List.Disjoint ((v.writes soc index dbi).map (·.1)) ((w.writes soc index dbi).map (·.1)) := by
  have keys (x : OutboundWindow) {a : Address} (ha : a ∈ (x.writes soc index dbi).map (·.1)) :
      ∃ r, a = TranslationUnit.registerAt soc dbi x.region r := by
    rw [writes, selectWrites, hm, List.nil_append, List.map_map] at ha
    obtain ⟨y, -, rfl⟩ := List.mem_map.mp ha
    exact ⟨y.1, rfl⟩
  have shows (n : Nat) : TranslationUnit.Shows soc ⟨0, fun _ _ => 0⟩ n := by
    intro h
    rw [hm] at h
    cases h
  intro a hav haw
  obtain ⟨r, hr⟩ := keys v hav
  obtain ⟨s, hs'⟩ := keys w haw
  exact hne (TranslationUnit.registerAt_inj hs (fault?_eq_none.mp hv).2.2
    (fault?_eq_none.mp hw).2.2 (shows _) (shows _) (hr.symm.trans hs')).1

/-- Programming windows is idempotent, and for different regions its order is free. On every
register file the same accepted window twice leaves the same memory as once, and if the unit
shows all regions, windows for different regions leave the same memory in every order. If the
unit shows one region at a time, they leave the same in every region and everywhere else but in
the viewport register. -/
theorem programming_order_free {p : Port} (hs : p.soc ∈ Soc.all) :
    (∀ w : OutboundWindow, w.fault? p.soc = none →
      (∀ r : Recording,
        ((p.programWindow w >>= fun _ => p.programWindow w).run Recording.platform r).2.file.peek =
          ((p.programWindow w).run Recording.platform r).2.file.peek) ∧
      (p.soc.regions = .viewport → ∀ u : BankedUnit p.soc p.controller.dbi,
        ((p.programWindow w >>= fun _ => p.programWindow w).run BankedUnit.platform u).2 =
          ((p.programWindow w).run BankedUnit.platform u).2)) ∧
    ∀ windows others : List OutboundWindow, windows.Perm others →
      (∀ w ∈ windows, w.fault? p.soc = none) → (windows.map (·.region)).Nodup →
      (∀ offset, p.soc.regions = .mapped offset → ∀ r : Recording,
        ((p.programWindows windows).run Recording.platform r).2.file.peek =
          ((p.programWindows others).run Recording.platform r).2.file.peek) ∧
      (p.soc.regions = .viewport → ∀ u : BankedUnit p.soc p.controller.dbi,
        ((p.programWindows windows).run BankedUnit.platform u).2.banks =
            ((p.programWindows others).run BankedUnit.platform u).2.banks ∧
          ∀ a, a ≠ p.dbi Translation.viewport →
            ((p.programWindows windows).run BankedUnit.platform u).2.cells a =
              ((p.programWindows others).run BankedUnit.platform u).2.cells a) := by
  refine ⟨fun w haccepted => ⟨fun r => ?_, fun hv u => ?_⟩,
    fun windows others hperm haccepted hregions => ?_⟩
  · rw [Recording.peek_run, Recording.peek_run,
      Port.writes_of_programWindow_twice haccepted (runs_exchanges ..),
      Port.writes_of_programWindow haccepted (runs_exchanges ..), Memory.after_append_self]
  · rw [BankedUnit.run_platform, BankedUnit.run_platform,
      Port.writes_of_programWindow_twice haccepted (runs_exchanges ..),
      Port.writes_of_programWindow haccepted (runs_exchanges ..), BankedUnit.after_append,
      BankedUnit.after_window_twice hv]
  · have haccepted' : ∀ w ∈ others, w.fault? p.soc = none :=
      fun w hw => haccepted w (hperm.mem_iff.mpr hw)
    have hdistinct := List.pairwise_map.mp hregions
    have regions : ∀ w ∈ windows, w.region < p.soc.outboundRegions :=
      fun w hw => (OutboundWindow.fault?_eq_none.mp (haccepted w hw)).2.2
    refine ⟨fun offset hm r => ?_, fun hv u => ?_⟩
    · rw [Recording.peek_run, Recording.peek_run,
        Port.writes_of_programWindows haccepted (runs_exchanges ..),
        Port.writes_of_programWindows haccepted' (runs_exchanges ..)]
      refine Memory.after_flatMap_perm hperm (hdistinct.imp_of_mem fun hv hw hne => ?_)
      exact OutboundWindow.writes_disjoint hs hm (haccepted _ hv) (haccepted _ hw) hne
    · rw [BankedUnit.run_platform, BankedUnit.run_platform,
        Port.writes_of_programWindows haccepted (runs_exchanges ..),
        Port.writes_of_programWindows haccepted' (runs_exchanges ..)]
      obtain ⟨banks, cells⟩ := BankedUnit.after_windows (u := u) hv p.controller.index windows
      obtain ⟨banks', cells'⟩ := BankedUnit.after_windows (u := u) hv p.controller.index others
      refine ⟨?_, fun a ha => (cells a ha).trans (cells' a ha).symm⟩
      rw [banks, banks']
      refine Memory.after_flatMap_perm hperm (hdistinct.imp_of_mem fun hv hw hne => ?_)
      exact BankedUnit.bankWrites_disjoint hs (regions _ hv) (regions _ hw) hne

/-- The five windows of the port in either direction, on a unit of each kind. -/
theorem programming_order_free_example :
    exampleController.outboundWindows.length = 5 ∧
    (∀ u : BankedUnit Bm1000.soc exampleController.dbi,
      ((Port.programWindows ⟨Bm1000.soc, exampleController⟩
          exampleController.outboundWindows).run BankedUnit.platform u).2.banks =
        ((Port.programWindows ⟨Bm1000.soc, exampleController⟩
          exampleController.outboundWindows.reverse).run BankedUnit.platform u).2.banks) ∧
    ∀ r : Recording,
      ((Port.programWindows ⟨Bs1000.soc, exampleController⟩
          exampleController.outboundWindows).run Recording.platform r).2.file.peek =
        ((Port.programWindows ⟨Bs1000.soc, exampleController⟩
          exampleController.outboundWindows.reverse).run Recording.platform r).2.file.peek := by
  have hperm := (List.reverse_perm exampleController.outboundWindows).symm
  have banked := (programming_order_free (p := ⟨Bm1000.soc, exampleController⟩)
    List.mem_cons_self).2 _ _ hperm (by decide) (by decide)
  have mapped := (programming_order_free (p := ⟨Bs1000.soc, exampleController⟩)
    (List.mem_cons_of_mem _ List.mem_cons_self)).2 _ _ hperm (by decide) (by decide)
  exact ⟨rfl, fun u => (banked.2 rfl u).1, mapped.1 _ rfl⟩

end RootComplex
