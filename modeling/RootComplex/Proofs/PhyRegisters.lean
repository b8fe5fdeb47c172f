import Mathlib.Logic.Function.Basic
import RootComplex.Proofs.PhyHandshake
import RootComplex.Proofs.TranslationUnit

/-! # PHY registers

A PHY as a map of registers behind the indirect port. A table that is applied to it through the
port does to the map what its entries say, one after the other, however slow the handshakes are,
and once more changes nothing. -/

namespace RootComplex

open Program

/-! ## The map -/

namespace PhyTuning

/-- The bits under the mask are replaced, and no other bit of any register. -/
def adjusted (registers : Nat → Word) (t : PhyTuning) : Nat → Word :=
  Function.update registers t.address
    ((registers t.address &&& ~~~t.mask) ||| (t.value &&& t.mask))

/-- No two entries for one register have a bit in common. -/
def Separate (table : List PhyTuning) : Prop :=
  table.Pairwise fun s t => s.address = t.address → s.mask &&& t.mask = 0

instance (table : List PhyTuning) : Decidable (Separate table) :=
  inferInstanceAs (Decidable (List.Pairwise _ _))

/-- The register has the value of the entry already. -/
def Met (registers : Nat → Word) (t : PhyTuning) : Prop :=
  registers t.address &&& t.mask = t.value &&& t.mask

variable {registers : Nat → Word} {t : PhyTuning} {table : List PhyTuning} {a : Nat} {m : Word}

theorem adjusted_of_ne (h : t.address ≠ a) : adjusted registers t a = registers a :=
  Function.update_of_ne h.symm ..

theorem adjusted_self :
    adjusted registers t t.address =
      (registers t.address &&& ~~~t.mask) ||| (t.value &&& t.mask) :=
  Function.update_self ..

theorem met_adjusted : Met (adjusted registers t) t := by
  rw [Met, adjusted_self]
  ext i hi
  simp only [BitVec.getElem_and, BitVec.getElem_or, BitVec.getElem_not]
  cases t.mask[i] <;> simp

/-- An entry that is met changes nothing. -/
theorem adjusted_of_met (h : Met registers t) : adjusted registers t = registers := by
  have same : (registers t.address &&& ~~~t.mask) ||| (t.value &&& t.mask) =
      registers t.address := by
    rw [← h]
    ext i hi
    simp only [BitVec.getElem_and, BitVec.getElem_or, BitVec.getElem_not]
    cases t.mask[i] <;> simp
  rw [adjusted, same, Function.update_eq_self]

/-- Bits that an entry does not have keep their value. -/
theorem adjusted_and (h : t.address = a → t.mask &&& m = 0) :
    adjusted registers t a &&& m = registers a &&& m := by
  by_cases ha : t.address = a
  · subst ha
    have apart := h rfl
    rw [adjusted_self]
    ext i hi
    have bit : (t.mask[i] && m[i]) = false := by
      rw [← BitVec.getElem_and, apart]
      exact BitVec.getElem_zero hi
    simp only [BitVec.getElem_and, BitVec.getElem_or, BitVec.getElem_not]
    cases hm : m[i] <;> simp_all
  · rw [adjusted_of_ne ha]

theorem foldl_and (h : ∀ t ∈ table, t.address = a → t.mask &&& m = 0) :
    table.foldl adjusted registers a &&& m = registers a &&& m := by
  induction table generalizing registers with
  | nil => rfl
  | cons t rest ih =>
    obtain ⟨first, others⟩ := List.forall_mem_cons.mp h
    rw [List.foldl_cons, ih others, adjusted_and first]

theorem foldl_of_not_mem (h : ∀ t ∈ table, t.address ≠ a) :
    table.foldl adjusted registers a = registers a := by
  induction table generalizing registers with
  | nil => rfl
  | cons t rest ih =>
    obtain ⟨first, others⟩ := List.forall_mem_cons.mp h
    rw [List.foldl_cons, ih others, adjusted_of_ne first]

/-- Entries that are apart are all met in the end. -/
theorem met_foldl (separate : Separate table) (ht : t ∈ table) :
    Met (table.foldl adjusted registers) t := by
  induction table generalizing registers with
  | nil => cases ht
  | cons u rest ih =>
    obtain ⟨first, others⟩ := List.pairwise_cons.mp separate
    rw [List.foldl_cons]
    rcases List.mem_cons.mp ht with rfl | ht
    -- the entries after it leave its bits alone
    · rw [Met, foldl_and fun v hv same => by rw [BitVec.and_comm]; exact first v hv same.symm]
      exact met_adjusted
    · exact ih others ht

theorem foldl_of_met (h : ∀ t ∈ table, Met registers t) :
    table.foldl adjusted registers = registers := by
  induction table with
  | nil => rfl
  | cons t rest ih =>
    obtain ⟨first, others⟩ := List.forall_mem_cons.mp h
    rw [List.foldl_cons, adjusted_of_met first, ih others]

/-- What a table does to one register: some of its bits get fixed values. -/
theorem exists_foldl_eq (table : List PhyTuning) (a : Nat) :
    ∃ mask value : Word, value &&& mask = value ∧ ∀ registers,
      table.foldl adjusted registers a = (registers a &&& ~~~mask) ||| value := by
  induction table with
  | nil =>
    refine ⟨0#32, 0#32, rfl, fun registers => ?_⟩
    rw [BitVec.not_zero, BitVec.and_allOnes, BitVec.or_zero, List.foldl_nil]
  | cons t rest ih =>
    obtain ⟨mask, value, inside, rest_eq⟩ := ih
    by_cases ha : t.address = a
    -- of the bits it sets, the later entries keep those that they do not set
    · refine ⟨t.mask ||| mask, (t.value &&& t.mask &&& ~~~mask) ||| value, ?_, fun registers => ?_⟩
      · rw [← inside]
        ext i hi
        simp only [BitVec.getElem_and, BitVec.getElem_or, BitVec.getElem_not]
        cases mask[i] <;> cases t.mask[i] <;> simp
      · rw [List.foldl_cons, rest_eq, ← ha, adjusted_self]
        ext i hi
        simp only [BitVec.getElem_and, BitVec.getElem_or, BitVec.getElem_not]
        cases mask[i] <;> cases t.mask[i] <;> simp
    · refine ⟨mask, value, inside, fun registers => ?_⟩
      rw [List.foldl_cons, rest_eq, adjusted_of_ne ha]

/-- A table leaves the map as it is if it was applied before. -/
theorem foldl_foldl : table.foldl adjusted (table.foldl adjusted registers) =
    table.foldl adjusted registers := by
  funext a
  obtain ⟨mask, value, inside, eq⟩ := exists_foldl_eq table a
  rw [eq, eq registers, ← inside]
  ext i hi
  simp only [BitVec.getElem_and, BitVec.getElem_or, BitVec.getElem_not]
  cases mask[i] <;> simp

end PhyTuning

/-! ## The device -/

/-- How a handshake goes: the statuses of the polls it takes, and the status once it is over. Until
then the data register may show anything, and a store may get lost. -/
structure PhyHandshake where
  going : List Word
  final : Word
  early : Word → Word
  takesEarly : Bool
  unready : ∀ status ∈ going, Phy.Unready status
  ready : ¬Phy.Unready final
  prompt : going.length < 1000

namespace PhyHandshake

def status (h : PhyHandshake) : Word := h.going.head?.getD h.final

/-- The handshake after one more poll. -/
def polled (h : PhyHandshake) : PhyHandshake where
  going := h.going.tail
  final := h.final
  early := h.early
  takesEarly := h.takesEarly
  unready s hs := h.unready s (List.mem_of_mem_tail hs)
  ready := h.ready
  prompt := Nat.lt_of_le_of_lt (List.tail_sublist h.going).length_le h.prompt

end PhyHandshake

/-- The registers behind the indirect port, what the data register holds, the register that the
next store goes to, and the handshakes: the present one and those to come. -/
structure PhyDevice where
  registers : Nat → Word
  data : Word
  target : Option Nat
  handshake : PhyHandshake
  coming : Nat → PhyHandshake

namespace PhyDevice

def begin (d : PhyDevice) : PhyDevice :=
  { d with handshake := d.coming 0, coming := fun n => d.coming (n + 1) }

/-- A request names a register in its low 31 bits. The top bit makes it the target of the next
store; without that bit its contents are loaded. -/
def latch (d : PhyDevice) (request : Word) : PhyDevice :=
  let address := (request.setWidth 31).toNat
  if request.msb then { d with target := some address }.begin
  else { d with data := d.registers address }.begin

def polled (d : PhyDevice) : PhyDevice := { d with handshake := d.handshake.polled }

def shown (d : PhyDevice) : Word :=
  if d.handshake.going = [] then d.data else d.handshake.early d.data

def store (d : PhyDevice) (value : Word) : PhyDevice :=
  if d.handshake.going = [] ∨ d.handshake.takesEarly = true then
    match d.target with
    | none => { d with data := value }.begin
    | some address =>
      { d with
        registers := Function.update d.registers address value
        data := value
        target := none }.begin
  else d

/-- What a read of the port yields. Other registers are no concern of the PHY. -/
def load (dbi a : Address) (d : PhyDevice) : Word × PhyDevice :=
  if a = dbi.at PhyPort.status then (d.handshake.status, d.polled)
  else if a = dbi.at PhyPort.data then (d.shown, d)
  else (0, d)

def take (dbi a : Address) (value : Word) (d : PhyDevice) : PhyDevice :=
  if a = dbi.at PhyPort.address then d.latch value
  else if a = dbi.at PhyPort.data then d.store value
  else d

/-- The device behind the port of a controller. -/
def platform (dbi : Address) : Platform PhyDevice where
  answer
    | .read a, d => load dbi a d
    | .write a value, d => ((), take dbi a value d)
    | .barrier, d => ((), d)
    | .stall _, d => ((), d)
    | .listens _, d => (false, d)
    | .report _, d => ((), d)

variable {dbi : Address} {lanes value last : Word} {address n : Nat} {d : PhyDevice}

theorem setWidth_request (h : address < 0x80000000) (writes : Bool) :
    ((Phy.request address writes).setWidth 31).toNat = address := by
  rw [Phy.request, BitVec.setWidth_cons, BitVec.toNat_ofNat]
  exact Nat.mod_eq_of_lt h

theorem latch_read (h : address < 0x80000000) :
    d.latch (Phy.request address false) = { d with data := d.registers address }.begin := by
  rw [latch, setWidth_request h, Phy.request, BitVec.msb_cons]
  rfl

theorem latch_write (h : address < 0x80000000) :
    d.latch (Phy.request address true) = { d with target := some address }.begin := by
  rw [latch, setWidth_request h, Phy.request, BitVec.msb_cons]
  rfl

/-! ### What the port answers -/

/-- Different offsets inside the port are different registers. -/
theorem port_ne {i j : Nat} (hi : i < 0x10000) (hj : j < 0x10000) (h : i ≠ j) :
    dbi.at i ≠ dbi.at j :=
  fun same => h (TranslationUnit.at_inj hi hj same)

theorem load_status : load dbi (dbi.at PhyPort.status) d = (d.handshake.status, d.polled) := by
  rw [load, if_pos rfl]

theorem load_data : load dbi (dbi.at PhyPort.data) d = (d.shown, d) := by
  have apart : dbi.at PhyPort.data ≠ dbi.at PhyPort.status :=
    port_ne (by decide) (by decide) (by decide)
  rw [load, if_neg apart, if_pos rfl]

theorem take_lanes : take dbi (dbi.at PhyPort.lanes) value d = d := by
  have notAddress : dbi.at PhyPort.lanes ≠ dbi.at PhyPort.address :=
    port_ne (by decide) (by decide) (by decide)
  have notData : dbi.at PhyPort.lanes ≠ dbi.at PhyPort.data :=
    port_ne (by decide) (by decide) (by decide)
  rw [take, if_neg notAddress, if_neg notData]

theorem take_address : take dbi (dbi.at PhyPort.address) value d = d.latch value := by
  rw [take, if_pos rfl]

theorem take_data : take dbi (dbi.at PhyPort.data) value d = d.store value := by
  have apart : dbi.at PhyPort.data ≠ dbi.at PhyPort.address :=
    port_ne (by decide) (by decide) (by decide)
  rw [take, if_neg apart, if_pos rfl]

section Steps

variable {α : Type} {a : Address}

theorem run_read (f : Word → Program α) :
    (Program.read a >>= f).run (platform dbi) d =
      (f (load dbi a d).1).run (platform dbi) (load dbi a d).2 := rfl

theorem run_write (f : Unit → Program α) :
    (Program.write a value >>= f).run (platform dbi) d =
      (f ()).run (platform dbi) (take dbi a value d) := rfl

theorem run_stall (time : Duration) (f : Unit → Program α) :
    (Program.stall time >>= f).run (platform dbi) d = (f ()).run (platform dbi) d := rfl

end Steps

/-! ### Accesses -/

/-- The same device in every respect but the handshake, which is over. -/
def Settles (d d' : PhyDevice) : Prop :=
  d'.handshake.going = [] ∧ d'.registers = d.registers ∧ d'.data = d.data ∧ d'.target = d.target

/-- Naming a register is one request. The lanes do not matter to the device. -/
theorem run_select {α : Type} {writes : Bool} (f : Unit → Program α) :
    (Phy.select dbi lanes address writes >>= f).run (platform dbi) d =
      (f ()).run (platform dbi) (d.latch (Phy.request address writes)) := by
  rw [Phy.select, Phy.request_eq, bind_assoc, run_write, take_lanes, ← bind_done (Program.write _ _),
    bind_assoc, run_write, take_address]
  rfl

/-- The wait ends with the handshake, if it may poll more often than that takes. -/
theorem run_await (h : d.handshake.going.length < n) :
    ∃ d', (Phy.await dbi address n last).run (platform dbi) d = (.ok (), d') ∧ d.Settles d' := by
  induction n generalizing d last with
  | zero => exact absurd h (Nat.not_lt_zero _)
  | succ n ih =>
    rw [Phy.await, run_read, load_status]
    cases hgoing : d.handshake.going with
    | nil =>
      have shows : d.handshake.status = d.handshake.final := by
        rw [PhyHandshake.status, hgoing]
        rfl
      have ready : Phy.isReady d.handshake.status = true := by
        rw [shows]
        exact Decidable.not_not.mp fun hn => d.handshake.ready (Phy.not_isReady_iff.mp hn)
      refine ⟨d.polled, ?_, ?_, rfl, rfl, rfl⟩
      · rw [if_pos ready]
        rfl
      · show d.handshake.going.tail = []
        rw [hgoing]
        rfl
    | cons status going =>
      have now : d.handshake.status = status := by
        rw [PhyHandshake.status, hgoing]
        rfl
      have unready : ¬Phy.isReady d.handshake.status = true := by
        rw [now]
        refine Phy.not_isReady_iff.mpr (d.handshake.unready status ?_)
        rw [hgoing]
        exact List.mem_cons_self
      have fewer : d.polled.handshake.going.length < n := by
        show d.handshake.going.tail.length < n
        rw [hgoing] at h ⊢
        exact Nat.lt_of_succ_lt_succ h
      rw [if_neg unready, run_stall]
      exact ih fewer

/-- Every handshake is over in time. -/
theorem run_await_polls (dbi : Address) (address : Nat) (d : PhyDevice) :
    ∃ d', (Phy.await dbi address PhyPort.polls 0).run (platform dbi) d = (.ok (), d') ∧
      d.Settles d' :=
  run_await d.handshake.prompt

/-- A read yields the register. -/
theorem run_read_register (dbi : Address) (lanes : Word) (d : PhyDevice)
    (h : address < 0x80000000) :
    ∃ d', (Phy.read dbi lanes address).run (platform dbi) d = (.ok (d.registers address), d') ∧
      d'.registers = d.registers := by
  obtain ⟨d', hwait, finished, same, loaded, -⟩ :=
    run_await_polls dbi address (d.latch (Phy.request address false))
  rw [latch_read h] at same loaded
  refine ⟨d', ?_, same⟩
  rw [Phy.read, run_select, run_bind, hwait]
  show (Program.read (dbi.at PhyPort.data) >>= _).run _ _ = _
  rw [run_read, load_data, shown, if_pos finished, loaded]
  rfl

/-- A write replaces the register, and no other. -/
theorem run_write_register (dbi : Address) (lanes value : Word) (d : PhyDevice)
    (h : address < 0x80000000) :
    ∃ d', (Phy.write dbi lanes address value).run (platform dbi) d = (.ok (), d') ∧
      d'.registers = Function.update d.registers address value := by
  obtain ⟨d₁, hwait, finished, same, -, target⟩ :=
    run_await_polls dbi address (d.latch (Phy.request address true))
  rw [latch_write h] at same target
  have stored : (d₁.store value).registers = Function.update d.registers address value := by
    rw [store, if_pos (.inl finished), target, same]
    rfl
  obtain ⟨d₂, hagain, -, kept, -⟩ := run_await_polls dbi address (d₁.store value)
  refine ⟨d₂, ?_, kept.trans stored⟩
  rw [Phy.write, run_select, run_bind, hwait]
  show (Program.write (dbi.at PhyPort.data) value >>= _).run _ _ = _
  rw [run_write, take_data]
  exact hagain

/-- One entry adjusts its register. -/
theorem run_adjust (dbi : Address) (lanes : Word) (d : PhyDevice) {t : PhyTuning}
    (h : t.address < 0x80000000) :
    ∃ d', (Phy.adjust dbi lanes t).run (platform dbi) d = (.ok (), d') ∧
      d'.registers = t.adjusted d.registers := by
  obtain ⟨d₁, hread, same⟩ := run_read_register dbi lanes d h
  obtain ⟨d₂, hwrite, written⟩ := run_write_register dbi lanes (t.apply (d.registers t.address)) d₁ h
  refine ⟨d₂, ?_, ?_⟩
  · rw [Phy.adjust, run_bind, hread]
    show (Phy.write dbi lanes t.address _ >>= _).run _ _ = _
    rw [run_bind, hwrite]
    rfl
  · rw [written, same]
    rfl

/-- A table is the left fold of its entries. -/
theorem run_tune (dbi : Address) (lanes : Word) (d : PhyDevice) {table : List PhyTuning}
    (h : ∀ t ∈ table, t.address < 0x80000000) :
    ∃ d', (Phy.tune dbi lanes table).run (platform dbi) d = (.ok (), d') ∧
      d'.registers = table.foldl PhyTuning.adjusted d.registers := by
  induction table generalizing d with
  | nil => exact ⟨d, rfl, rfl⟩
  | cons t rest ih =>
    obtain ⟨first, others⟩ := List.forall_mem_cons.mp h
    obtain ⟨d₁, hadjust, adjusted⟩ := run_adjust dbi lanes d first
    obtain ⟨d₂, hrest, tuned⟩ := ih d₁ others
    refine ⟨d₂, ?_, ?_⟩
    · rw [Phy.tune, run_bind, hadjust]
      exact hrest
    · rw [tuned, adjusted]
      rfl

end PhyDevice

/-- Whatever the registers hold and however slow the handshakes are, a table is applied in full.
Each of its entries replaces the bits under its mask, in order, and no other register changes. Once
more the table changes nothing, in the end or, if its entries are apart, at any time. -/
theorem tuning_folds (dbi : Address) (lanes : Word) (d : PhyDevice) {table : List PhyTuning}
    (named : ∀ t ∈ table, t.address < 0x80000000) :
    ∃ d' again, (Phy.tune dbi lanes table).run (PhyDevice.platform dbi) d = (.ok (), d') ∧
      d'.registers = table.foldl PhyTuning.adjusted d.registers ∧
      (∀ a, (∀ t ∈ table, t.address ≠ a) → d'.registers a = d.registers a) ∧
      (Phy.tune dbi lanes table).run (PhyDevice.platform dbi) d' = (.ok (), again) ∧
      again.registers = d'.registers ∧
      (PhyTuning.Separate table → ∀ front, front <+: table →
        ((Phy.tune dbi lanes front).run (PhyDevice.platform dbi) d').2.registers = d'.registers) := by
  obtain ⟨d', hfirst, tuned⟩ := PhyDevice.run_tune dbi lanes d named
  obtain ⟨again, hagain, twice⟩ := PhyDevice.run_tune dbi lanes d' named
  refine ⟨d', again, hfirst, tuned, ?_, hagain, ?_, ?_⟩
  · intro a ha
    rw [tuned, PhyTuning.foldl_of_not_mem ha]
  · rw [twice, tuned, PhyTuning.foldl_foldl]
  · intro separate front hfront
    have met : ∀ t ∈ front, PhyTuning.Met d'.registers t := by
      intro t ht
      rw [tuned]
      exact PhyTuning.met_foldl separate (hfront.subset ht)
    obtain ⟨part, hpart, kept⟩ :=
      PhyDevice.run_tune dbi lanes d' fun t ht => named t (hfront.subset ht)
    rw [hpart, kept, PhyTuning.foldl_of_met met]

/-- A handshake that is not done in so many polls, shows the data inverted until then and loses a
store that comes too early. -/
def PhyHandshake.slow (polls : Nat) (h : polls < 1000) : PhyHandshake where
  going := List.replicate polls 0
  final := 1
  early := fun data => ~~~data
  takesEarly := false
  unready s hs := by
    rw [List.eq_of_mem_replicate hs]
    decide
  ready := by decide
  prompt := by
    rw [List.length_replicate]
    exact h

/-- Each handshake takes a poll more than the one before, up to the most there may be, and a store
is to come from before. -/
def PhyDevice.slow : PhyDevice where
  registers _ := 0xFFFF
  data := 0
  target := some 0x1018
  handshake := .slow 999 (by decide)
  coming n := .slow (n % 1000) (Nat.mod_lt n (by decide))

/-- Two entries for one register, apart from each other. -/
def sharedTable : List PhyTuning :=
  Bm1000.phyTuning ++ [⟨"rx_ctle_low", 0x1017, 0x000F, 0x0003⟩]

theorem tuning_folds_example :
    PhyTuning.Separate sharedTable ∧ ∃ d' again,
      (Phy.tune 0x02200000 0xF sharedTable).run (PhyDevice.platform 0x02200000) .slow =
        (.ok (), d') ∧
      d'.registers 0x1017 = 0xFF43 ∧ d'.registers 0x1004 = 0xFBFF ∧
      d'.registers 0x1005 = 0xFFFF ∧
      (Phy.tune 0x02200000 0xF sharedTable).run (PhyDevice.platform 0x02200000) d' =
        (.ok (), again) ∧ again.registers = d'.registers := by
  obtain ⟨d', again, hfirst, tuned, kept, hagain, twice, -⟩ :=
    tuning_folds 0x02200000 0xF .slow (by decide : ∀ t ∈ sharedTable, t.address < 0x80000000)
  refine ⟨by decide, d', again, hfirst, ?_, ?_, kept 0x1005 (by decide), hagain, twice⟩
  · rw [tuned]
    decide
  · rw [tuned]
    decide

end RootComplex
