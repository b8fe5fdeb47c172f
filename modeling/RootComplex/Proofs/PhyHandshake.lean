import RootComplex.Proofs.Training

/-! # The PHY handshake

Every access to a PHY register names it and then waits. Its data are touched only once the
handshake is over, and a handshake that takes all polls of a wait fails the access. A table of
adjustments is worked through up to the first access that fails, and nothing comes after it. -/

namespace RootComplex

open Program

namespace Phy

/-! ## What a wait reads -/

/-- The handshake goes on: it is not done, or the port is busy. -/
def Unready (status : Word) : Prop :=
  PhyStatus.done.test status = false ∨ PhyStatus.busy.test status = true

instance (status : Word) : Decidable (Unready status) := inferInstanceAs (Decidable (_ ∨ _))

/-- One poll. An unready one is followed by a microsecond of rest. -/
def poll (dbi : Address) (status : Word) : List Exchange :=
  ⟨.read (dbi.at PhyPort.status), status⟩ ::
    if Unready status then [⟨.stall (.microseconds 1), ()⟩] else []

/-- The statuses that a wait reads: none after a ready one, and 1000 if all are unready. -/
structure Awaited (polls : List Word) : Prop where
  going : ∀ status ∈ polls.dropLast, Unready status
  most : polls.length ≤ 1000
  exhausted : (∀ status ∈ polls, Unready status) → polls.length = 1000

/-- The handshake went on in all 1000 polls. -/
def TimesOut (polls : List Word) : Prop :=
  polls.length = 1000 ∧ ∀ status ∈ polls, Unready status

/-- The exchanges of a wait, and what it comes to. A failure quotes the status of the last
poll. -/
inductive Waits (dbi : Address) (address : Nat) : List Exchange → Except PhyTimeout Unit → Prop where
  | ready {polls : List Word} (awaited : Awaited polls) (inTime : ¬TimesOut polls) :
      Waits dbi address (polls.flatMap (poll dbi)) (.ok ())
  | failed {polls : List Word} {status : Word} (awaited : Awaited polls) (timesOut : TimesOut polls)
      (last : polls.getLast? = some status) :
      Waits dbi address (polls.flatMap (poll dbi)) (.error ⟨address, status⟩)

/-! ## Accesses -/

/-- What names a register: its address below bit 31, which tells whether it will be written. -/
def request (address : Nat) (writes : Bool) : Word := BitVec.cons writes (BitVec.ofNat 31 address)

def latch (dbi : Address) (lanes : Word) (address : Nat) (writes : Bool) : List Exchange :=
  [⟨.write (dbi.at PhyPort.lanes) lanes, ()⟩,
    ⟨.write (dbi.at PhyPort.address) (request address writes), ()⟩]

/-- The data are read once the wait is over, and not at all after one that failed. -/
inductive Reads (dbi : Address) (lanes : Word) (address : Nat) :
    List Exchange → Except PhyTimeout Word → Prop where
  | failed {wait : List Exchange} {e : PhyTimeout} (waits : Waits dbi address wait (.error e)) :
      Reads dbi lanes address (latch dbi lanes address false ++ wait) (.error e)
  | done {wait : List Exchange} {value : Word} (waits : Waits dbi address wait (.ok ())) :
      Reads dbi lanes address (latch dbi lanes address false ++ wait ++
        [⟨.read (dbi.at PhyPort.data), value⟩]) (.ok value)

/-- The data are stored once, between two waits, and not at all if the first one failed. -/
inductive Writes (dbi : Address) (lanes : Word) (address : Nat) (value : Word) :
    List Exchange → Except PhyTimeout Unit → Prop where
  | failed {wait : List Exchange} {e : PhyTimeout} (waits : Waits dbi address wait (.error e)) :
      Writes dbi lanes address value (latch dbi lanes address true ++ wait) (.error e)
  | stored {wait again : List Exchange} {r : Except PhyTimeout Unit}
      (waits : Waits dbi address wait (.ok ())) (completes : Waits dbi address again r) :
      Writes dbi lanes address value (latch dbi lanes address true ++ wait ++
        ⟨.write (dbi.at PhyPort.data) value, ()⟩ :: again) r

/-- A complete adjustment: the register is read, and written with the bits under the mask
replaced. An event tells of it. -/
def Adjusts (dbi : Address) (lanes : Word) (t : PhyTuning) (part : List Exchange) : Prop :=
  ∃ found front back event, Reads dbi lanes t.address front (.ok found) ∧
    Writes dbi lanes t.address ((found &&& ~~~t.mask) ||| (t.value &&& t.mask)) back (.ok ()) ∧
    part = front ++ back ++ [⟨.report event, ()⟩]

/-- An adjustment that stops at an access that fails. -/
inductive Stops (dbi : Address) (lanes : Word) (t : PhyTuning) :
    List Exchange → PhyTimeout → Prop where
  | reading {path : List Exchange} {e : PhyTimeout} (reads : Reads dbi lanes t.address path (.error e)) :
      Stops dbi lanes t path e
  | writing {front back : List Exchange} {found : Word} {e : PhyTimeout}
      (reads : Reads dbi lanes t.address front (.ok found))
      (writes : Writes dbi lanes t.address ((found &&& ~~~t.mask) ||| (t.value &&& t.mask)) back
        (.error e)) : Stops dbi lanes t (front ++ back) e

/-- A table is adjusted entry by entry, either to its end or up to the first access that fails,
which is the last one. -/
inductive Tunes (dbi : Address) (lanes : Word) (table : List PhyTuning) :
    List Exchange → Except PhyTimeout Unit → Prop where
  | complete {parts : List (List Exchange)} (adjusts : List.Forall₂ (Adjusts dbi lanes) table parts) :
      Tunes dbi lanes table parts.flatten (.ok ())
  | stopped {front rest : List PhyTuning} {t : PhyTuning} {parts : List (List Exchange)}
      {last : List Exchange} {e : PhyTimeout} (split : table = front ++ t :: rest)
      (adjusts : List.Forall₂ (Adjusts dbi lanes) front parts) (stops : Stops dbi lanes t last e) :
      Tunes dbi lanes table (parts.flatten ++ last) (.error e)

variable {dbi : Address} {lanes value : Word} {address : Nat} {path : List Exchange}

/-! ## One wait -/

theorem not_isReady_iff {status : Word} : ¬isReady status = true ↔ Unready status := by
  unfold isReady Unready
  cases PhyStatus.done.test status <;> cases PhyStatus.busy.test status <;> simp

/-- A wait reads statuses up to the first that is ready, or as many as it may. -/
theorem await_polls {most : Nat} {before : Word} {r : Except PhyTimeout Unit}
    (h : Runs (await dbi address most before) path r) :
    ∃ polls : List Word, path = polls.flatMap (poll dbi) ∧ polls.length ≤ most ∧
      (∀ status ∈ polls.dropLast, Unready status) ∧
      ((r = .ok () ∧ ∃ status ∈ polls, ¬Unready status) ∨
        (r = .error ⟨address, polls.getLast?.getD before⟩ ∧ polls.length = most ∧
          ∀ status ∈ polls, Unready status)) := by
  induction most generalizing path before with
  | zero =>
    obtain ⟨rfl, rfl⟩ := runs_done.mp h
    exact ⟨[], rfl, Nat.le_refl 0, fun s hs => absurd hs List.not_mem_nil,
      .inr ⟨rfl, rfl, fun s hs => absurd hs List.not_mem_nil⟩⟩
  | succ most ih =>
    obtain ⟨status, rest, rfl, h₁⟩ := runs_read_bind.mp h
    split at h₁
    · rename_i hready
      obtain ⟨rfl, rfl⟩ := runs_done.mp h₁
      have ready : ¬Unready status := fun unready => not_isReady_iff.mpr unready hready
      refine ⟨[status], ?_, Nat.succ_le_succ (Nat.zero_le most),
        fun s hs => absurd hs List.not_mem_nil, .inl ⟨rfl, status, List.mem_singleton_self _, ready⟩⟩
      simp [poll, ready]
    · rename_i hbusy
      have unready : Unready status := not_isReady_iff.mp hbusy
      obtain ⟨later, rfl, h₂⟩ := runs_stall_bind.mp h₁
      obtain ⟨polls, rfl, hlength, hgoing, hends⟩ := ih h₂
      -- a failure quotes the status before, which is that of this poll if there is none after it
      have last : (status :: polls).getLast?.getD before = polls.getLast?.getD status := by
        rw [List.getLast?_cons, Option.getD_some]
      refine ⟨status :: polls, ?_, Nat.succ_le_succ hlength, ?_, ?_⟩
      · simp [poll, unready, PhyPort.pollMicroseconds]
      · cases polls with
        | nil => exact fun s hs => absurd hs List.not_mem_nil
        | cons next polls =>
          rw [List.dropLast_cons_cons]
          exact List.forall_mem_cons.mpr ⟨unready, hgoing⟩
      · rcases hends with ⟨hr, s, hs, ready⟩ | ⟨hr, hall, others⟩
        · exact .inl ⟨hr, s, List.mem_cons_of_mem _ hs, ready⟩
        · refine .inr ⟨?_, congrArg Nat.succ hall, List.forall_mem_cons.mpr ⟨unready, others⟩⟩
          rw [last]
          exact hr

theorem await_waits {r : Except PhyTimeout Unit}
    (h : Runs (await dbi address PhyPort.polls 0) path r) : Waits dbi address path r := by
  obtain ⟨polls, rfl, most, going, hends⟩ := await_polls h
  rcases hends with ⟨rfl, status, hs, ready⟩ | ⟨rfl, hall, unready⟩
  · exact .ready ⟨going, most, fun unready => absurd (unready status hs) ready⟩
      fun timesOut => ready (timesOut.2 status hs)
  · cases hl : polls.getLast? with
    | none =>
      rw [List.getLast?_eq_none_iff] at hl
      rw [hl] at hall
      cases hall
    | some status => exact .failed ⟨going, most, fun _ => hall⟩ ⟨hall, unready⟩ hl

/-! ## One access -/

theorem request_eq (address : Nat) (writes : Bool) :
    PhyAddress.write.put writes (PhyAddress.address.set address 0) = request address writes := by
  apply BitVec.eq_of_getLsbD_eq
  intro i hi
  simp only [Field.put, Field.getLsbD_set, request, BitVec.getLsbD_cons, BitVec.getLsbD_ofNat,
    Field.covers, PhyAddress.write, PhyAddress.address]
  by_cases hbit : i = 31
  · subst hbit
    cases writes <;> rfl
  · have low : i < 31 := by omega
    have apart : ¬31 ≤ i := by omega
    simp [hbit, low, hi, apart]

theorem select_latch {writes : Bool} {u : Unit} (h : Runs (select dbi lanes address writes) path u) :
    path = latch dbi lanes address writes := by
  obtain ⟨rest, rfl, h₁⟩ := runs_write_bind.mp h
  rw [runs_write.mp h₁, request_eq]
  rfl

theorem read_reads {r : Except PhyTimeout Word} (h : Runs (read dbi lanes address) path r) :
    Reads dbi lanes address path r := by
  obtain ⟨_, front, _, hselect, h₁, rfl⟩ := h.bind
  obtain rfl := select_latch hselect
  obtain ⟨outcome, wait, _, hwait, h₂, rfl⟩ := h₁.bind
  have waits := await_waits hwait
  cases outcome with
  | error e =>
    obtain ⟨rfl, rfl⟩ := runs_done.mp h₂
    rw [List.append_nil]
    exact .failed waits
  | ok u =>
    obtain ⟨value, _, rfl, h₃⟩ := runs_read_bind.mp h₂
    obtain ⟨rfl, rfl⟩ := runs_done.mp h₃
    rw [← List.append_assoc]
    exact .done waits

theorem write_writes {r : Except PhyTimeout Unit} (h : Runs (write dbi lanes address value) path r) :
    Writes dbi lanes address value path r := by
  obtain ⟨_, front, _, hselect, h₁, rfl⟩ := h.bind
  obtain rfl := select_latch hselect
  obtain ⟨outcome, wait, _, hwait, h₂, rfl⟩ := h₁.bind
  have waits := await_waits hwait
  cases outcome with
  | error e =>
    obtain ⟨rfl, rfl⟩ := runs_done.mp h₂
    rw [List.append_nil]
    exact .failed waits
  | ok u =>
    obtain ⟨again, rfl, h₃⟩ := runs_write_bind.mp h₂
    rw [← List.append_assoc]
    exact .stored waits (await_waits h₃)

/-! ## A table -/

theorem adjust_adjusts {t : PhyTuning} {r : Except PhyTimeout Unit}
    (h : Runs (adjust dbi lanes t) path r) :
    (r = .ok () ∧ Adjusts dbi lanes t path) ∨ ∃ e, r = .error e ∧ Stops dbi lanes t path e := by
  obtain ⟨found, front, _, hread, h₁, rfl⟩ := h.bind
  have reads := read_reads hread
  cases found with
  | error e =>
    obtain ⟨rfl, rfl⟩ := runs_done.mp h₁
    rw [List.append_nil]
    exact .inr ⟨e, rfl, .reading reads⟩
  | ok found =>
    obtain ⟨outcome, back, _, hwrite, h₂, rfl⟩ := h₁.bind
    have writes := write_writes hwrite
    cases outcome with
    | error e =>
      obtain ⟨rfl, rfl⟩ := runs_done.mp h₂
      rw [List.append_nil]
      exact .inr ⟨e, rfl, .writing reads writes⟩
    | ok u =>
      obtain ⟨_, rfl, h₃⟩ := runs_report_bind.mp h₂
      obtain ⟨rfl, rfl⟩ := runs_done.mp h₃
      rw [← List.append_assoc]
      exact .inl ⟨rfl, found, front, back, _, reads, writes, rfl⟩

theorem tune_tunes {table : List PhyTuning} {r : Except PhyTimeout Unit}
    (h : Runs (tune dbi lanes table) path r) : Tunes dbi lanes table path r := by
  induction table generalizing path with
  | nil =>
    obtain ⟨rfl, rfl⟩ := runs_done.mp h
    exact .complete .nil
  | cons t rest ih =>
    obtain ⟨outcome, part, _, hadjust, h₁, rfl⟩ := h.bind
    rcases adjust_adjusts hadjust with ⟨rfl, adjusts⟩ | ⟨e, rfl, stops⟩
    · cases ih h₁ with
      | complete others => exact .complete (.cons adjusts others)
      | stopped split others stops =>
        rw [← List.append_assoc]
        exact .stopped (congrArg (t :: ·) split) (.cons adjusts others) stops
    · obtain ⟨rfl, rfl⟩ := runs_done.mp h₁
      rw [List.append_nil]
      exact .stopped (List.nil_append _).symm .nil stops

end Phy

/-- Whatever the hardware answers, an access to a PHY register fails exactly if one of its waits
reads an unready status in all of its polls, and touches the data only after a wait that did not.
A table of any length is adjusted in order, up to the first access that fails. -/
theorem phy_accesses_gated (dbi : Address) (lanes : Word) {σ : Type} (platform : Platform σ)
    (s : σ) :
    (∀ address, Phy.Reads dbi lanes address ((Phy.read dbi lanes address).exchanges platform s)
      ((Phy.read dbi lanes address).run platform s).1) ∧
    (∀ address value, Phy.Writes dbi lanes address value
      ((Phy.write dbi lanes address value).exchanges platform s)
      ((Phy.write dbi lanes address value).run platform s).1) ∧
    ∀ table, Phy.Tunes dbi lanes table ((Phy.tune dbi lanes table).exchanges platform s)
      ((Phy.tune dbi lanes table).run platform s).1 := by
  refine ⟨fun address => ?_, fun address value => ?_, fun table => ?_⟩
  · exact Phy.read_reads (runs_exchanges ..)
  · exact Phy.write_writes (runs_exchanges ..)
  · exact Phy.tune_tunes (runs_exchanges ..)

end RootComplex
