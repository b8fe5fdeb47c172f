import RootComplex.Proofs.BlockSharing
import RootComplex.Proofs.BootBudget
import RootComplex.Proofs.ReadOnlyScope

/-! # The filter probe

A port whose link came up looks for the device behind it. It reads the ID of device zero until that
answers, or for a second, and then the ID of device one, which nothing should answer. A port without
a link leaves its config space alone. -/

namespace RootComplex

open Program

/-- The register that an exchange read, and the value. -/
def Exchange.read? : Exchange → Option (Address × Word)
  | ⟨.read a, v⟩ => some (a, v)
  | _ => none

namespace Path

variable {front back : List Exchange}

/-- Every read, first to last. -/
def reads (path : List Exchange) : List (Address × Word) := path.filterMap (·.read?)

theorem reads_append : reads (front ++ back) = reads front ++ reads back := List.filterMap_append

theorem stalled_append : stalled (front ++ back) = stalled front + stalled back := by
  rw [stalled_eq_cost, stalled_eq_cost, stalled_eq_cost, cost_append]

end Path

namespace Port

/-! ## The ID -/

/-- The ID of device zero on the root bus. -/
def idRegister (p : Port) : Address := p.config 0

/-- The ID of device one on the root bus. -/
def nextRegister (p : Port) : Address := p.config 0x8000

/-- No device has answered: nothing claimed the read, or it has to be tried again. -/
def Pending (id : Word) : Prop := id = 0xFFFFFFFF ∨ id.setWidth 16 = 0x0001

instance (id : Word) : Decidable (Pending id) := inferInstanceAs (Decidable (_ ∨ _))

/-- The wait for a device is over: it has answered, or a thousand polls are made. -/
def Answered (ids : Nat → Word) (k : Nat) : Prop := ¬Pending (ids k) ∨ 1000 ≤ k

/-- The ID is written, and reads as `id` a millisecond later. -/
def poll (p : Port) (id : Word) : List Exchange :=
  [⟨.write p.idRegister 0xFFFFFFFF, ()⟩, ⟨.stall (.milliseconds 1), ()⟩, ⟨.read p.idRegister, id⟩]

/-- The ID reads as `ids 0`, and is polled `n` times more. -/
def polls (p : Port) (ids : Nat → Word) (n : Nat) : List Exchange :=
  ⟨.read p.idRegister, ids 0⟩ :: (List.range n).flatMap fun k => p.poll (ids (k + 1))

/-- A probe on the answers `ids`, of which it waits for number `n`, and on the ID `next` of the other
device. -/
structure Probes (p : Port) (ids : Nat → Word) (n : Nat) (next : Word) (path : List Exchange)
    (works : Bool) : Prop where
  first : FirstFrom (Answered ids) 0 n
  accesses : Path.accesses path = p.polls ids n ++ [⟨.read p.nextRegister, next⟩]
  writes : Path.writes path = List.replicate n (p.idRegister, 0xFFFFFFFF)
  stalled : Path.stalled path = .milliseconds n
  reads : Path.reads path =
    (List.range (n + 1)).map (fun k => (p.idRegister, ids k)) ++ [(p.nextRegister, next)]
  works : works = true ↔ ids n ≠ 0 ∧ ¬Pending (ids n) ∧ next = 0xFFFFFFFF

variable {p : Port} {path : List Exchange} {ids : Nat → Word} {n : Nat}

theorem isPending_iff {id : Word} : isPending id = true ↔ Pending id := by
  have low : id.toNat % 0x10000 = ConfigHeader.retryVendor ↔ id.setWidth 16 = 0x0001 := by
    rw [← BitVec.toNat_inj, BitVec.toNat_setWidth]
    rfl
  rw [isPending, Bool.or_eq_true, decide_eq_true_iff, decide_eq_true_iff, low]
  rfl

theorem filterWorks_iff {id next : Word} :
    filterWorks id next = true ↔ id ≠ 0 ∧ ¬Pending id ∧ next = 0xFFFFFFFF := by
  rw [filterWorks, Bool.and_eq_true, Bool.and_eq_true, decide_eq_true_iff, decide_eq_true_iff,
    Bool.not_eq_true', ← Bool.not_eq_true, isPending_iff, and_assoc]
  rfl

/-! ## The polls -/

theorem polls_succ :
    p.polls ids (n + 1) = p.polls ids n ++ p.poll (ids (n + 1)) := by
  rw [polls, List.range_succ, List.flatMap_append, List.flatMap_singleton]
  rfl

/-- The same polls, from the first one on. -/
theorem polls_succ_left : p.polls ids (n + 1) = ⟨.read p.idRegister, ids 0⟩ ::
    ⟨.write p.idRegister 0xFFFFFFFF, ()⟩ :: ⟨.stall (.milliseconds 1), ()⟩ ::
      p.polls (fun k => ids (k + 1)) n := by
  rw [polls, List.range_succ_eq_map, List.flatMap_cons, List.flatMap_map]
  rfl

theorem accesses_polls : Path.accesses (p.polls ids n) = p.polls ids n := by
  induction n with
  | zero => rfl
  | succ n ih =>
    rw [polls_succ, accesses_append, ih]
    rfl

theorem writes_polls :
    Path.writes (p.polls ids n) = List.replicate n (p.idRegister, 0xFFFFFFFF) := by
  induction n with
  | zero => rfl
  | succ n ih =>
    rw [polls_succ, Path.writes_append, ih, List.replicate_succ']
    rfl

theorem stalled_polls : Path.stalled (p.polls ids n) = .milliseconds n := by
  induction n with
  | zero => rfl
  | succ n ih =>
    have one : Path.stalled (p.poll (ids (n + 1))) = .milliseconds 1 + 0 := rfl
    rw [polls_succ, Path.stalled_append, ih, one]
    exact (Nat.add_mul n 1 1000000).symm

theorem reads_polls : Path.reads (p.polls ids n) =
    (List.range (n + 1)).map fun k => (p.idRegister, ids k) := by
  induction n with
  | zero => rfl
  | succ n ih =>
    rw [polls_succ, Path.reads_append, ih, List.range_succ (n := n + 1), List.map_append]
    rfl

/-! ## The probe -/

/-- The polls go on up to the first answer, or to the last one they may make. -/
theorem pollId_polls {left made polled : Nat} {id last : Word}
    (h : Runs (p.pollId left made id) path (polled, last)) :
    ∃ ids n, ids 0 = id ∧ last = ids n ∧ ⟨.read p.idRegister, id⟩ :: path = p.polls ids n ∧
      n ≤ left ∧ (∀ k < n, Pending (ids k)) ∧ (n < left → ¬Pending (ids n)) := by
  induction left generalizing made id path with
  | zero =>
    obtain ⟨rfl, hr⟩ := runs_done.mp h
    cases hr
    exact ⟨fun _ => last, 0, rfl, rfl, rfl, Nat.le_refl 0, fun k hk => absurd hk (Nat.not_lt_zero k),
      fun hlt => absurd hlt (Nat.lt_irrefl 0)⟩
  | succ left ih =>
    unfold pollId at h
    split at h
    · rename_i hpending
      obtain ⟨_, rfl, h₁⟩ := runs_write_bind.mp h
      obtain ⟨_, rfl, h₂⟩ := runs_stall_bind.mp h₁
      obtain ⟨again, rest, rfl, h₃⟩ := runs_read_bind.mp h₂
      obtain ⟨ids, n, hfirst, rfl, hpath, hle, hbefore, hat⟩ := ih h₃
      -- the answers so far come after the one that was pending
      let all : Nat → Word := fun k => if k = 0 then id else ids (k - 1)
      have later : (fun k => all (k + 1)) = ids := rfl
      refine ⟨all, n + 1, rfl, rfl, ?_, Nat.succ_le_succ hle, ?_, fun hlt => ?_⟩
      · rw [polls_succ_left, later, ← hpath]
        rfl
      · intro k hk
        cases k with
        | zero => exact isPending_iff.mp hpending
        | succ k => exact hbefore k (Nat.lt_of_succ_lt_succ hk)
      · exact hat (Nat.lt_of_succ_lt_succ hlt)
    · rename_i hanswered
      obtain ⟨rfl, hr⟩ := runs_done.mp h
      cases hr
      exact ⟨fun _ => last, 0, rfl, rfl, rfl, Nat.zero_le _, fun k hk => absurd hk (Nat.not_lt_zero k),
        fun _ pending => hanswered (isPending_iff.mpr pending)⟩

theorem idRegister_eq : p.config ConfigHeader.deviceVendor = p.idRegister := rfl

theorem nextRegister_eq :
    p.config (ConfigHeader.offset 0 1 0 ConfigHeader.deviceVendor) = p.nextRegister := by
  have slot : ConfigHeader.offset 0 1 0 ConfigHeader.deviceVendor = 0x8000 := by decide
  rw [slot]
  rfl

theorem probeFilter_probes {works : Bool} (h : Runs p.probeFilter path works) :
    ∃ ids n next, p.Probes ids n next path works := by
  unfold probeFilter at h
  rw [nextRegister_eq, idRegister_eq] at h
  obtain ⟨id, _, rfl, h₁⟩ := runs_read_bind.mp h
  obtain ⟨⟨polled, last⟩, polling, _, hpolls, h₂, rfl⟩ := h₁.bind
  obtain ⟨next, _, rfl, h₃⟩ := runs_read_bind.mp h₂
  obtain ⟨_, rfl, h₄⟩ := runs_report_bind.mp h₃
  obtain ⟨rfl, rfl⟩ := runs_done.mp h₄
  obtain ⟨ids, n, -, rfl, hpath, hle, hbefore, hat⟩ := pollId_polls hpolls
  rw [← List.cons_append]
  rw [hpath]
  refine ⟨ids, n, next, ⟨Nat.zero_le n, ?_, ?_⟩, ?_, ?_, ?_, ?_, filterWorks_iff⟩
  · rcases Nat.lt_or_eq_of_le hle with hlt | rfl
    · exact .inl (hat hlt)
    · exact .inr (Nat.le_refl _)
  · intro k _ hk answered
    rcases answered with answered | late
    · exact answered (hbefore k hk)
    · exact Nat.lt_irrefl k (Nat.lt_of_lt_of_le (Nat.lt_of_lt_of_le hk hle) late)
  · rw [accesses_append, accesses_polls]
    rfl
  · rw [Path.writes_append, writes_polls]
    exact List.append_nil _
  · rw [Path.stalled_append, stalled_polls]
    exact Nat.add_zero _
  · rw [Path.reads_append, reads_polls]
    rfl

/-! ## Without the probe -/

/-- The registers in the blocks other than config space. -/
def bootRegisters (p : Port) : List Address :=
  p.controlRegisters ++ p.dbiRegisters ++ p.sharedRegisters

/-- A port is configured and trained, which leaves its config space alone: all accesses are to
registers in other blocks, and none is to the config window if no such register is in it. -/
structure Boots (p : Port) (report : ResetReport) (outcome : LinkOutcome)
    (path : List Exchange) : Prop where
  stages : ∃ event reset train, Runs p.configure reset report ∧ Runs p.train train outcome ∧
    path = ⟨.report event, ()⟩ :: (reset ++ train)
  touches : ∀ e ∈ path, e.command.Touches p.bootRegisters
  spares : (∀ a ∈ p.bootRegisters, a ∉ p.controller.configRange) →
    ∀ e ∈ path, ∀ a ∈ p.controller.configRange, ¬e.Accesses [a]

theorem control_boot : p.controlRegisters ⊆ p.bootRegisters := fun _ ha =>
  List.mem_append_left _ (List.mem_append_left _ ha)

theorem dbi_boot : p.dbiRegisters ⊆ p.bootRegisters := fun _ ha =>
  List.mem_append_left _ (List.mem_append_right _ ha)

theorem line_boot : p.lineRegisters ⊆ p.bootRegisters := fun _ ha =>
  List.mem_append_right _ (List.mem_append_left _ ha)

theorem msi_boot : p.msiRegisters ⊆ p.bootRegisters := fun _ ha =>
  List.mem_append_right _ (List.mem_append_right _ ha)

theorem searchRegisters_boot : p.searchRegisters ⊆ p.bootRegisters := by
  intro a ha
  simp only [searchRegisters, List.mem_append, List.mem_cons, List.not_mem_nil, or_false] at ha
  rcases ha with (ha | ha) | ha
  · refine control_boot ?_
    rcases ha with rfl | rfl | rfl <;> simp [controlRegisters]
  · exact dbi_boot (by simp [dbiRegisters, ha])
  · exact line_boot ha

theorem configure_within : p.configure.Within p.bootRegisters := by
  have ltssm (enable : Bool) := (setLtssm_within (p := p) enable).mono searchRegisters_boot
  have reset : [p.resetRegister] ⊆ p.bootRegisters := fun a ha =>
    control_boot (by simp_all [controlRegisters])
  have finished : p.doneRegisters ⊆ p.bootRegisters := fun a ha =>
    control_boot (by simp [controlRegisters, ha])
  have block {regs : List Address} (h : regs ⊆ p.dbiRegisters) : regs ⊆ p.bootRegisters :=
    List.Subset.trans h dbi_boot
  have phy : p.phyRegisters ⊆ p.dbiRegisters := fun a ha => by simp [dbiRegisters, ha]
  have identity : p.identityRegisters ⊆ p.dbiRegisters := fun a ha => by simp [dbiRegisters, ha]
  have unit : p.unitRegisters ⊆ p.dbiRegisters := fun a ha => by simp [dbiRegisters, ha]
  have link : p.linkRegisters ⊆ p.dbiRegisters := fun a ha => by simp [dbiRegisters, ha]
  exact (ltssm false).bind fun _ => (assertPerst_within.mono line_boot).bind fun _ =>
    (cycleReset_within.mono reset).bind fun _ =>
    (awaitResetDone_within.mono finished).bind fun _ =>
    (tunePhy_within.mono (block phy)).bind fun _ => (routeMsi_within.mono msi_boot).bind fun _ =>
    (describe_within.mono (block identity)).bind fun _ =>
    (deassertPerst_within.mono line_boot).bind fun _ =>
    ((programWindows_within (List.Subset.refl _)).mono (block unit)).bind fun _ =>
    ((setTargetSpeed_within _).mono (block link)).bind fun _ =>
    (ltssm true).bind fun _ => .bind (.report _) fun _ => .done _

theorem boots (event : Event) {report : ResetReport} {outcome : LinkOutcome}
    {reset train : List Exchange} (hreset : Runs p.configure reset report)
    (htrain : Runs p.train train outcome) :
    p.Boots report outcome (⟨.report event, ()⟩ :: (reset ++ train)) := by
  have touches : ∀ e ∈ (⟨.report event, ()⟩ :: (reset ++ train) : List Exchange),
      e.command.Touches p.bootRegisters := by
    refine List.forall_mem_cons.mpr ⟨trivial, List.forall_mem_append.mpr ⟨?_, ?_⟩⟩
    · exact configure_within _ _ hreset
    · exact (train_searches.mono searchRegisters_boot) _ _ htrain
  refine ⟨⟨event, reset, train, hreset, htrain, rfl⟩, touches, fun apart e he a ha hac => ?_⟩
  exact apart a (hac.mem (touches e he)) ha

end Port

theorem LinkOutcome.isUp_iff {outcome : LinkOutcome} : outcome.isUp = true ↔
    ∃ speed width elapsed recovered, outcome = .linkUp speed width elapsed recovered := by
  constructor
  · intro h
    cases outcome with
    | linkUp speed width elapsed recovered => exact ⟨speed, width, elapsed, recovered, rfl⟩
    | noPartner ltssm => cases h
    | timeout ltssm elapsed recovered => cases h
  · intro h
    obtain ⟨_, _, _, _, rfl⟩ := h
    rfl

/-- The part of a bring-up that is done for one port. The filter is probed after the rest, if and
only if training ended with a link. -/
inductive PortState.Comes (soc : Soc) (s : PortState) : List Exchange → Prop where
  | linked {boot probe : List Exchange} {speed width : Nat} {elapsed : Duration} {recovered : Bool}
      {ids : Nat → Word} {n : Nat} {next : Word}
      (outcome : s.outcome = .linkUp speed width elapsed recovered)
      (boots : Port.Boots ⟨soc, s.controller⟩ s.reset s.outcome boot)
      (probes : Port.Probes ⟨soc, s.controller⟩ ids n next probe s.filterWorks) :
      Comes soc s (boot ++ probe)
  | unlinked {boot : List Exchange}
      (outcome : ∀ speed width elapsed recovered, s.outcome ≠ .linkUp speed width elapsed recovered)
      (boots : Port.Boots ⟨soc, s.controller⟩ s.reset s.outcome boot)
      (unprobed : s.filterWorks = false) : Comes soc s boot

theorem PortState.bringUp_comes {soc : Soc} {s : PortState} {path : List Exchange}
    (h : Runs (PortState.bringUp soc s.controller) path s) : s.Comes soc path := by
  obtain ⟨event, reset, train, probe, hreset, htrain, hprobe, -, -, rfl⟩ := bringUp_stages h
  have boots := Port.boots event hreset htrain
  split at hprobe
  · rename_i up
    obtain ⟨speed, width, elapsed, recovered, linked⟩ := LinkOutcome.isUp_iff.mp up
    obtain ⟨ids, n, next, probes⟩ := Port.probeFilter_probes hprobe
    rw [← List.append_assoc, ← List.cons_append]
    exact .linked linked boots probes
  · rename_i down
    obtain ⟨rfl, unprobed⟩ := runs_done.mp hprobe
    rw [List.append_nil]
    refine .unlinked (fun speed width elapsed recovered linked => ?_) boots unprobed
    exact down (LinkOutcome.isUp_iff.mpr ⟨speed, width, elapsed, recovered, linked⟩)

/-- On every platform a bring-up probes the filter of exactly the ports whose link came up. A probe
waits for the first answer of a device, or for the last of a thousand polls, and no longer; the
other ports leave their config space alone. -/
theorem filter_probe_exact (t : Topology) {σ : Type} (platform : Platform σ) (s : σ) :
    ∃ parts : List (List Exchange), (Host.bringUp t).exchanges platform s = parts.flatten ∧
      ((Host.bringUp t).run platform s).1.ports.map (·.controller) = t.controllers ∧
      List.Forall₂ (PortState.Comes t.soc) ((Host.bringUp t).run platform s).1.ports parts := by
  obtain ⟨hports, -, -⟩ := Host.bringUp_ports (runs_exchanges platform (Host.bringUp t) s)
  obtain ⟨parts, hflat, hparts⟩ := Host.bringUpPorts_parts hports
  refine ⟨parts, hflat, Host.controllers_of_bringUpPorts hports, ?_⟩
  exact hparts.imp fun _ _ hpart => PortState.bringUp_comes hpart

end RootComplex
