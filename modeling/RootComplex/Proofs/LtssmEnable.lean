import RootComplex.Proofs.Footprint
import RootComplex.Proofs.Stages

/-! # The LTSSM enable bit

Training of a link is enabled by one bit of its port's LTSSM control register. Of each stage
of bring-up and retraining this module says what it leaves of that bit; no stage changes any
other bit of the register. -/

namespace RootComplex

open Program

/-- The link went down during the retrain, or never came back. -/
def RetrainOutcome.isFailure : RetrainOutcome → Bool
  | linkLost .. => true
  | timedOut .. => true
  | _ => false

namespace Port

/-! ## What a path leaves of the enable bit -/

/-- The enable bit of the last value that a path wrote to the LTSSM control register. -/
def enabledAfter? (p : Port) (path : List Exchange) : Option Bool :=
  (Path.lastWrite? p.ltssmRegister path).map fun v => v &&& p.soc.control.ltssmEnable != 0

/-- Two contents of the LTSSM control register that differ in the enable bit at most. -/
def SameButEnable (p : Port) (old new : Word) : Prop :=
  new &&& ~~~p.soc.control.ltssmEnable = old &&& ~~~p.soc.control.ltssmEnable

/-- The path leaves the enable bit as told, or does not write it, and every write to its
register changes no other bit of the value just read. -/
structure Leaves (p : Port) (enabled : Option Bool) (path : List Exchange) : Prop where
  last : p.enabledAfter? path = enabled
  only : Path.Modifies p.ltssmRegister p.SameButEnable path

/-- A path that in addition keeps to the registers of its port. -/
structure Stage (p : Port) (enabled : Option Bool) (path : List Exchange) : Prop
    extends p.Leaves enabled path where
  within : ∀ e ∈ path, e.command.Touches p.registers

/-- The LTSSM control register is none of the others that the port uses. -/
structure Isolated (p : Port) : Prop where
  enable : p.soc.control.ltssmEnable ≠ 0
  apart : p.ltssmRegister ∉ p.quietRegisters

variable {p : Port} {path front back : List Exchange} {before after : Option Bool}

theorem Leaves.append (hf : p.Leaves before front) (hb : p.Leaves after back) :
    p.Leaves (after.or before) (front ++ back) where
  last := by
    rw [← hf.last, ← hb.last]
    unfold enabledAfter?
    rw [Path.lastWrite?_append, Option.map_or]
  only := hf.only.append hb.only

theorem Leaves.of_touches {regs : List Address} (h : ∀ e ∈ path, e.command.Touches regs)
    (ha : p.ltssmRegister ∉ regs) : p.Leaves none path := by
  have hw := Path.writesTo_of_touches h ha
  refine ⟨?_, .of_writesTo hw⟩
  rw [enabledAfter?, Path.lastWrite?, hw]
  rfl

theorem Stage.append (hf : p.Stage before front) (hb : p.Stage after back) :
    p.Stage (after.or before) (front ++ back) where
  toLeaves := hf.toLeaves.append hb.toLeaves
  within e he := (List.mem_append.mp he).elim (hf.within e) (hb.within e)

theorem Stage.nil : p.Stage none [] := by
  have h : ∀ e ∈ ([] : List Exchange), e.command.Touches [] := by simp
  exact ⟨.of_touches h List.not_mem_nil, by simp⟩

/-- A command without a register changes nothing. -/
theorem Stage.cons {c : Command} {answer : c.Answer} (hc : c.Touches [])
    (h : p.Stage after path) : p.Stage after (⟨c, answer⟩ :: path) := by
  have idle : ∀ e ∈ [(⟨c, answer⟩ : Exchange)], e.command.Touches [] := by
    intro e he
    rw [List.mem_singleton.mp he]
    exact hc
  have first : p.Stage none [⟨c, answer⟩] :=
    ⟨.of_touches idle List.not_mem_nil, fun e he => (idle e he).mono (List.nil_subset _)⟩
  simpa using first.append h

theorem Stage.report_cons {e : Event} (h : p.Stage after path) :
    p.Stage after (⟨.report e, ()⟩ :: path) :=
  h.cons (c := .report e) trivial

theorem Stage.stall_cons {t : Duration} (h : p.Stage after path) :
    p.Stage after (⟨.stall t, ()⟩ :: path) :=
  h.cons (c := .stall t) trivial

/-- A program that is quiet leaves the bit alone. -/
theorem Isolated.quiet {α : Type} {q : Program α} {a : α} (hi : p.Isolated)
    (hq : q.Within p.quietRegisters) (h : Runs q path a) : p.Stage none path :=
  ⟨.of_touches (hq path a h) hi.apart, fun e he =>
    (hq path a h e he).mono (List.subset_cons_self _ _)⟩

theorem ltssmWord_enabled (hi : p.Isolated) (enable : Bool) (v : Word) :
    (p.ltssmWord enable v &&& p.soc.control.ltssmEnable != 0) = enable := by
  have hm := hi.enable
  unfold ltssmWord
  generalize p.soc.control.ltssmEnable = m at hm ⊢
  cases enable with
  | true =>
    have hset : (v ||| m) &&& m = m := by
      ext i h
      grind
    rw [if_pos rfl, hset]
    exact bne_iff_ne.mpr hm
  | false =>
    rw [if_neg Bool.false_ne_true, BitVec.and_assoc]
    simp

theorem ltssmWord_same (enable : Bool) (v : Word) : p.SameButEnable v (p.ltssmWord enable v) := by
  unfold SameButEnable ltssmWord
  generalize p.soc.control.ltssmEnable = m
  ext i h
  cases enable <;> grind

theorem Isolated.setLtssm (hi : p.Isolated) {enable : Bool} {u : Unit}
    (h : Runs (p.setLtssm enable) path u) : p.Stage (some enable) path := by
  obtain ⟨v, rfl⟩ := runs_modify.mp h
  refine ⟨⟨?_, .modify (ltssmWord_same enable v)⟩, ?_⟩
  · have hv := ltssmWord_enabled hi enable v
    simpa [enabledAfter?, Path.lastWrite?, Path.writesTo, Exchange.writeTo?, ltssmRegister] using hv
  · exact Within.modify _ List.mem_cons_self _ u h

/-! ## Bring-up of one port -/

theorem Isolated.linkDebug (hi : p.Isolated) {debug : Word} (h : Runs p.linkDebug path debug) :
    p.Stage none path :=
  hi.quiet (linkDebug_within.quiet (by simp [quietGroups])) h

theorem Isolated.linkStatus (hi : p.Isolated) {status : BitVec 16}
    (h : Runs p.linkStatus path status) : p.Stage none path :=
  hi.quiet (linkStatus_within.quiet (by simp [quietGroups])) h

theorem Isolated.watch (hi : p.Isolated) {found : Word → Bool} {left : Nat} {s t : Sighting}
    (h : Runs (p.watch found left s) path t) : p.Stage none path :=
  hi.quiet ((watch_within found left s).quiet (by simp [quietGroups])) h

/-- Configuration ends with the LTSSM enabled. -/
theorem Isolated.configure (hi : p.Isolated) {report : ResetReport}
    (h : Runs p.configure path report) : p.Stage (some true) path := by
  obtain ⟨off, assert, cycle, wait, phy, msi, describe, release, windows, speed, on, event, hoff,
    hassert, hcycle, hwait, hphy, hmsi, hdescribe, hrelease, hwindows, hspeed, hon, rfl⟩ :=
    configure_stages h
  have assert := hi.quiet assertPerst_within.quiet_of_line hassert
  have cycle := hi.quiet (cycleReset_within.quiet (by simp [quietGroups])) hcycle
  have wait := hi.quiet (awaitResetDone_within.quiet (by simp [quietGroups])) hwait
  have phy := hi.quiet (tunePhy_within.quiet (by simp [quietGroups])) hphy
  have msi := hi.quiet routeMsi_within.quiet_of_msi hmsi
  have describe := hi.quiet (describe_within.quiet (by simp [quietGroups])) hdescribe
  have release := hi.quiet deassertPerst_within.quiet_of_line hrelease
  have windows := hi.quiet
    ((programWindows_within (List.Subset.refl _)).quiet (by simp [quietGroups])) hwindows
  have speed := hi.quiet ((setTargetSpeed_within _).quiet (by simp [quietGroups])) hspeed
  have on := hi.setLtssm hon
  exact (hi.setLtssm hoff).append (assert.append (cycle.append (wait.append (phy.append
    (msi.append (describe.append (release.append (windows.append (speed.append
      (on.append Stage.nil.report_cons))))))))))

theorem Isolated.pulseReset (hi : p.Isolated) {u : Unit} (h : Runs p.pulseReset path u) :
    p.Stage (some true) path := by
  obtain ⟨off, assert, set, clear, release, on, hoff, hassert, hset, hclear, hrelease, hon, rfl⟩ :=
    pulseReset_stages h
  have reset (f : Word → Word) : (modify p.resetRegister f).Within p.quietRegisters := by
    have own : (modify p.resetRegister f).Within [p.resetRegister] := .modify f List.mem_cons_self
    exact own.quiet (by simp [quietGroups])
  have assert := hi.quiet assertPerst_within.quiet_of_line hassert
  have release := hi.quiet deassertPerst_within.quiet_of_line hrelease
  have pulsed := (hi.quiet (reset _) hclear).append (release.append (hi.setLtssm hon))
  have held := hi.quiet (reset _) hset
  exact (hi.setLtssm hoff).append (assert.append (held.append pulsed.stall_cons))

/-- The last look decides whether the LTSSM stays enabled. -/
theorem Isolated.conclude (hi : p.Isolated) {s : Sighting} {recovered : Bool}
    {outcome : LinkOutcome} (h : Runs (p.conclude s recovered) path outcome) :
    p.Stage (if outcome.isUp then none else some false) path := by
  unfold Port.conclude at h
  split at h
  · obtain ⟨status, front, back, hstatus, h₁, rfl⟩ := h.bind
    obtain ⟨_, rfl, h₂⟩ := runs_report_bind.mp h₁
    obtain ⟨rfl, rfl⟩ := runs_done.mp h₂
    exact (hi.linkStatus hstatus).append Stage.nil.report_cons
  · obtain ⟨_, off, back, hoff, h₁, rfl⟩ := h.bind
    obtain ⟨_, rfl, h₂⟩ := runs_report_bind.mp h₁
    obtain ⟨rfl, rfl⟩ := runs_done.mp h₂
    exact (hi.setLtssm hoff).append Stage.nil.report_cons

/-- A recovery enables the LTSSM first, so training that recovers writes the bit in any
case. -/
theorem Isolated.recover (hi : p.Isolated) {s : Sighting} {outcome : LinkOutcome}
    (h : Runs (p.recover s) path outcome) : p.Stage (some outcome.isUp) path := by
  obtain ⟨_, rfl, h₁⟩ := runs_report_bind.mp h
  obtain ⟨_, pulse, _, hpulse, h₂, rfl⟩ := h₁.bind
  obtain ⟨debug, look, _, hlook, h₃, rfl⟩ := h₂.bind
  obtain ⟨t, watched, last, hwatched, hlast, rfl⟩ := h₃.bind
  have stages := (hi.pulseReset hpulse).append
    ((hi.linkDebug hlook).append ((hi.watch hwatched).append (hi.conclude hlast)))
  refine Stage.report_cons ?_
  cases hu : outcome.isUp <;> rw [hu] at stages <;> exact stages

/-- Training that begins with the LTSSM enabled ends with it enabled exactly if the link is
up. -/
theorem Isolated.train (hi : p.Isolated) {outcome : LinkOutcome}
    (h : Runs p.train path outcome) :
    ∃ enabled, p.Stage enabled path ∧ enabled.or (some true) = some outcome.isUp := by
  obtain ⟨debug, look, _, hlook, h₁, rfl⟩ := h.bind
  obtain ⟨s, watched, _, hwatched, h₂, rfl⟩ := h₁.bind
  have start := (hi.linkDebug hlook).append (hi.watch hwatched)
  rw [← List.append_assoc]
  split at h₂
  · obtain ⟨_, rfl, h₃⟩ := runs_report_bind.mp h₂
    obtain ⟨t, again, _, hagain, h₄, rfl⟩ := h₃.bind
    split at h₄
    · have rest := (hi.watch hagain).append (hi.recover h₄)
      exact ⟨_, start.append rest.report_cons, rfl⟩
    · have rest := (hi.watch hagain).append (hi.conclude h₄)
      refine ⟨_, start.append rest.report_cons, ?_⟩
      cases outcome.isUp <;> rfl
  · obtain ⟨_, off, _, hoff, h₃, rfl⟩ := h₂.bind
    obtain ⟨_, rfl, h₄⟩ := runs_report_bind.mp h₃
    obtain ⟨rfl, rfl⟩ := runs_done.mp h₄
    exact ⟨_, start.append ((hi.setLtssm hoff).append Stage.nil.report_cons), rfl⟩

theorem Isolated.bringUp {soc : Soc} {c : Controller} (hi : Isolated ⟨soc, c⟩) {s : PortState}
    (h : Runs (PortState.bringUp soc c) path s) :
    Stage ⟨soc, c⟩ (some s.outcome.isUp) path := by
  obtain ⟨event, reset, train, probe, hreset, htrain, hprobe, -, -, rfl⟩ :=
    PortState.bringUp_stages h
  obtain ⟨enabled, trained, he⟩ := hi.train htrain
  have probed : Stage ⟨soc, c⟩ none probe := by
    split at hprobe
    · exact hi.quiet (probeFilter_within.quiet (by simp [quietGroups])) hprobe
    · obtain ⟨rfl, -⟩ := runs_done.mp hprobe
      exact Stage.nil
  have stages := ((hi.configure hreset).append (trained.append probed)).report_cons (e := event)
  rwa [Option.none_or, he] at stages

/-! ## Retraining of one port -/

/-- Enough polls use up the budget of an attempt. -/
theorem awaitRetrained_some {policy : RetrainPolicy} {polls : Nat} {waited : Duration}
    {ltssm : Ltssm} {result : Option (Except RetrainFailure Nat)}
    (hb : policy.budget ≤ waited + polls * policy.pollInterval)
    (h : Runs (p.awaitRetrained policy polls waited ltssm) path result) :
    ∃ r, result = some r := by
  induction polls generalizing path waited ltssm with
  | zero =>
    rw [Nat.zero_mul, Nat.add_zero] at hb
    unfold awaitRetrained at h
    rw [if_neg (Nat.not_lt.mpr hb)] at h
    exact ⟨_, (runs_done.mp h).2⟩
  | succ polls ih =>
    unfold awaitRetrained at h
    split at h
    · obtain ⟨_, rfl, h₁⟩ := runs_stall_bind.mp h
      obtain ⟨debug, _, _, -, h₂, rfl⟩ := h₁.bind
      obtain ⟨status, _, _, -, h₃, rfl⟩ := h₂.bind
      split at h₃
      · exact ⟨_, (runs_done.mp h₃).2⟩
      · split at h₃
        · exact ⟨_, (runs_done.mp h₃).2⟩
        · refine ih ?_ h₃
          rwa [Nat.succ_mul, Nat.add_comm (polls * policy.pollInterval), ← Nat.add_assoc] at hb
    · exact ⟨_, (runs_done.mp h).2⟩

theorem budget_le_polls {policy : RetrainPolicy} (hp : 0 < policy.pollInterval) (patience : Nat) :
    policy.budget ≤ policy.polls patience * policy.pollInterval := by
  have ceil (a b : Nat) (hb : 0 < b) : a ≤ (a + b - 1) / b * b := by
    have hdiv := Nat.div_add_mod (a + b - 1) b
    have hmod := Nat.mod_lt (a + b - 1) hb
    rw [Nat.mul_comm]
    omega
  rw [RetrainPolicy.polls, if_neg (Nat.ne_of_gt hp)]
  exact ceil _ _ hp

theorem retrainOnce_some {policy : RetrainPolicy} {patience : Nat}
    {result : Option (Except RetrainFailure Nat)} (hp : 0 < policy.pollInterval)
    (h : Runs (p.retrainOnce policy patience) path result) : ∃ r, result = some r := by
  obtain ⟨_, _, _, -, h₁, rfl⟩ := h.bind
  obtain ⟨debug, _, _, -, h₂, rfl⟩ := h₁.bind
  refine awaitRetrained_some ?_ h₂
  rw [Nat.zero_add]
  exact budget_le_polls hp patience

/-- What a retrain leaves of the enable bit. -/
def ending (outcome : RetrainOutcome) : Option Bool :=
  if outcome.isFailure then some false else none

/-- Every path of the program ends with an outcome and leaves the bit as it demands. -/
def Concludes (p : Port) (q : Program (Option RetrainOutcome)) : Prop :=
  ∀ path result, Runs q path result →
    ∃ outcome, result = some outcome ∧ p.Stage (ending outcome) path

theorem Concludes.done (outcome : RetrainOutcome) (h : outcome.isFailure = false) :
    p.Concludes (done (some outcome)) := by
  intro path result hr
  obtain ⟨rfl, rfl⟩ := runs_done.mp hr
  refine ⟨outcome, rfl, ?_⟩
  rw [ending, h]
  exact Stage.nil

/-- A quiet program may come first. -/
theorem Isolated.concludes {α : Type} {q : Program α} {f : α → Program (Option RetrainOutcome)}
    (hi : p.Isolated) (hq : q.Within p.quietRegisters)
    (hf : ∀ a path, Runs q path a → p.Concludes (f a)) : p.Concludes (q >>= f) := by
  intro path result h
  obtain ⟨a, front, back, hfront, hback, rfl⟩ := h.bind
  obtain ⟨outcome, rfl, stage⟩ := hf a front hfront back result hback
  have stages := (hi.quiet hq hfront).append stage
  rw [Option.or_none] at stages
  exact ⟨outcome, rfl, stages⟩

theorem Isolated.reportRetrained (hi : p.Isolated) (before after target attempts : Nat) :
    p.Concludes (p.reportRetrained before after target attempts) :=
  hi.concludes (.report _) fun _ _ _ => .done _ rfl

theorem Isolated.retrainFailed (hi : p.Isolated) (target attempts : Nat)
    (failure : RetrainFailure) : p.Concludes (p.retrainFailed target attempts failure) := by
  intro path result h
  obtain ⟨_, off, _, hoff, h₁, rfl⟩ := h.bind
  obtain ⟨_, rfl, h₂⟩ := runs_report_bind.mp h₁
  obtain ⟨rfl, rfl⟩ := runs_done.mp h₂
  have failed : (failure.outcome attempts).isFailure = true := by cases failure <;> rfl
  refine ⟨_, rfl, ?_⟩
  rw [ending, failed]
  exact (hi.setLtssm hoff).append Stage.nil.report_cons

/-- One attempt: if it fails the retrain ends with it. -/
theorem Isolated.attempt (hi : p.Isolated) {policy : RetrainPolicy} (hp : 0 < policy.pollInterval)
    {patience target attempts : Nat} {next : Nat → Program (Option RetrainOutcome)}
    (hn : ∀ speed, p.Concludes (next speed)) :
    p.Concludes (do
      match ← p.retrainOnce policy patience with
      | none => pure none
      | some (.error failure) => p.retrainFailed target attempts failure
      | some (.ok speed) => next speed) := by
  have quiet := (retrainOnce_within (p := p) policy patience).mono attemptRegisters_quiet
  refine hi.concludes quiet fun r path h => ?_
  obtain ⟨r, rfl⟩ := retrainOnce_some hp h
  cases r with
  | error failure => exact hi.retrainFailed target attempts failure
  | ok speed => exact hn speed

/-- However many attempts are made, only a failed one writes the bit, and it is the last. -/
theorem Isolated.attemptRetrain (hi : p.Isolated) {policy : RetrainPolicy}
    (hp : 0 < policy.pollInterval) (patience before target extra made : Nat) :
    p.Concludes (p.attemptRetrain policy patience before target extra made) := by
  induction extra generalizing made with
  | zero =>
    unfold Port.attemptRetrain
    refine hi.attempt hp fun speed => ?_
    split <;> exact hi.reportRetrained _ _ _ _
  | succ extra ih =>
    unfold Port.attemptRetrain
    refine hi.attempt hp fun speed => ?_
    split
    · exact hi.concludes (.report _) fun _ _ _ => hi.concludes (.stall _) fun _ _ _ => ih _
    · exact hi.reportRetrained _ _ _ _

theorem Isolated.retrain (hi : p.Isolated) (hr : p.soc.retrains = true) {policy : RetrainPolicy}
    (hp : 0 < policy.pollInterval) (patience : Nat) :
    p.Concludes (p.retrain policy patience) := by
  refine hi.concludes ((find_within hr _).quiet (by simp [quietGroups])) fun found path h => ?_
  cases found with
  | none => exact hi.concludes (.report _) fun _ _ _ => .done _ rfl
  | some capability =>
    have hlink := readLink_within hr (Capability.isHeader_of_find h)
    refine hi.concludes (hlink.quiet (by simp [quietGroups])) fun link _ _ => ?_
    refine hi.concludes (linkStatus_within.quiet (by simp [quietGroups])) fun status _ _ => ?_
    dsimp only
    split
    · exact hi.concludes (.report _) fun _ _ _ => .done _ rfl
    · exact hi.concludes ((setTargetSpeed_within _).quiet (by simp [quietGroups])) fun _ _ _ =>
        hi.attemptRetrain hp patience _ _ _ _

end Port

end RootComplex
