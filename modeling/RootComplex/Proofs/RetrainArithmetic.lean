import Mathlib.Algebra.Order.Floor.Div
import RootComplex.Host

/-! # The counters of a retrain

A retrain counts the attempts at a link in a word, and adds the waits of an attempt up in a
duration, which has 64 bits for its seconds. `Host.retrain` counts without bound. Here a retrain is
done once more by checked steps, in the same order: a count that its counter cannot hold ends it
without a result. As long as no counter is too small for the policy, both are one program, and what
is shown of the one holds of the other. -/

namespace RootComplex

open Program

/-- The number of durations, from zero up. -/
def Duration.count : Nat := Address.count * 1000000000

namespace RetrainPolicy

/-- The intervals that the budget has, rounded up. -/
def intervals (policy : RetrainPolicy) : Nat := policy.budget ⌈/⌉ policy.pollInterval

/-- Every counter holds what it may have to: the number of the last attempt, and the waits of an
attempt that uses its budget up. -/
structure Counts (policy : RetrainPolicy) : Prop where
  attempts : policy.extraAttempts + 1 < Word.count
  waits : policy.intervals * policy.pollInterval < Duration.count

/-- The budget is used up before a counter is full. -/
def Expires (policy : RetrainPolicy) : Prop :=
  policy.budget = 0 ∨ 0 < policy.pollInterval ∧ policy.Counts

variable {policy : RetrainPolicy}

theorem Expires.counts (h : policy.Expires) : policy.budget = 0 ∨ policy.Counts :=
  h.imp_right And.right

theorem intervals_pos (hb : 0 < policy.budget) (hp : 0 < policy.pollInterval) :
    0 < policy.intervals := by
  rw [intervals, Nat.ceilDiv_eq_add_pred_div]
  exact Nat.div_pos (Nat.le_sub_one_of_lt (Nat.lt_add_of_pos_left hb)) hp

/-- The last interval is the only one that may end after the budget. -/
theorem intervals_mul_lt (h : 0 < policy.pollInterval) :
    policy.intervals * policy.pollInterval < policy.budget + policy.pollInterval := by
  rw [intervals, Nat.ceilDiv_eq_add_pred_div]
  exact Nat.lt_of_le_of_lt (Nat.div_mul_le_self _ _)
    (Nat.sub_lt (Nat.add_pos_right _ h) Nat.one_pos)

theorem polls_eq (h : 0 < policy.pollInterval) (patience : Nat) :
    policy.polls patience = policy.intervals := by
  rw [polls, if_neg (Nat.ne_of_gt h), intervals, Nat.ceilDiv_eq_add_pred_div]

/-- Without an interval no wait adds anything, however many there are. -/
theorem Counts.waits_polls (h : policy.Counts) (patience : Nat) :
    policy.polls patience * policy.pollInterval < Duration.count := by
  rcases Nat.eq_zero_or_pos policy.pollInterval with hz | hp
  · rw [hz, Nat.mul_zero]
    exact Nat.lt_of_le_of_lt (Nat.zero_le _) h.waits
  · rw [polls_eq hp]
    exact h.waits

end RetrainPolicy

/-! ## The steps -/

namespace Port

/-- As `awaitRetrained`, with a sum of waits that must be a duration. -/
def checkedAwait (p : Port) (policy : RetrainPolicy) :
    Nat → Duration → Ltssm → Program (Option (Except RetrainFailure Nat))
  | 0, waited, ltssm =>
    if waited < policy.budget then pure none else pure (some (.error (.timedOut ltssm)))
  | polls + 1, waited, ltssm =>
    if waited < policy.budget then do
      Program.stall policy.pollInterval
      if waited + policy.pollInterval < Duration.count then
        let debug ← p.linkDebug
        let status ← p.linkStatus
        if !LinkStatus.dataLinkLayerLinkActive.test status then
          pure (some (.error (.lost (LinkDebug.state debug))))
        else if LinkDebug.isUp debug && !LinkStatus.linkTraining.test status then
          pure (some (.ok (LinkStatus.currentLinkSpeed.get status)))
        else checkedAwait p policy polls (waited + policy.pollInterval) (LinkDebug.state debug)
      else pure none
    else pure (some (.error (.timedOut ltssm)))

def checkedOnce (p : Port) (policy : RetrainPolicy) (patience : Nat) :
    Program (Option (Except RetrainFailure Nat)) := do
  p.requestRetrain
  let debug ← p.linkDebug
  p.checkedAwait policy (policy.polls patience) 0 (LinkDebug.state debug)

/-- As `attemptRetrain`, with a number of attempts that must be a word. -/
def checkedAttempt (p : Port) (policy : RetrainPolicy) (patience before target : Nat) :
    Nat → Nat → Program (Option RetrainOutcome)
  | extra, made =>
    if made + 1 < Word.count then do
      match ← p.checkedOnce policy patience with
      | none => pure none
      | some (.error failure) => p.retrainFailed target (made + 1) failure
      | some (.ok speed) =>
        if speed < target then
          match extra with
          | 0 => p.reportRetrained before speed target (made + 1)
          | extra + 1 =>
            Program.report ⟨.info, "link retrained below target, retrying",
              [p.label, ("speed", toString speed), ("target", toString target)]⟩
            Program.stall policy.settle
            checkedAttempt p policy patience before target extra (made + 1)
        else p.reportRetrained before speed target (made + 1)
    else pure none

def checkedRetrain (p : Port) (policy : RetrainPolicy) (patience : Nat) :
    Program (Option RetrainOutcome) :=
  p.retrainWith fun speed target =>
    p.checkedAttempt policy patience speed target policy.extraAttempts 0

end Port

def Host.checkedRetrain (h : Host) (policy : RetrainPolicy) (patience : Nat) :
    Program (Option (Host × List RetrainReport)) :=
  h.retrainWith (·.checkedRetrain policy patience)

/-! ## What the steps come to -/

namespace Port

variable {p : Port} {policy : RetrainPolicy} {patience : Nat}

theorem checkedAwait_eq {polls : Nat} {waited : Duration} {ltssm : Ltssm}
    (h : waited + polls * policy.pollInterval < Duration.count) :
    p.checkedAwait policy polls waited ltssm = p.awaitRetrained policy polls waited ltssm := by
  induction polls generalizing waited ltssm with
  | zero => rfl
  | succ polls ih =>
    rw [Nat.succ_mul, Nat.add_comm (polls * policy.pollInterval), ← Nat.add_assoc] at h
    have fits : waited + policy.pollInterval < Duration.count :=
      Nat.lt_of_le_of_lt (Nat.le_add_right _ _) h
    unfold checkedAwait awaitRetrained
    simp only [fits, if_true, ih h]

theorem checkedOnce_eq (h : policy.Counts) :
    p.checkedOnce policy patience = p.retrainOnce policy patience := by
  have await (ltssm : Ltssm) :
      p.checkedAwait policy (policy.polls patience) 0 ltssm =
        p.awaitRetrained policy (policy.polls patience) 0 ltssm := by
    apply checkedAwait_eq
    rw [Nat.zero_add]
    exact h.waits_polls patience
  unfold checkedOnce retrainOnce
  simp only [await]

/-- The induction is on the further attempts, of which fewer are left as more were made. -/
theorem checkedAttempt_eq (h : policy.Counts) {before target extra made : Nat}
    (hmade : made + extra + 1 < Word.count) :
    p.checkedAttempt policy patience before target extra made =
      p.attemptRetrain policy patience before target extra made := by
  induction extra generalizing made with
  | zero =>
    unfold checkedAttempt attemptRetrain
    rw [if_pos hmade]
    exact congrArg (· >>= _) (checkedOnce_eq h)
  | succ extra ih =>
    have fits : made + 1 < Word.count := by omega
    have left : made + 1 + extra + 1 < Word.count := by omega
    have later := ih left
    unfold checkedAttempt attemptRetrain
    rw [if_pos fits]
    simp only [later]
    exact congrArg (· >>= _) (checkedOnce_eq h)

/-! A policy without a budget needs no counter: its first attempt fails before the first wait. -/

theorem awaitRetrained_spent (hb : policy.budget = 0) (polls : Nat) (ltssm : Ltssm) :
    p.awaitRetrained policy polls 0 ltssm = pure (some (.error (.timedOut ltssm))) := by
  have spent : ¬0 < policy.budget := by simp [hb]
  cases polls <;> simp only [awaitRetrained, spent, if_false]

theorem checkedAwait_spent (hb : policy.budget = 0) (polls : Nat) (ltssm : Ltssm) :
    p.checkedAwait policy polls 0 ltssm = pure (some (.error (.timedOut ltssm))) := by
  have spent : ¬0 < policy.budget := by simp [hb]
  cases polls <;> simp only [checkedAwait, spent, if_false]

/-- The one attempt at a link that has no time to retrain. -/
def attemptSpent (p : Port) (target made : Nat) : Program (Option RetrainOutcome) := do
  p.requestRetrain
  let debug ← p.linkDebug
  p.retrainFailed target (made + 1) (.timedOut (LinkDebug.state debug))

theorem attemptRetrain_spent (hb : policy.budget = 0) (before target extra made : Nat) :
    p.attemptRetrain policy patience before target extra made = p.attemptSpent target made := by
  unfold attemptRetrain
  simp only [retrainOnce, awaitRetrained_spent hb, bind_assoc, pure_bind, attemptSpent]

theorem checkedAttempt_spent (hb : policy.budget = 0) (before target extra : Nat) {made : Nat}
    (hmade : made + 1 < Word.count) :
    p.checkedAttempt policy patience before target extra made = p.attemptSpent target made := by
  unfold checkedAttempt
  rw [if_pos hmade]
  simp only [checkedOnce, checkedAwait_spent hb, bind_assoc, pure_bind, attemptSpent]

theorem checkedRetrain_eq (h : policy.budget = 0 ∨ policy.Counts) :
    p.checkedRetrain policy patience = p.retrain policy patience := by
  unfold checkedRetrain retrain
  congr 1
  funext before target
  rcases h with hb | hc
  · rw [checkedAttempt_spent hb _ _ _ (by decide), attemptRetrain_spent hb]
  · refine checkedAttempt_eq hc ?_
    rw [Nat.zero_add]
    exact hc.attempts

end Port

namespace Host

variable {policy : RetrainPolicy}

/-- With a policy that no counter is too small for, checked steps make no difference. -/
theorem checkedRetrain_eq (h : policy.budget = 0 ∨ policy.Counts) (host : Host) (patience : Nat) :
    host.checkedRetrain policy patience = host.retrain policy patience := by
  unfold checkedRetrain retrain
  simp only [Port.checkedRetrain_eq h]

/-- Nor do they on a chip that does not retrain, and on one without ports. -/
theorem checkedRetrain_idle {host : Host} (h : host.soc.retrains = false ∨ host.ports = [])
    (policy : RetrainPolicy) (patience : Nat) :
    host.checkedRetrain policy patience = host.retrain policy patience := by
  unfold checkedRetrain retrain retrainWith
  rcases h with hr | hports
  · rw [hr]
    rfl
  · rw [hports]
    rfl

end Host

end RootComplex
