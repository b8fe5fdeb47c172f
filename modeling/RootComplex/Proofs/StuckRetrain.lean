import RootComplex.Platform
import RootComplex.Proofs.RetrainArithmetic

/-! # Links that do not get done

Each way in which a policy fails to expire has a link that keeps it from ever giving a result.
Without an interval a link in training is polled for ever; with one, if the waits of an attempt are
no duration, the same link is polled until their sum overflows. A link that is back at the first
poll, and always below its target, is retrained until the number of attempts is no word: a counter
that starts anew there would let it be retrained for ever. Both links are found to be up, with a
capability list whose first entry is the one for links, and differ only in what is read of them
once they are asked to retrain. -/

namespace RootComplex

open Program

/-- Answers the reads one after another, whatever is read. -/
def Platform.reading (reads : Nat → Word) : Platform Nat where
  answer
    | .read _, n => (reads n, n + 1)
    | .write _ _, n => ((), n)
    | .barrier, n => ((), n)
    | .stall _, n => ((), n)
    | .listens _, n => (true, n)
    | .report _, n => ((), n)

/-- A link that is up and at no speed, with a fast device behind it, and then the same ever
after. -/
def slowReads (later : Word) : Nat → Word
  | 0 => 0xD1
  | 1 => 0x10
  | 2 => 0xF
  | 3 => 0
  | _ => later

/-- The link is in training. -/
def hungReads : Nat → Word := slowReads 0x28000000

/-- The link is back, and still at no speed. -/
def laggingReads : Nat → Word := slowReads 0x200000D1

theorem slowReads_of_le (later : Word) {n : Nat} (h : 4 ≤ n) : slowReads later n = later := by
  obtain ⟨k, rfl⟩ := Nat.exists_eq_add_of_le' h
  rfl

namespace Port

variable {p : Port} {policy : RetrainPolicy} {patience polls n : Nat} {waited : Duration}
  {ltssm : Ltssm}

section Reading

variable (reads : Nat → Word)

theorem run_stall_reading (t : Duration) : (Program.stall t).run (.reading reads) n = ((), n) := rfl

theorem run_read_reading (a : Address) :
    (Program.read a).run (.reading reads) n = (reads n, n + 1) := rfl

theorem run_modify_reading (a : Address) (f : Word → Word) :
    (Program.modify a f).run (.reading reads) n = ((), n + 1) := rfl

theorem run_linkDebug_reading : p.linkDebug.run (.reading reads) n = (reads n, n + 1) := rfl

theorem run_linkStatus_reading :
    p.linkStatus.run (.reading reads) n = (Word.status (reads n), n + 1) := rfl

end Reading

/-! ## A link that hangs -/

/-- A poll decides nothing. -/
theorem checkedAwait_hung_succ (left : waited < policy.budget)
    (fits : waited + policy.pollInterval < Duration.count) (hn : 4 ≤ n) :
    (p.checkedAwait policy (polls + 1) waited ltssm).run (.reading hungReads) n =
      (p.checkedAwait policy polls (waited + policy.pollInterval)
        (LinkDebug.state 0x28000000)).run (.reading hungReads) (n + 2) := by
  have down : LinkDebug.isUp 0x28000000 = false := by decide
  have active : LinkStatus.dataLinkLayerLinkActive.test (Word.status 0x28000000) = true := by
    decide
  have debug : hungReads n = 0x28000000 := slowReads_of_le _ hn
  have status : hungReads (n + 1) = 0x28000000 := slowReads_of_le _ (Nat.le_succ_of_le hn)
  rw [checkedAwait, if_pos left, run_bind, run_stall_reading]
  dsimp only
  rw [if_pos fits, run_bind, run_linkDebug_reading, run_bind, run_linkStatus_reading, debug, status]
  simp only [down, active, Bool.not_true, Bool.false_and, Bool.false_eq_true, if_false]

/-- Without an interval no poll uses any of the budget. -/
theorem checkedAwait_hung (hz : policy.pollInterval = 0) (hb : 0 < policy.budget) (polls : Nat)
    (ltssm : Ltssm) (hn : 4 ≤ n) :
    (p.checkedAwait policy polls 0 ltssm).run (.reading hungReads) n = (none, n + 2 * polls) := by
  induction polls generalizing n ltssm with
  | zero =>
    rw [checkedAwait, if_pos hb]
    rfl
  | succ polls ih =>
    have fits : 0 + policy.pollInterval < Duration.count := by
      rw [hz]
      decide
    rw [checkedAwait_hung_succ hb fits hn, hz, ih _ (by omega)]
    congr 1
    omega

/-- The induction is on the polls that are left: before each there is budget left, and after the
last one the waits would be no duration. -/
theorem checkedAwait_overflows (left : waited + polls * policy.pollInterval <
      policy.budget + policy.pollInterval) (hw : waited < Duration.count)
    (beyond : Duration.count ≤ waited + polls * policy.pollInterval) (hn : 4 ≤ n) :
    ∃ m, (p.checkedAwait policy polls waited ltssm).run (.reading hungReads) n = (none, m) := by
  induction polls generalizing n waited ltssm with
  | zero =>
    rw [Nat.zero_mul] at beyond
    exact absurd hw (Nat.not_lt.mpr beyond)
  | succ polls ih =>
    have sum : waited + (polls + 1) * policy.pollInterval =
        waited + policy.pollInterval + polls * policy.pollInterval := by
      rw [Nat.succ_mul, Nat.add_comm (polls * policy.pollInterval), Nat.add_assoc]
    rw [sum] at left beyond
    have budget : waited < policy.budget := by
      rw [Nat.add_right_comm] at left
      exact Nat.lt_of_le_of_lt (Nat.le_add_right _ _) (Nat.lt_of_add_lt_add_right left)
    by_cases fits : waited + policy.pollInterval < Duration.count
    · rw [checkedAwait_hung_succ budget fits hn]
      exact ih left fits beyond (by omega)
    · rw [checkedAwait, if_pos budget, run_bind, run_stall_reading]
      dsimp only
      rw [if_neg fits]
      exact ⟨n, rfl⟩

theorem checkedOnce_hung (hz : policy.pollInterval = 0) (hb : 0 < policy.budget) (hn : 4 ≤ n) :
    (p.checkedOnce policy patience).run (.reading hungReads) n =
      (none, n + 1 + 1 + 2 * patience) := by
  have polls : policy.polls patience = patience := if_pos hz
  unfold checkedOnce requestRetrain
  rw [run_bind, run_modify_reading, run_bind, run_linkDebug_reading, polls]
  exact checkedAwait_hung hz hb patience _ (by omega)

theorem checkedOnce_overflows (hp : 0 < policy.pollInterval)
    (beyond : Duration.count ≤ policy.intervals * policy.pollInterval) (hn : 4 ≤ n) :
    ∃ m, (p.checkedOnce policy patience).run (.reading hungReads) n = (none, m) := by
  unfold checkedOnce requestRetrain
  rw [run_bind, run_modify_reading, run_bind, run_linkDebug_reading, RetrainPolicy.polls_eq hp]
  refine checkedAwait_overflows ?_ (by decide) ?_ (by omega)
  · rw [Nat.zero_add]
    exact RetrainPolicy.intervals_mul_lt hp
  · rwa [Nat.zero_add]

/-- The first attempt does not get done. -/
theorem checkedAttempt_stuck {m : Nat} {reads : Nat → Word}
    (h : (p.checkedOnce policy patience).run (.reading reads) n = (none, m))
    (before target extra : Nat) :
    (p.checkedAttempt policy patience before target extra 0).run (.reading reads) n =
      (none, m) := by
  unfold checkedAttempt
  rw [if_pos (by decide), run_bind, h]
  rfl

/-! ## A link that lags -/

/-- The first poll finds the link back. -/
theorem checkedOnce_lagging (hb : 0 < policy.budget) (hp : 0 < policy.pollInterval)
    (waits : policy.intervals * policy.pollInterval < Duration.count) (hn : 4 ≤ n) :
    (p.checkedOnce policy patience).run (.reading laggingReads) n = (some (.ok 0), n + 4) := by
  have up : LinkDebug.isUp 0x200000D1 = true := by decide
  have active : LinkStatus.dataLinkLayerLinkActive.test (Word.status 0x200000D1) = true := by
    decide
  have trained : LinkStatus.linkTraining.test (Word.status 0x200000D1) = false := by decide
  have speed : LinkStatus.currentLinkSpeed.get (Word.status 0x200000D1) = 0 := by decide
  have later {m : Nat} (hm : 4 ≤ m) : laggingReads m = 0x200000D1 := slowReads_of_le _ hm
  obtain ⟨polls, hpolls⟩ := Nat.exists_eq_add_of_lt (RetrainPolicy.intervals_pos hb hp)
  have fits : 0 + policy.pollInterval < Duration.count := by
    rw [hpolls, Nat.succ_mul] at waits
    rw [Nat.zero_add]
    exact Nat.lt_of_le_of_lt (Nat.le_add_left _ _) waits
  unfold checkedOnce requestRetrain
  rw [run_bind, run_modify_reading, run_bind, run_linkDebug_reading, RetrainPolicy.polls_eq hp,
    hpolls, checkedAwait, if_pos hb, run_bind, run_stall_reading]
  dsimp only
  rw [if_pos fits, run_bind, run_linkDebug_reading, run_bind, run_linkStatus_reading]
  dsimp only
  rw [later (by omega), later (by omega)]
  simp only [up, active, trained, speed, Bool.not_true, Bool.not_false, Bool.and_self,
    Bool.false_eq_true, if_false, if_true]
  rfl

/-- The induction is on the further attempts: one more does not fit in the counter at the latest
when none of them is left. -/
theorem checkedAttempt_lagging (hb : 0 < policy.budget) (hp : 0 < policy.pollInterval)
    (waits : policy.intervals * policy.pollInterval < Duration.count)
    {before target extra made : Nat} (ht : 0 < target) (beyond : Word.count ≤ made + 1 + extra) (hn : 4 ≤ n) :
    ∃ m, (p.checkedAttempt policy patience before target extra made).run
      (.reading laggingReads) n = (none, m) := by
  induction extra generalizing made n with
  | zero =>
    unfold checkedAttempt
    rw [if_neg (Nat.not_lt.mpr beyond)]
    exact ⟨n, rfl⟩
  | succ extra ih =>
    by_cases fits : made + 1 < Word.count
    · have again : Word.count ≤ made + 1 + 1 + extra := by omega
      obtain ⟨m, later⟩ := ih again (Nat.le_add_right_of_le (k := 4) hn)
      refine ⟨m, ?_⟩
      unfold checkedAttempt
      rw [if_pos fits, run_bind, checkedOnce_lagging hb hp waits hn]
      dsimp only
      rw [if_pos ht, run_bind, run_bind, run_stall_reading]
      exact later
    · unfold checkedAttempt
      rw [if_neg fits]
      exact ⟨n, rfl⟩

/-! ## Their host -/

theorem find_slow (later : Word) (config : Address) :
    (Capability.find config Capability.express).run (.reading (slowReads later)) 1 =
      (some 0x40, 2) := rfl

/-- A port that may be faster than the link at no speed asks for a retrain. -/
theorem retrainWith_slow (later : Word) (hspeed : 0 < p.controller.maxSpeed)
    (attempts : Nat → Nat → Program (Option RetrainOutcome)) :
    (p.retrainWith attempts).run (.reading (slowReads later)) 1 =
      (attempts 0 (min 15 p.controller.maxSpeed)).run (.reading (slowReads later)) 5 := by
  have device : LinkCapabilities.maxLinkSpeed.get (slowReads later 2) = 15 := by
    show LinkCapabilities.maxLinkSpeed.get 0xF = 15
    decide
  have current : LinkStatus.currentLinkSpeed.get (Word.status (slowReads later 3)) = 0 := by
    show LinkStatus.currentLinkSpeed.get (Word.status 0) = 0
    decide
  have slow : ¬min 15 p.controller.maxSpeed ≤ 0 := by omega
  unfold retrainWith setTargetSpeed
  rw [run_bind, find_slow]
  dsimp only
  rw [run_bind, run_read_reading, run_bind, run_linkStatus_reading]
  dsimp only
  rw [device, current, if_neg slow, run_bind, run_modify_reading]

end Port

namespace Host

variable {policy : RetrainPolicy} {patience : Nat} {host : Host} {s : PortState}
  {rest : List PortState}

/-- The first link that does not get done is the last one that is retrained. -/
theorem retrainWith_slow {later : Word} {m : Nat}
    {retrain : Port → Program (Option RetrainOutcome)} (hr : host.soc.retrains = true)
    (hports : host.ports = s :: rest)
    (h : (retrain ⟨host.soc, s.controller⟩).run (.reading (slowReads later)) 1 = (none, m)) :
    (host.retrainWith retrain).run (.reading (slowReads later)) 0 = (none, m) := by
  have up : LinkDebug.isUp (slowReads later 0) = true := by
    show LinkDebug.isUp 0xD1 = true
    decide
  unfold retrainWith
  rw [if_pos hr, hports]
  unfold retrainPortsWith retrainPortWith
  rw [run_bind, run_bind, run_bind, Port.run_linkDebug_reading]
  dsimp only
  rw [if_pos up, run_bind, h]
  rfl

theorem checkedRetrain_slow {later : Word} {m : Nat} (hr : host.soc.retrains = true)
    (hports : host.ports = s :: rest) (hspeed : 0 < s.controller.maxSpeed)
    (h : (Port.checkedAttempt ⟨host.soc, s.controller⟩ policy patience 0
      (min 15 s.controller.maxSpeed) policy.extraAttempts 0).run (.reading (slowReads later)) 5 =
        (none, m)) :
    (host.checkedRetrain policy patience).run (.reading (slowReads later)) 0 = (none, m) := by
  refine retrainWith_slow hr hports ?_
  unfold Port.checkedRetrain
  rw [Port.retrainWith_slow later hspeed]
  exact h

/-- All patience is used up in reads. -/
theorem checkedRetrain_hung (hr : host.soc.retrains = true) (hz : policy.pollInterval = 0)
    (hb : 0 < policy.budget) (hports : host.ports = s :: rest)
    (hspeed : 0 < s.controller.maxSpeed) :
    (host.checkedRetrain policy patience).run (.reading hungReads) 0 =
      (none, 7 + 2 * patience) :=
  checkedRetrain_slow hr hports hspeed
    (Port.checkedAttempt_stuck (Port.checkedOnce_hung hz hb (by omega)) _ _ _)

/-- Whatever keeps a policy from expiring, there is a link that does not get done. -/
theorem exists_stuck (h : ¬policy.Expires) (hr : host.soc.retrains = true)
    (hports : host.ports = s :: rest) (hspeed : 0 < s.controller.maxSpeed) :
    ∃ reads, ∀ patience, ∃ m,
      (host.checkedRetrain policy patience).run (.reading reads) 0 = (none, m) := by
  obtain ⟨hbudget, hinterval⟩ := not_or.mp h
  have hb : 0 < policy.budget := Nat.pos_of_ne_zero hbudget
  have faster : 0 < min 15 s.controller.maxSpeed := by omega
  have hn : 4 ≤ 5 := by omega
  rcases Nat.eq_zero_or_pos policy.pollInterval with hz | hp
  · exact ⟨hungReads, fun patience => ⟨_, checkedRetrain_hung hr hz hb hports hspeed⟩⟩
  · by_cases waits : policy.intervals * policy.pollInterval < Duration.count
    · have beyond : Word.count ≤ 0 + 1 + policy.extraAttempts := by
        by_contra fits
        exact hinterval ⟨hp, by omega, waits⟩
      refine ⟨laggingReads, fun patience => ?_⟩
      obtain ⟨m, stuck⟩ := Port.checkedAttempt_lagging hb hp waits faster beyond hn
      exact ⟨m, checkedRetrain_slow hr hports hspeed stuck⟩
    · refine ⟨hungReads, fun patience => ?_⟩
      obtain ⟨m, stuck⟩ := Port.checkedOnce_overflows hp (Nat.not_lt.mp waits) hn
      exact ⟨m, checkedRetrain_slow hr hports hspeed (Port.checkedAttempt_stuck stuck _ _ _)⟩

end Host

end RootComplex
