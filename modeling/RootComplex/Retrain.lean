import RootComplex.Capability
import RootComplex.Port

/-! Retraining: a link that came up at the lowest speed is raised to the best one that
the device and the port's ceiling allow.

Attempts and waits are counted here by numbers without bound. `Host.checkedRetrain` counts them
in a word and in a duration of 64 bits of seconds; `RetrainPolicy.Counts` says when that is the
same. -/

namespace RootComplex

structure RetrainPolicy where
  budget : Duration
  pollInterval : Duration
  /-- Further attempts when one ends below the target. -/
  extraAttempts : Nat
  settle : Duration
  deriving DecidableEq, Repr

namespace RetrainPolicy

def standard : RetrainPolicy where
  budget := .seconds 1
  pollInterval := .milliseconds 1
  extraAttempts := 1
  settle := .milliseconds 200

/-- The polls of one attempt: as many intervals as the budget holds, rounded up. An
interval of no time never uses the budget up; then `patience` bounds them. -/
def polls (policy : RetrainPolicy) (patience : Nat) : Nat :=
  if policy.pollInterval = 0 then patience
  else (policy.budget + policy.pollInterval - 1) / policy.pollInterval

end RetrainPolicy

inductive RetrainOutcome where
  | atTarget (speed : Nat)
  | noCapability
  | retrained (before after target attempts : Nat)
  | linkLost (ltssm : Ltssm) (attempts : Nat)
  | timedOut (ltssm : Ltssm) (attempts : Nat)
  deriving DecidableEq, Repr

namespace RetrainOutcome

def speed? : RetrainOutcome → Option Nat
  | retrained _ after _ _ => some after
  | _ => none

end RetrainOutcome

inductive RetrainFailure where
  /-- The data link layer went down. -/
  | lost (ltssm : Ltssm)
  | timedOut (ltssm : Ltssm)
  deriving DecidableEq, Repr

namespace RetrainFailure

def outcome (attempts : Nat) : RetrainFailure → RetrainOutcome
  | lost ltssm => .linkLost ltssm attempts
  | timedOut ltssm => .timedOut ltssm attempts

def text (attempts : Nat) : RetrainFailure → String
  | lost ltssm => "LinkLost" ++ facts ltssm
  | timedOut ltssm => "TimedOut" ++ facts ltssm
where
  facts (ltssm : Ltssm) : String :=
    " \x7b ltssm: " ++ ltssm.text ++ ", attempts: " ++ toString attempts ++ " \x7d"

end RetrainFailure

namespace Port

/-- Sets the retrain bit. Only the control half is written. -/
def requestRetrain (p : Port) : Program Unit :=
  Program.modify (p.dbi PortLogic.linkControlStatus) fun v =>
    Word.ofControl (LinkControl.retrainLink.put true (Word.control v))

/-- Polls until the link is back, is lost, or the budget is used up. `none` if the
polls run out first. The waits add up without bound. -/
def awaitRetrained (p : Port) (policy : RetrainPolicy) :
    Nat → Duration → Ltssm → Program (Option (Except RetrainFailure Nat))
  | 0, waited, ltssm =>
    if waited < policy.budget then pure none else pure (some (.error (.timedOut ltssm)))
  | polls + 1, waited, ltssm =>
    if waited < policy.budget then do
      Program.stall policy.pollInterval
      let debug ← p.linkDebug
      let status ← p.linkStatus
      if !LinkStatus.dataLinkLayerLinkActive.test status then
        pure (some (.error (.lost (LinkDebug.state debug))))
      else if LinkDebug.isUp debug && !LinkStatus.linkTraining.test status then
        pure (some (.ok (LinkStatus.currentLinkSpeed.get status)))
      else awaitRetrained p policy polls (waited + policy.pollInterval) (LinkDebug.state debug)
    else pure (some (.error (.timedOut ltssm)))

def retrainOnce (p : Port) (policy : RetrainPolicy) (patience : Nat) :
    Program (Option (Except RetrainFailure Nat)) := do
  p.requestRetrain
  let debug ← p.linkDebug
  p.awaitRetrained policy (policy.polls patience) 0 (LinkDebug.state debug)

def reportRetrained (p : Port) (before after target attempts : Nat) :
    Program (Option RetrainOutcome) := do
  Program.report ⟨.info, "link retrained",
    [p.label, ("from", toString before), ("to", toString after), ("target", toString target),
      ("attempts", toString attempts)]⟩
  pure (some (.retrained before after target attempts))

def retrainFailed (p : Port) (target attempts : Nat) (failure : RetrainFailure) :
    Program (Option RetrainOutcome) := do
  p.setLtssm false
  Program.report ⟨.warn, "link retrain failed",
    [p.label, ("target", toString target), ("outcome", failure.text attempts)]⟩
  pure (some (failure.outcome attempts))

/-- Attempts after `made` others, and further ones while the link stays below its
target. Their number has no bound but that of the policy. -/
def attemptRetrain (p : Port) (policy : RetrainPolicy) (patience before target : Nat) :
    Nat → Nat → Program (Option RetrainOutcome)
  | extra, made => do
    match ← p.retrainOnce policy patience with
    | none => pure none
    | some (.error failure) => p.retrainFailed target (made + 1) failure
    | some (.ok speed) =>
      if speed < target then
        match extra with
        | 0 => p.reportRetrained before speed target (made + 1)
        | extra + 1 =>
          Program.report ⟨.info, "link retrained below target, retrying",
            [p.label, ("speed", toString speed), ("target", toString target)]⟩
          Program.stall policy.settle
          attemptRetrain p policy patience before target extra (made + 1)
      else p.reportRetrained before speed target (made + 1)

/-- Finds the current speed of the link and its target, the best common speed, and hands both to
`attempts` if the link is slower than it could be. -/
def retrainWith (p : Port) (attempts : Nat → Nat → Program (Option RetrainOutcome)) :
    Program (Option RetrainOutcome) := do
  match ← Capability.find p.controller.config Capability.express with
  | none =>
    Program.report ⟨.debug, "no pcie capability downstream", [p.label]⟩
    pure (some .noCapability)
  | some capability =>
    let link ← Program.read (p.config (capability + ExpressCapability.linkCapabilities))
    let deviceSpeed := LinkCapabilities.maxLinkSpeed.get link
    let target := min deviceSpeed p.controller.maxSpeed
    let status ← p.linkStatus
    let speed := LinkStatus.currentLinkSpeed.get status
    if target ≤ speed then
      Program.report ⟨.debug, "link already at target speed",
        [p.label, ("speed", toString speed), ("device_speed", toString deviceSpeed)]⟩
      pure (some (.atTarget speed))
    else
      p.setTargetSpeed target
      attempts speed target

/-- Retrains the link of a port towards its target. `none` only if the policy never uses up
its budget and the link neither settles nor goes down within `patience` polls. -/
def retrain (p : Port) (policy : RetrainPolicy) (patience : Nat) :
    Program (Option RetrainOutcome) :=
  p.retrainWith fun speed target =>
    p.attemptRetrain policy patience speed target policy.extraAttempts 0

end Port

end RootComplex
