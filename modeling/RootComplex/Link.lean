import RootComplex.Reset

/-! Link training. First the port waits for a partner, then for the link to come up. A
link that locks up gets one reset pulse and a fresh budget. -/

namespace RootComplex

def detectTimeout : Duration := .milliseconds 50
def pollInterval : Duration := .milliseconds 1
def configProbeTimeout : Duration := .seconds 1

def pollsIn (time : Duration) : Nat := time / pollInterval

/-- How training ended. Without a link the LTSSM is left disabled. -/
inductive LinkOutcome where
  | noPartner (ltssm : Ltssm)
  | linkUp (speed width : Nat) (elapsed : Duration) (recovered : Bool)
  | timeout (ltssm : Ltssm) (elapsed : Duration) (recovered : Bool)
  deriving DecidableEq, Repr

namespace LinkOutcome

def isUp : LinkOutcome → Bool
  | linkUp .. => true
  | _ => false

def speed? : LinkOutcome → Option Nat
  | linkUp speed .. => some speed
  | _ => none

end LinkOutcome

/-- The last look at the link, and the polls made since the LTSSM was enabled. -/
structure Sighting where
  polls : Nat
  debug : Word
  deriving DecidableEq, Repr

namespace Sighting

def state (s : Sighting) : Ltssm := LinkDebug.state s.debug

def elapsed (s : Sighting) : Duration := s.polls * pollInterval

def elapsedText (s : Sighting) : String := toString s.elapsed.inMilliseconds

end Sighting

namespace Port

def watch (p : Port) (found : Word → Bool) : Nat → Sighting → Program Sighting
  | 0, s => pure s
  | left + 1, s => do
    if found s.debug then pure s
    else
      Program.stall pollInterval
      let debug ← p.linkDebug
      watch p found left ⟨s.polls + 1, debug⟩

/-- The link is up, or will not come up by itself. -/
def isSettled (debug : Word) : Bool := LinkDebug.isUp debug || (LinkDebug.state debug).isLockup

/-- The polls that the time for coming up leaves after a sighting. -/
def pollsLeft (p : Port) (s : Sighting) : Nat := pollsIn p.soc.linkUpTimeout - s.polls

def reportUp (p : Port) (s : Sighting) (recovered : Bool) : Program LinkOutcome := do
  let status ← p.linkStatus
  let speed := LinkStatus.currentLinkSpeed.get status
  let width := LinkStatus.negotiatedLinkWidth.get status
  Program.report ⟨.info, "link up", p.linkFacts s.debug ++
    [("elapsed_ms", s.elapsedText), ("speed", toString speed), ("width", toString width),
      ("recovered", Text.bool recovered)]⟩
  pure (.linkUp speed width s.elapsed recovered)

def giveUp (p : Port) (s : Sighting) (recovered : Bool) : Program LinkOutcome := do
  p.setLtssm false
  Program.report ⟨.warn, "link training timed out", p.linkFacts s.debug ++
    [("elapsed_ms", s.elapsedText), ("recovered", Text.bool recovered)]⟩
  pure (.timeout s.state s.elapsed recovered)

def conclude (p : Port) (s : Sighting) (recovered : Bool) : Program LinkOutcome :=
  if LinkDebug.isUp s.debug then p.reportUp s recovered else p.giveUp s recovered

/-- Watches the link again after a reset pulse; a second lockup ends training. -/
def recover (p : Port) (s : Sighting) : Program LinkOutcome := do
  Program.report ⟨.warn, "link locked up, pulsing reset",
    [p.label, ("ltssm", s.state.text), ("elapsed_ms", s.elapsedText)]⟩
  p.pulseReset
  let debug ← p.linkDebug
  let again : Sighting := ⟨0, debug⟩
  let s ← p.watch isSettled (p.pollsLeft again) again
  p.conclude s true

def awaitLink (p : Port) (s : Sighting) : Program LinkOutcome := do
  Program.report ⟨.debug, "link partner detected",
    [p.label, ("ltssm", s.state.text), ("elapsed_ms", s.elapsedText)]⟩
  let s ← p.watch isSettled (p.pollsLeft s) s
  if s.state.isLockup then p.recover s else p.conclude s false

def noPartner (p : Port) (s : Sighting) : Program LinkOutcome := do
  p.setLtssm false
  Program.report ⟨.info, "no link partner", p.linkFacts s.debug⟩
  pure (.noPartner s.state)

def train (p : Port) : Program LinkOutcome := do
  let debug ← p.linkDebug
  let s ← p.watch (fun debug => (LinkDebug.state debug).partnerDetected)
    (pollsIn detectTimeout) ⟨0, debug⟩
  if s.state.partnerDetected then p.awaitLink s else p.noPartner s

/-- The device has not answered yet: nothing claimed the read, or it asks for a retry. -/
def isPending (id : Word) : Bool :=
  id = ConfigHeader.unclaimed || id.toNat % 0x10000 = ConfigHeader.retryVendor

/-- Writes to the ID register and reads it again while the device does not answer. The
answer goes with the number of polls made. -/
def pollId (p : Port) : Nat → Nat → Word → Program (Nat × Word)
  | 0, polls, id => pure (polls, id)
  | left + 1, polls, id => do
    if isPending id then
      Program.write (p.config ConfigHeader.deviceVendor) ConfigHeader.unclaimed
      Program.stall pollInterval
      let id ← Program.read (p.config ConfigHeader.deviceVendor)
      pollId p left (polls + 1) id
    else pure (polls, id)

/-- The device on the root bus answers as device zero, and nothing answers as device
one. -/
def filterWorks (id next : Word) : Bool :=
  id ≠ 0 && !isPending id && next = ConfigHeader.unclaimed

def probeFilter (p : Port) : Program Bool := do
  let id ← Program.read (p.config ConfigHeader.deviceVendor)
  let (polls, id) ← p.pollId (pollsIn configProbeTimeout) 0 id
  let next ← Program.read (p.config (ConfigHeader.offset 0 1 0 ConfigHeader.deviceVendor))
  let works := filterWorks id next
  Program.report ⟨.debug, "cfg0 filter probe",
    [p.label, ("id", toString id.toNat), ("alias", toString next.toNat),
      ("waited_ms", toString (Duration.inMilliseconds (polls * pollInterval))),
      ("works", Text.bool works)]⟩
  pure works

end Port

end RootComplex
