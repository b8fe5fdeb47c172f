import RootComplex.Bridge
import RootComplex.Link
import RootComplex.Retrain
import RootComplex.Topology.Load

/-! The host: every controller of a topology brought up, its bridge published, and what
became of its link. Only retraining touches the registers afterwards. -/

namespace RootComplex

structure PortState where
  controller : Controller
  reset : ResetReport
  outcome : LinkOutcome
  /-- The window to its root bus answers for device zero only. -/
  filterWorks : Bool
  /-- The highest speed its link has come up with. -/
  maxSpeedSeen : Option Nat
  deriving DecidableEq, Repr

structure Host where
  soc : Soc
  ports : List PortState
  bridges : List RootBridge

structure NegotiatedLink where
  speed : Nat
  width : Nat
  deriving DecidableEq, Repr

structure RetrainReport where
  controller : Nat
  outcome : RetrainOutcome
  deriving DecidableEq, Repr

namespace PortState

/-- Resets and trains a port. Only a link that came up is probed. -/
def bringUp (soc : Soc) (c : Controller) : Program PortState := do
  let p : Port := ⟨soc, c⟩
  Program.report ⟨.info, "bringing up pcie controller",
    [("soc", soc.name), p.label, ("node", c.name)]⟩
  let reset ← p.configure
  let outcome ← p.train
  let filterWorks ← if outcome.isUp then p.probeFilter else pure false
  pure ⟨c, reset, outcome, filterWorks, outcome.speed?⟩

def index (s : PortState) : Nat := s.controller.index

/-- The state after a retrain: the highest speed may have grown. -/
def afterRetrain (s : PortState) (outcome : RetrainOutcome) : PortState :=
  match outcome.speed? with
  | none => s
  | some speed => { s with maxSpeedSeen := some (max (s.maxSpeedSeen.getD 0) speed) }

end PortState

namespace Host

def bringUpPorts (soc : Soc) : List Controller → Program (List PortState)
  | [] => pure []
  | c :: rest => do
    let state ← PortState.bringUp soc c
    let states ← bringUpPorts soc rest
    pure (state :: states)

/-- A controller whose link does not come up is published all the same, as an empty
bus. -/
def bringUp (t : Topology) : Program Host := do
  let ports ← bringUpPorts t.soc t.controllers
  pure ⟨t.soc, ports, ports.map fun s => RootBridge.ofController s.controller⟩

def port? (h : Host) (index : Nat) : Option PortState := h.ports.find? (·.index == index)

/-- Looks at the live link; an unknown controller has none. -/
def isLinkUp (h : Host) (index : Nat) : Program Bool :=
  match h.port? index with
  | none => pure false
  | some s => do
    let debug ← Port.linkDebug ⟨h.soc, s.controller⟩
    pure (LinkDebug.isUp debug)

def negotiatedLink (h : Host) (index : Nat) : Program (Option NegotiatedLink) :=
  match h.port? index with
  | none => pure none
  | some s => do
    let p : Port := ⟨h.soc, s.controller⟩
    let debug ← p.linkDebug
    if LinkDebug.isUp debug then
      let status ← p.linkStatus
      pure (some ⟨LinkStatus.currentLinkSpeed.get status,
        LinkStatus.negotiatedLinkWidth.get status⟩)
    else pure none

def outcome? (h : Host) (index : Nat) : Option LinkOutcome := (h.port? index).map (·.outcome)

def maxSpeedSeen? (h : Host) (index : Nat) : Option Nat := (h.port? index).bind (·.maxSpeedSeen)

def resetReport? (h : Host) (index : Nat) : Option ResetReport := (h.port? index).map (·.reset)

def filterWorks (h : Host) (index : Nat) : Bool :=
  match h.port? index with
  | some s => s.filterWorks
  | none => false

def filterBitmap (h : Host) : Word :=
  (h.ports.filter (·.filterWorks)).foldl (fun bits s => bits ||| 1 <<< s.index) 0

/-- Retrains a port if its link is up. The outer option is the patience that ran out,
the inner one the link that is down. -/
def retrainPortWith (soc : Soc) (retrain : Port → Program (Option RetrainOutcome))
    (s : PortState) : Program (Option (Option RetrainOutcome)) := do
  let p : Port := ⟨soc, s.controller⟩
  let debug ← p.linkDebug
  if LinkDebug.isUp debug then
    match ← retrain p with
    | none => pure none
    | some outcome => pure (some (some outcome))
  else pure (some none)

def retrainPortsWith (soc : Soc) (retrain : Port → Program (Option RetrainOutcome)) :
    List PortState → Program (Option (List PortState × List RetrainReport))
  | [] => pure (some ([], []))
  | s :: rest => do
    match ← retrainPortWith soc retrain s with
    | none => pure none
    | some outcome =>
      match ← retrainPortsWith soc retrain rest with
      | none => pure none
      | some (states, reports) =>
        match outcome with
        | none => pure (some (s :: states, reports))
        | some outcome =>
          pure (some (s.afterRetrain outcome :: states, ⟨s.index, outcome⟩ :: reports))

/-- Retrains the live links of a chip that supports it, each as `retrain` does. -/
def retrainWith (h : Host) (retrain : Port → Program (Option RetrainOutcome)) :
    Program (Option (Host × List RetrainReport)) := do
  if h.soc.retrains then
    match ← retrainPortsWith h.soc retrain h.ports with
    | none => pure none
    | some (ports, reports) => pure (some ({ h with ports := ports }, reports))
  else
    Program.report ⟨.debug, "link retrain not supported", [("soc", h.soc.name)]⟩
    pure (some (h, []))

def retrainPort (soc : Soc) (policy : RetrainPolicy) (patience : Nat) (s : PortState) :
    Program (Option (Option RetrainOutcome)) :=
  retrainPortWith soc (·.retrain policy patience) s

def retrainPorts (soc : Soc) (policy : RetrainPolicy) (patience : Nat) (ports : List PortState) :
    Program (Option (List PortState × List RetrainReport)) :=
  retrainPortsWith soc (·.retrain policy patience) ports

/-- Retrains the live links of a chip that supports it. `none` if the policy polls
without using time and `patience` polls were not enough. -/
def retrain (h : Host) (policy : RetrainPolicy) (patience : Nat) :
    Program (Option (Host × List RetrainReport)) :=
  h.retrainWith (·.retrain policy patience)

end Host

end RootComplex
