import Mathlib.Data.List.Forall2
import RootComplex.Proofs.Lifecycle
import RootComplex.Proofs.RetrainTurn

/-! # What a retrain reports

A retrain is a sequence of turns, one for each port. Its reports account for them: a link that
is not reported, has no device with the capability or is at its target already is only looked
at, and every other link is asked for a speed and told to retrain. -/

namespace RootComplex

open Program

namespace Host

variable {soc : Soc} {policy : RetrainPolicy} {patience : Nat} {path : List Exchange}

/-- The turn of one port. Without a report the outcome is `none`. -/
structure Turn where
  state : PortState
  survey : Port.Survey
  path : List Exchange
  outcome : Option RetrainOutcome

namespace Turn

def port (soc : Soc) (t : Turn) : Port := ⟨soc, t.state.controller⟩

def report? (t : Turn) : Option RetrainReport := t.outcome.map (⟨t.state.index, ·⟩)

/-- Unless it leaves the link alone, the turn is made of the attempts of its port. -/
def Tries (soc : Soc) (policy : RetrainPolicy) (patience : Nat) (t : Turn) : Prop :=
  ∀ o, t.outcome = some o → t.survey.Tries (t.port soc) policy patience t.path o

end Turn

/-- The turns of the ports, in order, are the whole path, and the reports those of the turns. -/
structure Accounts (soc : Soc) (ports : List PortState) (turns : List Turn)
    (path : List Exchange) (reports : List RetrainReport) : Prop where
  states : turns.map (·.state) = ports
  path : path = turns.flatMap (·.path)
  reports : reports = turns.filterMap (·.report?)
  decided : ∀ t ∈ turns, t.survey.Decides (t.port soc) t.path t.outcome

/-! ## One call -/

theorem retrainPort_decides {s : PortState} {outcome : Option RetrainOutcome}
    (h : Runs (retrainPort soc policy patience s) path (some outcome)) :
    ∃ v : Port.Survey, v.Decides ⟨soc, s.controller⟩ path outcome ∧
      ∀ o, outcome = some o → v.Tries ⟨soc, s.controller⟩ policy patience path o := by
  obtain ⟨debug, look, _, hlook, h₁, rfl⟩ := h.bind
  obtain rfl := Port.runs_linkDebug.mp hlook
  split at h₁
  · rename_i hup
    obtain ⟨r, rest, _, hrest, h₂, rfl⟩ := h₁.bind
    cases r with
    | none => cases (runs_done.mp h₂).2
    | some o =>
      obtain ⟨rfl, houtcome⟩ := runs_done.mp h₂
      cases houtcome
      rw [List.append_nil]
      obtain ⟨v, decides, tries⟩ := Port.retrain_decides hup hrest
      refine ⟨v, decides, fun o ho => ?_⟩
      cases ho
      exact tries
  · rename_i hdown
    obtain ⟨rfl, houtcome⟩ := runs_done.mp h₁
    cases houtcome
    have down : (Port.Survey.mk debug [] none 0 0).isUp = false := Bool.eq_false_iff.mpr hdown
    have decides := Port.Survey.Decides.of_down (p := ⟨soc, s.controller⟩) down
    rw [Port.Survey.reads, down] at decides
    exact ⟨_, decides, fun o ho => absurd ho.symm (Option.some_ne_none o)⟩

theorem retrainPort_some {s : PortState} {result : Option (Option RetrainOutcome)}
    (hp : 0 < policy.pollInterval) (h : Runs (retrainPort soc policy patience s) path result) :
    ∃ outcome, result = some outcome := by
  obtain ⟨debug, _, _, -, h₁, rfl⟩ := h.bind
  split at h₁
  · obtain ⟨r, _, _, hrest, h₂, rfl⟩ := h₁.bind
    obtain ⟨outcome, rfl⟩ := Port.retrain_some hp hrest
    exact ⟨_, (runs_done.mp h₂).2⟩
  · exact ⟨_, (runs_done.mp h₁).2⟩

/-- The first port has its turn, and the others follow. -/
theorem retrainPorts_cons {s : PortState} {rest : List PortState}
    {result : Option (List PortState × List RetrainReport)}
    (h : Runs (retrainPorts soc policy patience (s :: rest)) path result) :
    ∃ r front tail, Runs (retrainPort soc policy patience s) front r ∧ path = front ++ tail ∧
      ((r = none ∧ tail = [] ∧ result = none) ∨
        ∃ outcome others, r = some outcome ∧ Runs (retrainPorts soc policy patience rest) tail others ∧
          result = others.map fun x => (outcome.elim s s.afterRetrain :: x.1,
            (outcome.map (RetrainReport.mk s.index)).toList ++ x.2)) := by
  obtain ⟨r, front, tail, hfront, h₁, rfl⟩ := h.bind
  refine ⟨r, front, tail, hfront, rfl, ?_⟩
  cases r with
  | none => exact .inl ⟨rfl, runs_done.mp h₁⟩
  | some outcome =>
    obtain ⟨others, back, _, hback, h₂, rfl⟩ := h₁.bind
    refine .inr ⟨outcome, others, rfl, ?_⟩
    match others, outcome, h₂ with
    | none, _, h₂ =>
      obtain ⟨rfl, rfl⟩ := runs_done.mp h₂
      exact ⟨by rwa [List.append_nil], rfl⟩
    | some (states, reports), none, h₂ =>
      obtain ⟨rfl, rfl⟩ := runs_done.mp h₂
      exact ⟨by rwa [List.append_nil], rfl⟩
    | some (states, reports), some o, h₂ =>
      obtain ⟨rfl, rfl⟩ := runs_done.mp h₂
      exact ⟨by rwa [List.append_nil], rfl⟩

theorem retrainPorts_some {ports : List PortState}
    {result : Option (List PortState × List RetrainReport)} (hp : 0 < policy.pollInterval)
    (h : Runs (retrainPorts soc policy patience ports) path result) :
    ∃ states reports, result = some (states, reports) := by
  induction ports generalizing path result with
  | nil => exact ⟨_, _, (runs_done.mp h).2⟩
  | cons s rest ih =>
    obtain ⟨r, front, tail, hfront, rfl, hend⟩ := retrainPorts_cons h
    obtain ⟨_, hr⟩ := retrainPort_some hp hfront
    rcases hend with ⟨rfl, -⟩ | ⟨outcome, others, -, htail, rfl⟩
    · cases hr
    · obtain ⟨states, reports, rfl⟩ := ih htail
      exact ⟨_, _, rfl⟩

theorem retrainPorts_accounts {ports states : List PortState} {reports : List RetrainReport}
    (h : Runs (retrainPorts soc policy patience ports) path (some (states, reports))) :
    states.map (·.controller) = ports.map (·.controller) ∧
      ∃ turns, Accounts soc ports turns path reports ∧
        ∀ t ∈ turns, t.Tries soc policy patience := by
  induction ports generalizing path states reports with
  | nil =>
    obtain ⟨rfl, hresult⟩ := runs_done.mp h
    cases hresult
    have none (P : Turn → Prop) : ∀ t ∈ ([] : List Turn), P t := fun t ht => absurd ht List.not_mem_nil
    exact ⟨rfl, [], ⟨rfl, rfl, rfl, none _⟩, none _⟩
  | cons s rest ih =>
    obtain ⟨r, front, tail, hfront, rfl, hend⟩ := retrainPorts_cons h
    rcases hend with ⟨-, -, hnone⟩ | ⟨outcome, others, rfl, htail, hresult⟩
    · cases hnone
    · obtain ⟨⟨later, more⟩, rfl, hboth⟩ := Option.map_eq_some_iff.mp hresult.symm
      cases hboth
      obtain ⟨hcontrollers, turns, accounts, others⟩ := ih htail
      obtain ⟨v, decides, tries⟩ := retrainPort_decides hfront
      refine ⟨?_, ⟨s, v, front, outcome⟩ :: turns, ⟨?_, ?_, ?_, ?_⟩,
        List.forall_mem_cons.mpr ⟨tries, others⟩⟩
      · rw [List.map_cons, List.map_cons, hcontrollers]
        cases outcome with
        | none => rfl
        | some o => rw [Option.elim_some, PortState.controller_afterRetrain]
      · rw [List.map_cons, accounts.states]
      · rw [List.flatMap_cons, ← accounts.path]
      · rw [List.filterMap_cons, ← accounts.reports]
        cases outcome with
        | none => rfl
        | some o => rfl
      · exact List.forall_mem_cons.mpr ⟨decides, accounts.decided⟩

theorem retrain_some {h : Host} {result : Option (Host × List RetrainReport)}
    (hp : 0 < policy.pollInterval) (hr : Runs (h.retrain policy patience) path result) :
    ∃ next reports, result = some (next, reports) := by
  rcases retrain_cases hr with ⟨-, r, hports, rfl⟩ | ⟨-, -, rfl⟩
  · obtain ⟨states, reports, rfl⟩ := retrainPorts_some hp hports
    exact ⟨_, _, rfl⟩
  · exact ⟨_, _, rfl⟩

/-- A call says that the chip does not retrain, or gives each port its turn. -/
theorem retrain_turns {h next : Host} {reports : List RetrainReport}
    (hr : Runs (h.retrain policy patience) path (some (next, reports))) :
    next.soc = h.soc ∧ next.ports.map (·.controller) = h.ports.map (·.controller) ∧
      ((h.soc.retrains = false ∧ reports = [] ∧ ∃ event, path = [⟨.report event, ()⟩]) ∨
        h.soc.retrains = true ∧ ∃ turns, Accounts h.soc h.ports turns path reports ∧
          ∀ t ∈ turns, t.Tries h.soc policy patience) := by
  rcases retrain_cases hr with ⟨hs, r, hports, hresult⟩ | ⟨hs, hpath, hresult⟩
  · obtain ⟨⟨states, more⟩, rfl, hboth⟩ := Option.map_eq_some_iff.mp hresult.symm
    cases hboth
    obtain ⟨hcontrollers, turns, accounts⟩ := retrainPorts_accounts hports
    exact ⟨rfl, hcontrollers, .inr ⟨hs, turns, accounts⟩⟩
  · cases hresult
    exact ⟨rfl, rfl, .inl ⟨hs, rfl, hpath⟩⟩

/-- A retrain that reports no link that it worked on has only read. -/
theorem Accounts.observes {ports : List PortState} {turns : List Turn}
    {reports : List RetrainReport} (h : Accounts soc ports turns path reports)
    (hidle : ∀ r ∈ reports, r.outcome.isIdle = true) : ∀ e ∈ path, e.command.Observes := by
  intro e he
  rw [h.path] at he
  obtain ⟨t, ht, he⟩ := List.mem_flatMap.mp he
  refine (h.decided t ht).idle (fun o ho => ?_) e he
  refine hidle ⟨t.state.index, o⟩ ?_
  rw [h.reports]
  exact List.mem_filterMap.mpr ⟨t, ht, by rw [Turn.report?, ho, Option.map_some]⟩

/-! ## The next call -/

/-- If a turn has retrained the link to its target and the later one reads what was last read, then
the later one leaves the link alone and reports its speed. -/
structure Turn.Settles (soc : Soc) (t later : Turn) : Prop where
  same : t.state.controller = later.state.controller
  settled : ∀ before after target attempts,
    t.outcome = some (.retrained before after target attempts) → target ≤ after →
    ∃ debug word, (t.port soc).LastSeen debug word t.path ∧
      (later.survey.Repeats t.survey debug word →
        later.outcome = some (.atTarget after) ∧ ∀ e ∈ later.path, e.command.Observes)

theorem Accounts.settles {ports next : List PortState} {turns later : List Turn}
    {reports more : List RetrainReport} {back : List Exchange}
    (h : Accounts soc ports turns path reports) (hlater : Accounts soc next later back more)
    (hc : next.map (·.controller) = ports.map (·.controller)) :
    List.Forall₂ (Turn.Settles soc) turns later := by
  have same : turns.map (·.state.controller) = later.map (·.state.controller) := by
    have hports := congrArg (List.map (·.controller)) h.states
    have hnext := congrArg (List.map (·.controller)) hlater.states
    rw [List.map_map] at hports hnext
    exact hports.trans (hc.symm.trans hnext.symm)
  have pairs : List.Forall₂ (fun t l : Turn => t.state.controller = l.state.controller)
      turns later := by
    rw [← List.forall₂_eq_eq_eq, List.forall₂_map_left_iff, List.forall₂_map_right_iff] at same
    exact same
  obtain ⟨hlength, hpairs⟩ := List.forall₂_iff_zip.mp pairs
  refine List.forall₂_iff_zip.mpr ⟨hlength, fun {t l} hz => ?_⟩
  have hcontroller := hpairs hz
  obtain ⟨ht, hl⟩ := List.of_mem_zip hz
  have again := hlater.decided l hl
  rw [Turn.port, ← hcontroller] at again
  refine ⟨hcontroller, fun before after target attempts ho hreached => ?_⟩
  have first := h.decided t ht
  rw [ho] at first
  exact first.settled hreached again

end Host

/-- The reports of a retrain account for all that it does, whatever the hardware answers. A chip
without support is not touched. On the other each port has its turn, and the turn does what its
survey decides. In the next call the turn of a port that has reached its target changes nothing,
unless something that it reads has changed. -/
theorem retrain_accounts {h : Host} {policy : RetrainPolicy} (hp : 0 < policy.pollInterval)
    {patience : Nat} {path : List Exchange} {result : Option (Host × List RetrainReport)}
    (hr : Runs (h.retrain policy patience) path result) :
    ∃ next reports, result = some (next, reports) ∧
      (h.soc.retrains = false → reports = [] ∧ Path.accesses path = []) ∧
      (h.soc.retrains = true → ∃ turns, Host.Accounts h.soc h.ports turns path reports ∧
        ∀ policy patience later last more,
          Runs (next.retrain policy patience) later (some (last, more)) →
          ∃ turns', Host.Accounts h.soc next.ports turns' later more ∧
            List.Forall₂ (Host.Turn.Settles h.soc) turns turns') := by
  obtain ⟨next, reports, rfl⟩ := Host.retrain_some hp hr
  obtain ⟨hsoc, hcontrollers, hcases⟩ := Host.retrain_turns hr
  refine ⟨next, reports, rfl, fun hs => ?_, fun hs => ?_⟩
  · rcases hcases with ⟨-, rfl, event, rfl⟩ | ⟨hs', -⟩
    · exact ⟨rfl, rfl⟩
    · rw [hs] at hs'
      cases hs'
  · rcases hcases with ⟨hs', -⟩ | ⟨-, turns, accounts, -⟩
    · rw [hs] at hs'
      cases hs'
    · refine ⟨turns, accounts, fun policy patience later last more hlater => ?_⟩
      obtain ⟨-, -, hagain⟩ := Host.retrain_turns hlater
      rw [hsoc] at hagain
      rcases hagain with ⟨hs', -⟩ | ⟨-, turns', next, -⟩
      · rw [hs] at hs'
        cases hs'
      · exact ⟨turns', next, accounts.settles next hcontrollers⟩

/-- A port whose link comes up at the lowest speed and is at the third once it was told to
retrain. Some status bits of the link are set, and some bits of its control. -/
def raisingPlatform : Platform Bool where
  answer
    | .read a, raised => (if a = 0x02050024 then 0xD1 else if a = 0x03200B0C then 1
        else if a = 0x03200080 then (if raised then 0x20030040 else 0x20010040)
        else if a = 0x032000A0 then 0x1F0042
        else if a = 0x1000000040 then 0x10 else if a = 0x100000004C then 3 else 0, raised)
    | .write a _, raised => ((), raised || a = 0x03200080)
    | .barrier, raised => ((), raised)
    | .stall _, raised => ((), raised)
    | .listens _, raised => (true, raised)
    | .report _, raised => ((), raised)

/-- The first retrain raises the link, and the second leaves it alone. -/
theorem retrain_accounts_example :
    ∃ front first path next later last,
      Runs (Host.bringUp (Topology.load Bm1000.soc [exampleNode])) front first ∧
      Runs (first.retrain .standard 0) path (some (next, [⟨1, .retrained 1 3 3 1⟩])) ∧
      Runs (next.retrain .standard 0) later (some (last, [⟨1, .atTarget 3⟩])) ∧
      ∀ e ∈ later, e.command.Observes := by
  have hp : 0 < RetrainPolicy.standard.pollInterval := by decide
  let bringUp := Host.bringUp (Topology.load Bm1000.soc [exampleNode])
  let first := (bringUp.run raisingPlatform false).1
  let retrain := (first.retrain .standard 0).run raisingPlatform
    (bringUp.run raisingPlatform false).2
  have hfront := runs_exchanges raisingPlatform bringUp false
  have hpath := runs_exchanges raisingPlatform (first.retrain .standard 0)
    (bringUp.run raisingPlatform false).2
  have hraised : retrain.1.map (·.2) = some [⟨1, .retrained 1 3 3 1⟩] := by decide +kernel
  have hagain : (retrain.1.bind fun x =>
      ((x.1.retrain .standard 0).run raisingPlatform retrain.2).1.map (·.2)) =
        some [⟨1, .atTarget 3⟩] := by decide +kernel
  obtain ⟨next, reports, hnext, -, hturns⟩ := retrain_accounts hp hpath
  rw [hnext] at hraised hpath hagain
  obtain rfl : reports = [⟨1, .retrained 1 3 3 1⟩] := Option.some.inj hraised
  obtain ⟨⟨last, more⟩, hlast, rfl⟩ := Option.map_eq_some_iff.mp hagain
  have hlater := runs_exchanges raisingPlatform (next.retrain .standard 0) retrain.2
  rw [hlast] at hlater
  have hsoc : first.soc = Bm1000.soc := (Host.bringUp_ports hfront).2.1
  obtain ⟨turns, -, hsecond⟩ := hturns (by rw [hsoc]; rfl)
  obtain ⟨later, accounts, -⟩ := hsecond _ _ _ _ _ hlater
  refine ⟨_, first, _, next, _, last, hfront, hpath, hlater, accounts.observes fun r hr => ?_⟩
  rw [List.mem_singleton.mp hr]
  rfl

end RootComplex
