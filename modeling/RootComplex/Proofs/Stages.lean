import Mathlib.Data.List.Forall2
import RootComplex.Host
import RootComplex.Proofs.Path

/-! # Stages

The paths of the bring-up, cut into the paths of its stages. Statements about one stage
find its part of a whole run here. -/

namespace RootComplex

open Program

variable {path : List Exchange}

/-- The stages of a configured port, in order. -/
theorem Port.configure_stages {p : Port} {report : ResetReport}
    (h : Runs p.configure path report) :
    ∃ off assert cycle wait phy msi describe release windows speed on event,
      Runs (p.setLtssm false) off () ∧ Runs p.assertPerst assert () ∧
      Runs p.cycleReset cycle () ∧ Runs p.awaitResetDone wait report.resetDoneTimeout ∧
      Runs p.tunePhy phy report.phyTuningFailed ∧ Runs p.routeMsi msi () ∧
      Runs p.describe describe () ∧ Runs p.deassertPerst release () ∧
      Runs (p.programWindows p.controller.outboundWindows) windows report.windowFailures ∧
      Runs (p.setTargetSpeed LinkSpeed.gen1.code) speed () ∧ Runs (p.setLtssm true) on () ∧
      path = off ++ (assert ++ (cycle ++ (wait ++ (phy ++ (msi ++ (describe ++ (release ++
        (windows ++ (speed ++ (on ++ [⟨.report event, ()⟩])))))))))) := by
  obtain ⟨_, off, _, hoff, h₁, rfl⟩ := h.bind
  obtain ⟨_, assert, _, hassert, h₂, rfl⟩ := h₁.bind
  obtain ⟨_, cycle, _, hcycle, h₃, rfl⟩ := h₂.bind
  obtain ⟨_, wait, _, hwait, h₄, rfl⟩ := h₃.bind
  obtain ⟨_, phy, _, hphy, h₅, rfl⟩ := h₄.bind
  obtain ⟨_, msi, _, hmsi, h₆, rfl⟩ := h₅.bind
  obtain ⟨_, describe, _, hdescribe, h₇, rfl⟩ := h₆.bind
  obtain ⟨_, release, _, hrelease, h₈, rfl⟩ := h₇.bind
  obtain ⟨_, windows, _, hwindows, h₉, rfl⟩ := h₈.bind
  obtain ⟨_, speed, _, hspeed, h₁₀, rfl⟩ := h₉.bind
  obtain ⟨_, on, _, hon, h₁₁, rfl⟩ := h₁₀.bind
  obtain ⟨_, rfl, hd⟩ := runs_report_bind.mp h₁₁
  obtain ⟨rfl, rfl⟩ := runs_done.mp hd
  exact ⟨off, assert, cycle, wait, phy, msi, describe, release, windows, speed, on, _, hoff,
    hassert, hcycle, hwait, hphy, hmsi, hdescribe, hrelease, hwindows, hspeed, hon, rfl⟩

/-- The stages of a recovery pulse, in order. -/
theorem Port.pulseReset_stages {p : Port} {u : Unit} (h : Runs p.pulseReset path u) :
    ∃ off assert set clear release on,
      Runs (p.setLtssm false) off () ∧ Runs p.assertPerst assert () ∧
      Runs (modify p.resetRegister (· ||| p.soc.reset.core)) set () ∧
      Runs (modify p.resetRegister (· &&& ~~~p.soc.reset.core)) clear () ∧
      Runs p.deassertPerst release () ∧ Runs (p.setLtssm true) on () ∧
      path = off ++ (assert ++ (set ++ (⟨.stall recoveryPulse, ()⟩ ::
        (clear ++ (release ++ on))))) := by
  obtain ⟨_, off, _, hoff, h₁, rfl⟩ := h.bind
  obtain ⟨_, assert, _, hassert, h₂, rfl⟩ := h₁.bind
  obtain ⟨_, set, _, hset, h₃, rfl⟩ := h₂.bind
  obtain ⟨_, rfl, h₄⟩ := runs_stall_bind.mp h₃
  obtain ⟨_, clear, _, hclear, h₅, rfl⟩ := h₄.bind
  obtain ⟨_, release, on, hrelease, hon, rfl⟩ := h₅.bind
  exact ⟨off, assert, set, clear, release, on, hoff, hassert, hset, hclear, hrelease, hon, rfl⟩

/-- A port that is brought up is configured and trained, and probed if its link is up. -/
theorem PortState.bringUp_stages {soc : Soc} {c : Controller} {s : PortState}
    (h : Runs (PortState.bringUp soc c) path s) :
    ∃ event reset train probe,
      Runs (Port.configure ⟨soc, c⟩) reset s.reset ∧ Runs (Port.train ⟨soc, c⟩) train s.outcome ∧
      Runs (if s.outcome.isUp then Port.probeFilter ⟨soc, c⟩ else pure false) probe
        s.filterWorks ∧
      s.controller = c ∧ s.maxSpeedSeen = s.outcome.speed? ∧
      path = ⟨.report event, ()⟩ :: (reset ++ (train ++ probe)) := by
  obtain ⟨_, rfl, h₁⟩ := runs_report_bind.mp h
  obtain ⟨_, reset, _, hreset, h₂, rfl⟩ := h₁.bind
  obtain ⟨outcome, train, _, htrain, h₃, rfl⟩ := h₂.bind
  dsimp only at h₃
  split at h₃
  · rename_i hu
    obtain ⟨_, probe, _, hprobe, h₄, rfl⟩ := h₃.bind
    obtain ⟨rfl, rfl⟩ := runs_done.mp h₄
    refine ⟨_, reset, train, probe, hreset, htrain, ?_, rfl, rfl, by rw [List.append_nil]⟩
    rwa [if_pos hu]
  · rename_i hu
    obtain ⟨rfl, rfl⟩ := runs_done.mp h₃
    refine ⟨_, reset, train, [], hreset, htrain, ?_, rfl, rfl, rfl⟩
    rw [if_neg hu]
    exact .done _

namespace Host

@[simp] theorem runs_bringUpPorts_nil {soc : Soc} {states : List PortState} :
    Runs (bringUpPorts soc []) path states ↔ path = [] ∧ states = [] :=
  runs_done

@[simp] theorem runs_bringUpPorts_cons {soc : Soc} {c : Controller} {rest : List Controller}
    {states : List PortState} :
    Runs (bringUpPorts soc (c :: rest)) path states ↔
      ∃ s tail front back, Runs (PortState.bringUp soc c) front s ∧
        Runs (bringUpPorts soc rest) back tail ∧ states = s :: tail ∧ path = front ++ back := by
  constructor
  · intro h
    obtain ⟨s, front, _, hs, hr, rfl⟩ := h.bind
    obtain ⟨tail, back, _, ht, hd, rfl⟩ := hr.bind
    obtain ⟨rfl, rfl⟩ := runs_done.mp hd
    exact ⟨s, tail, front, back, hs, ht, rfl, by rw [List.append_nil]⟩
  · rintro ⟨s, tail, front, back, hs, ht, rfl, rfl⟩
    refine runs_bind.mpr ⟨s, front, back, hs, ?_, rfl⟩
    exact runs_bind.mpr ⟨tail, back, [], ht, .done _, by rw [List.append_nil]⟩

/-- Every controller ends up with a state of its own, in order. -/
theorem controllers_of_bringUpPorts {soc : Soc} {cs : List Controller} {states : List PortState}
    (h : Runs (bringUpPorts soc cs) path states) : states.map (·.controller) = cs := by
  induction cs generalizing path states with
  | nil =>
    obtain ⟨-, rfl⟩ := runs_bringUpPorts_nil.mp h
    rfl
  | cons c rest ih =>
    obtain ⟨s, tail, _, _, hs, ht, rfl, -⟩ := runs_bringUpPorts_cons.mp h
    obtain ⟨_, _, _, _, -, -, -, hc, -⟩ := PortState.bringUp_stages hs
    rw [List.map_cons, hc, ih ht]

/-- The path of the controller at any place stands between those of the others. -/
theorem bringUpPorts_split {soc : Soc} {before after : List Controller} {c : Controller}
    {states : List PortState} (h : Runs (bringUpPorts soc (before ++ c :: after)) path states) :
    ∃ front middle back s early late,
      Runs (bringUpPorts soc before) front early ∧ Runs (PortState.bringUp soc c) middle s ∧
      Runs (bringUpPorts soc after) back late ∧ states = early ++ s :: late ∧
      path = front ++ (middle ++ back) := by
  induction before generalizing path states with
  | nil =>
    obtain ⟨s, tail, middle, back, hs, ht, rfl, rfl⟩ := runs_bringUpPorts_cons.mp h
    exact ⟨[], middle, back, s, [], tail, .done _, hs, ht, rfl, rfl⟩
  | cons d rest ih =>
    obtain ⟨t, tail, first, _, hd, ht, rfl, rfl⟩ := runs_bringUpPorts_cons.mp h
    obtain ⟨front, middle, back, s, early, late, he, hs, hl, rfl, rfl⟩ := ih ht
    refine ⟨first ++ front, middle, back, s, t :: early, late, ?_, hs, hl, rfl, ?_⟩
    · exact runs_bringUpPorts_cons.mpr ⟨t, early, first, front, hd, he, rfl, rfl⟩
    · rw [List.append_assoc]

/-- The path of a bring-up is made of one part for each port. -/
theorem bringUpPorts_parts {soc : Soc} {cs : List Controller} {path : List Exchange}
    {states : List PortState} (h : Runs (bringUpPorts soc cs) path states) :
    ∃ parts : List (List Exchange), path = parts.flatten ∧
      List.Forall₂ (fun s part => Runs (PortState.bringUp soc s.controller) part s)
        states parts := by
  induction cs generalizing path states with
  | nil =>
    obtain ⟨rfl, rfl⟩ := runs_bringUpPorts_nil.mp h
    exact ⟨[], rfl, .nil⟩
  | cons c rest ih =>
    obtain ⟨s, tail, front, back, hs, ht, rfl, rfl⟩ := runs_bringUpPorts_cons.mp h
    obtain ⟨parts, rfl, hparts⟩ := ih ht
    obtain ⟨_, _, _, _, -, -, -, rfl, -⟩ := PortState.bringUp_stages hs
    exact ⟨front :: parts, rfl, .cons hs hparts⟩

/-- Every state of a bring-up comes from the bring-up of its own port. -/
theorem brought_of_mem {soc : Soc} {cs : List Controller} {states : List PortState}
    {s : PortState} (h : Runs (bringUpPorts soc cs) path states) (hs : s ∈ states) :
    ∃ part, Runs (PortState.bringUp soc s.controller) part s := by
  obtain ⟨parts, -, hparts⟩ := bringUpPorts_parts h
  obtain ⟨hlength, brought⟩ := List.forall₂_iff_get.mp hparts
  obtain ⟨i, hi, rfl⟩ := List.getElem_of_mem hs
  exact ⟨_, brought i hi (hlength ▸ hi)⟩

/-- Every state of a bring-up comes from a configured port. -/
theorem configured_of_mem {soc : Soc} {cs : List Controller} {states : List PortState}
    {s : PortState} (h : Runs (bringUpPorts soc cs) path states) (hs : s ∈ states) :
    ∃ reset, Runs (Port.configure ⟨soc, s.controller⟩) reset s.reset := by
  obtain ⟨_, hpart⟩ := brought_of_mem h hs
  obtain ⟨_, reset, _, _, hreset, -⟩ := PortState.bringUp_stages hpart
  exact ⟨reset, hreset⟩

/-- A host has the ports and the bridges of its topology. -/
theorem bringUp_ports {t : Topology} {host : Host} (h : Runs (bringUp t) path host) :
    Runs (bringUpPorts t.soc t.controllers) path host.ports ∧ host.soc = t.soc ∧
      host.bridges = host.ports.map fun s => RootBridge.ofController s.controller := by
  obtain ⟨ports, front, back, hp, hd, rfl⟩ := h.bind
  obtain ⟨rfl, rfl⟩ := runs_done.mp hd
  exact ⟨by rwa [List.append_nil], rfl, rfl⟩

end Host

end RootComplex
