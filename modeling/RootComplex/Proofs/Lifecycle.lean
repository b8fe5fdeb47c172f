import RootComplex.Proofs.Admission
import RootComplex.Proofs.LtssmEnable

/-! # The life cycle of the LTSSM

A bring-up of all controllers, and any number of retrains after it, leave the LTSSM of each
controller enabled exactly while its link is taken to be up. The stages of the other
controllers do not reach its LTSSM control register. -/

namespace RootComplex

open Program

theorem PortState.controller_afterRetrain (s : PortState) (outcome : RetrainOutcome) :
    (s.afterRetrain outcome).controller = s.controller := by
  unfold afterRetrain
  split <;> rfl

/-! ## Controllers side by side -/

/-- The LTSSM control register of each controller is no register of its own port beside that,
and no register of any other port. -/
structure Controller.Independent (soc : Soc) (cs : List Controller) : Prop where
  isolated : ∀ c ∈ cs, Port.Isolated ⟨soc, c⟩
  apart : ∀ c ∈ cs, ∀ d ∈ cs, c.index ≠ d.index →
    Port.ltssmRegister ⟨soc, c⟩ ∉ Port.registers ⟨soc, d⟩
  indices : (cs.map (·.index)).Nodup

theorem Controller.Independent.tail {soc : Soc} {c : Controller} {rest : List Controller}
    (h : Independent soc (c :: rest)) : Independent soc rest where
  isolated d hd := h.isolated d (List.mem_cons_of_mem _ hd)
  apart d hd e he := h.apart d (List.mem_cons_of_mem _ hd) e (List.mem_cons_of_mem _ he)
  indices := (List.nodup_cons.mp h.indices).2

theorem Controller.Independent.index_ne {soc : Soc} {c d : Controller} {rest : List Controller}
    (h : Independent soc (c :: rest)) (hd : d ∈ rest) : c.index ≠ d.index := by
  intro he
  refine (List.nodup_cons.mp h.indices).1 ?_
  show c.index ∈ rest.map (·.index)
  rw [he]
  exact List.mem_map_of_mem hd

theorem Soc.ltssmEnable_ne_zero {soc : Soc} (h : soc ∈ Soc.all) : soc.control.ltssmEnable ≠ 0 := by
  revert soc
  decide

namespace Topology

variable {soc : Soc} {nodes : List Node}

theorem RegistersDistinct.independent (hs : soc ∈ Soc.all)
    (h : (load soc nodes).RegistersDistinct) :
    Controller.Independent soc (load soc nodes).controllers where
  isolated c hc := by
    refine ⟨Soc.ltssmEnable_ne_zero hs, fun hm => ?_⟩
    rcases List.mem_append.mp hm with hm | hm
    · exact (List.nodup_cons.mp (h.own.1 c hc)).1 hm
    · exact h.not_mem_shared hc hc List.mem_cons_self hm
  apart c hc d hd hne := h.not_mem_registers hc hd hne List.mem_cons_self
  indices := nodup_index

end Topology

namespace Host

/-- A path made of one stage for each controller, in order. -/
inductive Round (soc : Soc) : List (Controller × Option Bool) → List Exchange → Prop where
  | nil : Round soc [] []
  | cons {c : Controller} {enabled : Option Bool} {rest : List (Controller × Option Bool)}
      {front back : List Exchange} (first : Port.Stage ⟨soc, c⟩ enabled front)
      (others : Round soc rest back) : Round soc ((c, enabled) :: rest) (front ++ back)

variable {soc : Soc} {path : List Exchange} {parts : List (Controller × Option Bool)}

theorem Round.touches (h : Round soc parts path) :
    ∀ e ∈ path, e.command.Touches (parts.flatMap fun part => Port.registers ⟨soc, part.1⟩) := by
  induction h with
  | nil => simp
  | cons first _ ih =>
    intro e he
    rw [List.flatMap_cons]
    rcases List.mem_append.mp he with he | he
    · exact (first.within e he).mono (List.subset_append_left _ _)
    · exact (ih e he).mono (List.subset_append_right _ _)

/-- The stages of the other controllers do not touch the LTSSM control register. -/
theorem Round.leaves (h : Round soc parts path)
    (hi : Controller.Independent soc (parts.map (·.1))) :
    ∀ part ∈ parts, Port.Leaves ⟨soc, part.1⟩ part.2 path := by
  induction h with
  | nil => simp
  | @cons c enabled rest front back first others ih =>
    rw [List.map_cons] at hi
    intro part hpart
    rcases List.mem_cons.mp hpart with rfl | hpart
    -- what comes later belongs to other ports, and so does what came before
    · have quiet : Port.Leaves ⟨soc, c⟩ none back := by
        refine .of_touches others.touches fun hm => ?_
        obtain ⟨part, hp, ha⟩ := List.mem_flatMap.mp hm
        have hmem : part.1 ∈ rest.map (·.1) := List.mem_map_of_mem hp
        exact hi.apart c List.mem_cons_self part.1 (List.mem_cons_of_mem _ hmem)
          (hi.index_ne hmem) ha
      exact first.toLeaves.append quiet
    · have hmem : part.1 ∈ rest.map (·.1) := List.mem_map_of_mem hpart
      have quiet : Port.Leaves ⟨soc, part.1⟩ none front :=
        .of_touches first.within (hi.apart part.1 (List.mem_cons_of_mem _ hmem) c
          List.mem_cons_self (hi.index_ne hmem).symm)
      have stages := quiet.append (ih hi.tail part hpart)
      rwa [Option.or_none] at stages

theorem bringUpPorts_round {cs : List Controller} {states : List PortState}
    (hi : ∀ c ∈ cs, Port.Isolated ⟨soc, c⟩) (h : Runs (bringUpPorts soc cs) path states) :
    Round soc (states.map fun s => (s.controller, some s.outcome.isUp)) path := by
  induction cs generalizing path states with
  | nil =>
    obtain ⟨rfl, rfl⟩ := runs_bringUpPorts_nil.mp h
    exact .nil
  | cons c rest ih =>
    obtain ⟨s, tail, front, back, hs, ht, rfl, rfl⟩ := runs_bringUpPorts_cons.mp h
    obtain ⟨_, _, _, _, -, -, -, rfl, -⟩ := PortState.bringUp_stages hs
    have stage := (hi _ List.mem_cons_self).bringUp hs
    exact .cons stage (ih (fun d hd => hi d (List.mem_cons_of_mem _ hd)) ht)

/-! ## Retraining of all ports -/

/-- A retrain reported that the link of a controller is lost or did not come back. -/
def lost (reports : List RetrainReport) (index : Nat) : Bool :=
  reports.any fun r => r.controller == index && r.outcome.isFailure

/-- What retrains leave of the enable bit of a controller. -/
def endingOf (reports : List RetrainReport) (index : Nat) : Option Bool :=
  if lost reports index then some false else none

theorem lost_append (front back : List RetrainReport) (index : Nat) :
    lost (front ++ back) index = (lost front index || lost back index) :=
  List.any_append

theorem endingOf_append (front back : List RetrainReport) (index : Nat) :
    endingOf (front ++ back) index = (endingOf back index).or (endingOf front index) := by
  unfold endingOf
  rw [lost_append]
  cases lost front index <;> cases lost back index <;> rfl

/-- Reports on other controllers say nothing. -/
theorem endingOf_of_not_mem {reports : List RetrainReport} {index : Nat}
    (h : index ∉ reports.map (·.controller)) : endingOf reports index = none := by
  rw [endingOf, if_neg]
  simp only [lost, List.any_eq_true, Bool.and_eq_true, beq_iff_eq, not_exists]
  rintro r ⟨hr, rfl, -⟩
  exact h (List.mem_map_of_mem hr)

theorem endingOf_cons_self {reports : List RetrainReport} {index : Nat}
    {outcome : RetrainOutcome} (h : index ∉ reports.map (·.controller)) :
    endingOf (⟨index, outcome⟩ :: reports) index = Port.ending outcome := by
  rw [← List.singleton_append, endingOf_append, endingOf_of_not_mem h, Option.none_or]
  simp [endingOf, lost, Port.ending]

theorem endingOf_cons_of_ne {reports : List RetrainReport} {index : Nat} {r : RetrainReport}
    (h : r.controller ≠ index) : endingOf (r :: reports) index = endingOf reports index := by
  have hr : index ∉ [r].map (·.controller) := by simpa using h.symm
  rw [← List.singleton_append, endingOf_append, endingOf_of_not_mem hr, Option.or_none]

variable {policy : RetrainPolicy} {patience : Nat}

theorem retrainPort_stage {s : PortState} {result : Option (Option RetrainOutcome)}
    (hi : Port.Isolated ⟨soc, s.controller⟩) (hr : soc.retrains = true)
    (hp : 0 < policy.pollInterval) (h : Runs (retrainPort soc policy patience s) path result) :
    ∃ outcome, result = some outcome ∧
      Port.Stage ⟨soc, s.controller⟩ (outcome.bind Port.ending) path := by
  obtain ⟨debug, look, _, hlook, h₁, rfl⟩ := h.bind
  have looked := hi.linkDebug hlook
  split at h₁
  · obtain ⟨r, trained, rest, htrained, h₂, rfl⟩ := h₁.bind
    obtain ⟨outcome, rfl, stage⟩ := hi.retrain hr hp patience _ _ htrained
    obtain ⟨rfl, rfl⟩ := runs_done.mp h₂
    have stages := looked.append stage
    rw [Option.or_none] at stages
    refine ⟨some outcome, rfl, ?_⟩
    rwa [List.append_nil]
  · obtain ⟨rfl, rfl⟩ := runs_done.mp h₁
    exact ⟨none, rfl, looked.append Port.Stage.nil⟩

/-- Each port has its stage, which ends as its report says. -/
theorem retrainPorts_round {ports : List PortState}
    {result : Option (List PortState × List RetrainReport)}
    (hi : Controller.Independent soc (ports.map (·.controller))) (hr : soc.retrains = true)
    (hp : 0 < policy.pollInterval)
    (h : Runs (retrainPorts soc policy patience ports) path result) :
    ∃ states reports, result = some (states, reports) ∧
      states.map (·.controller) = ports.map (·.controller) ∧
      reports.map (·.controller) ⊆ ports.map (·.index) ∧
      Round soc (ports.map fun s => (s.controller, endingOf reports s.index)) path := by
  induction ports generalizing path result with
  | nil =>
    obtain ⟨rfl, rfl⟩ := runs_done.mp h
    exact ⟨[], [], rfl, rfl, List.Subset.refl _, .nil⟩
  | cons s rest ih =>
    obtain ⟨r, front, _, hfront, h₁, rfl⟩ := h.bind
    obtain ⟨outcome, rfl, stage⟩ :=
      retrainPort_stage (hi.isolated _ List.mem_cons_self) hr hp hfront
    obtain ⟨r, back, last, hback, h₂, rfl⟩ := h₁.bind
    obtain ⟨states, reports, rfl, hstates, hreports, round⟩ := ih hi.tail hback
    -- so a report on this port can only be its own
    have fresh : s.index ∉ reports.map (·.controller) := by
      intro hm
      obtain ⟨t, ht, hst⟩ := List.mem_map.mp (hreports hm)
      exact hi.index_ne (List.mem_map_of_mem ht) hst.symm
    cases outcome with
    | none =>
      obtain ⟨rfl, rfl⟩ := runs_done.mp h₂
      refine ⟨s :: states, reports, rfl, by simp [hstates],
        List.subset_cons_of_subset _ hreports, ?_⟩
      rw [List.append_nil, List.map_cons, endingOf_of_not_mem fresh]
      exact .cons stage round
    | some outcome =>
      obtain ⟨rfl, rfl⟩ := runs_done.mp h₂
      refine ⟨s.afterRetrain outcome :: states, ⟨s.index, outcome⟩ :: reports, rfl, ?_, ?_, ?_⟩
      · simp [hstates, PortState.controller_afterRetrain]
      · exact List.cons_subset_cons _ hreports
      · have others : (rest.map fun t => (t.controller, endingOf reports t.index)) =
            rest.map fun t =>
              (t.controller, endingOf (⟨s.index, outcome⟩ :: reports) t.index) := by
          apply List.map_congr_left
          intro t ht
          rw [endingOf_cons_of_ne (hi.index_ne (List.mem_map_of_mem ht))]
        rw [List.append_nil, List.map_cons, endingOf_cons_self fresh, ← others]
        exact .cons stage round

/-- A retrain gives each port its turn, or says that the chip does not retrain. -/
theorem retrain_cases {h : Host} {result : Option (Host × List RetrainReport)}
    (hr : Runs (h.retrain policy patience) path result) :
    (h.soc.retrains = true ∧ ∃ r, Runs (retrainPorts h.soc policy patience h.ports) path r ∧
      result = r.map fun x => ({ h with ports := x.1 }, x.2)) ∨
    (h.soc.retrains = false ∧ (∃ event, path = [⟨.report event, ()⟩]) ∧
      result = some (h, [])) := by
  unfold Host.retrain Host.retrainWith at hr
  split at hr
  · rename_i hs
    obtain ⟨r, front, _, hports, h₁, rfl⟩ := hr.bind
    refine .inl ⟨hs, r, ?_⟩
    cases r with
    | none =>
      obtain ⟨rfl, rfl⟩ := runs_done.mp h₁
      exact ⟨by rwa [List.append_nil], rfl⟩
    | some x =>
      obtain ⟨rfl, rfl⟩ := runs_done.mp h₁
      exact ⟨by rwa [List.append_nil], rfl⟩
  · rename_i hs
    obtain ⟨_, rfl, h₁⟩ := runs_report_bind.mp hr
    obtain ⟨rfl, rfl⟩ := runs_done.mp h₁
    exact .inr ⟨Bool.eq_false_iff.mpr hs, ⟨_, rfl⟩, rfl⟩

/-- A retrain of the host leaves every port as its report says. -/
theorem retrain_leaves {h : Host} {result : Option (Host × List RetrainReport)}
    (hi : Controller.Independent h.soc (h.ports.map (·.controller)))
    (hp : 0 < policy.pollInterval) (hr : Runs (h.retrain policy patience) path result) :
    ∃ next reports, result = some (next, reports) ∧ next.soc = h.soc ∧
      next.ports.map (·.controller) = h.ports.map (·.controller) ∧
      ∀ c ∈ h.ports.map (·.controller),
        Port.Leaves ⟨h.soc, c⟩ (endingOf reports c.index) path := by
  rcases retrain_cases hr with ⟨hs, r, hports, rfl⟩ | ⟨-, ⟨_, rfl⟩, rfl⟩
  · obtain ⟨states, reports, rfl, hstates, -, round⟩ := retrainPorts_round hi hs hp hports
    refine ⟨_, reports, rfl, rfl, hstates, fun c hc => ?_⟩
    obtain ⟨s, hmem, rfl⟩ := List.mem_map.mp hc
    refine round.leaves ?_ (s.controller, endingOf reports s.index) (List.mem_map_of_mem hmem)
    rwa [List.map_map]
  · exact ⟨h, [], rfl, rfl, rfl, fun c _ => Port.Stage.nil.report_cons.toLeaves⟩

/-- Any number of retrains, each with its own policy, and their reports. -/
def retrainAll (patience : Nat) : Host → List RetrainPolicy →
    Program (Option (Host × List (List RetrainReport)))
  | h, [] => pure (some (h, []))
  | h, policy :: rest => do
    match ← h.retrain policy patience with
    | none => pure none
    | some (h, reports) =>
      match ← retrainAll patience h rest with
      | none => pure none
      | some (h, calls) => pure (some (h, reports :: calls))

/-- The others are called on the host that the first call leaves. -/
theorem retrainAll_cons {h last : Host} {rest : List RetrainPolicy}
    {calls : List (List RetrainReport)}
    (hr : Runs (retrainAll patience h (policy :: rest)) path (some (last, calls))) :
    ∃ next reports more front back, Runs (h.retrain policy patience) front (some (next, reports)) ∧
      Runs (retrainAll patience next rest) back (some (last, more)) ∧ path = front ++ back ∧
      calls = reports :: more := by
  obtain ⟨r, front, _, hfront, h₁, rfl⟩ := hr.bind
  rcases r with _ | ⟨next, reports⟩
  · cases (runs_done.mp h₁).2
  · obtain ⟨r, back, _, hback, h₂, rfl⟩ := h₁.bind
    rcases r with _ | ⟨final, more⟩
    · cases (runs_done.mp h₂).2
    · obtain ⟨rfl, hresult⟩ := runs_done.mp h₂
      cases hresult
      exact ⟨next, reports, more, front, back, hfront, hback, by rw [List.append_nil], rfl⟩

theorem retrainAll_leaves {h : Host} {policies : List RetrainPolicy}
    {result : Option (Host × List (List RetrainReport))}
    (hi : Controller.Independent h.soc (h.ports.map (·.controller)))
    (hp : ∀ policy ∈ policies, 0 < policy.pollInterval)
    (hr : Runs (retrainAll patience h policies) path result) :
    ∃ last calls, result = some (last, calls) ∧ calls.length = policies.length ∧
      ∀ c ∈ h.ports.map (·.controller),
        Port.Leaves ⟨h.soc, c⟩ (endingOf calls.flatten c.index) path := by
  induction policies generalizing h path result with
  | nil =>
    obtain ⟨rfl, rfl⟩ := runs_done.mp hr
    exact ⟨h, [], rfl, rfl, fun c _ => Port.Stage.nil.toLeaves⟩
  | cons policy rest ih =>
    obtain ⟨r, front, _, hfront, h₁, rfl⟩ := hr.bind
    obtain ⟨next, reports, rfl, hsoc, hports, first⟩ :=
      retrain_leaves hi (hp policy List.mem_cons_self) hfront
    obtain ⟨r, back, last, hback, h₂, rfl⟩ := h₁.bind
    rw [← hports, ← hsoc] at hi
    obtain ⟨final, calls, rfl, hlength, others⟩ :=
      ih hi (fun policy h => hp policy (List.mem_cons_of_mem _ h)) hback
    obtain ⟨rfl, rfl⟩ := runs_done.mp h₂
    refine ⟨final, reports :: calls, rfl, by simp [hlength], fun c hc => ?_⟩
    rw [hports, hsoc] at others
    rw [List.append_nil, List.flatten_cons, endingOf_append]
    exact (first c hc).append (others c hc)

end Host

/-- Whatever the hardware answers, a bring-up followed by any number of retrains leaves the
LTSSM of a controller enabled exactly if its link came up and no retrain has lost it since,
and no write to its register changes another bit of the value just read. -/
theorem ltssm_lifecycle {soc : Soc} (hs : soc ∈ Soc.all) {nodes : List Node}
    (hd : (Topology.load soc nodes).RegistersDistinct) {policies : List RetrainPolicy}
    (hp : ∀ policy ∈ policies, 0 < policy.pollInterval) {patience : Nat}
    {front back : List Exchange} {first : Host}
    {result : Option (Host × List (List RetrainReport))}
    (hbring : Runs (Host.bringUp (Topology.load soc nodes)) front first)
    (hretrain : Runs (Host.retrainAll patience first policies) back result) :
    first.ports.map (·.controller) = (Topology.load soc nodes).controllers ∧
    ∃ last calls, result = some (last, calls) ∧ calls.length = policies.length ∧
      ∀ s ∈ first.ports, Port.Leaves ⟨soc, s.controller⟩
        (some (s.outcome.isUp && !Host.lost calls.flatten s.index)) (front ++ back) := by
  have independent := hd.independent hs
  obtain ⟨hports, hsoc, -⟩ := Host.bringUp_ports hbring
  have hcs := Host.controllers_of_bringUpPorts hports
  refine ⟨hcs, ?_⟩
  have round := Host.bringUpPorts_round independent.isolated hports
  rw [← hcs] at independent
  obtain ⟨last, calls, rfl, hlength, leaves⟩ :=
    Host.retrainAll_leaves (by rwa [hsoc]) hp hretrain
  refine ⟨last, calls, rfl, hlength, fun s hmem => ?_⟩
  have up := round.leaves (by rwa [List.map_map]) (s.controller, some s.outcome.isUp)
    (List.mem_map_of_mem hmem)
  have lost := leaves s.controller (List.mem_map_of_mem hmem)
  rw [hsoc] at lost
  have value : (Host.endingOf calls.flatten s.index).or (some s.outcome.isUp) =
      some (s.outcome.isUp && !Host.lost calls.flatten s.index) := by
    unfold Host.endingOf
    cases Host.lost calls.flatten s.index <;> simp
  rw [← value]
  exact up.append lost

theorem registersDistinct_exampleNode :
    (Topology.load Bm1000.soc [exampleNode]).RegistersDistinct := by
  decide +kernel

/-- A port whose link comes up at the lowest speed and goes down when it is retrained. -/
def losingPlatform : Platform Unit where
  answer
    | .read a, _ => (if a = 0x02050024 then 0xD1 else if a = 0x03200B0C then 1
        else if a = 0x03200080 then 0x10000 else if a = 0x1000000040 then 0x10
        else if a = 0x100000004C then 3 else 0, ())
    | .write _ _, _ => ((), ())
    | .barrier, _ => ((), ())
    | .stall _, _ => ((), ())
    | .listens _, _ => (true, ())
    | .report _, _ => ((), ())

theorem ltssm_lifecycle_example :
    (Topology.load Bm1000.soc [exampleNode]).RegistersDistinct ∧
    ∃ front first back last calls,
      Runs (Host.bringUp (Topology.load Bm1000.soc [exampleNode])) front first ∧
      Runs (Host.retrainAll 0 first [.standard]) back (some (last, calls)) ∧
      first.ports.map (fun s => (s.controller, s.outcome.isUp)) = [(exampleController, true)] ∧
      Host.lost calls.flatten 1 = true ∧
      Port.Leaves ⟨Bm1000.soc, exampleController⟩ (some false) (front ++ back) := by
  have hs : Bm1000.soc ∈ Soc.all := List.mem_cons_self
  have hd := registersDistinct_exampleNode
  have hp : ∀ policy ∈ [RetrainPolicy.standard], 0 < policy.pollInterval := by decide
  let bringUp := Host.bringUp (Topology.load Bm1000.soc [exampleNode])
  let first := (bringUp.run losingPlatform ()).1
  let retrains := Host.retrainAll 0 first [.standard]
  have hfirst : first.ports.map (fun s => (s.controller, s.outcome.isUp)) =
      [(exampleController, true)] := by decide +kernel
  have hlost : ((retrains.run losingPlatform ()).1.map fun r => Host.lost r.2.flatten 1) =
      some true := by decide +kernel
  have hfront := runs_exchanges losingPlatform bringUp ()
  have hback := runs_exchanges losingPlatform retrains ()
  obtain ⟨-, last, calls, hresult, -, leaves⟩ := ltssm_lifecycle hs hd hp hfront hback
  rw [hresult] at hlost hback
  have lost : Host.lost calls.flatten 1 = true := Option.some.inj hlost
  refine ⟨hd, _, first, _, last, calls, hfront, hback, hfirst, lost, ?_⟩
  obtain ⟨s, hports, hstate⟩ := List.map_eq_singleton_iff.mp hfirst
  obtain ⟨hcontroller, hup⟩ := Prod.mk.inj hstate
  have stage := leaves s (by rw [hports]; exact List.mem_singleton_self s)
  have hindex : s.index = 1 := by rw [PortState.index, hcontroller]; rfl
  rwa [hup, hindex, lost, hcontroller] at stage

end RootComplex
