import RootComplex.Proofs.FinalContents
import RootComplex.Proofs.RetrainReports

/-! # Link control

The two registers for the control of the link have status bits in their upper halves, and a one
written there clears its bit. The engine writes zeros to the status, and changes one field of the
control. A bring-up asks for the lowest speed. A retrain asks for the speed that its survey found
possible, which is within the ceiling of the port, and then sets the retrain bit. -/

namespace RootComplex

open Program

namespace Port

variable {p : Port} {s : Survey} {path : List Exchange} {a : Address}

/-! ## Bring-up -/

theorem linkControl_mem : p.dbi PortLogic.linkControlStatus ∈ p.linkRegisters :=
  List.mem_cons_self

theorem linkControl2_mem : p.dbi PortLogic.linkControlStatus2 ∈ p.linkRegisters :=
  List.mem_cons_of_mem _ (List.mem_singleton_self _)

/-- Of the updates of a bring-up one is for the control of the link. -/
theorem eq_speedUpdate_of_link (hn : p.registers.Nodup) {u : Update} {outcome : LinkOutcome}
    (hu : u ∈ p.bringUpUpdates outcome) (hl : u.register ∈ p.linkRegisters) :
    u = p.speedUpdate LinkSpeed.gen1.code := by
  rcases mem_bringUpUpdates hu with rfl | h
  · rfl
  · exact absurd h (link_apart hn hl)

/-! ## One turn of a retrain -/

theorem linkControl_ne : p.dbi PortLogic.linkControlStatus ≠ p.dbi PortLogic.linkControlStatus2 :=
  dbi_ne (by decide) (by decide) (by decide)

theorem ltssm_ne_link (hn : p.registers.Nodup) (ha : a ∈ p.linkRegisters) :
    p.ltssmRegister ≠ a := by
  intro h
  subst h
  exact link_apart hn ha (List.mem_append_left _ (List.mem_append_left _ ltssm_sequence))

namespace Attempts

variable {target : Nat} {outcome : RetrainOutcome}

theorem makes (h : p.Attempts target path outcome) : ∃ us, Path.Makes [] us path ∧
    ∀ u ∈ us, u = p.retrainUpdate ∨ u = p.ltssmUpdate false := by
  obtain ⟨old, rest, us, rfl, made, hus⟩ := h.requests
  exact ⟨_, .update old made, List.forall_mem_cons.mpr ⟨.inl rfl, hus⟩⟩

/-- The target speed stays what it was set to. -/
theorem keeps_speed (hn : p.registers.Nodup) (h : p.Attempts target path outcome) :
    Path.writesTo (p.dbi PortLogic.linkControlStatus2) path = [] := by
  obtain ⟨us, made, hus⟩ := h.makes
  refine Path.writesTo_of_alters made.alters fun hm => ?_
  obtain ⟨u, hu, hregister⟩ := List.mem_map.mp hm
  rcases hus u hu with rfl | rfl
  · exact linkControl_ne hregister
  · exact ltssm_ne_link hn linkControl2_mem hregister

end Attempts

/-- `new` is written over `old` to raise the link to the target of the survey. -/
structure Survey.Raises (s : Survey) (p : Port) (old new : Word) : Prop where
  linked : s.Linked
  walked : Runs (Capability.find p.controller.config Capability.express) s.walk s.found
  below : s.current < s.target p
  ceiling : s.target p ≤ p.controller.maxSpeed
  field : Word.ControlReplaced LinkControl2.targetLinkSpeed (s.target p) old new

/-- The write of `v` raises the link. Right before it the link was surveyed and the register
read. -/
def Raises (p : Port) (recent : List Exchange) (v : Word) : Prop :=
  ∃ (s : Survey) (old : Word),
    recent = s.reads p ++ [⟨.read (p.dbi PortLogic.linkControlStatus2), old⟩] ∧ s.Raises p old v

namespace Survey.Decides

variable {outcome : Option RetrainOutcome}

theorem idle_or_raised (h : s.Decides p path outcome) :
    (∀ e ∈ path, e.command.Observes) ∨ ∃ o, outcome = some o ∧ o.isIdle = false := by
  by_cases hidle : ∀ o, outcome = some o → o.isIdle = true
  · exact .inl (h.idle hidle)
  · obtain ⟨o, ho⟩ := not_forall.mp hidle
    exact .inr ⟨o, by simpa using ho⟩

/-- A turn makes no updates but these. -/
theorem makes (h : s.Decides p path outcome) : ∃ us, Path.Makes [] us path ∧
    ∀ u ∈ us, u = p.speedUpdate (s.target p) ∨ u = p.retrainUpdate ∨ u = p.ltssmUpdate false := by
  rcases h.idle_or_raised with observes | ⟨o, ho, hidle⟩
  · exact ⟨[], .none fun e he => (observes e he).alters [], by simp⟩
  · obtain ⟨-, -, old, tail, rfl, attempts⟩ := h.raised o ho hidle
    obtain ⟨us, made, hus⟩ := attempts.makes
    have reads := reads_observe h.walked
    refine ⟨p.speedUpdate (s.target p) :: us,
      .prepend (.update old made) fun e he => (reads e he).alters [], ?_⟩
    exact List.forall_mem_cons.mpr ⟨.inl rfl, fun u hu => .inr (hus u hu)⟩

theorem alters (h : s.Decides p path outcome) :
    ∀ e ∈ path, e.command.Alters (p.ltssmRegister :: p.linkRegisters) := by
  obtain ⟨us, made, hus⟩ := h.makes
  intro e he
  refine (made.alters e he).mono fun a ha => ?_
  obtain ⟨u, hu, rfl⟩ := List.mem_map.mp ha
  rcases hus u hu with rfl | rfl | rfl
  · exact List.mem_cons_of_mem _ linkControl2_mem
  · exact List.mem_cons_of_mem _ linkControl_mem
  · exact List.mem_cons_self

/-- What a turn writes to the first register is a request to retrain. -/
theorem requests (hn : p.registers.Nodup) (h : s.Decides p path outcome) :
    Path.Modifies (p.dbi PortLogic.linkControlStatus)
      (Word.ControlReplaced LinkControl.retrainLink 1) path := by
  obtain ⟨us, made, hus⟩ := h.makes
  refine (made.modifies List.not_mem_nil).mono fun old new change => ?_
  obtain ⟨u, hu, hregister, rfl⟩ := change
  rcases hus u hu with rfl | rfl | rfl
  · exact absurd hregister linkControl_ne.symm
  · exact Word.controlReplaced_set (by decide) old
  · exact absurd hregister (ltssm_ne_link hn linkControl_mem)

/-- What it writes to the second one raises the link. -/
theorem raises (hn : p.registers.Nodup) (hc : p.controller.maxSpeed ≤ 5)
    (h : s.Decides p path outcome) :
    Path.Warranted (p.dbi PortLogic.linkControlStatus2) p.Raises path := by
  rcases h.idle_or_raised with observes | ⟨o, ho, hidle⟩
  · exact .of_writesTo
      (Path.writesTo_of_alters (fun e he => (observes e he).alters []) List.not_mem_nil)
  · obtain ⟨linked, below, old, tail, rfl, attempts⟩ := h.raised o ho hidle
    have ceiling : s.target p ≤ p.controller.maxSpeed := Nat.min_le_right _ _
    have fits : s.target p < 2 ^ LinkControl2.targetLinkSpeed.width :=
      Nat.lt_of_le_of_lt (ceiling.trans hc) (by decide)
    have quiet : Path.writesTo (p.dbi PortLogic.linkControlStatus2)
        (s.reads p ++ [⟨.read (p.dbi PortLogic.linkControlStatus2), old⟩]) = [] := by
      have reads := reads_observe h.walked
      rw [Path.writesTo_append,
        Path.writesTo_of_alters (fun e he => (reads e he).alters []) List.not_mem_nil]
      rfl
    have asked : Path.Warranted (p.dbi PortLogic.linkControlStatus2) p.Raises _ :=
      .write quiet ⟨s, old, rfl, linked, h.walked linked.1, below, ceiling,
        Word.controlReplaced_set fits old⟩
    have whole := asked.append (.of_writesTo (attempts.keeps_speed hn))
    simpa [Path.modified, speedUpdate] using whole

end Survey.Decides

end Port

namespace Host

variable {policy : RetrainPolicy} {patience : Nat} {path : List Exchange} {a : Address}
  {Q : List Exchange → Word → Prop}

/-! ## Any number of retrains -/

/-- What warrants the writes of each turn warrants those of a call. -/
theorem retrain_warranted {h next : Host} {reports : List RetrainReport}
    (hturn : ∀ c ∈ h.ports.map (·.controller), ∀ (v : Port.Survey) part outcome,
      v.Decides ⟨h.soc, c⟩ part outcome → Path.Warranted a Q part)
    (hr : Runs (h.retrain policy patience) path (some (next, reports))) :
    Path.Warranted a Q path := by
  obtain ⟨-, -, hcases⟩ := retrain_turns hr
  rcases hcases with ⟨-, -, event, rfl⟩ | ⟨-, turns, accounts, -⟩
  · exact .of_writesTo rfl
  · rw [accounts.path]
    refine .flatMap fun t ht => hturn t.state.controller ?_ _ _ _ (accounts.decided t ht)
    rw [← accounts.states]
    exact List.mem_map_of_mem (List.mem_map_of_mem ht)

theorem retrainAll_warranted {h last : Host} {policies : List RetrainPolicy}
    {calls : List (List RetrainReport)}
    (hturn : ∀ c ∈ h.ports.map (·.controller), ∀ (v : Port.Survey) part outcome,
      v.Decides ⟨h.soc, c⟩ part outcome → Path.Warranted a Q part)
    (hr : Runs (retrainAll patience h policies) path (some (last, calls))) :
    Path.Warranted a Q path := by
  induction policies generalizing h path last calls with
  | nil =>
    obtain ⟨rfl, -⟩ := runs_done.mp hr
    exact .of_writesTo rfl
  | cons policy rest ih =>
    obtain ⟨next, _, _, front, back, hfront, hback, rfl, -⟩ := retrainAll_cons hr
    -- the call before the others leaves the host with the ports that it had
    obtain ⟨hsoc, hcontrollers, -⟩ := retrain_turns hfront
    exact (retrain_warranted hturn hfront).append (ih (by rwa [hsoc, hcontrollers]) hback)

/-! ## All ports -/

section

variable {t : Topology} {c d : Controller}

/-- In a bring-up of all ports a register for the control of a link is updated by the request of
that port for the lowest speed, and is not written otherwise. -/
theorem bringUpPorts_link (hs : t.soc ∈ Soc.all) (hd : t.RegistersDistinct)
    (hc : c ∈ t.controllers) (ha : a ∈ Port.linkRegisters ⟨t.soc, c⟩) {states : List PortState}
    (h : Runs (bringUpPorts t.soc t.controllers) path states) :
    ∃ others us, Path.Makes others us path ∧ a ∉ others ∧
      ∀ u ∈ us, u.register = a → u = Port.speedUpdate ⟨t.soc, c⟩ LinkSpeed.gen1.code := by
  have hn := hd.nodup_registers hs hc
  have own : ∀ s ∈ states, a ∈ Port.registers ⟨t.soc, s.controller⟩ → s.controller = c := by
    intro s hmem hm
    have hstate : s.controller ∈ t.controllers := by
      rw [← controllers_of_bringUpPorts h]
      exact List.mem_map_of_mem hmem
    by_contra hne
    exact hd.disjoint_registers hc hstate (Ne.symm hne) (Port.linkRegisters_own ha) hm
  refine ⟨_, _, bringUpPorts_makes h, fun hm => ?_, fun u hu hregister => ?_⟩
  · obtain ⟨s, hmem, hraw⟩ := List.mem_flatMap.mp hm
    rw [own s hmem (Port.rawRegisters_registers _ hraw)] at hraw
    exact Port.raw_disjoint hn _ hraw (List.mem_append_right _ ha)
  · obtain ⟨s, hmem, hu⟩ := List.mem_flatMap.mp hu
    have updated := Port.bringUpUpdates_registers _ (List.mem_map_of_mem hu)
    rw [hregister] at updated
    rw [own s hmem (Port.updatedRegisters_registers updated)] at hu
    exact Port.eq_speedUpdate_of_link hn hu (hregister ▸ ha)

/-- A bring-up requests no retrain and asks for the lowest speed. -/
theorem bringUpPorts_lowest (hs : t.soc ∈ Soc.all) (hd : t.RegistersDistinct)
    (hc : c ∈ t.controllers) {states : List PortState}
    (h : Runs (bringUpPorts t.soc t.controllers) path states) :
    Path.writesTo (Port.dbi ⟨t.soc, c⟩ PortLogic.linkControlStatus) path = [] ∧
      Path.Modifies (Port.dbi ⟨t.soc, c⟩ PortLogic.linkControlStatus2)
        (Word.ControlReplaced LinkControl2.targetLinkSpeed 1) path := by
  constructor
  · obtain ⟨others, us, made, raw, only⟩ := bringUpPorts_link hs hd hc Port.linkControl_mem h
    refine Path.writesTo_of_alters made.alters fun hm => ?_
    rcases List.mem_append.mp hm with hm | hm
    · exact raw hm
    · obtain ⟨u, hu, hregister⟩ := List.mem_map.mp hm
      rw [only u hu hregister] at hregister
      exact Port.linkControl_ne hregister.symm
  · obtain ⟨others, us, made, raw, only⟩ := bringUpPorts_link hs hd hc Port.linkControl2_mem h
    refine (made.modifies raw).mono fun old new change => ?_
    obtain ⟨u, hu, hregister, rfl⟩ := change
    rw [only u hu hregister]
    exact Word.controlReplaced_set (by decide) old

/-- The turns of the other ports leave the registers for the control of a link alone. -/
theorem turn_warranted (hd : t.RegistersDistinct) (hc : c ∈ t.controllers)
    (hother : d ∈ t.controllers) (ha : a ∈ Port.linkRegisters ⟨t.soc, c⟩) {v : Port.Survey}
    {outcome : Option RetrainOutcome}
    (hown : v.Decides ⟨t.soc, c⟩ path outcome → Path.Warranted a Q path)
    (h : v.Decides ⟨t.soc, d⟩ path outcome) : Path.Warranted a Q path := by
  by_cases hcd : c = d
  · subst hcd
    exact hown h
  · refine .of_writesTo (Path.writesTo_of_alters h.alters fun hm => ?_)
    refine hd.disjoint_registers hc hother hcd (Port.linkRegisters_own ha) ?_
    rcases List.mem_cons.mp hm with rfl | hm
    · exact List.mem_cons_self
    · exact List.cons_subset_cons _ (List.subset_append_left _ _) (Port.linkRegisters_own hm)

end

end Host

/-- How a bring-up, and the retrains after it, write the registers for the control of the link.
A bring-up requests no retrain. -/
structure Port.ControlsLink (p : Port) (front back : List Exchange) : Prop where
  ceiling : 1 ≤ p.controller.maxSpeed ∧ p.controller.maxSpeed ≤ 5
  unrequested : Path.writesTo (p.dbi PortLogic.linkControlStatus) front = []
  lowest : Path.Modifies (p.dbi PortLogic.linkControlStatus2)
    (Word.ControlReplaced LinkControl2.targetLinkSpeed 1) front
  requests : Path.Modifies (p.dbi PortLogic.linkControlStatus)
    (Word.ControlReplaced LinkControl.retrainLink 1) back
  raises : Path.Warranted (p.dbi PortLogic.linkControlStatus2) p.Raises back

/-- Whatever the hardware answers, no status bit of a link is cleared by a write of its control.
Its target speed is the lowest in a bring-up, and a retrain raises it within the ceiling of the
port. -/
theorem link_control_bounded {soc : Soc} (hs : soc ∈ Soc.all) {nodes : List Node}
    (hd : (Topology.load soc nodes).RegistersDistinct) {policies : List RetrainPolicy}
    (hp : ∀ policy ∈ policies, 0 < policy.pollInterval) {patience : Nat}
    {front back : List Exchange} {first : Host}
    {result : Option (Host × List (List RetrainReport))}
    (hbring : Runs (Host.bringUp (Topology.load soc nodes)) front first)
    (hretrain : Runs (Host.retrainAll patience first policies) back result) :
    (∃ last calls, result = some (last, calls)) ∧
    ∀ c ∈ (Topology.load soc nodes).controllers, Port.ControlsLink ⟨soc, c⟩ front back := by
  obtain ⟨hports, hsoc, -⟩ := Host.bringUp_ports hbring
  have hcs := Host.controllers_of_bringUpPorts hports
  have ready : Controller.Independent first.soc (first.ports.map (·.controller)) := by
    rw [hsoc, hcs]
    exact hd.independent hs
  obtain ⟨last, calls, rfl, -⟩ := Host.retrainAll_leaves ready hp hretrain
  refine ⟨⟨last, calls, rfl⟩, fun c hc => ?_⟩
  have hn := hd.nodup_registers hs hc
  have speed := (Topology.encodable hc).speed
  obtain ⟨unrequested, lowest⟩ := Host.bringUpPorts_lowest hs hd hc hports
  refine ⟨speed, unrequested, lowest, ?_, ?_⟩
  · refine Path.modifies_iff_warranted.mpr (Host.retrainAll_warranted ?_ hretrain)
    rw [hsoc, hcs]
    intro d hother v part outcome
    exact Host.turn_warranted hd hc hother Port.linkControl_mem fun own =>
      Path.modifies_iff_warranted.mp (own.requests hn)
  · refine Host.retrainAll_warranted ?_ hretrain
    rw [hsoc, hcs]
    intro d hother v part outcome
    exact Host.turn_warranted hd hc hother Port.linkControl2_mem fun own => own.raises hn speed.2

/-- The link is asked for the lowest speed, then for the third and for a retrain. The status that
was read is not written back, and the other bit of the control is. -/
theorem link_control_bounded_example :
    (Topology.load Bm1000.soc [exampleNode]).RegistersDistinct ∧
    ∃ front first back last calls,
      Runs (Host.bringUp (Topology.load Bm1000.soc [exampleNode])) front first ∧
      Runs (Host.retrainAll 0 first [.standard]) back (some (last, calls)) ∧
      Path.writesTo 0x032000A0 front = [0x41] ∧ Path.writesTo 0x032000A0 back = [0x43] ∧
      Path.writesTo 0x03200080 back = [0x60] ∧
      Port.ControlsLink ⟨Bm1000.soc, exampleController⟩ front back := by
  have hs : Bm1000.soc ∈ Soc.all := List.mem_cons_self
  have hd := registersDistinct_exampleNode
  have hc : exampleController ∈ (Topology.load Bm1000.soc [exampleNode]).controllers := by
    rw [load_exampleNode]
    exact List.mem_cons_self
  have hp : ∀ policy ∈ [RetrainPolicy.standard], 0 < policy.pollInterval := by decide
  let bringUp := Host.bringUp (Topology.load Bm1000.soc [exampleNode])
  let first := (bringUp.run raisingPlatform false).1
  let retrains := Host.retrainAll 0 first [.standard]
  have hfront := runs_exchanges raisingPlatform bringUp false
  have hback := runs_exchanges raisingPlatform retrains (bringUp.run raisingPlatform false).2
  have lowest : Path.writesTo 0x032000A0 (bringUp.exchanges raisingPlatform false) = [0x41] := by
    decide +kernel
  have raised : (Path.writesTo 0x032000A0 (retrains.exchanges raisingPlatform
        (bringUp.run raisingPlatform false).2),
      Path.writesTo 0x03200080 (retrains.exchanges raisingPlatform
        (bringUp.run raisingPlatform false).2)) = ([0x43], [0x60]) := by decide +kernel
  obtain ⟨⟨last, calls, hresult⟩, controls⟩ := link_control_bounded hs hd hp hfront hback
  rw [hresult] at hback
  obtain ⟨target, request⟩ := Prod.mk.inj raised
  exact ⟨hd, _, first, _, last, calls, hfront, hback, lowest, target, request, controls _ hc⟩

end RootComplex
