import RootComplex.Proofs.FirstClaim
import RootComplex.Proofs.RetrainReports

/-! # The published state

What a host tells of its controllers. A retrain changes the highest speed of a port and
nothing else that is published, and that speed is accounted for by the bring-up and the
reports. -/

namespace RootComplex

open Program

namespace DevicePath

/-- The number that bytes stand for, the lowest first. -/
def numberOf : List UInt8 → Nat
  | [] => 0
  | b :: rest => b.toNat + 256 * numberOf rest

/-- The UID of the ACPI node that a device path begins with. -/
def uid (path : List UInt8) : Nat := numberOf ((path.drop 8).take 4)

theorem numberOf_littleEndian (w : Word) : numberOf (littleEndian w) = w.toNat := by
  have hw := w.isLt
  simp [littleEndian, numberOf, Nat.shiftRight_eq_div_pow]
  omega

theorem uid_ofSegment {segment : Nat} (h : segment < 2 ^ 32) :
    uid (ofSegment segment) = segment := by
  have field : ((ofSegment segment).drop 8).take 4 = littleEndian (BitVec.ofNat 32 segment) := rfl
  rw [uid, field, numberOf_littleEndian, BitVec.toNat_ofNat, Nat.mod_eq_of_lt h]

end DevicePath

namespace PortState

/-- The state when the link was seen with more speeds. -/
def raised (s : PortState) (speeds : List Nat) : PortState :=
  { s with maxSpeedSeen := (s.maxSpeedSeen.toList ++ speeds).max? }

@[simp] theorem raised_index (s : PortState) (speeds : List Nat) :
    (s.raised speeds).index = s.index := rfl

@[simp] theorem raised_nil (s : PortState) : s.raised [] = s := by
  obtain ⟨c, reset, outcome, filterWorks, seen⟩ := s
  cases seen <;> rfl

/-- The maximum of a list stands for the list. -/
theorem max?_toList_append (front back : List Nat) :
    (front.max?.toList ++ back).max? = (front ++ back).max? := by
  cases front with
  | nil => rfl
  | cons a rest =>
    rw [List.max?_cons', Option.toList_some, List.singleton_append, List.cons_append,
      List.max?_cons', List.max?_cons', List.foldl_append]

theorem raised_raised (s : PortState) (front back : List Nat) :
    (s.raised front).raised back = s.raised (front ++ back) := by
  unfold raised
  rw [max?_toList_append, List.append_assoc]

theorem afterRetrain_eq (s : PortState) (outcome : RetrainOutcome) :
    s.afterRetrain outcome = s.raised outcome.speed?.toList := by
  unfold afterRetrain
  cases outcome.speed? with
  | none => exact s.raised_nil.symm
  | some speed =>
    unfold raised
    cases s.maxSpeedSeen with
    | none => simp
    | some seen => simp

end PortState

namespace Host

variable {soc : Soc} {policy : RetrainPolicy} {patience : Nat} {path : List Exchange}

/-- The speeds that reports tell of links of a controller that were retrained. -/
def speedsIn (reports : List RetrainReport) (index : Nat) : List Nat :=
  (reports.filter (·.controller == index)).filterMap (·.outcome.speed?)

theorem speedsIn_append (front back : List RetrainReport) (index : Nat) :
    speedsIn (front ++ back) index = speedsIn front index ++ speedsIn back index := by
  rw [speedsIn, List.filter_append, List.filterMap_append]
  rfl

theorem speedsIn_of_not_mem {reports : List RetrainReport} {index : Nat}
    (h : index ∉ reports.map (·.controller)) : speedsIn reports index = [] := by
  have none : reports.filter (·.controller == index) = [] := by
    refine List.filter_eq_nil_iff.mpr fun r hr hindex => h ?_
    rw [← beq_iff_eq.mp hindex]
    exact List.mem_map_of_mem hr
  rw [speedsIn, none, List.filterMap_nil]

/-- What the turn of a port does to its state, by its own report. -/
theorem elim_afterRetrain (s : PortState) (outcome : Option RetrainOutcome) :
    outcome.elim s s.afterRetrain =
      s.raised (speedsIn (outcome.map (RetrainReport.mk s.index)).toList s.index) := by
  cases outcome with
  | none => exact s.raised_nil.symm
  | some o =>
    rw [Option.elim_some, s.afterRetrain_eq]
    cases hspeed : o.speed? <;> simp [speedsIn, hspeed]

/-- Each port is raised by the speeds in the reports on it. -/
theorem retrainPorts_raised {ports : List PortState}
    {result : Option (List PortState × List RetrainReport)}
    (hn : (ports.map (·.index)).Nodup) (hp : 0 < policy.pollInterval)
    (h : Runs (retrainPorts soc policy patience ports) path result) :
    ∃ reports, result = some (ports.map fun s => s.raised (speedsIn reports s.index), reports) ∧
      reports.map (·.controller) ⊆ ports.map (·.index) := by
  induction ports generalizing path result with
  | nil => exact ⟨[], (runs_done.mp h).2, List.Subset.refl _⟩
  | cons s rest ih =>
    obtain ⟨hs, hrest⟩ := List.nodup_cons.mp hn
    obtain ⟨r, front, tail, hfront, rfl, hend⟩ := retrainPorts_cons h
    obtain ⟨_, hr⟩ := retrainPort_some hp hfront
    rcases hend with ⟨rfl, -⟩ | ⟨outcome, others, -, htail, rfl⟩
    · cases hr
    obtain ⟨reports, rfl, hreports⟩ := ih hrest htail
    let own := (outcome.map (RetrainReport.mk s.index)).toList
    have hown : own.map (·.controller) ⊆ [s.index] := by
      cases outcome <;> simp [own]
    refine ⟨own ++ reports, ?_, ?_⟩
    · have first : speedsIn (own ++ reports) s.index = speedsIn own s.index := by
        rw [speedsIn_append, speedsIn_of_not_mem fun hm => hs (hreports hm), List.append_nil]
      have later : rest.map (fun t => t.raised (speedsIn (own ++ reports) t.index)) =
          rest.map fun t => t.raised (speedsIn reports t.index) := by
        refine List.map_congr_left fun t ht => ?_
        have other : t.index ∉ own.map (·.controller) := by
          intro hm
          have hindex : t.index = s.index := List.mem_singleton.mp (hown hm)
          exact hs (List.mem_map.mpr ⟨t, ht, hindex⟩)
        rw [speedsIn_append, speedsIn_of_not_mem other, List.nil_append]
      rw [List.map_cons, first, later, ← elim_afterRetrain]
      rfl
    · rw [List.map_append, List.map_cons]
      refine List.append_subset.mpr ⟨?_, List.subset_cons_of_subset _ hreports⟩
      exact List.Subset.trans hown (List.cons_subset_cons _ (List.nil_subset _))

/-- The host when its ports were seen with the speeds in these reports. -/
def raised (h : Host) (reports : List RetrainReport) : Host :=
  { h with ports := h.ports.map fun s => s.raised (speedsIn reports s.index) }

theorem raised_index (h : Host) (reports : List RetrainReport) :
    (h.raised reports).ports.map (·.index) = h.ports.map (·.index) :=
  List.map_map

theorem raised_nil (h : Host) : h.raised [] = h := by
  have same : (fun s : PortState => s.raised (speedsIn [] s.index)) = id :=
    funext fun s => s.raised_nil
  rw [raised, same, List.map_id]

theorem raised_raised (h : Host) (front back : List RetrainReport) :
    (h.raised front).raised back = h.raised (front ++ back) := by
  simp [raised, Function.comp_def, PortState.raised_raised, speedsIn_append]

theorem retrain_raised {h : Host} {result : Option (Host × List RetrainReport)}
    (hn : (h.ports.map (·.index)).Nodup) (hp : 0 < policy.pollInterval)
    (hr : Runs (h.retrain policy patience) path result) :
    ∃ reports, result = some (h.raised reports, reports) ∧
      reports.map (·.controller) ⊆ h.ports.map (·.index) := by
  rcases retrain_cases hr with ⟨-, r, hports, rfl⟩ | ⟨-, -, rfl⟩
  · obtain ⟨reports, rfl, hreports⟩ := retrainPorts_raised hn hp hports
    exact ⟨reports, rfl, hreports⟩
  · refine ⟨[], ?_, List.nil_subset _⟩
    rw [h.raised_nil]

/-- The induction is on the calls; the numbers of the ports stay what they are. -/
theorem retrainAll_raised {h : Host} {policies : List RetrainPolicy}
    {result : Option (Host × List (List RetrainReport))}
    (hn : (h.ports.map (·.index)).Nodup) (hp : ∀ policy ∈ policies, 0 < policy.pollInterval)
    (hr : Runs (retrainAll patience h policies) path result) :
    ∃ calls, result = some (h.raised calls.flatten, calls) ∧ calls.length = policies.length ∧
      calls.flatten.map (·.controller) ⊆ h.ports.map (·.index) := by
  induction policies generalizing h path result with
  | nil =>
    refine ⟨[], ?_, rfl, List.nil_subset _⟩
    rw [List.flatten_nil, h.raised_nil]
    exact (runs_done.mp hr).2
  | cons policy rest ih =>
    obtain ⟨hfirst, hrest⟩ := List.forall_mem_cons.mp hp
    obtain ⟨r, front, _, hfront, h₁, rfl⟩ := hr.bind
    obtain ⟨reports, rfl, hreports⟩ := retrain_raised hn hfirst hfront
    obtain ⟨r, back, last, hback, h₂, rfl⟩ := h₁.bind
    rw [← h.raised_index reports] at hn
    obtain ⟨calls, rfl, hlength, hcalls⟩ := ih hn hrest hback
    rw [h.raised_index] at hcalls
    refine ⟨reports :: calls, ?_, by rw [List.length_cons, List.length_cons, hlength], ?_⟩
    · rw [List.flatten_cons, ← raised_raised]
      exact (runs_done.mp h₂).2
    · rw [List.flatten_cons, List.map_append]
      exact List.append_subset.mpr ⟨hreports, hcalls⟩

/-! ## What is published -/

section Views

variable (h : Host) (reports : List RetrainReport) (index : Nat)

theorem port?_raised : (h.raised reports).port? index =
    (h.port? index).map fun s => s.raised (speedsIn reports index) := by
  rw [port?, raised, List.find?_map]
  show ((h.ports.find? (·.index == index)).map _) = (h.ports.find? (·.index == index)).map _
  cases hs : h.ports.find? (·.index == index) with
  | none => rfl
  | some s =>
    have hindex := List.find?_some hs
    rw [Option.map_some, Option.map_some, beq_iff_eq.mp hindex]

theorem outcome?_raised : (h.raised reports).outcome? index = h.outcome? index := by
  rw [outcome?, port?_raised, Option.map_map]
  rfl

theorem resetReport?_raised : (h.raised reports).resetReport? index = h.resetReport? index := by
  rw [resetReport?, port?_raised, Option.map_map]
  rfl

theorem filterWorks_raised : (h.raised reports).filterWorks index = h.filterWorks index := by
  rw [filterWorks, filterWorks, port?_raised]
  cases h.port? index <;> rfl

theorem maxSpeedSeen?_raised : (h.raised reports).maxSpeedSeen? index =
    (h.port? index).bind fun s => (s.maxSpeedSeen.toList ++ speedsIn reports index).max? := by
  rw [maxSpeedSeen?, port?_raised, Option.bind_map]
  rfl

end Views

/-! ## The bitmap -/

theorem getLsbD_foldl {n : Nat} (hn : n < 32) (ports : List PortState) (bits : Word) :
    (ports.foldl (fun (bits : Word) s => bits ||| 1 <<< s.index) bits).getLsbD n =
      (bits.getLsbD n || ports.any (·.index == n)) := by
  induction ports generalizing bits with
  | nil => simp
  | cons s rest ih =>
    have bit : (BitVec.ofNat 32 (1 <<< s.index)).getLsbD n = (s.index == n) := by
      rw [BitVec.getLsbD_ofNat, Nat.one_shiftLeft, Nat.testBit_two_pow, decide_eq_true hn,
        Bool.true_and]
      rfl
    rw [List.foldl_cons, ih, BitVec.getLsbD_or, List.any_cons, ← bit, Bool.or_assoc]
    rfl

theorem filterBitmap_getLsbD {h : Host} (hn : (h.ports.map (·.index)).Nodup) {n : Nat}
    (h32 : n < 32) : h.filterBitmap.getLsbD n = h.filterWorks n := by
  have zero : (0 : Word).getLsbD n = false := BitVec.getLsbD_zero
  rw [filterBitmap, getLsbD_foldl h32, zero, Bool.false_or, Bool.eq_iff_iff, List.any_eq_true,
    filterWorks]
  cases hs : h.port? n with
  | none =>
    have other := List.find?_eq_none.mp hs
    refine ⟨fun ⟨t, ht, htn⟩ => ?_, fun hf => ?_⟩
    · exact absurd htn (other t (List.mem_of_mem_filter ht))
    · cases hf
  | some s =>
    have hmem := List.mem_of_find?_eq_some hs
    have hindex := List.find?_some hs
    refine ⟨fun ⟨t, ht, htn⟩ => ?_, fun works => ⟨s, List.mem_filter.mpr ⟨hmem, works⟩, hindex⟩⟩
    obtain ⟨ht, works⟩ := List.mem_filter.mp ht
    have same : t.index = s.index := (beq_iff_eq.mp htn).trans (beq_iff_eq.mp hindex).symm
    rwa [← List.inj_on_of_nodup_map hn ht hmem same]

/-! ## After a bring-up -/

/-- The speeds that the link of a controller came up with and was retrained to. -/
def speedsSeen (first : Host) (reports : List RetrainReport) (index : Nat) : List Nat :=
  ((first.outcome? index).bind (·.speed?)).toList ++ speedsIn reports index

/-- A host publishes what the bring-up found, and of the retrains since then the speeds in their
reports. -/
structure Publishes (t : Topology) (first : Host) (reports : List RetrainReport) (last : Host) :
    Prop where
  /-- There is one bridge for each controller, whatever became of its link. -/
  bridges : last.bridges = t.controllers.map RootBridge.ofController
  unchanged : last.bridges = first.bridges
  ordered : (last.bridges.map (·.segment)).Pairwise (· < ·)
  segments : last.bridges.map (·.segment) = t.controllers.map (·.index)
  uids : last.bridges.map (fun b => DevicePath.uid b.devicePath) = t.controllers.map (·.index)
  outcomes : ∀ n, last.outcome? n = first.outcome? n
  resets : ∀ n, last.resetReport? n = first.resetReport? n
  filters : ∀ n, last.filterWorks n = first.filterWorks n
  bitmap : ∀ n < 32, last.filterBitmap.getLsbD n = last.filterWorks n
  /-- Only a link that came up has a filter that works. -/
  up : ∀ n, last.filterWorks n = true → ∃ outcome, last.outcome? n = some outcome ∧ outcome.isUp
  speeds : ∀ n, last.maxSpeedSeen? n = (first.speedsSeen reports n).max?

end Host

/-- Without a link there is no probe. -/
theorem PortState.isUp_of_filterWorks {soc : Soc} {c : Controller} {path : List Exchange}
    {s : PortState} (h : Runs (PortState.bringUp soc c) path s) (works : s.filterWorks = true) :
    s.outcome.isUp = true := by
  obtain ⟨_, _, _, _, -, -, hprobe, -⟩ := bringUp_stages h
  split at hprobe
  · assumption
  · rw [(runs_done.mp hprobe).2] at works
    cases works

namespace Host

variable {t : Topology} {path : List Exchange} {first : Host}

theorem speeds_raised (h : Runs (bringUp t) path first) {reports : List RetrainReport}
    (hr : reports.map (·.controller) ⊆ first.ports.map (·.index)) (n : Nat) :
    (first.raised reports).maxSpeedSeen? n = (first.speedsSeen reports n).max? := by
  rw [maxSpeedSeen?_raised, speedsSeen, outcome?]
  cases hs : first.port? n with
  | none =>
    have unknown : n ∉ reports.map (·.controller) := by
      intro hm
      obtain ⟨s, hmem, rfl⟩ := List.mem_map.mp (hr hm)
      simpa using List.find?_eq_none.mp hs s hmem
    rw [speedsIn_of_not_mem unknown]
    rfl
  | some s =>
    obtain ⟨_, brought⟩ := brought_of_mem (bringUp_ports h).1 (List.mem_of_find?_eq_some hs)
    obtain ⟨_, _, _, _, -, -, -, -, hspeed, -⟩ := PortState.bringUp_stages brought
    rw [Option.bind_some, Option.map_some, Option.bind_some, hspeed]

theorem indices_of_bringUp (h : Runs (bringUp t) path first) :
    first.ports.map (·.index) = t.controllers.map (·.index) := by
  rw [← controllers_of_bringUpPorts (bringUp_ports h).1, List.map_map]
  rfl

theorem publishes_raised (h : Runs (bringUp t) path first)
    (hn : t.controllers.Pairwise (·.index < ·.index))
    (hindex : ∀ c ∈ t.controllers, c.index < 2 ^ 32) {reports : List RetrainReport}
    (hr : reports.map (·.controller) ⊆ first.ports.map (·.index)) :
    Publishes t first reports (first.raised reports) := by
  obtain ⟨hports, -, hbridges⟩ := bringUp_ports h
  have hcontrollers := controllers_of_bringUpPorts hports
  have bridges : first.bridges = t.controllers.map RootBridge.ofController := by
    rw [hbridges, ← hcontrollers, List.map_map]
    rfl
  have segments : first.bridges.map (·.segment) = t.controllers.map (·.index) := by
    rw [bridges, List.map_map]
    rfl
  have ordered : (t.controllers.map (·.index)).Pairwise (· < ·) := List.pairwise_map.mpr hn
  have distinct : ((first.raised reports).ports.map (·.index)).Nodup := by
    rw [raised_index, indices_of_bringUp h]
    exact ordered.imp Nat.ne_of_lt
  refine ⟨bridges, rfl, ?_, segments, ?_, first.outcome?_raised reports,
    first.resetReport?_raised reports, first.filterWorks_raised reports,
    fun n hn => filterBitmap_getLsbD distinct hn, fun n works => ?_, speeds_raised h hr⟩
  · show (first.bridges.map (·.segment)).Pairwise (· < ·)
    rwa [segments]
  · show first.bridges.map _ = _
    rw [bridges, List.map_map]
    exact List.map_congr_left fun c hc => DevicePath.uid_ofSegment (hindex c hc)
  · rw [filterWorks_raised, filterWorks] at works
    rw [outcome?_raised, outcome?]
    cases hs : first.port? n with
    | none =>
      rw [hs] at works
      cases works
    | some s =>
      rw [hs] at works
      obtain ⟨_, brought⟩ := brought_of_mem hports (List.mem_of_find?_eq_some hs)
      exact ⟨s.outcome, rfl, PortState.isUp_of_filterWorks brought works⟩

/-- More speeds do not lower the highest. -/
theorem maxSpeedSeen?_mono {h : Host} {n speed : Nat} (hs : h.maxSpeedSeen? n = some speed)
    (reports : List RetrainReport) :
    ∃ higher, (h.raised reports).maxSpeedSeen? n = some higher ∧ speed ≤ higher := by
  obtain ⟨s, hport, hseen⟩ := Option.bind_eq_some_iff.mp hs
  rw [maxSpeedSeen?_raised, hport, Option.bind_some, hseen]
  have hmem : speed ∈ [speed] ++ speedsIn reports n := List.mem_cons_self
  obtain ⟨higher, hmax⟩ := Option.isSome_iff_exists.mp (List.isSome_max?_of_mem hmem)
  exact ⟨higher, hmax, (List.max?_eq_some_iff.mp hmax).2 speed hmem⟩

end Host

/-- What a host publishes is consistent and stays so, whatever the hardware does. After a bring-up
and any number of retrains there is one bridge for each controller, under its number, in growing
order. Outcomes, reset reports, filters and bridges are what the bring-up found, the bitmap shows
the filters, and the highest speed of a controller is that of its bring-up and of all reports of
its retrains; another retrain does not lower it. -/
theorem published_state {soc : Soc} (hs : soc ∈ Soc.all) {nodes : List Node}
    {policies : List RetrainPolicy} (hp : ∀ policy ∈ policies, 0 < policy.pollInterval)
    {patience : Nat} {front back : List Exchange} {first : Host}
    {result : Option (Host × List (List RetrainReport))}
    (hbring : Runs (Host.bringUp (Topology.load soc nodes)) front first)
    (hretrain : Runs (Host.retrainAll patience first policies) back result) :
    ∃ last calls, result = some (last, calls) ∧ calls.length = policies.length ∧
      Host.Publishes (Topology.load soc nodes) first calls.flatten last ∧
      ∀ policy : RetrainPolicy, 0 < policy.pollInterval → ∀ patience path next reports,
        Runs (last.retrain policy patience) path (some (next, reports)) →
        ∀ n speed, last.maxSpeedSeen? n = some speed →
          ∃ higher, next.maxSpeedSeen? n = some higher ∧ speed ≤ higher := by
  have distinct : (first.ports.map (·.index)).Nodup := by
    rw [Host.indices_of_bringUp hbring]
    exact Topology.nodup_index
  have small : ∀ c ∈ (Topology.load soc nodes).controllers, c.index < 2 ^ 32 := by
    intro c hc
    have few : ∀ soc ∈ Soc.all, soc.controllers < 2 ^ 32 := by decide
    exact Nat.lt_trans (Topology.index_lt hs hc) (few soc hs)
  obtain ⟨calls, rfl, hlength, hcalls⟩ := Host.retrainAll_raised distinct hp hretrain
  refine ⟨_, calls, rfl, hlength,
    Host.publishes_raised hbring Topology.pairwise_index small hcalls,
    fun policy hpolicy patience path next reports hnext n speed hspeed => ?_⟩
  rw [← first.raised_index calls.flatten] at distinct
  obtain ⟨reports', hresult, -⟩ := Host.retrain_raised distinct hpolicy hnext
  cases hresult
  exact Host.maxSpeedSeen?_mono hspeed reports

/-- The link comes up at the lowest speed and is raised to the third. -/
theorem published_state_example :
    ∃ front first back last calls,
      Runs (Host.bringUp (Topology.load Bm1000.soc [exampleNode])) front first ∧
      Runs (Host.retrainAll 0 first [.standard]) back (some (last, calls)) ∧
      Host.Publishes (Topology.load Bm1000.soc [exampleNode]) first calls.flatten last ∧
      first.maxSpeedSeen? 1 = some 1 ∧ last.maxSpeedSeen? 1 = some 3 := by
  have hs : Bm1000.soc ∈ Soc.all := List.mem_cons_self
  have hp : ∀ policy ∈ [RetrainPolicy.standard], 0 < policy.pollInterval := by decide
  let bringUp := Host.bringUp (Topology.load Bm1000.soc [exampleNode])
  let first := (bringUp.run raisingPlatform false).1
  let after := (bringUp.run raisingPlatform false).2
  let retrains := Host.retrainAll 0 first [.standard]
  have hslow : first.maxSpeedSeen? 1 = some 1 := by decide +kernel
  have hfast : ((retrains.run raisingPlatform after).1.map fun r => r.1.maxSpeedSeen? 1) =
      some (some 3) := by decide +kernel
  have hfront := runs_exchanges raisingPlatform bringUp false
  have hback := runs_exchanges raisingPlatform retrains after
  obtain ⟨last, calls, hresult, -, publishes, -⟩ := published_state hs hp hfront hback
  rw [hresult] at hfast hback
  exact ⟨_, first, _, last, calls, hfront, hback, publishes, hslow, Option.some.inj hfast⟩

end RootComplex
