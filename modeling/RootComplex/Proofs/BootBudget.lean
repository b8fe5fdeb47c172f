import RootComplex.Proofs.ResetSequence
import RootComplex.Proofs.Spending

/-! # The boot budget

How long a bring-up stalls at most, whatever the hardware does. Each stage has a bound of its
own, and most stages do not stall at all. -/

namespace RootComplex

open Program

theorem Path.stalled_eq_cost (path : List Exchange) :
    stalled path = cost Command.stallTime path := by
  induction path with
  | nil => rfl
  | cons e path ih =>
    obtain ⟨c, answer⟩ := e
    cases c with
    | stall t => exact congrArg (t + ·) ih
    | _ => simpa [stalled, cost, Command.stallTime] using ih

namespace Soc

/-- The longest wait for the end of a reset. -/
def resetWait (soc : Soc) : Duration :=
  soc.control.resetDone.elim 0 fun done => done.polls * done.interval

/-- The longest wait for one handshake of the PHY port. -/
def handshakeWait : Duration := PhyPort.polls * .microseconds PhyPort.pollMicroseconds

/-- The longest wait for the PHY port: one handshake for each read of a tuned register and
two for each write. -/
def phyWait (soc : Soc) : Duration := soc.phyTuning.length * (3 * handshakeWait)

/-- What one controller may stall. Only a link that is up is probed. -/
def bootBudget (soc : Soc) (up : Bool) : Duration :=
  soc.reset.hold + soc.resetWait + soc.phyWait + 2 * soc.linkUpTimeout + .milliseconds 1 +
    if up then .seconds 1 else 0

end Soc

namespace Program

/-- No path of the program stalls longer. -/
abbrev Stalls (most : Duration) {α : Type} (p : Program α) : Prop :=
  p.Spends Command.stallTime most

theorem Spends.quick_modify {a : Address} {f : Word → Word} : (Program.modify a f).Stalls 0 := by
  have free : (Program.modify a f).Stalls (Command.stallTime (.read a) + 0) :=
    .modify a f fun _ => Nat.le_refl 0
  exact free

end Program

/-! ## The PHY port -/

namespace Phy

variable {dbi : Address} {lanes : Word}

theorem await_stalls (address polls : Nat) (last : Word) :
    (await dbi address polls last).Stalls (polls * .microseconds PhyPort.pollMicroseconds) := by
  induction polls generalizing last with
  | zero => exact .done _
  | succ polls ih =>
    rw [Nat.succ_mul, Nat.add_comm]
    refine .free_bind (.command (.read _)) fun status => ?_
    split
    · exact .done _
    · exact .bind (.command (.stall _)) fun _ => ih status

theorem select_stalls (address : Nat) (writes : Bool) :
    (select dbi lanes address writes).Stalls 0 :=
  .free_bind (.command (.write _ _)) fun _ => .command (.write _ _)

theorem read_stalls (address : Nat) : (read dbi lanes address).Stalls Soc.handshakeWait := by
  refine .free_bind (select_stalls address false) fun _ =>
    .bind_free (await_stalls address _ 0) fun result => ?_
  cases result with
  | error e => exact .done _
  | ok _ => exact .free_bind (.command (.read _)) fun _ => .done _

theorem write_stalls (address : Nat) (value : Word) :
    (write dbi lanes address value).Stalls (Soc.handshakeWait + Soc.handshakeWait) := by
  refine .free_bind (select_stalls address true) fun _ =>
    .bind (await_stalls address _ 0) fun result => ?_
  cases result with
  | error e => exact .done _
  | ok _ => exact .free_bind (.command (.write _ _)) fun _ => await_stalls address _ 0

theorem adjust_stalls (t : PhyTuning) : (adjust dbi lanes t).Stalls (3 * Soc.handshakeWait) := by
  have three (n : Nat) : n + (n + n) = 3 * n := by omega
  rw [← three]
  refine .bind (read_stalls t.address) fun result => ?_
  cases result with
  | error e => exact .done _
  | ok current =>
    refine .bind_free (write_stalls t.address _) fun result => ?_
    cases result with
    | error e => exact .done _
    | ok _ => exact .free_bind (.command (.report _)) fun _ => .done _

theorem tune_stalls (table : List PhyTuning) :
    (tune dbi lanes table).Stalls (table.length * (3 * Soc.handshakeWait)) := by
  induction table with
  | nil => exact .done _
  | cons t rest ih =>
    rw [List.length_cons, Nat.succ_mul, Nat.add_comm]
    refine .bind (adjust_stalls t) fun result => ?_
    cases result with
    | error e => exact .done _
    | ok _ => exact ih

end Phy

/-! ## Reset and configuration -/

namespace Port

variable {p : Port}

theorem assertPerst_stalls : p.assertPerst.Stalls 0 := by
  unfold assertPerst
  split
  · exact .free_bind .quick_modify fun _ => .quick_modify
  · exact .done _

theorem deassertPerst_stalls : p.deassertPerst.Stalls 0 := by
  unfold deassertPerst
  split
  · exact .quick_modify
  · exact .done _

theorem cycleReset_stalls : p.cycleReset.Stalls p.soc.reset.hold :=
  .free_bind .quick_modify fun _ => .bind_free (.command (.stall _)) fun _ => .quick_modify

theorem pollResetDone_stalls (done : ResetDone) (polls : Nat) :
    (p.pollResetDone done polls).Stalls (polls * done.interval) := by
  induction polls with
  | zero => exact .done _
  | succ polls ih =>
    rw [Nat.succ_mul, Nat.add_comm]
    refine .free_bind (.command (.read _)) fun status => ?_
    split
    · exact .done _
    · exact .bind (.command (.stall _)) fun _ => ih

theorem warnResetDone_stalls (done : ResetDone) : (p.warnResetDone done).Stalls 0 := by
  refine .free_bind (.command (.listens _)) fun heard => ?_
  split
  · exact .free_bind (.command (.read _)) fun _ => .command (.report _)
  · exact .done _

theorem awaitResetDone_stalls : p.awaitResetDone.Stalls p.soc.resetWait := by
  unfold awaitResetDone Soc.resetWait
  cases p.soc.control.resetDone with
  | none => exact .done _
  | some done =>
    refine .bind_free (pollResetDone_stalls done done.polls) fun finished => ?_
    split
    · exact .done _
    · exact .free_bind (warnResetDone_stalls done) fun _ => .done _

theorem tunePhy_stalls : p.tunePhy.Stalls p.soc.phyWait := by
  unfold tunePhy
  split
  · exact .done _
  · refine .bind_free (Phy.tune_stalls _) fun result => ?_
    cases result with
    | error e => exact .free_bind (.command (.report _)) fun _ => .done _
    | ok _ => exact .done _

theorem routeMsi_stalls : p.routeMsi.Stalls 0 := by
  unfold routeMsi
  split
  · exact .free_bind .quick_modify fun _ => .command (.report _)
  · exact .done _

theorem programLanes_stalls (lanes : LaneCount) : (p.programLanes lanes).Stalls 0 := by
  unfold programLanes
  refine .free_bind .quick_modify fun _ => ?_
  split
  · exact .free_bind .quick_modify fun _ => .quick_modify
  · exact .quick_modify

theorem describe_stalls : p.describe.Stalls 0 := by
  unfold describe
  refine .free_bind .quick_modify fun _ => .free_bind .quick_modify fun _ => ?_
  split
  · exact .free_bind (programLanes_stalls _) fun _ => .quick_modify
  · exact .quick_modify

theorem writeWindow_stalls (w : OutboundWindow) (index : Nat) (dbi : Address) :
    (w.write p.soc index dbi).Stalls 0 := by
  have select : (OutboundWindow.select p.soc dbi w.region).Stalls 0 := by
    unfold OutboundWindow.select
    split
    · exact .command (.write _ _)
    · exact .done _
  have write (a : Address) (v : Word) : (Program.write a v).Stalls 0 := .command (.write a v)
  exact .free_bind (.command (.report _)) fun _ => .free_bind (.command .barrier) fun _ =>
    .free_bind select fun _ => .free_bind (write _ _) fun _ => .free_bind (write _ _) fun _ =>
    .free_bind (write _ _) fun _ => .free_bind (write _ _) fun _ =>
    .free_bind (write _ _) fun _ => .free_bind (write _ _) fun _ =>
    .free_bind (write _ _) fun _ => .free_bind (write _ _) fun _ => write _ _

theorem programWindows_stalls (windows : List OutboundWindow) :
    (p.programWindows windows).Stalls 0 := by
  induction windows with
  | nil => exact .done _
  | cons w rest ih =>
    have program : (w.program p.soc p.controller.index p.controller.dbi).Stalls 0 := by
      unfold OutboundWindow.program
      split
      · exact .done _
      · exact .free_bind (writeWindow_stalls w _ _) fun _ => .done _
    refine .free_bind program fun result => ?_
    cases result with
    | ok _ => exact ih
    | error e => exact .free_bind (.command (.report _)) fun _ => .free_bind ih fun _ => .done _

theorem configure_stalls :
    p.configure.Stalls (p.soc.reset.hold + (p.soc.resetWait + p.soc.phyWait)) := by
  refine .free_bind .quick_modify fun _ => .free_bind assertPerst_stalls fun _ =>
    .bind cycleReset_stalls fun _ => .bind awaitResetDone_stalls fun _ =>
    .bind_free tunePhy_stalls fun _ => ?_
  exact .free_bind routeMsi_stalls fun _ => .free_bind describe_stalls fun _ =>
    .free_bind deassertPerst_stalls fun _ => .free_bind (programWindows_stalls _) fun _ =>
    .free_bind .quick_modify fun _ => .free_bind .quick_modify fun _ =>
    .free_bind (.command (.report _)) fun _ => .done _

/-! ## Training -/

theorem pulseReset_stalls : p.pulseReset.Stalls recoveryPulse :=
  .free_bind .quick_modify fun _ => .free_bind assertPerst_stalls fun _ =>
    .free_bind .quick_modify fun _ => .bind_free (.command (.stall _)) fun _ =>
    .free_bind .quick_modify fun _ => .free_bind deassertPerst_stalls fun _ => .quick_modify

open Training

theorem looks_stall (w : Nat → Word) (d k : Nat) :
    Path.cost Command.stallTime (p.looks w d k) ≤ (k - d) * pollInterval := by
  have each : ∀ part ∈ (List.range' (d + 1) (k - d)).map fun i =>
      [⟨.stall (.milliseconds 1), ()⟩, p.look (w i)],
      Path.cost Command.stallTime part ≤ pollInterval := by
    intro part hpart
    obtain ⟨i, -, rfl⟩ := List.mem_map.mp hpart
    -- the sum is written out, as the kernel would count a millisecond up from zero otherwise
    show Duration.milliseconds 1 + (0 + 0) ≤ pollInterval
    exact Nat.le_refl _
  have whole := Path.cost_flatten_le each
  rwa [← List.flatMap_def, List.length_map, List.length_range'] at whole

/-- A search that starts within the budget stops within it. -/
theorem stop_le_budget {w : Nat → Word} {d k : Nat} (hd : d ≤ p.budget)
    (stop : FirstFrom (Stops p.budget w) d k) : k ≤ p.budget := by
  rcases Nat.lt_or_ge p.budget k with hk | hk
  · exact absurd (.inr (.inr (Nat.le_refl _))) (stop.before p.budget hd hk)
  · exact hk

/-- The search for a partner keeps to the time for coming up as well. -/
theorem fifty_le_budget (hs : p.soc ∈ Soc.all) : 50 ≤ p.budget := by
  have all : ∀ soc ∈ Soc.all, 50 ≤ soc.linkUpTimeout.inMilliseconds := by decide
  exact all p.soc hs

theorem search_stall {k : Nat} (hk : k ≤ p.budget) (w : Nat → Word) :
    Path.cost Command.stallTime (p.looks w 0 k) ≤ p.soc.linkUpTimeout :=
  calc Path.cost Command.stallTime (p.looks w 0 k)
      ≤ k * pollInterval := looks_stall w 0 k
    _ ≤ p.budget * pollInterval := Nat.mul_le_mul_right _ hk
    _ ≤ p.soc.linkUpTimeout := Nat.div_mul_le_self _ _

theorem ends_stall {debug : Word} {ms : Nat} {recovered : Bool} {path : List Exchange}
    {outcome : LinkOutcome} (h : Ends p debug ms recovered path outcome) :
    Path.cost Command.stallTime path ≤ 0 := by
  cases h with
  | linkUp up link => exact Nat.le_refl 0
  | timeout down disabled => exact Spends.quick_modify _ _ disabled

/-- Two searches at most, and a pulse between them. -/
theorem trains_stall (hb : 50 ≤ p.budget) {w : Nat → Word} {path : List Exchange}
    {outcome : LinkOutcome} (h : Trains p w path outcome) :
    Path.cost Command.stallTime path ≤ 2 * p.soc.linkUpTimeout + recoveryPulse := by
  have look (debug : Word) (rest : List Exchange) :
      Path.cost Command.stallTime (p.look debug :: rest) =
        Path.cost Command.stallTime rest := Nat.zero_add _
  cases h with
  | noPartner unseen disabled =>
    rw [List.cons_append, look, Path.cost_append]
    have search := search_stall hb w
    have off : Path.cost Command.stallTime _ ≤ 0 := Spends.quick_modify _ _ disabled
    omega
  | settled seen inTime stop free ends =>
    rw [List.cons_append, look, Path.cost_append]
    have search := search_stall (stop_le_budget (Nat.le_trans inTime hb) stop) w
    have last := ends_stall ends
    omega
  | @recovered d k m pulse last outcome seen inTime stop down locked pulsed again ends =>
    rw [List.cons_append, List.cons_append, List.cons_append, look, Path.cost_append,
      Path.cost_append, Path.cost_append, look]
    have first := search_stall (stop_le_budget (Nat.le_trans inTime hb) stop) w
    have pulse := pulseReset_stalls _ _ pulsed
    have second := search_stall (stop_le_budget (Nat.zero_le _) again) fun i => w (k + 1 + i)
    have last := ends_stall ends
    omega

theorem train_stalls (hb : 50 ≤ p.budget) :
    p.train.Stalls (2 * p.soc.linkUpTimeout + recoveryPulse) := by
  intro path outcome h
  obtain ⟨w, trains⟩ := train_trains h
  have silent (e : Exchange) (he : e.isAccess = false) : e.command.stallTime = 0 := by
    obtain ⟨c, answer⟩ := e
    cases c with
    | stall t => cases he
    | _ => rfl
  rw [← Path.cost_filter silent path]
  exact trains_stall hb trains

/-! ## The probe -/

theorem pollId_stalls (left polls : Nat) (id : Word) :
    (p.pollId left polls id).Stalls (left * pollInterval) := by
  induction left generalizing polls id with
  | zero => exact .done _
  | succ left ih =>
    rw [Nat.succ_mul, Nat.add_comm]
    unfold pollId
    split
    · exact .free_bind (.command (.write _ _)) fun _ => .bind (.command (.stall _)) fun _ =>
        .free_bind (.command (.read _)) fun id => ih _ id
    · exact .done _

theorem probeFilter_stalls : p.probeFilter.Stalls configProbeTimeout := by
  have whole : pollsIn configProbeTimeout * pollInterval = configProbeTimeout := rfl
  rw [← whole]
  exact .free_bind (.command (.read _)) fun _ => .bind_free (pollId_stalls _ _ _) fun _ =>
    .free_bind (.command (.read _)) fun _ => .free_bind (.command (.report _)) fun _ => .done _

end Port

/-! ## All ports -/

/-- The probe adds its second only to a link that is up. -/
theorem PortState.bringUp_cost {soc : Soc} (hs : soc ∈ Soc.all) {c : Controller}
    {path : List Exchange} {s : PortState} (h : Runs (PortState.bringUp soc c) path s) :
    Path.cost Command.stallTime path ≤ soc.bootBudget s.outcome.isUp := by
  obtain ⟨event, reset, train, probe, hreset, htrain, hprobe, -, -, rfl⟩ := bringUp_stages h
  have reset := Port.configure_stalls _ _ hreset
  have train := Port.train_stalls (Port.fifty_le_budget hs) _ _ htrain
  have probe : Path.cost Command.stallTime probe ≤
      if s.outcome.isUp then configProbeTimeout else 0 := by
    split at hprobe
    · rename_i hup
      rw [if_pos hup]
      exact Port.probeFilter_stalls _ _ hprobe
    · rename_i hdown
      rw [if_neg hdown]
      exact Spends.done (n := 0) _ _ _ hprobe
  have event : Path.cost Command.stallTime [⟨.report event, ()⟩] = 0 := rfl
  have budget : soc.bootBudget s.outcome.isUp =
      soc.reset.hold + soc.resetWait + soc.phyWait + 2 * soc.linkUpTimeout + recoveryPulse +
        if s.outcome.isUp then configProbeTimeout else 0 := rfl
  rw [← List.singleton_append, Path.cost_append, Path.cost_append, Path.cost_append, budget]
  dsimp only at reset train
  omega

theorem Soc.bootBudget_le (soc : Soc) (up : Bool) : soc.bootBudget up ≤ soc.bootBudget true := by
  cases up with
  | false => exact Nat.le_add_right _ _
  | true => exact Nat.le_refl _

namespace Host

theorem bringUpPorts_stalls {soc : Soc} (hs : soc ∈ Soc.all) (cs : List Controller) :
    (bringUpPorts soc cs).Stalls (cs.length * soc.bootBudget true) := by
  induction cs with
  | nil => exact .done _
  | cons c rest ih =>
    have first : (PortState.bringUp soc c).Stalls (soc.bootBudget true) := fun path s h =>
      Nat.le_trans (PortState.bringUp_cost hs h) (soc.bootBudget_le _)
    rw [List.length_cons, Nat.succ_mul, Nat.add_comm]
    exact first.bind fun s => ih.bind_free fun _ => .done _

end Host

/-- A bring-up keeps to its boot budget, whatever the hardware does. It returns with a state of
each controller, and the stalls asked for on behalf of one keep to the budget of the chip, to which
the second of the probe is added only for a link that is up. All stalls together keep to as many
budgets as there are controllers. -/
theorem bringUp_boot_budget {soc : Soc} (hs : soc ∈ Soc.all) (nodes : List Node) {σ : Type}
    (platform : Platform σ) (start : σ) :
    ∃ host parts,
      ((Host.bringUp (Topology.load soc nodes)).run platform start).1 = host ∧
      (Host.bringUp (Topology.load soc nodes)).exchanges platform start = parts.flatten ∧
      host.ports.map (·.controller) = (Topology.load soc nodes).controllers ∧
      List.Forall₂ (fun s part => Runs (PortState.bringUp soc s.controller) part s ∧
        Path.stalled part ≤ soc.bootBudget s.outcome.isUp) host.ports parts ∧
      Path.stalled parts.flatten ≤
        (Topology.load soc nodes).controllers.length * soc.bootBudget true ∧
      (soc = Bm1000.soc →
        soc.resetWait = 0 ∧ soc.phyWait = 15 * (1000 * .microseconds 1)) ∧
      (soc = Bs1000.soc →
        soc.resetWait = 1000 * .microseconds 10 ∧ soc.phyWait = 0) := by
  have path := runs_exchanges platform (Host.bringUp (Topology.load soc nodes)) start
  obtain ⟨hports, -, -⟩ := Host.bringUp_ports path
  have hcontrollers := Host.controllers_of_bringUpPorts hports
  obtain ⟨parts, hparts, pairs⟩ := Host.bringUpPorts_parts hports
  have within : List.Forall₂ (fun s part => Runs (PortState.bringUp soc s.controller) part s ∧
      Path.stalled part ≤ soc.bootBudget s.outcome.isUp) _ parts :=
    pairs.imp fun s part h => by
      rw [Path.stalled_eq_cost]
      exact ⟨h, PortState.bringUp_cost hs h⟩
  refine ⟨_, parts, rfl, hparts, hcontrollers, within, ?_, ?_, ?_⟩
  · rw [Path.stalled_eq_cost, ← hparts]
    exact Host.bringUpPorts_stalls hs _ _ _ hports
  · rintro rfl
    exact ⟨rfl, rfl⟩
  · rintro rfl
    exact ⟨rfl, rfl⟩

/-- One port whose link comes up at once. -/
theorem bringUp_boot_budget_example :
    Bm1000.soc ∈ Soc.all ∧
    Path.stalled ((Host.bringUp (Topology.load Bm1000.soc [exampleNode])).exchanges
      losingPlatform ()) ≤ Bm1000.soc.bootBudget true ∧
    Bm1000.soc.bootBudget true = 1416000100 := by
  have hs : Bm1000.soc ∈ Soc.all := List.mem_cons_self
  obtain ⟨host, parts, -, hpath, -, -, whole, -⟩ :=
    bringUp_boot_budget hs [exampleNode] losingPlatform ()
  rw [load_exampleNode, List.length_singleton, Nat.one_mul] at whole
  rw [hpath]
  exact ⟨hs, whole, rfl⟩

end RootComplex
