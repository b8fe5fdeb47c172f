import RootComplex.Proofs.ConfigSpace
import RootComplex.Proofs.Lifecycle
import RootComplex.Proofs.Separation
import RootComplex.Proofs.Training

/-! # Listening

A program can ask whether anyone listens to events of a level, and so let the log decide what it
does to the hardware. Two runs that differ in what the log keeps are one run up to the first
question that they answer differently. The engine asks one question only, after a reset whose
completion was not reported; the answer shows in the accesses that follow it. -/

namespace RootComplex

open Program

/-! ## One platform, two logs -/

/-- The platform with a log that keeps the levels of `v`. Nothing else looks at the level, and no
event reaches the hardware. -/
def Platform.heard {σ : Type} (hal : Platform σ) (v : Verbosity) : Platform σ where
  answer
    | .read a, s => hal.answer (.read a) s
    | .write a value, s => hal.answer (.write a value) s
    | .barrier, s => hal.answer .barrier s
    | .stall t, s => hal.answer (.stall t) s
    | .listens l, s => (v.keeps l, s)
    | .report _, s => ((), s)

/-- The command asks nothing about the log. -/
def Command.Silent : Command → Prop
  | .listens _ => False
  | _ => True

namespace Program

variable {α β σ : Type}

/-- The two logs see one run of the program, or two that part at a question about a level that only
one of them keeps. -/
def HeardAlike (hal : Platform σ) (v w : Verbosity) (p : Program α) (s : σ) : Prop :=
  (p.exchanges (hal.heard v) s = p.exchanges (hal.heard w) s ∧
    p.run (hal.heard v) s = p.run (hal.heard w) s) ∨
  ∃ front l left right, v.keeps l ≠ w.keeps l ∧
    p.exchanges (hal.heard v) s = front ++ ⟨.listens l, v.keeps l⟩ :: left ∧
    p.exchanges (hal.heard w) s = front ++ ⟨.listens l, w.keeps l⟩ :: right

/-- A command that is answered alike leaves it to the rest of the program. -/
theorem HeardAlike.step {hal : Platform σ} {v w : Verbosity} {c : Command}
    {next : c.Answer → Program α} {s t : σ} {answer : c.Answer}
    (hv : (hal.heard v).answer c s = (answer, t)) (hw : (hal.heard w).answer c s = (answer, t))
    (h : HeardAlike hal v w (next answer) t) : HeardAlike hal v w (.step c next) s := by
  simp only [HeardAlike, exchanges, run, hv, hw]
  rcases h with ⟨hpath, hrun⟩ | ⟨front, l, left, right, hne, hleft, hright⟩
  · exact .inl ⟨by rw [hpath], hrun⟩
  · exact .inr ⟨⟨c, answer⟩ :: front, l, left, right, hne, by rw [hleft]; rfl, by rw [hright]; rfl⟩

/-- Two logs make no difference to a program until they answer it differently. -/
theorem exchanges_heard (hal : Platform σ) (v w : Verbosity) (p : Program α) (s : σ) :
    HeardAlike hal v w p s := by
  induction p generalizing s with
  | done a => exact .inl ⟨rfl, rfl⟩
  | step c next ih =>
    cases c with
    | listens l =>
      by_cases h : v.keeps l = w.keeps l
      · exact .step rfl (by rw [h]; rfl) (ih (v.keeps l) s)
      · exact .inr ⟨[], l, _, _, h, rfl, rfl⟩
    | _ => exact .step rfl rfl (ih _ _)

/-- The program asks nothing about the log. -/
def Silent (p : Program α) : Prop := p.Issues Command.Silent

namespace Silent

theorem done (a : α) : (Program.done a).Silent := Issues.done a

theorem bind {p : Program α} {f : α → Program β} (hp : p.Silent) (hf : ∀ a, (f a).Silent) :
    (p >>= f).Silent :=
  Issues.bind hp hf

theorem read (a : Address) : (Program.read a).Silent := Issues.read trivial

theorem write (a : Address) (v : Word) : (Program.write a v).Silent := Issues.write trivial

theorem barrier : Program.barrier.Silent := Issues.step trivial fun _ => .done _

theorem stall (t : Duration) : (Program.stall t).Silent := Issues.stall trivial

theorem report (e : Event) : (Program.report e).Silent := Issues.report trivial

theorem modify (a : Address) (f : Word → Word) : (Program.modify a f).Silent :=
  (read a).bind fun _ => write a _

end Silent

end Program

/-! ## What asks nothing -/

namespace Phy

variable {dbi : Address} {lanes : Word}

theorem await_silent (address polls : Nat) (last : Word) :
    (await dbi address polls last).Silent := by
  induction polls generalizing last with
  | zero => exact .done _
  | succ polls ih =>
    refine .bind (.read _) fun status => ?_
    split
    · exact .done _
    · exact .bind (.stall _) fun _ => ih status

theorem select_silent (address : Nat) (writes : Bool) :
    (select dbi lanes address writes).Silent :=
  .bind (.write _ _) fun _ => .write _ _

theorem read_silent (address : Nat) : (read dbi lanes address).Silent := by
  refine (select_silent address false).bind fun _ =>
    (await_silent address _ _).bind fun result => ?_
  cases result with
  | error e => exact .done _
  | ok _ => exact .bind (.read _) fun _ => .done _

theorem write_silent (address : Nat) (value : Word) : (write dbi lanes address value).Silent := by
  refine (select_silent address true).bind fun _ =>
    (await_silent address _ _).bind fun result => ?_
  cases result with
  | error e => exact .done _
  | ok _ => exact .bind (.write _ _) fun _ => await_silent address _ _

theorem adjust_silent (t : PhyTuning) : (adjust dbi lanes t).Silent := by
  refine (read_silent t.address).bind fun result => ?_
  cases result with
  | error e => exact .done _
  | ok current =>
    refine (write_silent t.address _).bind fun result => ?_
    cases result with
    | error e => exact .done _
    | ok _ => exact .bind (.report _) fun _ => .done _

theorem tune_silent (table : List PhyTuning) : (tune dbi lanes table).Silent := by
  induction table with
  | nil => exact .done _
  | cons t rest ih =>
    refine (adjust_silent t).bind fun result => ?_
    cases result with
    | error e => exact .done _
    | ok _ => exact ih

end Phy

theorem Capability.findFrom_silent (config : Address) (wanted entries offset : Nat) :
    (findFrom config wanted entries offset).Silent := by
  induction entries generalizing offset with
  | zero => exact .done _
  | succ entries ih =>
    unfold findFrom
    split
    · exact .done _
    · refine .bind (.read _) fun header => ?_
      split
      · exact .done _
      · split
        · exact .done _
        · exact ih _

theorem OutboundWindow.program_silent (soc : Soc) (index : Nat) (dbi : Address)
    (w : OutboundWindow) : (w.program soc index dbi).Silent := by
  have select : (select soc dbi w.region).Silent := by
    unfold OutboundWindow.select
    split
    · exact .write _ _
    · exact .done _
  unfold program
  split
  · exact .done _
  · have write : (w.write soc index dbi).Silent :=
      .bind (.report _) fun _ => .bind .barrier fun _ => select.bind fun _ =>
        .bind (.write _ _) fun _ => .bind (.write _ _) fun _ => .bind (.write _ _) fun _ =>
        .bind (.write _ _) fun _ => .bind (.write _ _) fun _ => .bind (.write _ _) fun _ =>
        .bind (.write _ _) fun _ => .bind (.write _ _) fun _ => .write _ _
    exact write.bind fun _ => .done _

namespace Port

variable {p : Port}

theorem setLtssm_silent (enable : Bool) : (p.setLtssm enable).Silent := .modify _ _

theorem linkDebug_silent : p.linkDebug.Silent := .read _

theorem linkStatus_silent : p.linkStatus.Silent := .bind (.read _) fun _ => .done _

theorem assertPerst_silent : p.assertPerst.Silent := by
  unfold assertPerst
  split
  · exact .bind (.modify _ _) fun _ => .modify _ _
  · exact .done _

theorem deassertPerst_silent : p.deassertPerst.Silent := by
  unfold deassertPerst
  split
  · exact .modify _ _
  · exact .done _

theorem cycleReset_silent : p.cycleReset.Silent :=
  .bind (.modify _ _) fun _ => .bind (.stall _) fun _ => .modify _ _

theorem pollResetDone_silent (done : ResetDone) (polls : Nat) :
    (p.pollResetDone done polls).Silent := by
  induction polls with
  | zero => exact .done _
  | succ polls ih =>
    refine .bind (.read _) fun status => ?_
    split
    · exact .done _
    · exact .bind (.stall _) fun _ => ih

theorem tunePhy_silent : p.tunePhy.Silent := by
  unfold tunePhy
  split
  · exact .done _
  · refine (Phy.tune_silent _).bind fun result => ?_
    cases result with
    | error e => exact .bind (.report _) fun _ => .done _
    | ok _ => exact .done _

theorem routeMsi_silent : p.routeMsi.Silent := by
  unfold routeMsi
  split
  · exact .bind (.modify _ _) fun _ => .report _
  · exact .done _

theorem programLanes_silent (lanes : LaneCount) : (p.programLanes lanes).Silent := by
  unfold programLanes
  refine .bind (.modify _ _) fun _ => ?_
  split
  · exact .bind (.modify _ _) fun _ => .modify _ _
  · exact .modify _ _

theorem describe_silent : p.describe.Silent := by
  unfold describe
  refine .bind (.modify _ _) fun _ => .bind (.modify _ _) fun _ => ?_
  split
  · exact (programLanes_silent _).bind fun _ => .modify _ _
  · exact .modify _ _

theorem programWindows_silent (windows : List OutboundWindow) :
    (p.programWindows windows).Silent := by
  induction windows with
  | nil => exact .done _
  | cons w rest ih =>
    refine (w.program_silent _ _ _).bind fun result => ?_
    cases result with
    | ok _ => exact ih
    | error e => exact .bind (.report _) fun _ => ih.bind fun _ => .done _

theorem watch_silent (found : Word → Bool) (left : Nat) (s : Sighting) :
    (p.watch found left s).Silent := by
  induction left generalizing s with
  | zero => exact .done s
  | succ left ih =>
    unfold watch
    split
    · exact .done s
    · exact .bind (.stall _) fun _ => linkDebug_silent.bind fun _ => ih _

theorem pulseReset_silent : p.pulseReset.Silent :=
  (setLtssm_silent false).bind fun _ => assertPerst_silent.bind fun _ =>
    .bind (.modify _ _) fun _ => .bind (.stall _) fun _ => .bind (.modify _ _) fun _ =>
    deassertPerst_silent.bind fun _ => setLtssm_silent true

theorem conclude_silent (s : Sighting) (recovered : Bool) : (p.conclude s recovered).Silent := by
  unfold conclude
  split
  · exact linkStatus_silent.bind fun _ => .bind (.report _) fun _ => .done _
  · exact (setLtssm_silent false).bind fun _ => .bind (.report _) fun _ => .done _

theorem train_silent : p.train.Silent := by
  refine linkDebug_silent.bind fun debug => (watch_silent _ _ _).bind fun s => ?_
  split
  · refine .bind (.report _) fun _ => (watch_silent _ _ _).bind fun t => ?_
    split
    · exact .bind (.report _) fun _ => pulseReset_silent.bind fun _ =>
        linkDebug_silent.bind fun _ => (watch_silent _ _ _).bind fun t => conclude_silent t true
    · exact conclude_silent t false
  · exact (setLtssm_silent false).bind fun _ => .bind (.report _) fun _ => .done _

theorem pollId_silent (left polls : Nat) (id : Word) : (p.pollId left polls id).Silent := by
  induction left generalizing polls id with
  | zero => exact .done _
  | succ left ih =>
    unfold pollId
    split
    · exact .bind (.write _ _) fun _ => .bind (.stall _) fun _ => .bind (.read _) fun _ => ih _ _
    · exact .done _

theorem probeFilter_silent : p.probeFilter.Silent :=
  .bind (.read _) fun _ => (pollId_silent _ _ _).bind fun _ => .bind (.read _) fun _ =>
    .bind (.report _) fun _ => .done _

/-! ### Retraining -/

theorem awaitRetrained_silent (policy : RetrainPolicy) (polls : Nat) (waited : Duration)
    (ltssm : Ltssm) : (p.awaitRetrained policy polls waited ltssm).Silent := by
  induction polls generalizing waited ltssm with
  | zero =>
    unfold awaitRetrained
    split <;> exact .done _
  | succ polls ih =>
    unfold awaitRetrained
    split
    · refine .bind (.stall _) fun _ => linkDebug_silent.bind fun debug =>
        linkStatus_silent.bind fun status => ?_
      split
      · exact .done _
      · split
        · exact .done _
        · exact ih _ _
    · exact .done _

theorem retrainOnce_silent (policy : RetrainPolicy) (patience : Nat) :
    (p.retrainOnce policy patience).Silent :=
  .bind (.modify _ _) fun _ => linkDebug_silent.bind fun _ => awaitRetrained_silent _ _ _ _

theorem attemptRetrain_silent (policy : RetrainPolicy) (patience before target extra made : Nat) :
    (p.attemptRetrain policy patience before target extra made).Silent := by
  have reported (speed attempts : Nat) : (p.reportRetrained before speed target attempts).Silent :=
    .bind (.report _) fun _ => .done _
  have failed (attempts : Nat) (failure : RetrainFailure) :
      (p.retrainFailed target attempts failure).Silent :=
    (setLtssm_silent false).bind fun _ => .bind (.report _) fun _ => .done _
  induction extra generalizing made with
  | zero =>
    unfold attemptRetrain
    refine (retrainOnce_silent policy patience).bind fun result => ?_
    rcases result with _ | (failure | speed)
    · exact .done _
    · exact failed _ _
    · dsimp only
      split <;> exact reported _ _
  | succ extra ih =>
    unfold attemptRetrain
    refine (retrainOnce_silent policy patience).bind fun result => ?_
    rcases result with _ | (failure | speed)
    · exact .done _
    · exact failed _ _
    · dsimp only
      split
      · exact .bind (.report _) fun _ => .bind (.stall _) fun _ => ih _
      · exact reported _ _

theorem retrain_silent (policy : RetrainPolicy) (patience : Nat) :
    (p.retrain policy patience).Silent := by
  refine (Capability.findFrom_silent _ _ _ _).bind fun found => ?_
  cases found with
  | none => exact .bind (.report _) fun _ => .done _
  | some offset =>
    refine .bind (.read _) fun _ => linkStatus_silent.bind fun _ => ?_
    dsimp only
    split
    · exact .bind (.report _) fun _ => .done _
    · exact .bind (.modify _ _) fun _ => attemptRetrain_silent _ _ _ _ _ _

end Port

namespace Host

variable {soc : Soc} {policy : RetrainPolicy} {patience : Nat}

theorem retrainPort_silent (s : PortState) : (retrainPort soc policy patience s).Silent := by
  refine Port.linkDebug_silent.bind fun debug => ?_
  split
  · refine (Port.retrain_silent policy patience).bind fun outcome => ?_
    cases outcome with
    | none => exact .done _
    | some outcome => exact .done _
  · exact .done _

theorem retrainPorts_silent (ports : List PortState) :
    (retrainPorts soc policy patience ports).Silent := by
  induction ports with
  | nil => exact .done _
  | cons s rest ih =>
    refine (retrainPort_silent s).bind fun first => ?_
    cases first with
    | none => exact .done _
    | some outcome =>
      refine ih.bind fun others => ?_
      rcases others with _ | ⟨states, reports⟩
      · exact .done _
      · cases outcome with
        | none => exact .done _
        | some _ => exact .done _

theorem retrain_silent (h : Host) : (h.retrain policy patience).Silent := by
  unfold Host.retrain Host.retrainWith
  split
  · refine (retrainPorts_silent h.ports).bind fun result => ?_
    cases result with
    | none => exact .done _
    | some _ => exact .done _
  · exact .bind (.report _) fun _ => .done _

theorem retrainAll_silent (h : Host) (policies : List RetrainPolicy) :
    (retrainAll patience h policies).Silent := by
  induction policies generalizing h with
  | nil => exact .done _
  | cons policy rest ih =>
    refine (retrain_silent h).bind fun result => ?_
    rcases result with _ | ⟨next, reports⟩
    · exact .done _
    · refine (ih next).bind fun others => ?_
      cases others with
      | none => exact .done _
      | some _ => exact .done _

end Host

/-! ## The question -/

namespace Path

def Silent (path : List Exchange) : Prop := ∀ e ∈ path, e.command.Silent

theorem Silent.append {front back : List Exchange} (hf : Silent front) (hb : Silent back) :
    Silent (front ++ back) :=
  List.forall_mem_append.mpr ⟨hf, hb⟩

theorem not_silent {front back : List Exchange} {l : Level} {b : Bool} :
    ¬Silent (front ++ ⟨.listens l, b⟩ :: back) := fun h =>
  h _ (List.mem_append_right front List.mem_cons_self)

/-- One register is modified next, and another one read before if someone listens. -/
def Follows (b : Bool) (back : List Exchange) : Prop :=
  ∃ status value a old new rest, accesses back =
    (if b then [⟨.read status, value⟩] else []) ++ (modified a old new ++ rest)

/-- The path asks about warnings only, and the accesses tell how it was answered. -/
def Telling (path : List Exchange) : Prop :=
  ∀ front l b back, path = front ++ ⟨.listens l, b⟩ :: back → l = .warn ∧ Follows b back

theorem Follows.append {b : Bool} {back more : List Exchange} (h : Follows b back) :
    Follows b (back ++ more) := by
  obtain ⟨status, value, a, old, new, rest, h⟩ := h
  refine ⟨status, value, a, old, new, rest ++ accesses more, ?_⟩
  rw [Port.accesses_append, h, List.append_assoc, List.append_assoc]

theorem Follows.of_modified {b : Bool} {warned : List Exchange} {status : Address} {value : Word}
    (h : accesses warned = if b then [⟨.read status, value⟩] else []) (a : Address) (old new : Word)
    (back : List Exchange) : Follows b (warned ++ (modified a old new ++ back)) := by
  refine ⟨status, value, a, old, new, accesses back, ?_⟩
  rw [Port.accesses_append, Port.accesses_append, h]
  rfl

namespace Telling

variable {front back : List Exchange}

theorem of_silent (h : Silent front) : Telling front := by
  rintro before l b after rfl
  exact absurd h not_silent

theorem append (hf : Telling front) (hb : Telling back) : Telling (front ++ back) := by
  intro before l b after h
  rcases List.append_eq_append_iff.mp h with ⟨mid, -, hr⟩ | ⟨mid, hl, hr⟩
  · exact hb mid l b after hr
  · cases mid with
    | nil => exact hb [] l b after hr.symm
    | cons e tail =>
      obtain ⟨rfl, rfl⟩ := List.cons.inj hr
      obtain ⟨hwarn, follows⟩ := hf before l b tail hl
      exact ⟨hwarn, follows.append⟩

/-- The only question of a path. -/
theorem ask {b : Bool} (hf : Silent front) (hb : Silent back) (follows : Follows b back) :
    Telling (front ++ ⟨.listens .warn, b⟩ :: back) := by
  refine (of_silent hf).append fun before l a after h => ?_
  cases before with
  | nil =>
    obtain ⟨hask, rfl⟩ := List.cons.inj h
    cases hask
    exact ⟨rfl, follows⟩
  | cons e tail =>
    obtain ⟨-, rfl⟩ := List.cons.inj h
    exact absurd hb not_silent

/-- Two answers to one question make different accesses: the second one is a read or a write. -/
theorem accesses_ne {left right : List Exchange} {l : Level} {a b : Bool} (hne : a ≠ b)
    (hleft : Telling (front ++ ⟨.listens l, a⟩ :: left))
    (hright : Telling (front ++ ⟨.listens l, b⟩ :: right)) :
    accesses (front ++ ⟨.listens l, a⟩ :: left) ≠ accesses (front ++ ⟨.listens l, b⟩ :: right) := by
  intro h
  have skip (answer : Bool) (rest : List Exchange) :
      accesses (⟨.listens l, answer⟩ :: rest) = accesses rest := rfl
  rw [Port.accesses_append, Port.accesses_append, List.append_cancel_left_eq, skip,
    skip] at h
  obtain ⟨-, _, _, _, _, _, _, hl⟩ := hleft front l a left rfl
  obtain ⟨-, _, _, _, _, _, _, hr⟩ := hright front l b right rfl
  rw [hl, hr] at h
  cases a <;> cases b <;> simp [modified] at hne h

end Telling

end Path

/-! ## Where it is asked -/

/-- A chip that reports the end of a reset has no PHY to tune and no interrupts to route. -/
theorem Soc.plain_of_resetDone {soc : Soc} (hs : soc ∈ Soc.all)
    (h : soc.control.resetDone.isSome = true) : soc.phyTuning = [] ∧ soc.msi = none := by
  revert soc
  decide

namespace Port

variable {p : Port} {path : List Exchange}

/-- The question is asked if the wait timed out, and then once. -/
theorem awaitResetDone_asks {timeout : Bool} (h : Runs p.awaitResetDone path timeout) :
    (timeout = false ∧ Path.Silent path) ∨
    (timeout = true ∧ p.soc.control.resetDone.isSome = true ∧
      ∃ polls b warned status value, path = polls ++ ⟨.listens .warn, b⟩ :: warned ∧
        Path.Silent polls ∧ Path.Silent warned ∧
        Path.accesses warned = if b then [⟨.read status, value⟩] else []) := by
  unfold awaitResetDone at h
  cases hdone : p.soc.control.resetDone with
  | none =>
    rw [hdone] at h
    obtain ⟨rfl, rfl⟩ := runs_done.mp h
    exact .inl ⟨rfl, List.forall_mem_nil _⟩
  | some done =>
    rw [hdone] at h
    obtain ⟨finished, polls, _, hpolls, h₁, rfl⟩ := h.bind
    have silent : Path.Silent polls := pollResetDone_silent done done.polls _ _ hpolls
    split at h₁
    · obtain ⟨rfl, rfl⟩ := runs_done.mp h₁
      exact .inl ⟨rfl, by rwa [List.append_nil]⟩
    · obtain ⟨_, _, _, hwarn, hend, rfl⟩ := h₁.bind
      obtain ⟨rfl, rfl⟩ := runs_done.mp hend
      obtain ⟨b, warned, rfl, hwarned⟩ := runs_step.mp hwarn
      refine .inr ⟨rfl, rfl, polls, b, warned, ?_⟩
      rw [List.append_nil]
      cases b with
      | true =>
        obtain ⟨value, _, rfl, hreport⟩ := runs_read_bind.mp hwarned
        obtain ⟨_, _, rfl, hdone⟩ := runs_step.mp hreport
        obtain ⟨rfl, -⟩ := runs_done.mp hdone
        exact ⟨_, value, rfl, silent, by simp [Path.Silent, Command.Silent], rfl⟩
      | false =>
        obtain ⟨rfl, -⟩ := runs_done.mp hwarned
        exact ⟨0, 0, rfl, silent, List.forall_mem_nil _, rfl⟩

theorem tunePhy_nil (h : p.soc.phyTuning = []) {failed : Bool} (hr : Runs p.tunePhy path failed) :
    path = [] := by
  unfold tunePhy at hr
  rw [h] at hr
  exact (runs_done.mp hr).1

theorem routeMsi_nil (h : p.soc.msi = none) {u : Unit} (hr : Runs p.routeMsi path u) :
    path = [] := by
  unfold routeMsi at hr
  rw [h] at hr
  exact (runs_done.mp hr).1

/-- The port is described next, so its read-only fields are made writable. -/
theorem configure_asks (hs : p.soc ∈ Soc.all) {report : ResetReport}
    (h : Runs p.configure path report) :
    Path.Telling path ∧ (Path.Silent path ↔ report.resetDoneTimeout = false) := by
  obtain ⟨off, assert, cycle, wait, phy, msi, describe, release, windows, speed, on, event, hoff,
    hassert, hcycle, hwait, hphy, hmsi, hdescribe, hrelease, hwindows, hspeed, hon, rfl⟩ :=
    configure_stages h
  have before : Path.Silent (off ++ (assert ++ cycle)) :=
    .append (setLtssm_silent false _ _ hoff)
      (.append (assertPerst_silent _ _ hassert) (cycleReset_silent _ _ hcycle))
  have between : Path.Silent (phy ++ msi) :=
    .append (tunePhy_silent _ _ hphy) (routeMsi_silent _ _ hmsi)
  have described : Path.Silent describe := describe_silent _ _ hdescribe
  have after : Path.Silent (release ++ (windows ++ (speed ++ (on ++ [⟨.report event, ()⟩])))) :=
    .append (deassertPerst_silent _ _ hrelease) <| .append (programWindows_silent _ _ _ hwindows) <|
      .append (Silent.modify _ _ _ _ hspeed) <| .append (setLtssm_silent true _ _ hon)
        (by simp [Path.Silent, Command.Silent])
  rcases awaitResetDone_asks hwait with ⟨htimeout, quiet⟩ |
    ⟨htimeout, hdone, polls, b, warned, status, value, rfl, hpolls, hwarned, hread⟩
  · have silent := before.append (quiet.append (between.append (described.append after)))
    simp only [List.append_assoc] at silent
    exact ⟨.of_silent silent, iff_of_true silent htimeout⟩
  · obtain ⟨hphyTuning, hnomsi⟩ := Soc.plain_of_resetDone hs hdone
    obtain rfl := tunePhy_nil hphyTuning hphy
    obtain rfl := routeMsi_nil hnomsi hmsi
    obtain ⟨_, writable, rest, hwritable, -, rfl⟩ := hdescribe.bind
    obtain ⟨old, rfl⟩ := Path.of_modify hwritable
    have asked : Path.Telling _ := .ask (before.append hpolls) (hwarned.append described)
      (.of_modified hread _ _ _ rest)
    have told := asked.append (.of_silent after)
    refine ⟨by simpa only [List.append_assoc, List.cons_append, List.nil_append] using told, ?_⟩
    exact iff_of_false (fun silent => silent ⟨.listens .warn, b⟩ (by simp)) (by simp [htimeout])

end Port

/-! ## Bring-up and retrains -/

theorem PortState.bringUp_asks {soc : Soc} (hs : soc ∈ Soc.all) {c : Controller}
    {path : List Exchange} {s : PortState} (h : Runs (PortState.bringUp soc c) path s) :
    Path.Telling path ∧ (Path.Silent path ↔ s.reset.resetDoneTimeout = false) := by
  obtain ⟨event, reset, train, probe, hreset, htrain, hprobe, -, -, rfl⟩ := bringUp_stages h
  obtain ⟨told, silent_iff⟩ := Port.configure_asks hs hreset
  have first : Path.Silent [⟨.report event, ()⟩] := by simp [Path.Silent, Command.Silent]
  have probed : (if s.outcome.isUp then Port.probeFilter ⟨soc, c⟩ else pure false).Silent := by
    split
    · exact Port.probeFilter_silent
    · exact .done _
  have last : Path.Silent (train ++ probe) :=
    .append (Port.train_silent _ _ htrain) (probed _ _ hprobe)
  refine ⟨Path.Telling.append (.of_silent first) (told.append (.of_silent last)), ?_⟩
  rw [← silent_iff]
  constructor
  · intro silent e he
    exact silent e (List.mem_cons_of_mem _ (List.mem_append_left _ he))
  · exact fun silent => first.append (silent.append last)

namespace Host

variable {soc : Soc} {path : List Exchange}

theorem bringUpPorts_asks (hs : soc ∈ Soc.all) {cs : List Controller} {states : List PortState}
    (h : Runs (bringUpPorts soc cs) path states) :
    Path.Telling path ∧
      (Path.Silent path ↔ ∀ s ∈ states, s.reset.resetDoneTimeout = false) := by
  induction cs generalizing path states with
  | nil =>
    obtain ⟨rfl, rfl⟩ := runs_bringUpPorts_nil.mp h
    have silent : Path.Silent [] := List.forall_mem_nil _
    exact ⟨.of_silent silent, iff_of_true silent (List.forall_mem_nil _)⟩
  | cons c rest ih =>
    obtain ⟨s, tail, front, back, hfront, hback, rfl, rfl⟩ := runs_bringUpPorts_cons.mp h
    obtain ⟨first, first_iff⟩ := PortState.bringUp_asks hs hfront
    obtain ⟨others, others_iff⟩ := ih hback
    refine ⟨first.append others, ?_⟩
    rw [List.forall_mem_cons, ← first_iff, ← others_iff]
    exact List.forall_mem_append

/-- Brings a host up and retrains it, once with each policy. -/
def operate (t : Topology) (patience : Nat) (policies : List RetrainPolicy) :
    Program (Host × Option (Host × List (List RetrainReport))) := do
  let first ← bringUp t
  let later ← retrainAll patience first policies
  pure (first, later)

theorem operate_asks {t : Topology} (hs : t.soc ∈ Soc.all) {patience : Nat}
    {policies : List RetrainPolicy} {result : Host × Option (Host × List (List RetrainReport))}
    (h : Runs (operate t patience policies) path result) :
    Path.Telling path ∧
      (Path.Silent path ↔ ∀ s ∈ result.1.ports, s.reset.resetDoneTimeout = false) := by
  obtain ⟨first, front, _, hfront, h₁, rfl⟩ := h.bind
  obtain ⟨later, back, _, hback, h₂, rfl⟩ := h₁.bind
  obtain ⟨rfl, rfl⟩ := runs_done.mp h₂
  obtain ⟨told, silent_iff⟩ := bringUpPorts_asks hs (bringUp_ports hfront).1
  have silent : Path.Silent back := retrainAll_silent first policies _ _ hback
  rw [List.append_nil, ← silent_iff]
  exact ⟨told.append (.of_silent silent),
    ⟨fun h e he => h e (List.mem_append_left _ he), fun h => h.append silent⟩⟩

end Host

/-- A run answers each question by its log. -/
theorem Program.answer_heard {α σ : Type} {hal : Platform σ} {v : Verbosity} {p : Program α}
    {s : σ} {l : Level} {b : Bool} (h : ⟨.listens l, b⟩ ∈ p.exchanges (hal.heard v) s) :
    b = v.keeps l := by
  induction p generalizing s with
  | done a => cases h
  | step c next ih =>
    rcases List.mem_cons.mp h with h | h
    · cases h
      rfl
    · exact ih _ h

/-- Two runs on the same hardware that differ in what the log keeps make the same accesses, and end
in the same state with the same results, exactly if both keep warnings or neither does, or no port
missed the end of its reset. -/
theorem logging_transparent_iff {soc : Soc} (hs : soc ∈ Soc.all) (nodes : List Node) {σ : Type}
    (hal : Platform σ) (start : σ) (v w : Verbosity) (patience : Nat)
    (policies : List RetrainPolicy) :
    let program := Host.operate (Topology.load soc nodes) patience policies
    (Path.accesses (program.exchanges (hal.heard v) start) =
        Path.accesses (program.exchanges (hal.heard w) start) ∧
      program.run (hal.heard v) start = program.run (hal.heard w) start) ↔
    v.keeps .warn = w.keeps .warn ∨
      ∀ port ∈ (program.run (hal.heard v) start).1.1.ports,
        port.reset.resetDoneTimeout = false := by
  intro program
  obtain ⟨told, silent_iff⟩ :=
    Host.operate_asks (t := Topology.load soc nodes) hs (runs_exchanges (hal.heard v) program start)
  obtain ⟨told', -⟩ :=
    Host.operate_asks (t := Topology.load soc nodes) hs (runs_exchanges (hal.heard w) program start)
  rw [← silent_iff]
  rcases exchanges_heard hal v w program start with ⟨hpath, hrun⟩ |
    ⟨front, l, left, right, hne, hleft, hright⟩
  · refine iff_of_true ⟨by rw [hpath], hrun⟩ ?_
    by_cases hkeeps : v.keeps .warn = w.keeps .warn
    · exact .inl hkeeps
    · -- a question on this path would have been answered in both ways
      refine .inr fun e he => ?_
      obtain ⟨c, answer⟩ := e
      cases c with
      | listens l =>
        obtain ⟨before, after, hsplit⟩ := List.append_of_mem he
        obtain ⟨rfl, -⟩ := told before l answer after hsplit
        exact absurd ((answer_heard he).symm.trans (answer_heard (hpath ▸ he))) hkeeps
      | _ => trivial
  · rw [hleft] at told ⊢
    rw [hright] at told' ⊢
    obtain ⟨rfl, -⟩ := told front l _ left rfl
    exact iff_of_false (fun same => told.accesses_ne hne told' same.1)
      (not_or.mpr ⟨hne, Path.not_silent⟩)

/-- A log that keeps warnings may keep more. -/
theorem logging_transparent_iff_example :
    Bs1000.soc ∈ Soc.all ∧
      let program := Host.operate (Topology.load Bs1000.soc [highNode]) 0 [.standard]
      Path.accesses (program.exchanges (losingPlatform.heard (some .warn)) ()) =
          Path.accesses (program.exchanges (losingPlatform.heard (some .trace)) ()) ∧
        program.run (losingPlatform.heard (some .warn)) () =
          program.run (losingPlatform.heard (some .trace)) () := by
  have hs : Bs1000.soc ∈ Soc.all := List.mem_cons_of_mem _ List.mem_cons_self
  exact ⟨hs, (logging_transparent_iff hs [highNode] losingPlatform () (some .warn) (some .trace) 0
    [.standard]).mpr (.inl (by decide))⟩

/-- A port whose reset is never reported to end has its status read once more, for a warning that
someone listens to. -/
theorem warning_listener_accesses :
    let program := Host.operate (Topology.load Bs1000.soc [highNode]) 0 [.standard]
    Path.accesses (program.exchanges (losingPlatform.heard (some .warn)) ()) ≠
      Path.accesses (program.exchanges (losingPlatform.heard none) ()) := by
  intro program same
  have longer : (Path.accesses (program.exchanges (losingPlatform.heard (some .warn)) ())).length =
      (Path.accesses (program.exchanges (losingPlatform.heard none) ())).length + 1 := by
    decide +kernel
  rw [same] at longer
  exact Nat.succ_ne_self _ longer.symm

end RootComplex
