import RootComplex.Proofs.RetrainReports
import RootComplex.Proofs.Spending
import RootComplex.Proofs.StuckRetrain

/-! # When a retrain ends

A retrain polls until its budget is used up, and it is the interval between the polls that uses
it up. With an interval and counters that suffice, or without a budget, every retrain ends after a
number of accesses that the policy alone decides. In all other cases there is a link at which it
does not end with a result, so that these are exactly the policies under which it always ends. -/

namespace RootComplex

open Program

namespace RetrainPolicy

/-- What one attempt reads and writes at most: the request, a first look and two reads for each
poll. -/
def attemptAccesses (policy : RetrainPolicy) : Nat := 2 + (1 + 2 * policy.intervals)

/-- What a retrain of one link reads and writes at most. -/
def accesses (policy : RetrainPolicy) : Nat :=
  1 + (Capability.maxEntries + (1 + (1 + (2 +
    ((policy.extraAttempts + 1) * policy.attemptAccesses + 2)))))

end RetrainPolicy

namespace Program

variable {α β : Type} {m n : Nat}

/-- On every path the program ends with a result, after so many accesses at most. -/
def EndsWithin (most : Nat) (p : Program (Option α)) : Prop :=
  ∀ path r, Runs p path r → (∃ a, r = some a) ∧ Path.cost Command.accessCount path ≤ most

namespace EndsWithin

theorem mono {p : Program (Option α)} (h : p.EndsWithin m) (hmn : m ≤ n) : p.EndsWithin n :=
  fun path r hr => ⟨(h path r hr).1, Nat.le_trans (h path r hr).2 hmn⟩

theorem done (a : α) : (Program.done (some a)).EndsWithin n := by
  intro path r h
  obtain ⟨rfl, rfl⟩ := runs_done.mp h
  exact ⟨⟨a, rfl⟩, Nat.zero_le n⟩

/-- Other accesses may come first. -/
theorem bind {p : Program α} {f : α → Program (Option β)} (hp : p.Spends Command.accessCount m)
    (hf : ∀ a, (f a).EndsWithin n) : (p >>= f).EndsWithin (m + n) := by
  intro path r h
  obtain ⟨a, front, back, hfront, hback, rfl⟩ := h.bind
  obtain ⟨hsome, hcost⟩ := hf a back r hback
  rw [Path.cost_append]
  exact ⟨hsome, Nat.add_le_add (hp front a hfront) hcost⟩

/-- Another program that ends may come first. -/
theorem bind_some {p : Program (Option α)} {f : Option α → Program (Option β)}
    (hp : p.EndsWithin m) (hf : ∀ a, (f (some a)).EndsWithin n) : (p >>= f).EndsWithin (m + n) := by
  intro path r h
  obtain ⟨_, front, back, hfront, hback, rfl⟩ := h.bind
  obtain ⟨⟨a, rfl⟩, first⟩ := hp front _ hfront
  obtain ⟨hsome, last⟩ := hf a back r hback
  rw [Path.cost_append]
  exact ⟨hsome, Nat.add_le_add first last⟩

theorem report {e : Event} {f : Unit → Program (Option β)} (hf : (f ()).EndsWithin n) :
    (Program.report e >>= f).EndsWithin n :=
  (bind (.command (.report e)) fun _ => hf).mono (Nat.le_of_eq (Nat.zero_add n))

end EndsWithin

end Program

/-! ## With a policy that expires -/

theorem Capability.findFrom_accesses (config : Address) (wanted entries offset : Nat) :
    (findFrom config wanted entries offset).Spends Command.accessCount entries := by
  induction entries generalizing offset with
  | zero => exact .done _
  | succ entries ih =>
    refine .mono (m := 1 + entries) ?_ (Nat.le_of_eq (Nat.add_comm 1 entries))
    unfold findFrom
    split
    · exact .done _
    · refine .bind (.command (.read _)) fun header => ?_
      split
      · exact .done _
      · split
        · exact .done _
        · exact ih _

namespace Port

variable {p : Port} {policy : RetrainPolicy} {patience : Nat}

theorem linkDebug_accesses : p.linkDebug.Spends Command.accessCount 1 := .command (.read _)

theorem linkStatus_accesses : p.linkStatus.Spends Command.accessCount 1 :=
  .bind_free (.command (.read _)) fun _ => .done _

theorem modify_accesses (a : Address) (f : Word → Word) :
    (Program.modify a f).Spends Command.accessCount 2 := by
  have both : (Program.modify a f).Spends Command.accessCount (Command.accessCount (.read a) + 1) :=
    .modify a f fun _ => Nat.le_refl 1
  exact both

theorem awaitRetrained_accesses (polls : Nat) (waited : Duration) (ltssm : Ltssm) :
    (p.awaitRetrained policy polls waited ltssm).Spends Command.accessCount (2 * polls) := by
  induction polls generalizing waited ltssm with
  | zero =>
    unfold awaitRetrained
    split <;> exact .done _
  | succ polls ih =>
    have two : 2 * (polls + 1) = 1 + (1 + 2 * polls) := by omega
    rw [two]
    unfold awaitRetrained
    split
    · refine .free_bind (.command (.stall _)) fun _ => .bind linkDebug_accesses fun debug =>
        .bind linkStatus_accesses fun status => ?_
      split
      · exact .done _
      · split
        · exact .done _
        · exact ih _ _
    · exact .done _

theorem awaitRetrained_ends (h : policy.Expires) (patience : Nat) (ltssm : Ltssm) :
    (p.awaitRetrained policy (policy.polls patience) 0 ltssm).EndsWithin
      (2 * policy.intervals) := by
  rcases h with hb | ⟨hp, -⟩
  · rw [awaitRetrained_spent hb]
    exact .done _
  · intro path r hr
    rw [RetrainPolicy.polls_eq hp] at hr
    refine ⟨awaitRetrained_some ?_ hr, awaitRetrained_accesses _ _ _ path r hr⟩
    rw [Nat.zero_add, ← RetrainPolicy.polls_eq hp 0]
    exact budget_le_polls hp 0

theorem retrainOnce_ends (h : policy.Expires) :
    (p.retrainOnce policy patience).EndsWithin policy.attemptAccesses :=
  .bind (modify_accesses _ _) fun _ => .bind linkDebug_accesses fun _ =>
    awaitRetrained_ends h patience _

theorem reportRetrained_ends (before after target attempts : Nat) :
    (p.reportRetrained before after target attempts).EndsWithin 0 :=
  .report (.done _)

theorem retrainFailed_ends (target attempts : Nat) (failure : RetrainFailure) :
    (p.retrainFailed target attempts failure).EndsWithin 2 :=
  .bind (n := 0) (modify_accesses _ _) fun _ => .report (.done _)

/-- The induction is on the further attempts; only the last one can disable the LTSSM. -/
theorem attemptRetrain_ends (h : policy.Expires) (before target extra made : Nat) :
    (p.attemptRetrain policy patience before target extra made).EndsWithin
      ((extra + 1) * policy.attemptAccesses + 2) := by
  have last {n : Nat} (speed attempts : Nat) :
      (p.reportRetrained before speed target attempts).EndsWithin n :=
    (reportRetrained_ends _ _ _ _).mono (Nat.zero_le n)
  induction extra generalizing made with
  | zero =>
    rw [Nat.zero_add, Nat.one_mul]
    unfold attemptRetrain
    refine .bind_some (retrainOnce_ends h) fun r => ?_
    cases r with
    | error failure => exact retrainFailed_ends _ _ _
    | ok speed =>
      dsimp only
      split <;> exact last _ _
  | succ extra ih =>
    have first : (extra + 1 + 1) * policy.attemptAccesses + 2 =
        policy.attemptAccesses + ((extra + 1) * policy.attemptAccesses + 2) := by
      rw [Nat.succ_mul (extra + 1)]
      omega
    rw [first]
    unfold attemptRetrain
    refine .bind_some (retrainOnce_ends h) fun r => ?_
    cases r with
    | error failure => exact (retrainFailed_ends _ _ _).mono (Nat.le_add_left _ _)
    | ok speed =>
      dsimp only
      split
      · refine .report (.mono (.bind (.command (.stall _)) fun _ => ih (made + 1)) ?_)
        exact Nat.le_of_eq (Nat.zero_add _)
      · exact last _ _

theorem retrain_ends (h : policy.Expires) :
    (p.retrain policy patience).EndsWithin (Capability.maxEntries + (1 + (1 + (2 +
      ((policy.extraAttempts + 1) * policy.attemptAccesses + 2))))) := by
  refine .bind (Capability.findFrom_accesses _ _ _ _) fun found => ?_
  cases found with
  | none => exact .report (.done _)
  | some capability =>
    refine .bind (.command (.read _)) fun link => .bind linkStatus_accesses fun status => ?_
    dsimp only
    split
    · exact .report (.done _)
    · exact .bind (modify_accesses _ _) fun _ => attemptRetrain_ends h _ _ _ _

end Port

namespace Host

variable {soc : Soc} {policy : RetrainPolicy} {patience : Nat}

theorem retrainPort_ends (h : policy.Expires) (s : PortState) :
    (retrainPort soc policy patience s).EndsWithin policy.accesses := by
  refine .bind Port.linkDebug_accesses fun debug => ?_
  split
  · refine .mono (.bind_some (n := 0) (Port.retrain_ends h) fun outcome => .done _) ?_
    exact Nat.le_refl _
  · exact .done _

theorem retrainPorts_ends (h : policy.Expires) (ports : List PortState) :
    (retrainPorts soc policy patience ports).EndsWithin (ports.length * policy.accesses) := by
  induction ports with
  | nil => exact .done _
  | cons s rest ih =>
    rw [List.length_cons, Nat.succ_mul, Nat.add_comm]
    refine .bind_some (retrainPort_ends h s) fun outcome => ?_
    refine .mono (.bind_some (n := 0) ih fun others => ?_) (Nat.le_refl _)
    obtain ⟨states, reports⟩ := others
    cases outcome with
    | none => exact .done _
    | some o => exact .done _

theorem retrain_ends (host : Host) (h : policy.Expires) :
    (host.retrain policy patience).EndsWithin (host.ports.length * policy.accesses) := by
  unfold Host.retrain Host.retrainWith
  split
  · refine .mono (.bind_some (n := 0) (retrainPorts_ends h host.ports) fun others => ?_)
      (Nat.le_refl _)
    obtain ⟨states, reports⟩ := others
    exact .done _
  · exact .report (.done _)

end Host

/-! ## More patience, and counters without end -/

namespace Program

variable {α β : Type}

/-- Where `p` ends with a result, `q` ends with it as well, on the same path. -/
def Extends (q p : Program (Option α)) : Prop :=
  ∀ path a, Runs p path (some a) → Runs q path (some a)

namespace Extends

theorem refl (p : Program (Option α)) : p.Extends p := fun _ _ h => h

theorem of_none (q : Program (Option α)) : q.Extends (.done none) := by
  intro path a h
  cases (runs_done.mp h).2

theorem bind {p : Program α} {f g : α → Program (Option β)} (h : ∀ a, (g a).Extends (f a)) :
    (p >>= g).Extends (p >>= f) := by
  intro path b hr
  obtain ⟨a, front, back, hfront, hback, rfl⟩ := hr.bind
  exact runs_bind.mpr ⟨a, front, back, hfront, h a back b hback, rfl⟩

/-- What runs out stays without a result. -/
theorem bind_some {p q : Program (Option α)} {f g : Option α → Program (Option β)}
    (hp : q.Extends p) (hnone : f none = .done none)
    (h : ∀ a, (g (some a)).Extends (f (some a))) : (q >>= g).Extends (p >>= f) := by
  intro path b hr
  obtain ⟨r, front, back, hfront, hback, rfl⟩ := hr.bind
  cases r with
  | none =>
    rw [hnone] at hback
    cases (runs_done.mp hback).2
  | some a => exact runs_bind.mpr ⟨some a, front, back, hp front a hfront, h a back b hback, rfl⟩

end Extends

end Program

theorem RetrainPolicy.polls_mono (policy : RetrainPolicy) {n m : Nat} (h : n ≤ m) :
    policy.polls n ≤ policy.polls m := by
  unfold polls
  split
  · exact h
  · exact Nat.le_refl _

namespace Port

variable {p : Port} {policy : RetrainPolicy} {n m : Nat}

theorem awaitRetrained_extends (h : n ≤ m) (waited : Duration) (ltssm : Ltssm) :
    (p.awaitRetrained policy m waited ltssm).Extends (p.checkedAwait policy n waited ltssm) := by
  induction n generalizing m waited ltssm with
  | zero =>
    intro path r hr
    unfold checkedAwait at hr
    split at hr
    · cases (runs_done.mp hr).2
    · rename_i spent
      cases m with
      | zero =>
        unfold awaitRetrained
        rwa [if_neg spent]
      | succ m =>
        unfold awaitRetrained
        rwa [if_neg spent]
  | succ n ih =>
    obtain ⟨m, rfl⟩ := Nat.exists_eq_add_of_le' (Nat.le_trans (Nat.le_add_left 1 n) h)
    unfold awaitRetrained checkedAwait
    split
    · refine .bind fun _ => ?_
      split
      · refine .bind fun debug => .bind fun status => ?_
        split
        · exact .refl _
        · split
          · exact .refl _
          · exact ih (Nat.le_of_succ_le_succ h) _ _
      · exact .of_none _
    · exact .refl _

theorem retrainOnce_extends (h : n ≤ m) :
    (p.retrainOnce policy m).Extends (p.checkedOnce policy n) :=
  .bind fun _ => .bind fun _ => awaitRetrained_extends (policy.polls_mono h) 0 _

theorem attemptRetrain_extends (h : n ≤ m) (before target extra made : Nat) :
    (p.attemptRetrain policy m before target extra made).Extends
      (p.checkedAttempt policy n before target extra made) := by
  induction extra generalizing made with
  | zero =>
    unfold checkedAttempt
    split
    · unfold attemptRetrain
      refine .bind_some (retrainOnce_extends h) rfl fun r => ?_
      cases r with
      | error failure => exact .refl _
      | ok speed => exact .refl _
    · exact .of_none _
  | succ extra ih =>
    unfold checkedAttempt
    split
    · unfold attemptRetrain
      refine .bind_some (retrainOnce_extends h) rfl fun r => ?_
      cases r with
      | error failure => exact .refl _
      | ok speed =>
        dsimp only
        split
        · exact .bind fun _ => .bind fun _ => ih (made + 1)
        · exact .refl _
    · exact .of_none _

theorem retrainWith_extends {f g : Nat → Nat → Program (Option RetrainOutcome)}
    (h : ∀ speed target, (f speed target).Extends (g speed target)) :
    (p.retrainWith f).Extends (p.retrainWith g) := by
  refine .bind fun found => ?_
  cases found with
  | none => exact .refl _
  | some capability =>
    refine .bind fun link => .bind fun status => ?_
    dsimp only
    split
    · exact .refl _
    · exact .bind fun _ => h _ _

end Port

namespace Host

variable {f g : Port → Program (Option RetrainOutcome)}

theorem retrainPortWith_extends {soc : Soc} (h : ∀ p, (f p).Extends (g p)) (s : PortState) :
    (retrainPortWith soc f s).Extends (retrainPortWith soc g s) := by
  refine .bind fun debug => ?_
  split
  · exact .bind_some (h _) rfl fun _ => .refl _
  · exact .refl _

theorem retrainPortsWith_extends {soc : Soc} (h : ∀ p, (f p).Extends (g p))
    (ports : List PortState) :
    (retrainPortsWith soc f ports).Extends (retrainPortsWith soc g ports) := by
  induction ports with
  | nil => exact .refl _
  | cons s rest ih =>
    exact .bind_some (retrainPortWith_extends h s) rfl fun outcome =>
      .bind_some ih rfl fun _ => .refl _

theorem retrainWith_extends (host : Host) (h : ∀ p, (f p).Extends (g p)) :
    (host.retrainWith f).Extends (host.retrainWith g) := by
  unfold retrainWith
  split
  · exact .bind_some (retrainPortsWith_extends h host.ports) rfl fun _ => .refl _
  · exact .refl _

/-- A retrain by checked steps that ends does the same without bounds, whatever more patience it
has. -/
theorem retrain_extends (host : Host) (policy : RetrainPolicy) {n m : Nat} (h : n ≤ m) :
    (host.retrain policy m).Extends (host.checkedRetrain policy n) :=
  host.retrainWith_extends fun _ => Port.retrainWith_extends fun _ _ =>
    Port.attemptRetrain_extends h _ _ _ _

end Host

/-! ## Exactly which policies -/

namespace Host

variable {policy : RetrainPolicy} {patience : Nat}

/-- A chip that does not retrain, and one without ports, need no policy that expires. -/
theorem idle_ends {host : Host} (h : host.soc.retrains = false ∨ host.ports = []) (most : Nat) :
    (host.retrain policy patience).EndsWithin most := by
  unfold Host.retrain Host.retrainWith
  rcases h with hr | hports
  · rw [hr, if_neg Bool.false_ne_true]
    exact .report (.done _)
  · rw [hports]
    split
    · exact .done _
    · exact .report (.done _)

/-- Retrains keep the controllers. -/
theorem controllers_of_retrainAll {h last : Host} {policies : List RetrainPolicy}
    {calls : List (List RetrainReport)} {path : List Exchange}
    (hr : Runs (retrainAll patience h policies) path (some (last, calls))) :
    last.soc = h.soc ∧ last.ports.map (·.controller) = h.ports.map (·.controller) := by
  induction policies generalizing h path calls with
  | nil =>
    cases (runs_done.mp hr).2
    exact ⟨rfl, rfl⟩
  | cons policy rest ih =>
    obtain ⟨next, reports, more, front, back, hfront, hback, -, -⟩ := retrainAll_cons hr
    obtain ⟨hsoc, hcontrollers, -⟩ := retrain_turns hfront
    obtain ⟨hsoc', hcontrollers'⟩ := ih hback
    exact ⟨hsoc'.trans hsoc, hcontrollers'.trans hcontrollers⟩

end Host

/-- A host that was brought up, and retrained any number of times, returns from a retrain on every
sequence of register values exactly if the policy expires, or there is nothing to retrain. Then no
counter is passed on any path, no patience is needed, and the policy alone says how many accesses
there are at most. In any case a retrain that returns does the same without bounds on its counters,
whatever more patience it has. -/
theorem retrain_returns_iff {soc : Soc} {nodes : List Node} {front back : List Exchange}
    {first host : Host} {before : List RetrainPolicy} {patience : Nat}
    {calls : List (List RetrainReport)}
    (hbring : Runs (Host.bringUp (Topology.load soc nodes)) front first)
    (hretrain : Runs (Host.retrainAll patience first before) back (some (host, calls)))
    (policy : RetrainPolicy) :
    ((∀ reads : Nat → Word, ∃ patience,
        ((host.checkedRetrain policy patience).run (.reading reads) 0).1.isSome = true) ↔
      policy.Expires ∨ soc.retrains = false ∨ (Topology.load soc nodes).controllers = []) ∧
    (policy.Expires ∨ soc.retrains = false ∨ (Topology.load soc nodes).controllers = [] →
      ∀ patience, host.checkedRetrain policy patience = host.retrain policy patience ∧
        (host.retrain policy patience).EndsWithin
          ((Topology.load soc nodes).controllers.length * policy.accesses)) ∧
    ∀ patience more, patience ≤ more →
      (host.retrain policy more).Extends (host.checkedRetrain policy patience) := by
  obtain ⟨hports, hsoc, -⟩ := Host.bringUp_ports hbring
  obtain ⟨hsoc', hcontrollers⟩ := Host.controllers_of_retrainAll hretrain
  rw [Host.controllers_of_bringUpPorts hports] at hcontrollers
  have chip : host.soc = soc := hsoc'.trans hsoc
  have ends (h : policy.Expires ∨ soc.retrains = false ∨
      (Topology.load soc nodes).controllers = []) (patience : Nat) :
      host.checkedRetrain policy patience = host.retrain policy patience ∧
        (host.retrain policy patience).EndsWithin
          ((Topology.load soc nodes).controllers.length * policy.accesses) := by
    rcases h with expires | idle
    · rw [← hcontrollers, List.length_map]
      exact ⟨Host.checkedRetrain_eq expires.counts host patience, host.retrain_ends expires⟩
    · rw [← hcontrollers, List.map_eq_nil_iff, ← chip] at idle
      exact ⟨Host.checkedRetrain_idle idle policy patience, Host.idle_ends idle _⟩
  refine ⟨⟨fun returns => ?_, fun h reads => ⟨0, ?_⟩⟩, ends,
    fun _ _ h => host.retrain_extends policy h⟩
  · by_contra hnot
    obtain ⟨hpolicy, hretrains, hnodes⟩ := not_or.mp hnot |>.imp_right not_or.mp
    cases hhost : host.ports with
    | nil =>
      rw [hhost] at hcontrollers
      exact hnodes hcontrollers.symm
    | cons s rest =>
      have hmem : s.controller ∈ (Topology.load soc nodes).controllers := by
        rw [← hcontrollers, hhost]
        exact List.mem_cons_self
      have hr : host.soc.retrains = true := by
        rw [chip]
        exact Bool.eq_true_of_not_eq_false hretrains
      obtain ⟨reads, stuck⟩ := Host.exists_stuck hpolicy hr hhost (Topology.encodable hmem).speed.1
      obtain ⟨patience, hreturns⟩ := returns reads
      obtain ⟨m, hstuck⟩ := stuck patience
      rw [hstuck] at hreturns
      cases hreturns
  · obtain ⟨same, within⟩ := ends h 0
    rw [same]
    obtain ⟨⟨a, ha⟩, -⟩ := within _ _ (runs_exchanges (.reading reads) _ 0)
    rw [ha]
    rfl

/-- A link that hangs under the standard policy costs 4061 accesses. -/
theorem retrain_returns_iff_example :
    ∃ front first, Runs (Host.bringUp (Topology.load Bm1000.soc [exampleNode])) front first ∧
      (∃ patience,
        ((first.checkedRetrain .standard patience).run (.reading hungReads) 0).1.isSome) ∧
      ∀ patience, (first.retrain .standard patience).EndsWithin 4061 := by
  let bringUp := Host.bringUp (Topology.load Bm1000.soc [exampleNode])
  let first := (bringUp.run raisingPlatform false).1
  have hfront := runs_exchanges raisingPlatform bringUp false
  have hback : Runs (Host.retrainAll 0 first []) [] (some (first, [])) := .done _
  have expires : RetrainPolicy.standard.Expires := .inr ⟨by decide, by decide, by decide⟩
  obtain ⟨returns, ends, -⟩ := retrain_returns_iff hfront hback .standard
  have within := fun patience => (ends (.inl expires) patience).2
  rw [load_exampleNode] at within
  exact ⟨_, first, hfront, returns.mpr (.inl expires) hungReads, within⟩

/-- Without an interval the link that hangs is read twice more for each poll, and no number of
polls is enough. -/
theorem retrain_without_interval_hangs :
    ∃ front first, Runs (Host.bringUp (Topology.load Bm1000.soc [exampleNode])) front first ∧
      ∀ patience,
        (first.retrain ⟨.seconds 1, 0, 1, .milliseconds 200⟩ patience).run (.reading hungReads) 0 =
          (none, 7 + 2 * patience) := by
  let bringUp := Host.bringUp (Topology.load Bm1000.soc [exampleNode])
  let first := (bringUp.run raisingPlatform false).1
  have hfront := runs_exchanges raisingPlatform bringUp false
  obtain ⟨hports, hsoc, -⟩ := Host.bringUp_ports hfront
  have hcontrollers := Host.controllers_of_bringUpPorts hports
  rw [load_exampleNode] at hcontrollers
  obtain ⟨s, hs, hcontroller⟩ := List.map_eq_singleton_iff.mp hcontrollers
  have hr : first.soc.retrains = true := by
    rw [hsoc]
    rfl
  have hspeed : 0 < s.controller.maxSpeed := by
    rw [hcontroller]
    decide
  have counts : RetrainPolicy.Counts ⟨.seconds 1, 0, 1, .milliseconds 200⟩ :=
    ⟨by decide, by decide⟩
  refine ⟨_, first, hfront, fun patience => ?_⟩
  rw [← Host.checkedRetrain_eq (.inr counts)]
  exact Host.checkedRetrain_hung hr rfl (by decide) hs hspeed

end RootComplex
