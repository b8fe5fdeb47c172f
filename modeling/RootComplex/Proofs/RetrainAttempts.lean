import Mathlib.Algebra.Order.Floor.Div
import RootComplex.Proofs.LinkControl

/-! # The attempts of a retrain

An attempt is a request and the polls after it. It ends at the first poll that finds the link lost
or back, and at the latest when the polls have used the budget up. One that ended below the target
is followed by a wait and a further attempt, as long as the policy has one left. The attempts tell
all that a retrain of a link accesses, and what is reported of it. -/

namespace RootComplex

open Program

/-- The attempts that were made, if any. -/
def RetrainOutcome.attempts? : RetrainOutcome → Option Nat
  | atTarget _ => none
  | noCapability => none
  | retrained _ _ _ attempts => some attempts
  | linkLost _ attempts => some attempts
  | timedOut _ attempts => some attempts

namespace Path

variable {path : List Exchange}

theorem writes_accesses : writes (accesses path) = writes path := by
  unfold writes accesses
  rw [List.filterMap_filter]
  congr 1
  funext e
  obtain ⟨c, answer⟩ := e
  cases c <;> rfl

theorem writes_of_observes (h : ∀ e ∈ path, e.command.Observes) : writes path = [] := by
  apply List.filterMap_eq_nil_iff.mpr
  rintro ⟨c, answer⟩ he
  cases c with
  | write a v => exact (h _ he).elim
  | _ => rfl

theorem writes_modified (a : Address) (old new : Word) :
    writes (modified a old new) = [(a, new)] := rfl

end Path

namespace Port

/-! ## One attempt -/

/-- What one poll reads: the debug word of the link and, after it, its control and status. -/
structure Poll where
  debug : Word
  link : Word

namespace Poll

def exchanges (p : Port) (policy : RetrainPolicy) (w : Poll) : List Exchange :=
  [⟨.stall policy.pollInterval, ()⟩, p.look w.debug, p.readLink w.link]

/-- The data link layer went down. -/
def Lost (w : Poll) : Prop :=
  LinkStatus.dataLinkLayerLinkActive.test (Word.status w.link) = false

/-- The link is up, and is not trained any more. -/
def Back (w : Poll) : Prop :=
  LinkDebug.isUp w.debug = true ∧ LinkStatus.linkTraining.test (Word.status w.link) = false

def speed (w : Poll) : Nat := LinkStatus.currentLinkSpeed.get (Word.status w.link)

def Pending (w : Poll) : Prop := ¬w.Lost ∧ ¬w.Back

end Poll

/-- The polls of an attempt that has waited for so long and was last shown `debug`, and the result
that they come to. -/
inductive Awaits (policy : RetrainPolicy) :
    Duration → Word → List Poll → Except RetrainFailure Nat → Prop where
  | spent {waited : Duration} {debug : Word} (spent : policy.budget ≤ waited) :
      Awaits policy waited debug [] (.error (.timedOut (LinkDebug.state debug)))
  | lost {waited : Duration} {debug : Word} {w : Poll} (left : waited < policy.budget)
      (lost : w.Lost) : Awaits policy waited debug [w] (.error (.lost (LinkDebug.state w.debug)))
  | back {waited : Duration} {debug : Word} {w : Poll} (left : waited < policy.budget)
      (kept : ¬w.Lost) (back : w.Back) : Awaits policy waited debug [w] (.ok w.speed)
  | pending {waited : Duration} {debug : Word} {w : Poll} {polls : List Poll}
      {r : Except RetrainFailure Nat} (left : waited < policy.budget) (pending : w.Pending)
      (later : Awaits policy (waited + policy.pollInterval) w.debug polls r) :
      Awaits policy waited debug (w :: polls) r

/-- A request to retrain, and the wait for the link. -/
structure Attempt where
  /-- What the control of the link read as when the request was made. -/
  old : Word
  first : Word
  polls : List Poll
  result : Except RetrainFailure Nat

namespace Attempt

def exchanges (p : Port) (policy : RetrainPolicy) (a : Attempt) : List Exchange :=
  Path.modified p.retrainUpdate.register a.old (p.retrainUpdate.change a.old) ++
    p.look a.first :: a.polls.flatMap (·.exchanges p policy)

/-- The debug word that was read last. -/
def lastDebug (a : Attempt) : Word := (a.polls.getLast?.map (·.debug)).getD a.first

/-- What the polls of an attempt come to. A poll that finds the link lost does not look whether it
is back. -/
inductive Ends (a : Attempt) : Except RetrainFailure Nat → Prop where
  | lost {w : Poll} (last : a.polls.getLast? = some w) (lost : w.Lost) :
      Ends a (.error (.lost (LinkDebug.state a.lastDebug)))
  | back {w : Poll} (last : a.polls.getLast? = some w) (kept : ¬w.Lost) (back : w.Back) :
      Ends a (.ok w.speed)
  | timedOut (pending : ∀ w ∈ a.polls, w.Pending) :
      Ends a (.error (.timedOut (LinkDebug.state a.lastDebug)))

/-- The attempt ends at the first poll that decides it, or has as many polls as the budget has
intervals, rounded up. -/
structure Valid (policy : RetrainPolicy) (a : Attempt) : Prop where
  going : ∀ w ∈ a.polls.dropLast, w.Pending
  ends : ∀ r, a.Ends r ↔ r = a.result
  most : a.polls.length ≤ policy.budget ⌈/⌉ policy.pollInterval
  exhausted : (∀ w ∈ a.polls, w.Pending) →
    a.polls.length = policy.budget ⌈/⌉ policy.pollInterval
  /-- The waits exceed the budget by less than one interval. -/
  waits : a.polls ≠ [] →
    a.polls.length * policy.pollInterval < policy.budget + policy.pollInterval

/-- The LTSSM is disabled after an attempt that failed. -/
def closing (p : Port) (a : Attempt) (old : Word) : List Exchange :=
  match a.result with
  | .ok _ => []
  | .error _ => Path.modified p.ltssmRegister old (p.ltssmWord false old)

/-- What is reported if this attempt is the last one. -/
def outcome (before target attempts : Nat) (a : Attempt) : RetrainOutcome :=
  match a.result with
  | .ok speed => .retrained before speed target attempts
  | .error failure => failure.outcome attempts

end Attempt

variable {p : Port} {policy : RetrainPolicy} {patience : Nat} {path : List Exchange}

namespace Awaits

variable {waited : Duration} {debug : Word} {polls : List Poll} {r : Except RetrainFailure Nat}

theorem going (h : Awaits policy waited debug polls r) : ∀ w ∈ polls.dropLast, w.Pending := by
  induction h with
  | spent => exact fun w hw => absurd hw List.not_mem_nil
  | lost => exact fun w hw => absurd hw List.not_mem_nil
  | back => exact fun w hw => absurd hw List.not_mem_nil
  | @pending _ _ w polls _ left pending later ih =>
    cases polls with
    | nil => exact fun w hw => absurd hw List.not_mem_nil
    | cons v polls =>
      rw [List.dropLast_cons_cons]
      exact List.forall_mem_cons.mpr ⟨pending, ih⟩

/-- There was time left for every poll. -/
theorem waits (h : Awaits policy waited debug polls r) (made : polls ≠ []) :
    waited + polls.length * policy.pollInterval < policy.budget + policy.pollInterval := by
  induction h with
  | spent => exact absurd rfl made
  | lost left => simpa using left
  | back left => simpa using left
  | @pending waited _ w polls _ left pending later ih =>
    cases later with
    | spent => simpa using left
    | _ =>
      have further := ih (List.cons_ne_nil _ _)
      rwa [Nat.add_right_comm, Nat.add_assoc, ← Nat.succ_mul] at further

/-- Without a poll that decides the attempt the budget is used up. -/
theorem exhausts (h : Awaits policy waited debug polls r) (pending : ∀ w ∈ polls, w.Pending) :
    policy.budget ≤ waited + polls.length * policy.pollInterval := by
  induction h with
  | spent spent => simpa using spent
  | lost left lost => exact absurd lost (pending _ List.mem_cons_self).1
  | back left kept back => exact absurd back (pending _ List.mem_cons_self).2
  | pending left _ later ih =>
    have further := ih fun w hw => pending w (List.mem_cons_of_mem _ hw)
    rwa [Nat.add_right_comm, Nat.add_assoc, ← Nat.succ_mul] at further

theorem ends (h : Awaits policy waited debug polls r) (old : Word)
    (result : Except RetrainFailure Nat) : Attempt.Ends ⟨old, debug, polls, result⟩ r := by
  induction h with
  | spent spent => exact .timedOut fun w hw => absurd hw List.not_mem_nil
  | lost left lost => exact .lost rfl lost
  | back left kept back => exact .back rfl kept back
  | @pending _ debug w polls r left pending later ih =>
    -- a later poll is the last one of both lists, and without one this poll is
    have last : (w :: polls).getLast? = some (polls.getLast?.getD w) := List.getLast?_cons
    have debugs : Attempt.lastDebug ⟨old, debug, w :: polls, result⟩ =
        Attempt.lastDebug ⟨old, w.debug, polls, result⟩ := by
      unfold Attempt.lastDebug
      dsimp only
      rw [last]
      cases polls.getLast? <;> rfl
    cases ih with
    | lost hlast lost =>
      rw [← debugs]
      refine .lost ?_ lost
      rw [last, hlast, Option.getD_some]
    | back hlast kept back =>
      refine .back ?_ kept back
      rw [last, hlast, Option.getD_some]
    | timedOut others =>
      rw [← debugs]
      exact .timedOut (List.forall_mem_cons.mpr ⟨pending, others⟩)

end Awaits

/-- Polls come to one result. -/
theorem Attempt.Ends.unique {a : Attempt} {r s : Except RetrainFailure Nat} (hr : a.Ends r)
    (hs : a.Ends s) : r = s := by
  cases hr with
  | lost last lost =>
    cases hs with
    | lost => rfl
    | back again kept =>
      cases last.symm.trans again
      exact absurd lost kept
    | timedOut pending => exact absurd lost (pending _ (List.mem_of_getLast? last)).1
  | back last kept back =>
    cases hs with
    | lost again lost =>
      cases last.symm.trans again
      exact absurd lost kept
    | back again =>
      cases last.symm.trans again
      rfl
    | timedOut pending => exact absurd back (pending _ (List.mem_of_getLast? last)).2
  | timedOut pending =>
    cases hs with
    | lost last lost => exact absurd lost (pending _ (List.mem_of_getLast? last)).1
    | back last _ back => exact absurd back (pending _ (List.mem_of_getLast? last)).2
    | timedOut => rfl

theorem Awaits.valid {first : Word} {polls : List Poll} {r : Except RetrainFailure Nat}
    (hp : 0 < policy.pollInterval) (h : Awaits policy 0 first polls r) (old : Word) :
    Attempt.Valid policy ⟨old, first, polls, r⟩ := by
  have waits (made : polls ≠ []) :
      polls.length * policy.pollInterval < policy.budget + policy.pollInterval := by
    have waits := h.waits made
    rwa [Nat.zero_add] at waits
  have most : polls.length ≤ policy.budget ⌈/⌉ policy.pollInterval := by
    cases polls with
    | nil => exact Nat.zero_le _
    | cons w polls =>
      have left : polls.length * policy.pollInterval < policy.budget := by
        have waits := waits (List.cons_ne_nil w polls)
        rw [List.length_cons, Nat.succ_mul] at waits
        exact Nat.lt_of_add_lt_add_right waits
      refine Nat.lt_of_not_le fun reached => Nat.not_le_of_lt left ?_
      rw [Nat.mul_comm]
      exact (ceilDiv_le_iff_le_mul hp).mp reached
  refine ⟨h.going, fun s => ⟨fun hs => hs.unique (h.ends old r), fun hs => hs ▸ h.ends old r⟩,
    most, fun pending => ?_, waits⟩
  · refine Nat.le_antisymm most ((ceilDiv_le_iff_le_mul hp).mpr ?_)
    have spent := h.exhausts pending
    rwa [Nat.zero_add, Nat.mul_comm] at spent

theorem awaitRetrained_awaits {most : Nat} {waited : Duration} {debug : Word}
    {r : Except RetrainFailure Nat}
    (h : Runs (p.awaitRetrained policy most waited (LinkDebug.state debug)) path (some r)) :
    ∃ polls, Awaits policy waited debug polls r ∧ path = polls.flatMap (·.exchanges p policy) := by
  induction most generalizing path waited debug with
  | zero =>
    unfold awaitRetrained at h
    split at h
    · cases (runs_done.mp h).2
    · rename_i spent
      obtain ⟨rfl, hr⟩ := runs_done.mp h
      cases hr
      exact ⟨[], .spent (Nat.le_of_not_lt spent), rfl⟩
  | succ most ih =>
    unfold awaitRetrained at h
    split at h
    · rename_i left
      obtain ⟨_, rfl, h₁⟩ := runs_stall_bind.mp h
      obtain ⟨seen, looked, _, hlook, h₂, rfl⟩ := h₁.bind
      obtain ⟨status, read, rest, hread, h₃, rfl⟩ := h₂.bind
      obtain rfl := runs_linkDebug.mp hlook
      obtain ⟨word, rfl, rfl⟩ := runs_linkStatus.mp hread
      let w : Poll := ⟨seen, word⟩
      split at h₃
      · rename_i down
        obtain ⟨rfl, hr⟩ := runs_done.mp h₃
        cases hr
        have lost : w.Lost := by simpa [Poll.Lost] using down
        exact ⟨[w], .lost left lost, rfl⟩
      · rename_i up
        have kept : ¬w.Lost := by simpa [Poll.Lost] using up
        split at h₃
        · rename_i done
          obtain ⟨rfl, hr⟩ := runs_done.mp h₃
          cases hr
          have back : w.Back := by simpa [Poll.Back] using done
          exact ⟨[w], .back left kept back, rfl⟩
        · rename_i training
          have away : ¬w.Back := by simpa [Poll.Back] using training
          obtain ⟨polls, awaits, rfl⟩ := ih h₃
          exact ⟨w :: polls, .pending left ⟨kept, away⟩ awaits, rfl⟩
    · rename_i spent
      obtain ⟨rfl, hr⟩ := runs_done.mp h
      cases hr
      exact ⟨[], .spent (Nat.le_of_not_lt spent), rfl⟩

theorem retrainOnce_attempt {r : Except RetrainFailure Nat} (hp : 0 < policy.pollInterval)
    (h : Runs (p.retrainOnce policy patience) path (some r)) :
    ∃ a : Attempt, a.Valid policy ∧ a.result = r ∧ path = a.exchanges p policy := by
  obtain ⟨_, request, _, hrequest, h₁, rfl⟩ := h.bind
  obtain ⟨old, rfl⟩ := Path.of_modify hrequest
  obtain ⟨first, looked, _, hlook, hwait, rfl⟩ := h₁.bind
  obtain rfl := runs_linkDebug.mp hlook
  obtain ⟨polls, awaits, rfl⟩ := awaitRetrained_awaits hwait
  exact ⟨⟨old, first, polls, r⟩, awaits.valid hp old, rfl, rfl⟩

/-! ## The attempts of a turn -/

/-- The attempts of a turn after `made` others, of which `extra` may follow one that ends below the
target. Beside them only the waits between two of them, and the end of a failed one, are
accesses. -/
structure Retrains (p : Port) (policy : RetrainPolicy) (before target extra made : Nat)
    (attempts : List Attempt) (path : List Exchange) (outcome : RetrainOutcome) : Prop where
  valid : ∀ a ∈ attempts, a.Valid policy
  further : ∀ i a, attempts[i]? = some a → (i + 1 < attempts.length ↔
    i + 1 ≤ extra ∧ ∃ speed, a.result = .ok speed ∧ speed < target)
  ends : ∃ last old, attempts.getLast? = some last ∧
    outcome = last.outcome before target (made + attempts.length) ∧
    Path.accesses path = [⟨.stall policy.settle, ()⟩].intercalate
      (attempts.map (·.exchanges p policy)) ++ last.closing p old

theorem Attempt.accesses_exchanges (a : Attempt) :
    Path.accesses (a.exchanges p policy) = a.exchanges p policy := by
  apply List.filter_eq_self.mpr
  intro e he
  rcases List.mem_append.mp he with he | he
  · rcases List.mem_cons.mp he with rfl | he
    · rfl
    · rw [List.mem_singleton.mp he]
      rfl
  · rcases List.mem_cons.mp he with rfl | he
    · rfl
    · obtain ⟨w, -, hw⟩ := List.mem_flatMap.mp he
      simp only [Poll.exchanges, List.mem_cons, List.not_mem_nil, or_false] at hw
      rcases hw with rfl | rfl | rfl <;> rfl

namespace Retrains

variable {before target extra made : Nat} {a : Attempt} {tail later : List Exchange}
  {outcome : RetrainOutcome}

theorem last (valid : a.Valid policy) (old : Word)
    (hlast : ¬(1 ≤ extra ∧ ∃ speed, a.result = .ok speed ∧ speed < target))
    (htail : Path.accesses tail = a.closing p old) :
    p.Retrains policy before target extra made [a] (a.exchanges p policy ++ tail)
      (a.outcome before target (made + 1)) := by
  refine ⟨List.forall_mem_singleton.mpr valid, fun i b hb => ?_, a, old, rfl, rfl, ?_⟩
  · cases i with
    | zero =>
      cases hb
      exact ⟨fun h => absurd h (Nat.lt_irrefl 1), fun h => absurd h hlast⟩
    | succ i => cases hb
  · rw [accesses_append, a.accesses_exchanges, htail, List.map_singleton,
      List.intercalate_singleton]

/-- An attempt that ended below the target, a wait, and the attempts after it. -/
theorem cons {speed : Nat} {event : Event} {attempts : List Attempt} (valid : a.Valid policy)
    (hspeed : a.result = .ok speed) (below : speed < target)
    (h : p.Retrains policy before target extra (made + 1) attempts later outcome) :
    p.Retrains policy before target (extra + 1) made (a :: attempts)
      (a.exchanges p policy ++ ⟨.report event, ()⟩ :: ⟨.stall policy.settle, ()⟩ :: later)
      outcome := by
  obtain ⟨ending, old, hlast, houtcome, haccesses⟩ := h.ends
  cases attempts with
  | nil => cases hlast
  | cons b rest =>
    refine ⟨List.forall_mem_cons.mpr ⟨valid, h.valid⟩, fun i c hc => ?_, ending, old, ?_, ?_, ?_⟩
    · cases i with
      | zero =>
        cases hc
        exact iff_of_true (by simp) ⟨by omega, speed, hspeed, below⟩
      | succ i =>
        have further := h.further i c hc
        rw [List.length_cons, Nat.succ_lt_succ_iff, Nat.succ_le_succ_iff]
        exact further
    · rw [List.getLast?_cons_cons, hlast]
    · rw [houtcome, Nat.add_assoc, Nat.add_comm 1]
      rfl
    · have wait : Path.accesses (⟨.report event, ()⟩ :: ⟨.stall policy.settle, ()⟩ :: later) =
          ⟨.stall policy.settle, ()⟩ :: Path.accesses later := rfl
      rw [accesses_append, a.accesses_exchanges, wait, haccesses]
      simp only [List.map_cons, List.intercalate_cons_cons, List.append_assoc, List.cons_append,
        List.nil_append]

theorem of_failed {failure : RetrainFailure} (valid : a.Valid policy)
    (hresult : a.result = .error failure)
    (h : Runs (p.retrainFailed target (made + 1) failure) tail (some outcome)) :
    p.Retrains policy before target extra made [a] (a.exchanges p policy ++ tail) outcome := by
  obtain ⟨_, off, _, hoff, h₁, rfl⟩ := h.bind
  obtain ⟨old, rfl⟩ := Path.of_modify hoff
  obtain ⟨_, rfl, h₂⟩ := runs_report_bind.mp h₁
  obtain ⟨rfl, houtcome⟩ := runs_done.mp h₂
  have reported : outcome = a.outcome before target (made + 1) := by
    rw [Attempt.outcome, hresult]
    exact Option.some.inj houtcome
  rw [reported]
  refine .last valid old (fun ⟨_, speed, hspeed, _⟩ => ?_) ?_
  · rw [hresult] at hspeed
    cases hspeed
  · rw [Attempt.closing, hresult]
    rfl

theorem of_reported {speed : Nat} (valid : a.Valid policy) (hresult : a.result = .ok speed)
    (hlast : speed < target → extra = 0)
    (h : Runs (p.reportRetrained before speed target (made + 1)) tail (some outcome)) :
    p.Retrains policy before target extra made [a] (a.exchanges p policy ++ tail) outcome := by
  obtain ⟨_, rfl, h₁⟩ := runs_report_bind.mp h
  obtain ⟨rfl, houtcome⟩ := runs_done.mp h₁
  have reported : outcome = a.outcome before target (made + 1) := by
    rw [Attempt.outcome, hresult]
    exact Option.some.inj houtcome
  rw [reported]
  refine .last valid 0 (fun ⟨hextra, again, hagain, below⟩ => ?_) ?_
  · rw [hresult] at hagain
    cases hagain
    have := hlast below
    omega
  · rw [Attempt.closing, hresult]
    rfl

end Retrains

/-- The induction is on the further attempts that may be made. -/
theorem attemptRetrain_retrains {before target extra made : Nat} {outcome : RetrainOutcome}
    (hp : 0 < policy.pollInterval)
    (h : Runs (p.attemptRetrain policy patience before target extra made) path (some outcome)) :
    ∃ attempts, p.Retrains policy before target extra made attempts path outcome := by
  induction extra generalizing path made with
  | zero =>
    obtain ⟨r, attempt, tail, hattempt, rfl, hend⟩ := attemptRetrain_cases h
    rcases hend with ⟨-, hnone⟩ | ⟨_, rfl, hend⟩ | ⟨_, rfl, hend, hlast⟩ |
      ⟨_, _, _, _, -, hextra, -⟩
    · cases hnone
    · obtain ⟨a, valid, hresult, rfl⟩ := retrainOnce_attempt hp hattempt
      exact ⟨_, .of_failed valid hresult hend⟩
    · obtain ⟨a, valid, hresult, rfl⟩ := retrainOnce_attempt hp hattempt
      exact ⟨_, .of_reported valid hresult hlast hend⟩
    · cases hextra
  | succ extra ih =>
    obtain ⟨r, attempt, tail, hattempt, rfl, hend⟩ := attemptRetrain_cases h
    rcases hend with ⟨-, hnone⟩ | ⟨_, rfl, hend⟩ | ⟨_, rfl, hend, hlast⟩ |
      ⟨_, _, _, later, rfl, hextra, rfl, hend, below⟩
    · cases hnone
    · obtain ⟨a, valid, hresult, rfl⟩ := retrainOnce_attempt hp hattempt
      exact ⟨_, .of_failed valid hresult hend⟩
    · obtain ⟨a, valid, hresult, rfl⟩ := retrainOnce_attempt hp hattempt
      exact ⟨_, .of_reported valid hresult hlast hend⟩
    · cases hextra
      obtain ⟨a, valid, hresult, rfl⟩ := retrainOnce_attempt hp hattempt
      obtain ⟨attempts, retrains⟩ := ih hend
      exact ⟨_, .cons valid hresult below retrains⟩

/-! ## What is written -/

/-- The write of a request. -/
def Attempt.request (p : Port) (a : Attempt) : Address × Word :=
  (p.retrainUpdate.register, p.retrainUpdate.change a.old)

/-- The write sets the retrain bit of the link. -/
def setsRetrain (p : Port) (w : Address × Word) : Bool :=
  decide (w.1 = p.dbi PortLogic.linkControlStatus) &&
    LinkControl.retrainLink.test (Word.control w.2)

theorem setsRetrain_request (a : Attempt) : p.setsRetrain (a.request p) = true := by
  have control : LinkControl.retrainLink.test
      (LinkControl.retrainLink.put true (Word.control a.old)) = true := by
    unfold Field.test Field.put
    rw [Field.getLsbD_set]
    rfl
  rw [setsRetrain, Attempt.request, retrainUpdate, Word.control_ofControl, control]
  simp

theorem setsRetrain_of_ne {w : Address × Word} (h : w.1 ≠ p.dbi PortLogic.linkControlStatus) :
    p.setsRetrain w = false := by
  rw [setsRetrain, decide_eq_false h, Bool.false_and]

theorem Attempt.writes_exchanges (a : Attempt) :
    Path.writes (a.exchanges p policy) = [a.request p] := by
  have polls (l : List Poll) : Path.writes (l.flatMap (·.exchanges p policy)) = [] := by
    refine List.filterMap_eq_nil_iff.mpr fun e he => ?_
    obtain ⟨w, -, hw⟩ := List.mem_flatMap.mp he
    simp only [Poll.exchanges, List.mem_cons, List.not_mem_nil, or_false] at hw
    rcases hw with rfl | rfl | rfl <;> rfl
  have wait : Path.writes (p.look a.first :: a.polls.flatMap (·.exchanges p policy)) = [] :=
    polls a.polls
  rw [exchanges, Path.writes_append, Path.writes_modified, wait]
  rfl

theorem writes_attempts (attempts : List Attempt) (t : Duration) :
    Path.writes ([⟨.stall t, ()⟩].intercalate (attempts.map (·.exchanges p policy))) =
      attempts.map (·.request p) := by
  induction attempts with
  | nil => rfl
  | cons a rest ih =>
    cases rest with
    | nil =>
      rw [List.map_singleton, List.intercalate_singleton, a.writes_exchanges, List.map_singleton]
    | cons b rest =>
      rw [List.map_cons, List.map_cons, List.intercalate_cons_cons, ← List.map_cons,
        Path.writes_append, Path.writes_append, a.writes_exchanges, ih]
      rfl

theorem Attempt.attempts?_outcome (a : Attempt) (before target attempts : Nat) :
    (a.outcome before target attempts).attempts? = some attempts := by
  unfold outcome
  rcases a.result with (_ | _) | _ <;> rfl

namespace Retrains

variable {before target extra made : Nat} {attempts : List Attempt} {outcome : RetrainOutcome}

theorem length_bounds (h : p.Retrains policy before target extra made attempts path outcome) :
    1 ≤ attempts.length ∧ attempts.length ≤ extra + 1 := by
  obtain ⟨last, _, hlast, -⟩ := h.ends
  have made : 1 ≤ attempts.length :=
    List.length_pos_iff.mpr (List.ne_nil_of_mem (List.mem_of_getLast? hlast))
  refine ⟨made, Nat.le_of_not_lt fun more => ?_⟩
  -- the attempt before the last one was followed by it
  have inside : attempts.length - 2 < attempts.length := by omega
  have further := (h.further _ _ (List.getElem?_eq_getElem inside)).mp (by omega)
  omega

theorem writes (h : p.Retrains policy before target extra made attempts path outcome) :
    ∃ closing, Path.writes path = attempts.map (·.request p) ++ closing ∧
      ∀ w ∈ closing, w.1 = p.ltssmRegister := by
  obtain ⟨last, old, -, -, haccesses⟩ := h.ends
  refine ⟨Path.writes (last.closing p old), ?_, fun w hw => ?_⟩
  · rw [← Path.writes_accesses, haccesses, Path.writes_append, writes_attempts]
  · unfold Attempt.closing at hw
    split at hw
    · cases hw
    · rw [Path.writes_modified] at hw
      rw [List.mem_singleton.mp hw]

/-- After a failure the LTSSM is disabled, and the state that the last look showed is reported. -/
theorem closes (h : p.Retrains policy before target extra made attempts path outcome)
    {ltssm : Ltssm} {n : Nat}
    (failed : outcome = .linkLost ltssm n ∨ outcome = .timedOut ltssm n) :
    ∃ last old, attempts.getLast? = some last ∧ ltssm = LinkDebug.state last.lastDebug ∧
      Path.writes path = attempts.map (·.request p) ++
        [(p.ltssmRegister, p.ltssmWord false old)] := by
  obtain ⟨last, old, hlast, rfl, haccesses⟩ := h.ends
  have ends : last.Ends last.result :=
    ((h.valid last (List.mem_of_getLast? hlast)).ends _).mpr rfl
  have hresult : last.result = .error (.lost ltssm) ∨ last.result = .error (.timedOut ltssm) := by
    unfold Attempt.outcome at failed
    split at failed
    · rcases failed with h | h <;> cases h
    · rename_i failure hresult
      cases failure <;> rcases failed with h | h <;> cases h
      · exact .inl hresult
      · exact .inr hresult
  have closing : last.closing p old = Path.modified p.ltssmRegister old (p.ltssmWord false old) := by
    unfold Attempt.closing
    rcases hresult with h | h <;> rw [h]
  refine ⟨last, old, hlast, ?_, ?_⟩
  · rcases hresult with h | h
    · rw [h] at ends
      cases ends
      rfl
    · rw [h] at ends
      cases ends
      rfl
  · rw [← Path.writes_accesses, haccesses, Path.writes_append, writes_attempts, closing,
      Path.writes_modified]

/-- A link that stays below the target has all its attempts. -/
theorem falls_short {speed after goal n : Nat}
    (h : p.Retrains policy before target extra 0 attempts path (.retrained speed after goal n))
    (below : after < goal) : n = extra + 1 := by
  obtain ⟨last, _, hlast, houtcome, -⟩ := h.ends
  obtain ⟨made, most⟩ := h.length_bounds
  rw [Nat.zero_add] at houtcome
  have hresult : last.result = .ok after ∧ goal = target ∧ n = attempts.length := by
    unfold Attempt.outcome at houtcome
    split at houtcome
    · rename_i hresult
      cases houtcome
      exact ⟨hresult, rfl, rfl⟩
    · rename_i failure hresult
      cases failure <;> cases houtcome
  obtain ⟨hresult, rfl, rfl⟩ := hresult
  refine Nat.le_antisymm most (Nat.lt_of_not_le fun left => ?_)
  rw [List.getLast?_eq_getElem?] at hlast
  have further := (h.further _ _ hlast).mpr ⟨by omega, after, hresult, below⟩
  omega

end Retrains

/-- A turn with this survey that works on its link. The link is asked for the target, and the
attempts follow. -/
structure Survey.Works (s : Survey) (p : Port) (policy : RetrainPolicy) (path : List Exchange)
    (outcome : RetrainOutcome) (attempts : List Attempt) : Prop where
  parts : ∃ old tail, path = s.reads p ++
      (Path.modified (p.speedUpdate (s.target p)).register old
        ((p.speedUpdate (s.target p)).change old) ++ tail) ∧
    p.Retrains policy s.current (s.target p) policy.extraAttempts 0 attempts tail outcome
  reported : outcome.attempts? = some attempts.length
  made : 1 ≤ attempts.length ∧ attempts.length ≤ policy.extraAttempts + 1
  /-- Whatever else the turn writes is the target speed, and at last the LTSSM control. -/
  requests : ∃ speed closing, Path.writes path = speed :: attempts.map (·.request p) ++ closing ∧
    p.setsRetrain speed = false ∧ ∀ w ∈ closing, w.1 = p.ltssmRegister
  /-- With the LTSSM control in another register these are all. -/
  requested : p.ltssmRegister ≠ p.dbi PortLogic.linkControlStatus →
    (Path.writes path).countP p.setsRetrain = attempts.length
  short : ∀ before after target made, outcome = .retrained before after target made →
    after < target → made = policy.extraAttempts + 1
  failed : ∀ ltssm made, outcome = .linkLost ltssm made ∨ outcome = .timedOut ltssm made →
    ∃ last value, attempts.getLast? = some last ∧ ltssm = LinkDebug.state last.lastDebug ∧
      (Path.writes path).getLast? = some (p.ltssmRegister, value) ∧
      value &&& p.soc.control.ltssmEnable = 0

theorem Survey.works {s : Survey} {outcome : RetrainOutcome} (hp : 0 < policy.pollInterval)
    (observes : ∀ e ∈ s.reads p, e.command.Observes)
    (tries : s.Tries p policy patience path outcome) (busy : outcome.isIdle = false) :
    ∃ attempts, s.Works p policy path outcome attempts := by
  obtain ⟨old, tail, hpath, hattempts⟩ := tries busy
  obtain ⟨attempts, retrains⟩ := attemptRetrain_retrains hp hattempts
  let speed := ((p.speedUpdate (s.target p)).register, (p.speedUpdate (s.target p)).change old)
  have writes : Path.writes path = speed :: Path.writes tail := by
    rw [hpath, Path.writes_append, Path.writes_of_observes observes, Path.writes_append,
      Path.writes_modified]
    rfl
  have other : p.setsRetrain speed = false := setsRetrain_of_ne linkControl_ne.symm
  obtain ⟨closing, hclosing, ltssm⟩ := retrains.writes
  refine ⟨attempts, ⟨old, tail, hpath, retrains⟩, ?_, retrains.length_bounds,
    ⟨speed, closing, ?_, other, ltssm⟩, fun apart => ?_, ?_, ?_⟩
  · obtain ⟨last, _, -, houtcome, -⟩ := retrains.ends
    rw [houtcome, Attempt.attempts?_outcome, Nat.zero_add]
  · rw [writes, hclosing]
    rfl
  · have requests : (attempts.map (·.request p)).countP p.setsRetrain = attempts.length := by
      rw [List.countP_map]
      exact List.countP_eq_length.mpr fun a _ => setsRetrain_request a
    have none : closing.countP p.setsRetrain = 0 := by
      refine List.countP_eq_zero.mpr fun w hw => ?_
      rw [setsRetrain_of_ne (by rwa [ltssm w hw])]
      exact Bool.false_ne_true
    rw [writes, hclosing, List.countP_cons_of_neg (by rw [other]; exact Bool.false_ne_true),
      List.countP_append, requests, none, Nat.add_zero]
  · rintro before after target made rfl below
    exact retrains.falls_short below
  · intro state made failed
    obtain ⟨last, before, hlast, hstate, hwrites⟩ := retrains.closes failed
    refine ⟨last, p.ltssmWord false before, hlast, hstate, ?_, ?_⟩
    · rw [writes, hwrites, ← List.cons_append, List.getLast?_concat]
    · rw [ltssmWord, if_neg Bool.false_ne_true, BitVec.and_assoc, BitVec.not_and_self]
      exact BitVec.and_zero

end Port

/-- Whatever the hardware answers, a turn that does not leave its link alone makes attempts, each
bounded by the budget, and ends with the first of them that does not allow for a further one. What
is written, and what is reported, is told by the attempts. -/
theorem retrain_attempts_bounded {h : Host} {policy : RetrainPolicy}
    (hp : 0 < policy.pollInterval) {patience : Nat} {path : List Exchange}
    {result : Option (Host × List RetrainReport)}
    (hr : Runs (h.retrain policy patience) path result) :
    ∃ next reports, result = some (next, reports) ∧
      ((h.soc.retrains = false ∧ reports = [] ∧ Path.accesses path = []) ∨
        ∃ turns, Host.Accounts h.soc h.ports turns path reports ∧ ∀ t ∈ turns,
          ((∀ outcome, t.outcome = some outcome → outcome.isIdle = true) →
            ∀ e ∈ t.path, e.command.Observes) ∧
          ∀ outcome, t.outcome = some outcome → outcome.isIdle = false →
            ∃ attempts, t.survey.Works (t.port h.soc) policy t.path outcome attempts) := by
  obtain ⟨next, reports, rfl⟩ := Host.retrain_some hp hr
  obtain ⟨-, -, hcases⟩ := Host.retrain_turns hr
  refine ⟨next, reports, rfl, ?_⟩
  rcases hcases with ⟨hs, hreports, event, rfl⟩ | ⟨-, turns, accounts, tries⟩
  · exact .inl ⟨hs, hreports, rfl⟩
  · refine .inr ⟨turns, accounts, fun t ht => ?_⟩
    have decides := accounts.decided t ht
    have observes := Port.Survey.reads_observe decides.walked
    exact ⟨decides.idle, fun outcome houtcome busy =>
      Port.Survey.works hp observes (tries t ht outcome houtcome) busy⟩

/-- A port whose link gets to the second speed at the first request and is lost at the next one. It
counts the requests. -/
def fadingPlatform : Platform Nat where
  answer
    | .read a, n => (if a = 0x02050024 then (if n < 2 then 0xD1 else 0x0D)
        else if a = 0x03200B0C then 1
        else if a = 0x03200080 then (if n = 0 then 0x20010000 else if n = 1 then 0x20020000 else 0)
        else if a = 0x1000000040 then 0x10 else if a = 0x100000004C then 3 else 0, n)
    | .write a _, n => ((), if a = 0x03200080 then n + 1 else n)
    | .barrier, n => ((), n)
    | .stall _, n => ((), n)
    | .listens _, n => (true, n)
    | .report _, n => ((), n)

/-- The further attempt is the last one, and its failure is reported. -/
theorem retrain_attempts_bounded_example :
    ∃ front first path next, ∃ t : Host.Turn, ∃ attempts,
      Runs (Host.bringUp (Topology.load Bm1000.soc [exampleNode])) front first ∧
      Runs (first.retrain .standard 0) path (some (next, [⟨1, .linkLost ⟨0x0D⟩ 2⟩])) ∧
      t.survey.Works (t.port first.soc) .standard t.path (.linkLost ⟨0x0D⟩ 2) attempts ∧
      attempts.length = 2 := by
  have hp : 0 < RetrainPolicy.standard.pollInterval := by decide
  let bringUp := Host.bringUp (Topology.load Bm1000.soc [exampleNode])
  let first := (bringUp.run fadingPlatform 0).1
  let retrain := (first.retrain .standard 0).run fadingPlatform (bringUp.run fadingPlatform 0).2
  have hfront := runs_exchanges fadingPlatform bringUp 0
  have hpath := runs_exchanges fadingPlatform (first.retrain .standard 0)
    (bringUp.run fadingPlatform 0).2
  have lost : retrain.1.map (·.2) = some [⟨1, .linkLost ⟨0x0D⟩ 2⟩] := by decide +kernel
  obtain ⟨next, reports, hnext, hturns⟩ := retrain_attempts_bounded hp hpath
  rw [hnext] at lost hpath
  obtain rfl : reports = [⟨1, .linkLost ⟨0x0D⟩ 2⟩] := Option.some.inj lost
  rcases hturns with ⟨-, hnone, -⟩ | ⟨turns, accounts, works⟩
  · cases hnone
  · have reported : (⟨1, .linkLost ⟨0x0D⟩ 2⟩ : RetrainReport) ∈ turns.filterMap (·.report?) := by
      rw [← accounts.reports]
      exact List.mem_singleton_self _
    obtain ⟨t, ht, hreport⟩ := List.mem_filterMap.mp reported
    obtain ⟨outcome, houtcome, hboth⟩ := Option.map_eq_some_iff.mp hreport
    obtain ⟨-, rfl⟩ := RetrainReport.mk.inj hboth
    obtain ⟨attempts, hworks⟩ := (works t ht).2 _ houtcome rfl
    exact ⟨_, first, _, next, t, attempts, hfront, hpath, hworks,
      (Option.some.inj hworks.reported).symm⟩

end RootComplex
