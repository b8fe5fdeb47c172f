import RootComplex.Proofs.Stages

/-! # Training

Link training, told from the link debug words alone. A reference machine searches the
sequence of looks for the first one that shows a partner, and from there for the first
one that settles the link; what it says of the accesses and of the outcome holds of every
path of the engine. -/

namespace RootComplex

open Program

/-- From `d` on, `k` is the first place where `P` holds. -/
structure FirstFrom (P : Nat → Prop) (d k : Nat) : Prop where
  le : d ≤ k
  holds : P k
  before : ∀ i, d ≤ i → i < k → ¬P i

/-- The exchange touches a register, waits or orders accesses; events and questions about
who listens do not. -/
def Exchange.isAccess (e : Exchange) : Bool :=
  match e.command with
  | .listens _ => false
  | .report _ => false
  | _ => true

def Path.accesses (path : List Exchange) : List Exchange := path.filter (·.isAccess)

theorem FirstFrom.congr {P Q : Nat → Prop} {d k : Nat} (h : ∀ i ≤ k, P i ↔ Q i)
    (f : FirstFrom P d k) : FirstFrom Q d k where
  le := f.le
  holds := (h k (Nat.le_refl k)).mp f.holds
  before i hi hik hq := f.before i hi hik ((h i (Nat.le_of_lt hik)).mpr hq)

theorem FirstFrom.unique {P : Nat → Prop} {d j k : Nat} (hj : FirstFrom P d j)
    (hk : FirstFrom P d k) : j = k := by
  rcases Nat.lt_trichotomy j k with earlier | same | later
  · exact absurd hj.holds (hk.before j hj.le earlier)
  · exact same
  · exact absurd hk.holds (hj.before k hk.le later)

theorem FirstFrom.here {P : Nat → Prop} {k : Nat} (h : P k) : FirstFrom P k k :=
  ⟨Nat.le_refl k, h, fun _ hi hik => absurd hi (Nat.not_le_of_lt hik)⟩

theorem FirstFrom.of_succ {P : Nat → Prop} {d k : Nat} (h : ¬P d) (first : FirstFrom P (d + 1) k) :
    FirstFrom P d k := by
  refine ⟨Nat.le_of_succ_le first.le, first.holds, fun i hi hik => ?_⟩
  rcases Nat.eq_or_lt_of_le hi with rfl | later
  · exact h
  · exact first.before i later hik

/-- What holds somewhere holds somewhere first. -/
theorem FirstFrom.exists_of_holds {P : Nat → Prop} {k : Nat} (h : P k) : ∃ j, FirstFrom P 0 j := by
  induction k using Nat.strongRecOn with
  | ind k ih =>
    by_cases earlier : ∃ i < k, P i
    · obtain ⟨i, hi, holds⟩ := earlier
      exact ih i hi holds
    · exact ⟨k, Nat.zero_le k, h, fun i _ hi holds => earlier ⟨i, hi, holds⟩⟩

namespace Port

/-- One look at the link that shows `debug`. -/
def look (p : Port) (debug : Word) : Exchange := ⟨.read (p.control p.soc.control.linkStatus), debug⟩

/-- The looks after number `d` up to number `k`, one millisecond apart. -/
def looks (p : Port) (w : Nat → Word) (d k : Nat) : List Exchange :=
  (List.range' (d + 1) (k - d)).flatMap fun i =>
    [⟨.stall (.milliseconds 1), ()⟩, p.look (w i)]

/-- The budget of a port, in looks one millisecond apart. -/
def budget (p : Port) : Nat := p.soc.linkUpTimeout.inMilliseconds

theorem budget_bm1000 (c : Controller) : budget ⟨Bm1000.soc, c⟩ = 200 := by
  simp [budget, Bm1000.soc, Duration.milliseconds, Duration.inMilliseconds]

theorem budget_bs1000 (c : Controller) : budget ⟨Bs1000.soc, c⟩ = 100 := by
  simp [budget, Bs1000.soc, Duration.milliseconds, Duration.inMilliseconds]

end Port

namespace Training

/-- A partner is seen: the state machine is past both detect states. -/
def Seen (w : Nat → Word) (k : Nat) : Prop := 1 < (LinkDebug.state (w k)).code

/-- The second phase stops at look `k`. -/
def Stops (budget : Nat) (w : Nat → Word) (k : Nat) : Prop :=
  LinkDebug.isUp (w k) = true ∨ (LinkDebug.state (w k)).isLockup = true ∨ budget ≤ k

theorem Seen.congr {v w : Nat → Word} {k : Nat} (h : ∀ i ≤ k, w i = v i) :
    ∀ i ≤ k, Seen v i ↔ Seen w i := by
  intro i hi
  rw [Seen, Seen, h i hi]

theorem Stops.congr {budget : Nat} {v w : Nat → Word} {k : Nat} (h : ∀ i ≤ k, w i = v i) :
    ∀ i ≤ k, Stops budget v i ↔ Stops budget w i := by
  intro i hi
  rw [Stops, Stops, h i hi]

theorem partnerDetected_iff {w : Nat → Word} {k : Nat} :
    (LinkDebug.state (w k)).partnerDetected = true ↔ Seen w k :=
  decide_eq_true_iff

theorem stops_iff {budget k : Nat} {w : Nat → Word} (h : ¬budget ≤ k) :
    Port.isSettled (w k) = true ↔ Stops budget w k := by
  simp [Port.isSettled, Stops, h]

/-- How training ends on a last look that shows `debug` after `ms` milliseconds: by reading
speed and width of a link that is up, or by disabling the LTSSM. -/
inductive Ends (p : Port) (debug : Word) (ms : Nat) (recovered : Bool) :
    List Exchange → LinkOutcome → Prop where
  | linkUp (up : LinkDebug.isUp debug = true) (link : Word) :
      Ends p debug ms recovered [⟨.read (p.dbi PortLogic.linkControlStatus), link⟩]
        (.linkUp (LinkStatus.currentLinkSpeed.get (Word.status link))
          (LinkStatus.negotiatedLinkWidth.get (Word.status link)) (.milliseconds ms) recovered)
  | timeout {off : List Exchange} (down : LinkDebug.isUp debug = false)
      (disabled : Runs (p.setLtssm false) off ()) :
      Ends p debug ms recovered off
        (.timeout (LinkDebug.state debug) (.milliseconds ms) recovered)

/-- The accesses and the outcome of the reference machine on the looks `w 0`, `w 1`, … -/
inductive Trains (p : Port) (w : Nat → Word) : List Exchange → LinkOutcome → Prop where
  /-- No partner at any of the looks in the first fifty milliseconds. -/
  | noPartner {off : List Exchange} (unseen : ∀ k ≤ 50, ¬Seen w k)
      (disabled : Runs (p.setLtssm false) off ()) :
      Trains p w (p.look (w 0) :: p.looks w 0 50 ++ off) (.noPartner (LinkDebug.state (w 50)))
  /-- The link comes up, or the budget runs out without a lockup. -/
  | settled {d k : Nat} {last : List Exchange} {outcome : LinkOutcome}
      (seen : FirstFrom (Seen w) 0 d) (inTime : d ≤ 50) (stop : FirstFrom (Stops p.budget w) d k)
      (free : LinkDebug.isUp (w k) = true ∨ (LinkDebug.state (w k)).isLockup = false)
      (ends : Ends p (w k) k false last outcome) :
      Trains p w (p.look (w 0) :: p.looks w 0 k ++ last) outcome
  /-- The link locks up. One reset pulse, and the same search on the looks after it, whose
  clock starts again; whatever stops that search ends training. -/
  | recovered {d k m : Nat} {pulse last : List Exchange} {outcome : LinkOutcome}
      (seen : FirstFrom (Seen w) 0 d) (inTime : d ≤ 50) (stop : FirstFrom (Stops p.budget w) d k)
      (down : LinkDebug.isUp (w k) = false) (locked : (LinkDebug.state (w k)).isLockup = true)
      (pulsed : Runs p.pulseReset pulse ())
      (again : FirstFrom (Stops p.budget fun i => w (k + 1 + i)) 0 m)
      (ends : Ends p (w (k + 1 + m)) m true last outcome) :
      Trains p w (p.look (w 0) :: p.looks w 0 k ++ pulse ++ (p.look (w (k + 1)) ::
        p.looks (fun i => w (k + 1 + i)) 0 m) ++ last) outcome

end Training

/-! ## One watch -/

namespace Port

variable {p : Port} {path : List Exchange}

theorem looks_self (w : Nat → Word) (d : Nat) : p.looks w d d = [] := by
  simp [looks]

theorem looks_append (w : Nat → Word) {d m k : Nat} (hd : d ≤ m) (hk : m ≤ k) :
    p.looks w d k = p.looks w d m ++ p.looks w m k := by
  unfold looks
  rw [← List.flatMap_append, show m + 1 = d + 1 + (m - d) by omega, List.range'_append_1]
  congr 2
  omega

theorem looks_succ (w : Nat → Word) (d : Nat) :
    p.looks w d (d + 1) = [⟨.stall (.milliseconds 1), ()⟩, p.look (w (d + 1))] := by
  simp [looks]

/-- Looks depend only on what they show. -/
theorem looks_congr {v w : Nat → Word} {d k : Nat} (h : ∀ i, d < i → i ≤ k → v i = w i) :
    p.looks v d k = p.looks w d k := by
  unfold looks
  rw [List.flatMap_def, List.flatMap_def]
  congr 1
  apply List.map_congr_left
  intro i hi
  have := List.mem_range'_1.mp hi
  rw [h i (by omega) (by omega)]

theorem runs_linkDebug {debug : Word} : Runs p.linkDebug path debug ↔ path = [p.look debug] :=
  runs_read

/-- A watch goes on from look `d` up to the first look that is found, or up to the last
one it may make. What the looks after `d` showed extends the sequence before them. -/
theorem watch_looks {found : Word → Bool} {left : Nat} {v : Nat → Word} {d : Nat}
    {s : Sighting} (h : Runs (p.watch found left ⟨d, v d⟩) path s) :
    ∃ w k, (∀ i ≤ d, w i = v i) ∧ s = ⟨k, w k⟩ ∧ path = p.looks w d k ∧ d ≤ k ∧ k ≤ d + left ∧
      (∀ i, d ≤ i → i < k → found (w i) = false) ∧ (k < d + left → found (w k) = true) := by
  induction left generalizing d v path with
  | zero =>
    obtain ⟨rfl, rfl⟩ := runs_done.mp h
    exact ⟨v, d, fun _ _ => rfl, rfl, (looks_self v d).symm, Nat.le_refl d, Nat.le_refl d,
      fun i _ _ => by omega, fun h => by omega⟩
  | succ left ih =>
    simp only [watch] at h
    split at h
    · rename_i hf
      obtain ⟨rfl, rfl⟩ := runs_done.mp h
      exact ⟨v, d, fun _ _ => rfl, rfl, (looks_self v d).symm, Nat.le_refl d, by omega,
        fun i _ _ => by omega, fun _ => hf⟩
    · rename_i hf
      obtain ⟨_, rfl, h₁⟩ := runs_stall_bind.mp h
      obtain ⟨debug, front, back, hl, h₂, rfl⟩ := h₁.bind
      obtain rfl := runs_linkDebug.mp hl
      let u : Nat → Word := fun i => if i ≤ d then v i else debug
      have hu : u (d + 1) = debug := if_neg (by omega)
      rw [← hu] at h₂
      obtain ⟨w, k, hw, rfl, rfl, hk, hle, hbefore, hat⟩ := ih h₂
      have hold : ∀ i ≤ d, w i = v i := by
        intro i hi
        rw [hw i (by omega)]
        exact if_pos hi
      refine ⟨w, k, hold, rfl, ?_, by omega, by omega, ?_, fun h => hat (by omega)⟩
      · have hd : w (d + 1) = debug := by rw [hw _ (Nat.le_refl _), hu]
        rw [looks_append w (Nat.le_succ d) hk, looks_succ, hd]
        rfl
      · intro i hi hik
        by_cases hid : i = d
        · subst hid
          rw [hold i (Nat.le_refl i)]
          simpa using hf
        · exact hbefore i (by omega) hik

/-! ## The two phases -/

open Training

theorem not_isLockup_of_isUp {debug : Word} (h : LinkDebug.isUp debug = true) :
    (LinkDebug.state debug).isLockup = false := by
  simp only [LinkDebug.isUp, Bool.and_eq_true, decide_eq_true_eq] at h
  rw [h.1.1]
  rfl

/-- The search of the second phase: a watch for settled looks within the budget. -/
theorem watch_settled {v : Nat → Word} {d : Nat} {s : Sighting}
    (h : Runs (p.watch isSettled (p.pollsLeft ⟨d, v d⟩) ⟨d, v d⟩) path s) :
    ∃ w k, (∀ i ≤ d, w i = v i) ∧ s = ⟨k, w k⟩ ∧ path = p.looks w d k ∧
      FirstFrom (Stops p.budget w) d k := by
  obtain ⟨w, k, hw, rfl, rfl, hk, hle, hbefore, hat⟩ := watch_looks h
  have hleft : p.pollsLeft ⟨d, v d⟩ = p.budget - d := rfl
  rw [hleft] at hle hat
  refine ⟨w, k, hw, rfl, rfl, hk, ?_, ?_⟩
  · by_cases hb : p.budget ≤ k
    · exact .inr (.inr hb)
    · exact (stops_iff hb).mp (hat (by omega))
  · intro i hi hik hs
    have hb : ¬p.budget ≤ i := by omega
    rw [← stops_iff hb, hbefore i hi hik] at hs
    cases hs

theorem conclude_ends {s : Sighting} {recovered : Bool} {outcome : LinkOutcome}
    (h : Runs (p.conclude s recovered) path outcome) :
    Ends p s.debug s.polls recovered (Path.accesses path) outcome := by
  unfold conclude at h
  split at h
  · rename_i hu
    obtain ⟨_, front, back, hs, h₁, rfl⟩ := h.bind
    obtain ⟨link, _, rfl, h₂⟩ := runs_read_bind.mp hs
    obtain ⟨rfl, rfl⟩ := runs_done.mp h₂
    obtain ⟨_, rfl, h₃⟩ := runs_report_bind.mp h₁
    obtain ⟨rfl, rfl⟩ := runs_done.mp h₃
    exact .linkUp hu link
  · rename_i hu
    obtain ⟨_, off, back, hoff, h₁, rfl⟩ := h.bind
    obtain ⟨_, rfl, h₂⟩ := runs_report_bind.mp h₁
    obtain ⟨rfl, rfl⟩ := runs_done.mp h₂
    obtain ⟨old, rfl⟩ := runs_modify.mp hoff
    exact .timeout (by simpa using hu) hoff

/-! ## The accesses of a path -/

theorem accesses_append (front back : List Exchange) :
    Path.accesses (front ++ back) = Path.accesses front ++ Path.accesses back :=
  List.filter_append front back

theorem accesses_cons_report (e : Event) (path : List Exchange) :
    Path.accesses (⟨.report e, ()⟩ :: path) = Path.accesses path := rfl

theorem accesses_looks (w : Nat → Word) (d k : Nat) :
    Path.accesses (p.looks w d k) = p.looks w d k := by
  apply List.filter_eq_self.mpr
  intro e he
  obtain ⟨i, -, hi⟩ := List.mem_flatMap.mp he
  simp only [List.mem_cons, List.not_mem_nil, or_false] at hi
  rcases hi with rfl | rfl <;> rfl

theorem accesses_look (debug : Word) : Path.accesses [p.look debug] = [p.look debug] := rfl

theorem accesses_modify {a : Address} {f : Word → Word} {u : Unit}
    (h : Runs (modify a f) path u) : Path.accesses path = path := by
  obtain ⟨v, rfl⟩ := runs_modify.mp h
  rfl

theorem accesses_assertPerst {u : Unit} (h : Runs p.assertPerst path u) :
    Path.accesses path = path := by
  unfold assertPerst at h
  split at h
  · obtain ⟨_, data, direction, hdata, hdirection, rfl⟩ := h.bind
    rw [accesses_append, accesses_modify hdata, accesses_modify hdirection]
  · obtain ⟨rfl, -⟩ := runs_done.mp h
    rfl

theorem accesses_deassertPerst {u : Unit} (h : Runs p.deassertPerst path u) :
    Path.accesses path = path := by
  unfold deassertPerst at h
  split at h
  · exact accesses_modify h
  · obtain ⟨rfl, -⟩ := runs_done.mp h
    rfl

theorem accesses_pulseReset {u : Unit} (h : Runs p.pulseReset path u) :
    Path.accesses path = path := by
  obtain ⟨off, assert, set, clear, release, on, hoff, hassert, hset, hclear, hrelease, hon, rfl⟩ :=
    pulseReset_stages h
  have hstall (rest : List Exchange) : Path.accesses (⟨.stall recoveryPulse, ()⟩ :: rest) =
      ⟨.stall recoveryPulse, ()⟩ :: Path.accesses rest := rfl
  rw [accesses_append, accesses_append, accesses_append, hstall, accesses_append,
    accesses_append, accesses_modify hoff, accesses_assertPerst hassert, accesses_modify hset,
    accesses_modify hclear, accesses_deassertPerst hrelease, accesses_modify hon]

/-! ## The whole training -/

/-- After a lockup: the pulse and the second search. -/
theorem recover_trains {v : Nat → Word} {d k : Nat} {outcome : LinkOutcome}
    (h : Runs (p.recover ⟨k, v k⟩) path outcome) (seen : FirstFrom (Seen v) 0 d)
    (inTime : d ≤ 50) (stop : FirstFrom (Stops p.budget v) d k)
    (locked : (LinkDebug.state (v k)).isLockup = true) :
    ∃ w, (∀ i ≤ k, w i = v i) ∧
      Trains p w (p.look (w 0) :: p.looks w 0 k ++ Path.accesses path) outcome := by
  have down : LinkDebug.isUp (v k) = false := by
    cases hu : LinkDebug.isUp (v k) with
    | false => rfl
    | true => simp [not_isLockup_of_isUp hu] at locked
  obtain ⟨_, rfl, h₁⟩ := runs_report_bind.mp h
  obtain ⟨_, pulse, _, hpulse, h₂, rfl⟩ := h₁.bind
  obtain ⟨debug, front, _, hdebug, h₃, rfl⟩ := h₂.bind
  obtain rfl := runs_linkDebug.mp hdebug
  obtain ⟨s, watched, last, hw, hlast, rfl⟩ := h₃.bind
  obtain ⟨u, m, hu, rfl, rfl, again⟩ := watch_settled (v := fun _ => debug) hw
  -- the looks after the pulse follow those before it
  let w : Nat → Word := fun i => if i ≤ k then v i else u (i - (k + 1))
  have hold : ∀ i ≤ k, w i = v i := fun i hi => if_pos hi
  have hnew : ∀ i, w (k + 1 + i) = u i := by
    intro i
    have hi : ¬k + 1 + i ≤ k := by omega
    simp only [w, if_neg hi, Nat.add_sub_cancel_left]
  have hseq : (fun i => w (k + 1 + i)) = u := funext hnew
  have hfirst : w (k + 1) = debug := by
    rw [← hu 0 (Nat.le_refl 0)]
    exact hnew 0
  refine ⟨w, hold, ?_⟩
  have seen' := seen.congr (Seen.congr fun i hi => hold i (Nat.le_trans hi stop.le))
  have stop' := stop.congr (Stops.congr hold)
  rw [← hold k (Nat.le_refl k)] at down locked
  rw [← hseq] at again hlast
  have ends := conclude_ends hlast
  have trains := Trains.recovered seen' inTime stop' down locked hpulse again ends
  rw [hseq, hfirst] at trains
  rw [accesses_cons_report, accesses_append, accesses_append, accesses_append,
    accesses_pulseReset hpulse, accesses_looks, accesses_look]
  simpa using trains

/-- After a partner is seen: the search for a look that settles the link. -/
theorem awaitLink_trains {v : Nat → Word} {d : Nat} {outcome : LinkOutcome}
    (h : Runs (p.awaitLink ⟨d, v d⟩) path outcome) (seen : FirstFrom (Seen v) 0 d)
    (inTime : d ≤ 50) :
    ∃ w, (∀ i ≤ d, w i = v i) ∧
      Trains p w (p.look (w 0) :: p.looks w 0 d ++ Path.accesses path) outcome := by
  obtain ⟨_, rfl, h₁⟩ := runs_report_bind.mp h
  obtain ⟨_, watched, _, hw, h₂, rfl⟩ := h₁.bind
  obtain ⟨u, k, hu, rfl, rfl, stop⟩ := watch_settled hw
  have seen' := seen.congr (Seen.congr hu)
  split at h₂
  · rename_i hl
    obtain ⟨w, hold, trains⟩ := recover_trains h₂ seen' inTime stop hl
    refine ⟨w, fun i hi => (hold i (Nat.le_trans hi stop.le)).trans (hu i hi), ?_⟩
    rw [accesses_cons_report, accesses_append, accesses_looks,
      ← looks_congr fun i _ hi => hold i hi]
    rw [looks_append w (Nat.zero_le d) stop.le] at trains
    simpa using trains
  · rename_i hl
    have ends := conclude_ends h₂
    refine ⟨u, hu, ?_⟩
    rw [accesses_cons_report, accesses_append, accesses_looks]
    have trains := Trains.settled seen' inTime stop (.inr (Bool.not_eq_true _ ▸ hl)) ends
    rw [looks_append u (Nat.zero_le d) stop.le] at trains
    simpa using trains

end Port

theorem train_trains {p : Port} {path : List Exchange} {outcome : LinkOutcome}
    (h : Runs p.train path outcome) :
    ∃ w, Training.Trains p w (Path.accesses path) outcome := by
  obtain ⟨debug, front, _, hdebug, h₁, rfl⟩ := h.bind
  obtain rfl := Port.runs_linkDebug.mp hdebug
  obtain ⟨_, watched, rest, hw, h₂, rfl⟩ := h₁.bind
  obtain ⟨v, k, hv, rfl, rfl, -, hk, hbefore, hat⟩ := Port.watch_looks (v := fun _ => debug) hw
  have hpolls : pollsIn detectTimeout = 50 := rfl
  have unseen : ∀ i < k, ¬Training.Seen v i := by
    intro i hi hs
    have := hbefore i (Nat.zero_le i) hi
    rw [Training.partnerDetected_iff.mpr hs] at this
    cases this
  rw [← hv 0 (Nat.le_refl 0), Port.accesses_append, Port.accesses_look, Port.accesses_append,
    Port.accesses_looks]
  split at h₂
  · rename_i hd
    have seen : FirstFrom (Training.Seen v) 0 k :=
      ⟨Nat.zero_le k, Training.partnerDetected_iff.mp hd, fun i _ hi => unseen i hi⟩
    obtain ⟨w, hold, trains⟩ := Port.awaitLink_trains h₂ seen (by omega)
    refine ⟨w, ?_⟩
    rw [← hold 0 (Nat.zero_le k), ← Port.looks_congr fun i _ hi => hold i hi]
    simpa using trains
  · rename_i hd
    have hlast : k = 50 := by
      rcases Nat.lt_or_ge k 50 with hlt | hge
      · exact absurd (hat (by omega)) hd
      · omega
    subst hlast
    obtain ⟨_, off, _, hoff, h₃, rfl⟩ := h₂.bind
    obtain ⟨_, rfl, h₄⟩ := runs_report_bind.mp h₃
    obtain ⟨rfl, rfl⟩ := runs_done.mp h₄
    have absent : ∀ i ≤ 50, ¬Training.Seen v i := by
      intro i hi hs
      rcases Nat.lt_or_eq_of_le hi with hlt | rfl
      · exact unseen i hlt hs
      · exact hd (Training.partnerDetected_iff.mpr hs)
    refine ⟨v, ?_⟩
    rw [Port.accesses_append, Port.accesses_modify hoff, Port.accesses_cons_report]
    simpa [Path.accesses, Sighting.state] using Training.Trains.noPartner absent hoff

/-- On every platform training does what the reference machine does on the looks it takes,
whatever they show and whatever any other register answers: `w i` is the answer of look `i`
among the accesses. The budget of the second phase is 200 looks on the one chip and 100 on
the other. -/
theorem train_refines_search :
    (∀ c, Port.budget ⟨Bm1000.soc, c⟩ = 200) ∧ (∀ c, Port.budget ⟨Bs1000.soc, c⟩ = 100) ∧
    ∀ (p : Port) {σ : Type} (platform : Platform σ) (s : σ),
      ∃ w, Training.Trains p w (Path.accesses (p.train.exchanges platform s))
        (p.train.run platform s).1 :=
  ⟨Port.budget_bm1000, Port.budget_bs1000, fun p _ platform s =>
    train_trains (runs_exchanges platform p.train s)⟩

end RootComplex
