import RootComplex.Proofs.BringUpUpdates
import RootComplex.Proofs.Training

/-! # The turn of a port in a retrain

A turn begins with a survey: it looks at the link, walks the capability list of the device and
reads the speeds of both ends. The survey decides whether the port is reported at all, whether
its link is left alone, and for which speed it is retrained. -/

namespace RootComplex

open Program

/-- The command reads a register, or has to do with diagnostics only. -/
def Command.Observes : Command → Prop
  | .write _ _ => False
  | .barrier => False
  | .stall _ => False
  | _ => True

theorem Command.Observes.alters {c : Command} (h : c.Observes) (regs : List Address) :
    c.Alters regs := by
  cases c with
  | write a v => exact h.elim
  | _ => trivial

/-- What an exchange read from the register at `a`, if it did. -/
def Exchange.readOf? (a : Address) : Exchange → Option Word
  | ⟨.read b, v⟩ => if b = a then some v else none
  | _ => none

namespace Path

variable {a : Address} {front back path : List Exchange}

/-- What the register at `a` read as for the last time. -/
def lastRead? (a : Address) (path : List Exchange) : Option Word :=
  (path.filterMap (·.readOf? a)).getLast?

theorem lastRead?_append : lastRead? a (front ++ back) = (lastRead? a back).or (lastRead? a front) := by
  unfold lastRead?
  rw [List.filterMap_append, List.getLast?_append]

theorem lastRead?_read_cons {b : Address} {v : Word} :
    lastRead? a (⟨.read b, v⟩ :: path) = (lastRead? a path).or (if b = a then some v else none) := by
  have first : lastRead? a [⟨.read b, v⟩] = if b = a then some v else none := by
    unfold lastRead?
    by_cases hb : b = a <;> simp [Exchange.readOf?, hb]
  rw [← first, ← lastRead?_append]
  rfl

end Path

/-! ## A second walk -/

namespace Capability

variable {config : Address} {wanted entries offset found : Nat} {walk : List Exchange}

theorem findFrom_observes :
    (findFrom config wanted entries offset).Issues Command.Observes := by
  induction entries generalizing offset with
  | zero => exact .done none
  | succ entries ih =>
    unfold findFrom
    split
    · exact .done none
    · refine .bind (.read trivial) fun header => ?_
      split
      · exact .done none
      · split
        · exact .done _
        · exact ih

/-- A walk with a find reads the header that it is at, and ends there or goes on to the next. -/
theorem findFrom_found (h : Runs (findFrom config wanted entries offset) walk (some found)) :
    ∃ left header rest, entries = left + 1 ∧ ConfigHeader.firstCapability ≤ offset ∧
      walk = ⟨.read (config.at offset), header⟩ :: rest ∧ header ≠ ConfigHeader.unclaimed ∧
      ((id header = wanted ∧ found = offset ∧ rest = []) ∨
        id header ≠ wanted ∧ Runs (findFrom config wanted left (next header)) rest (some found)) := by
  cases entries with
  | zero => cases (runs_done.mp h).2
  | succ left =>
    unfold findFrom at h
    split at h
    · cases (runs_done.mp h).2
    · rename_i hfirst
      obtain ⟨header, rest, rfl, h₁⟩ := runs_read_bind.mp h
      refine ⟨left, header, rest, rfl, Nat.le_of_not_lt hfirst, rfl, ?_⟩
      split at h₁
      · cases (runs_done.mp h₁).2
      · rename_i hclaimed
        refine ⟨hclaimed, ?_⟩
        split at h₁
        · rename_i hid
          obtain ⟨rfl, hfound⟩ := runs_done.mp h₁
          exact .inl ⟨hid, Option.some.inj hfound, rfl⟩
        · rename_i hid
          exact .inr ⟨hid, h₁⟩

/-- From the last visit of a header the rest of a walk with a find is a walk as well. -/
theorem findFrom_last_visit {target : Nat} {header : Word} (ho : offset ≤ 0xFC)
    (ht : target ≤ 0xFC) (h : Runs (findFrom config wanted entries offset) walk (some found))
    (hlast : Path.lastRead? (config.at target) walk = some header) :
    ∃ left before after, left ≤ entries ∧
      walk = before ++ ⟨.read (config.at target), header⟩ :: after ∧
      Runs (findFrom config wanted left target) (⟨.read (config.at target), header⟩ :: after)
        (some found) := by
  induction entries generalizing offset walk with
  | zero => cases (runs_done.mp h).2
  | succ entries ih =>
    obtain ⟨left, current, rest, hleft, -, rfl, -, hnext⟩ := findFrom_found h
    rw [Path.lastRead?_read_cons] at hlast
    cases hrest : Path.lastRead? (config.at target) rest with
    | none =>
      rw [hrest, Option.none_or] at hlast
      split at hlast
      · rename_i hat
        obtain rfl := TranslationUnit.at_inj (by omega) (by omega) hat
        cases hlast
        exact ⟨_, [], rest, Nat.le_refl _, rfl, h⟩
      · cases hlast
    | some later =>
      rw [hrest, Option.some_or] at hlast
      cases hlast
      rcases hnext with ⟨-, -, rfl⟩ | ⟨-, hnext⟩
      · cases hrest
      · obtain rfl : entries = left := Nat.succ.inj hleft
        obtain ⟨left, before, after, hle, rfl, suffix⟩ := ih (next_le current) hnext hrest
        exact ⟨left, _ :: before, after, Nat.le_succ_of_le hle, rfl, suffix⟩

/-- A walk in which every header reads as it last did finds what the walk before it found. The
headers that the second walk passes are passed by the first one in the same order, each after
its last visit. -/
theorem findFrom_again {more : Nat} (front : List Exchange) {whole second : List Exchange}
    {result : Option Nat} (ho : offset ≤ 0xFC)
    (h : Runs (findFrom config wanted entries offset) walk (some found))
    (hwhole : whole = front ++ walk) (hle : entries ≤ more)
    (hsecond : Runs (findFrom config wanted more offset) second result)
    (again : ∀ a v w, ⟨.read a, v⟩ ∈ second → Path.lastRead? a whole = some w → v = w) :
    result = some found := by
  induction more generalizing entries offset front walk second with
  | zero =>
    obtain ⟨left, _, _, hleft, -⟩ := findFrom_found h
    omega
  | succ more ih =>
    obtain ⟨_, current, rest, -, hfirst, hwalk, -, -⟩ := findFrom_found h
    have visited : ∃ header, Path.lastRead? (config.at offset) walk = some header := by
      rw [hwalk, Path.lastRead?_read_cons, if_pos rfl]
      cases Path.lastRead? (config.at offset) rest with
      | none => exact ⟨_, rfl⟩
      | some v => exact ⟨_, rfl⟩
    obtain ⟨header, hlast⟩ := visited
    obtain ⟨left, before, after, hleft, hsplit, suffix⟩ := findFrom_last_visit ho ho h hlast
    unfold findFrom at hsecond
    rw [if_neg (Nat.not_lt.mpr hfirst)] at hsecond
    obtain ⟨v, later, rfl, hstep⟩ := runs_read_bind.mp hsecond
    obtain rfl : v = header := by
      refine again _ v header List.mem_cons_self ?_
      rw [hwhole, Path.lastRead?_append, hlast, Option.some_or]
    obtain ⟨fewer, _, _, hfewer, -, heq, claimed, hnext⟩ := findFrom_found suffix
    obtain ⟨hread, rfl⟩ := List.cons.inj heq
    cases hread
    rw [if_neg claimed] at hstep
    rcases hnext with ⟨hid, rfl, -⟩ | ⟨hid, hnext⟩
    · rw [if_pos hid] at hstep
      exact (runs_done.mp hstep).2
    · rw [if_neg hid] at hstep
      have hrest : whole = (front ++ before ++ [⟨.read (config.at offset), v⟩]) ++ after := by
        rw [hwhole, hsplit]
        simp
      exact ih _ (next_le v) hnext hrest (by omega) hstep fun a u w hu =>
        again a u w (List.mem_cons_of_mem _ hu)

end Capability

/-- The link was left as it is. -/
def RetrainOutcome.isIdle : RetrainOutcome → Bool
  | atTarget _ => true
  | noCapability => true
  | _ => false

namespace Port

variable {p : Port} {path : List Exchange} {policy : RetrainPolicy} {patience : Nat}

/-! ## The attempts -/

/-- A request to retrain the link. -/
def retrainUpdate (p : Port) : Update :=
  ⟨p.dbi PortLogic.linkControlStatus,
    fun v => Word.ofControl (LinkControl.retrainLink.put true (Word.control v))⟩

/-- One look at the status and control of the link. -/
def readLink (p : Port) (word : Word) : Exchange :=
  ⟨.read (p.dbi PortLogic.linkControlStatus), word⟩

/-- In the end the link is seen to be up, with this status. -/
structure SeenAt (p : Port) (debug word : Word) (path : List Exchange) : Prop where
  last : [p.look debug, p.readLink word] <:+ path
  up : LinkDebug.isUp debug = true

theorem SeenAt.prepend {debug word : Word} (h : p.SeenAt debug word path) (front : List Exchange) :
    p.SeenAt debug word (front ++ path) :=
  ⟨h.last.trans (List.suffix_append front path), h.up⟩

/-- The last look at the link before the report shows it up, with this status. -/
structure LastSeen (p : Port) (debug word : Word) (path : List Exchange) : Prop where
  last : ∃ event, [p.look debug, p.readLink word, ⟨.report event, ()⟩] <:+ path
  up : LinkDebug.isUp debug = true

theorem SeenAt.report {debug word : Word} (h : p.SeenAt debug word path) (event : Event) :
    p.LastSeen debug word (path ++ [⟨.report event, ()⟩]) := by
  obtain ⟨⟨front, rfl⟩, hup⟩ := h
  exact ⟨⟨event, front, by simp⟩, hup⟩

theorem LastSeen.prepend {debug word : Word} (h : p.LastSeen debug word path)
    (front : List Exchange) : p.LastSeen debug word (front ++ path) := by
  obtain ⟨⟨event, last⟩, hup⟩ := h
  exact ⟨⟨event, last.trans (List.suffix_append front path)⟩, hup⟩

theorem runs_linkStatus {status : BitVec 16} : Runs p.linkStatus path status ↔
    ∃ word, path = [p.readLink word] ∧ status = Word.status word := by
  constructor
  · intro h
    obtain ⟨word, rest, rfl, hd⟩ := runs_read_bind.mp h
    obtain ⟨rfl, hs⟩ := runs_done.mp hd
    exact ⟨word, rfl, hs⟩
  · intro h
    obtain ⟨word, rfl, rfl⟩ := h
    exact runs_read_bind.mpr ⟨word, [], rfl, .done _⟩

theorem awaitRetrained_alters {others : List Address} (polls : Nat) (waited : Duration)
    (ltssm : Ltssm) :
    (p.awaitRetrained policy polls waited ltssm).Issues (Command.Alters others) := by
  induction polls generalizing waited ltssm with
  | zero =>
    unfold awaitRetrained
    split <;> exact .done _
  | succ polls ih =>
    unfold awaitRetrained
    split
    · refine .bind (.stall trivial) fun _ => linkDebug_alters.bind fun debug =>
        linkStatus_alters.bind fun status => ?_
      split
      · exact .done _
      · split
        · exact .done _
        · exact ih _ _
    · exact .done _

/-- An attempt that ends well ends with a look that shows so. -/
theorem awaitRetrained_seen {polls : Nat} {waited : Duration} {ltssm : Ltssm} {speed : Nat}
    (h : Runs (p.awaitRetrained policy polls waited ltssm) path (some (.ok speed))) :
    ∃ debug word, p.SeenAt debug word path ∧
      LinkStatus.currentLinkSpeed.get (Word.status word) = speed := by
  induction polls generalizing path waited ltssm with
  | zero =>
    unfold awaitRetrained at h
    split at h
    · cases (runs_done.mp h).2
    · cases (runs_done.mp h).2
  | succ polls ih =>
    unfold awaitRetrained at h
    split at h
    · obtain ⟨_, rfl, h₁⟩ := runs_stall_bind.mp h
      obtain ⟨debug, looked, _, hlook, h₂, rfl⟩ := h₁.bind
      obtain ⟨status, read, rest, hread, h₃, rfl⟩ := h₂.bind
      obtain rfl := runs_linkDebug.mp hlook
      obtain ⟨word, rfl, rfl⟩ := runs_linkStatus.mp hread
      split at h₃
      · cases (runs_done.mp h₃).2
      · split at h₃
        · rename_i hup
          obtain ⟨rfl, hspeed⟩ := runs_done.mp h₃
          cases hspeed
          exact ⟨debug, word, ⟨List.suffix_append [_] _, (Bool.and_eq_true_iff.mp hup).1⟩, rfl⟩
        · obtain ⟨last, read, seen, hspeed⟩ := ih h₃
          exact ⟨last, read, seen.prepend [_, p.look debug, p.readLink word], hspeed⟩
    · cases (runs_done.mp h).2

/-- An attempt is a request and a wait that writes nothing. -/
theorem retrainOnce_parts {r : Except RetrainFailure Nat}
    (h : Runs (p.retrainOnce policy patience) path (some r)) :
    ∃ old wait, path =
        Path.modified p.retrainUpdate.register old (p.retrainUpdate.change old) ++ wait ∧
      (∀ e ∈ wait, e.command.Alters []) ∧
      ∀ speed, r = .ok speed → ∃ debug word, p.SeenAt debug word wait ∧
        LinkStatus.currentLinkSpeed.get (Word.status word) = speed := by
  obtain ⟨_, request, _, hrequest, h₁, rfl⟩ := h.bind
  obtain ⟨old, rfl⟩ := Path.of_modify hrequest
  obtain ⟨debug, looked, wait, hlook, hwait, rfl⟩ := h₁.bind
  refine ⟨old, looked ++ wait, rfl, ?_, ?_⟩
  · exact List.forall_mem_append.mpr
      ⟨linkDebug_alters _ _ hlook, awaitRetrained_alters _ _ _ _ _ hwait⟩
  · rintro speed rfl
    obtain ⟨debug, word, seen, hspeed⟩ := awaitRetrained_seen hwait
    exact ⟨debug, word, seen.prepend looked, hspeed⟩

/-- What one attempt and all after it are: its polls run out, it fails, it ends well and is
reported, or it is repeated. -/
theorem attemptRetrain_cases {before target extra made : Nat} {result : Option RetrainOutcome}
    (h : Runs (p.attemptRetrain policy patience before target extra made) path result) :
    ∃ r attempt tail, Runs (p.retrainOnce policy patience) attempt r ∧ path = attempt ++ tail ∧
      ((r = none ∧ result = none) ∨
        (∃ failure, r = some (.error failure) ∧
          Runs (p.retrainFailed target (made + 1) failure) tail result) ∨
        (∃ speed, r = some (.ok speed) ∧
          Runs (p.reportRetrained before speed target (made + 1)) tail result ∧
          (speed < target → extra = 0)) ∨
        ∃ speed fewer event later, r = some (.ok speed) ∧ extra = fewer + 1 ∧
          tail = ⟨.report event, ()⟩ :: ⟨.stall policy.settle, ()⟩ :: later ∧
          Runs (p.attemptRetrain policy patience before target fewer (made + 1)) later result ∧
          speed < target) := by
  unfold attemptRetrain at h
  obtain ⟨r, attempt, tail, hattempt, h₁, rfl⟩ := h.bind
  refine ⟨r, attempt, tail, hattempt, rfl, ?_⟩
  rcases r with _ | (failure | speed)
  · exact .inl ⟨rfl, (runs_done.mp h₁).2⟩
  · exact .inr (.inl ⟨failure, rfl, h₁⟩)
  · dsimp only at h₁
    split at h₁
    · rename_i below
      cases extra with
      | zero => exact .inr (.inr (.inl ⟨speed, rfl, h₁, fun _ => rfl⟩))
      | succ fewer =>
        obtain ⟨_, rfl, h₂⟩ := runs_report_bind.mp h₁
        obtain ⟨later, rfl, h₃⟩ := runs_stall_bind.mp h₂
        exact .inr (.inr (.inr ⟨speed, fewer, _, later, rfl, rfl, rfl, h₃, below⟩))
    · rename_i reached
      exact .inr (.inr (.inl ⟨speed, rfl, h₁, fun below => absurd below reached⟩))

/-- The link is told to retrain, once or more. Other than for that only the LTSSM control
register is updated. A link that is reported as retrained was last seen at the speed that the
report tells. -/
structure Attempts (p : Port) (target : Nat) (path : List Exchange) (outcome : RetrainOutcome) :
    Prop where
  busy : outcome.isIdle = false
  requests : ∃ old rest us, path =
      Path.modified p.retrainUpdate.register old (p.retrainUpdate.change old) ++ rest ∧
    Path.Makes [] us rest ∧ ∀ u ∈ us, u = p.retrainUpdate ∨ u = p.ltssmUpdate false
  seen : ∀ before after goal attempts, outcome = .retrained before after goal attempts →
    goal = target ∧ ∃ debug word, p.LastSeen debug word path ∧
      LinkStatus.currentLinkSpeed.get (Word.status word) = after

namespace Attempts

variable {target made : Nat} {attempt tail later : List Exchange} {outcome : RetrainOutcome}

theorem failed {failure : RetrainFailure}
    (hattempt : Runs (p.retrainOnce policy patience) attempt (some (.error failure)))
    (h : Runs (p.retrainFailed target made failure) tail (some outcome)) :
    p.Attempts target (attempt ++ tail) outcome := by
  obtain ⟨old, wait, rfl, alters, -⟩ := retrainOnce_parts hattempt
  obtain ⟨_, off, _, hoff, h₁, rfl⟩ := h.bind
  obtain ⟨_, rfl, h₂⟩ := runs_report_bind.mp h₁
  obtain ⟨rfl, houtcome⟩ := runs_done.mp h₂
  cases houtcome
  refine ⟨?_, ⟨old, _, [p.ltssmUpdate false], List.append_assoc .., ?_, by simp⟩, ?_⟩
  · cases failure <;> rfl
  · exact ((setLtssm_makes hoff).append Path.Makes.nil.report_cons).prepend alters
  · intro before after goal attempts ho
    cases failure <;> cases ho

theorem reported {before speed : Nat}
    (hattempt : Runs (p.retrainOnce policy patience) attempt (some (.ok speed)))
    (h : Runs (p.reportRetrained before speed target made) tail (some outcome)) :
    p.Attempts target (attempt ++ tail) outcome := by
  obtain ⟨old, wait, rfl, alters, hseen⟩ := retrainOnce_parts hattempt
  obtain ⟨event, rfl, h₁⟩ := runs_report_bind.mp h
  obtain ⟨rfl, houtcome⟩ := runs_done.mp h₁
  cases houtcome
  obtain ⟨debug, word, seen, hspeed⟩ := hseen speed rfl
  refine ⟨rfl, ⟨old, _, [], List.append_assoc .., Path.Makes.nil.report_cons.prepend alters, by simp⟩,
    fun before after goal attempts ho => ?_⟩
  cases ho
  exact ⟨rfl, debug, word, (seen.prepend _).report _, hspeed⟩

theorem again {r : Except RetrainFailure Nat} {event : Event} {t : Duration}
    (hattempt : Runs (p.retrainOnce policy patience) attempt (some r))
    (h : p.Attempts target later outcome) :
    p.Attempts target (attempt ++ ⟨.report event, ()⟩ :: ⟨.stall t, ()⟩ :: later) outcome := by
  obtain ⟨old, wait, rfl, alters, -⟩ := retrainOnce_parts hattempt
  obtain ⟨busy, ⟨next, rest, us, hlater, made, hus⟩, seen⟩ := h
  refine ⟨busy, ⟨old, _, p.retrainUpdate :: us, List.append_assoc .., ?_, ?_⟩, ?_⟩
  · rw [hlater]
    exact (Path.Makes.update next made).stall_cons.report_cons.prepend alters
  · exact List.forall_mem_cons.mpr ⟨.inl rfl, hus⟩
  · intro before after goal attempts ho
    obtain ⟨hgoal, debug, word, shown, hspeed⟩ := seen before after goal attempts ho
    exact ⟨hgoal, debug, word, (shown.prepend [_, _]).prepend _, hspeed⟩

end Attempts

/-- The induction is on the further attempts that may be made. -/
theorem attemptRetrain_attempts {before target extra made : Nat} {outcome : RetrainOutcome}
    (h : Runs (p.attemptRetrain policy patience before target extra made) path (some outcome)) :
    p.Attempts target path outcome := by
  induction extra generalizing path made with
  | zero =>
    obtain ⟨r, attempt, tail, hattempt, rfl, hend⟩ := attemptRetrain_cases h
    rcases hend with ⟨-, hnone⟩ | ⟨_, rfl, hend⟩ | ⟨_, rfl, hend, -⟩ | ⟨_, _, _, _, -, hextra, -⟩
    · cases hnone
    · exact .failed hattempt hend
    · exact .reported hattempt hend
    · cases hextra
  | succ extra ih =>
    obtain ⟨r, attempt, tail, hattempt, rfl, hend⟩ := attemptRetrain_cases h
    rcases hend with ⟨-, hnone⟩ | ⟨_, rfl, hend⟩ | ⟨_, rfl, hend, -⟩ |
      ⟨_, _, _, later, rfl, hextra, rfl, hend, -⟩
    · cases hnone
    · exact .failed hattempt hend
    · exact .reported hattempt hend
    · cases hextra
      exact .again hattempt (ih hend)

/-! ## The survey -/

/-- What a turn reads before it decides: the link, the way through the capability list of the
device, and its link capabilities and the status of the link. -/
structure Survey where
  debug : Word
  walk : List Exchange
  /-- The PCI Express capability, if the walk finds one. -/
  found : Option Nat
  link : Word
  word : Word

namespace Survey

def isUp (s : Survey) : Bool := LinkDebug.isUp s.debug

/-- The speeds are read if there is a device that tells its own. -/
def speeds (s : Survey) (p : Port) : List Exchange :=
  match s.found with
  | none => []
  | some capability =>
    [⟨.read (p.config (capability + ExpressCapability.linkCapabilities)), s.link⟩,
      p.readLink s.word]

def reads (s : Survey) (p : Port) : List Exchange :=
  p.look s.debug :: if s.isUp then s.walk ++ s.speeds p else []

/-- The best speed that the device and the ceiling of the port allow. -/
def target (s : Survey) (p : Port) : Nat :=
  min (LinkCapabilities.maxLinkSpeed.get s.link) p.controller.maxSpeed

def current (s : Survey) : Nat := LinkStatus.currentLinkSpeed.get (Word.status s.word)

/-- The link is up, and the device behind it has the capability. -/
def Linked (s : Survey) : Prop := s.isUp = true ∧ s.found.isSome = true

/-- What a turn with this survey does, and what is reported of the port. -/
structure Decides (s : Survey) (p : Port) (path : List Exchange) (outcome : Option RetrainOutcome) :
    Prop where
  walked : s.isUp = true →
    Runs (Capability.find p.controller.config Capability.express) s.walk s.found
  first : s.reads p <+: path
  reported : outcome.isSome = s.isUp
  noCapability : outcome = some .noCapability ↔ s.isUp = true ∧ s.found = none
  atTarget : ∀ speed, outcome = some (.atTarget speed) ↔
    s.Linked ∧ s.target p ≤ s.current ∧ s.current = speed
  idle : (∀ o, outcome = some o → o.isIdle = true) → ∀ e ∈ path, e.command.Observes
  raised : ∀ o, outcome = some o → o.isIdle = false →
    s.Linked ∧ s.current < s.target p ∧ ∃ old tail,
      path = s.reads p ++ (Path.modified (p.speedUpdate (s.target p)).register old
        ((p.speedUpdate (s.target p)).change old) ++ tail) ∧ p.Attempts (s.target p) tail o

variable {s : Survey}

theorem reads_observe (h : s.isUp = true →
    Runs (Capability.find p.controller.config Capability.express) s.walk s.found) :
    ∀ e ∈ s.reads p, e.command.Observes := by
  refine List.forall_mem_cons.mpr ⟨trivial, fun e he => ?_⟩
  split at he
  · rename_i hup
    rcases List.mem_append.mp he with he | he
    · exact Capability.findFrom_observes _ _ (h hup) e he
    · unfold speeds at he
      split at he
      · cases he
      · rcases List.mem_cons.mp he with rfl | he
        · trivial
        · obtain rfl := List.mem_singleton.mp he
          trivial
  · cases he

/-- A turn that only reports ends where its survey does. -/
theorem observe_report (h : ∀ e ∈ s.reads p, e.command.Observes) (event : Event) :
    ∀ e ∈ s.reads p ++ [⟨.report event, ()⟩], e.command.Observes :=
  List.forall_mem_append.mpr ⟨h, List.forall_mem_singleton.mpr trivial⟩

namespace Decides

variable {outcome : RetrainOutcome}

theorem of_down (hup : s.isUp = false) : s.Decides p (s.reads p) none := by
  have walked (h : s.isUp = true) : Runs (Capability.find p.controller.config Capability.express)
      s.walk s.found := by
    rw [hup] at h
    cases h
  refine ⟨walked, List.prefix_rfl, hup.symm, ?_, fun speed => ?_, fun _ => reads_observe walked,
    fun o ho => ?_⟩
  · simp [hup]
  · simp [Linked, hup]
  · cases ho

theorem of_noCapability (event : Event) (hup : s.isUp = true) (hfound : s.found = none)
    (hwalk : Runs (Capability.find p.controller.config Capability.express) s.walk s.found) :
    s.Decides p (s.reads p ++ [⟨.report event, ()⟩]) (some .noCapability) := by
  refine ⟨fun _ => hwalk, List.prefix_append _ _, hup.symm, ?_, fun speed => ?_,
    fun _ => observe_report (reads_observe fun _ => hwalk) event, fun o ho hidle => ?_⟩
  · simp [hup, hfound]
  · simp [Linked, hfound]
  · cases ho
    cases hidle

theorem of_atTarget (event : Event) (hlinked : s.Linked) (hspeed : s.target p ≤ s.current)
    (hwalk : Runs (Capability.find p.controller.config Capability.express) s.walk s.found) :
    s.Decides p (s.reads p ++ [⟨.report event, ()⟩]) (some (.atTarget s.current)) := by
  refine ⟨fun _ => hwalk, List.prefix_append _ _, hlinked.1.symm, ?_, fun speed => ?_,
    fun _ => observe_report (reads_observe fun _ => hwalk) event, fun o ho hidle => ?_⟩
  · have hfound := hlinked.2
    refine ⟨fun h => ?_, fun h => ?_⟩
    · cases h
    · rw [h.2] at hfound
      cases hfound
  · simp [hlinked, hspeed]
  · cases ho
    cases hidle

theorem of_attempts (old : Word) {tail : List Exchange} (hlinked : s.Linked)
    (hspeed : s.current < s.target p)
    (hwalk : Runs (Capability.find p.controller.config Capability.express) s.walk s.found)
    (h : p.Attempts (s.target p) tail outcome) :
    s.Decides p (s.reads p ++ (Path.modified (p.speedUpdate (s.target p)).register old
      ((p.speedUpdate (s.target p)).change old) ++ tail)) (some outcome) := by
  have busy := h.busy
  refine ⟨fun _ => hwalk, List.prefix_append _ _, hlinked.1.symm, ?_, fun speed => ?_,
    fun hidle => ?_, fun o ho _ => ?_⟩
  · have hfound := hlinked.2
    refine ⟨fun h => ?_, fun h => ?_⟩
    · cases h
      cases busy
    · rw [h.2] at hfound
      cases hfound
  · refine ⟨fun h => ?_, fun h => absurd h.2.1 (Nat.not_le.mpr hspeed)⟩
    cases h
    cases busy
  · rw [hidle outcome rfl] at busy
    cases busy
  · cases ho
    exact ⟨hlinked, hspeed, old, tail, rfl, h⟩

end Decides

end Survey

theorem Survey.reads_up {s : Survey} (hup : s.isUp = true) :
    s.reads p = p.look s.debug :: (s.walk ++ s.speeds p) := by
  rw [reads, if_pos hup]

/-- A turn that does not leave the link alone asks for the target of its survey, and the rest of it
are its attempts. -/
def Survey.Tries (s : Survey) (p : Port) (policy : RetrainPolicy) (patience : Nat)
    (path : List Exchange) (outcome : RetrainOutcome) : Prop :=
  outcome.isIdle = false → ∃ old tail,
    path = s.reads p ++ (Path.modified (p.speedUpdate (s.target p)).register old
      ((p.speedUpdate (s.target p)).change old) ++ tail) ∧
    Runs (p.attemptRetrain policy patience s.current (s.target p) policy.extraAttempts 0) tail
      (some outcome)

theorem Survey.Tries.of_idle {s : Survey} {outcome : RetrainOutcome} (h : outcome.isIdle = true) :
    s.Tries p policy patience path outcome := by
  intro busy
  rw [h] at busy
  cases busy

/-- Every retrain of a link that is up is decided by a survey. -/
theorem retrain_decides {debug : Word} {outcome : RetrainOutcome}
    (hup : LinkDebug.isUp debug = true)
    (h : Runs (p.retrain policy patience) path (some outcome)) :
    ∃ s : Survey, s.Decides p (p.look debug :: path) (some outcome) ∧
      s.Tries p policy patience (p.look debug :: path) outcome := by
  obtain ⟨found, walk, rest, hwalk, h₁, rfl⟩ := h.bind
  cases found with
  | none =>
    obtain ⟨_, rfl, h₂⟩ := runs_report_bind.mp h₁
    obtain ⟨rfl, houtcome⟩ := runs_done.mp h₂
    cases houtcome
    let survey : Survey := ⟨debug, walk, none, 0, 0⟩
    have hreads : survey.reads p = p.look debug :: (walk ++ []) := Survey.reads_up hup
    have decides (event : Event) := Survey.Decides.of_noCapability (p := p) (s := survey) event
      hup rfl hwalk
    simp only [hreads, List.append_nil] at decides
    exact ⟨survey, decides _, .of_idle rfl⟩
  | some capability =>
    obtain ⟨link, _, rfl, h₂⟩ := runs_read_bind.mp h₁
    obtain ⟨status, read, _, hread, h₃, rfl⟩ := h₂.bind
    obtain ⟨word, rfl, rfl⟩ := runs_linkStatus.mp hread
    dsimp only at h₃
    let survey : Survey := ⟨debug, walk, some capability, link, word⟩
    have linked : survey.Linked := ⟨hup, rfl⟩
    have hreads : survey.reads p = p.look debug :: walk ++
        [⟨.read (p.config (capability + ExpressCapability.linkCapabilities)), link⟩,
          p.readLink word] := Survey.reads_up hup
    split at h₃
    · rename_i hspeed
      obtain ⟨_, rfl, h₄⟩ := runs_report_bind.mp h₃
      obtain ⟨rfl, houtcome⟩ := runs_done.mp h₄
      cases houtcome
      have decides (event : Event) := Survey.Decides.of_atTarget (p := p) (s := survey) event
        linked hspeed hwalk
      simp only [hreads, List.cons_append, List.append_assoc] at decides
      exact ⟨survey, decides _, .of_idle rfl⟩
    · rename_i hspeed
      obtain ⟨_, ask, tail, hask, htail, rfl⟩ := h₃.bind
      obtain ⟨old, rfl⟩ := Path.of_modify hask
      have decides := Survey.Decides.of_attempts (p := p) (s := survey) old linked
        (Nat.lt_of_not_le hspeed) hwalk (attemptRetrain_attempts htail)
      have whole : p.look debug :: (walk ++ ⟨.read (p.config
            (capability + ExpressCapability.linkCapabilities)), link⟩ :: ([p.readLink word] ++
            (Path.modified (p.speedUpdate (survey.target p)).register old
              ((p.speedUpdate (survey.target p)).change old) ++ tail))) =
          survey.reads p ++ (Path.modified (p.speedUpdate (survey.target p)).register old
            ((p.speedUpdate (survey.target p)).change old) ++ tail) := by
        simp [hreads]
      exact ⟨survey, whole ▸ decides, fun _ => ⟨old, tail, whole, htail⟩⟩

/-! ## A second turn -/

/-- A later survey reads the headers on its way, the capabilities of the device and the status of
the link as they last read. The link was last seen with `debug` and `word`. -/
structure Survey.Repeats (again first : Survey) (debug word : Word) : Prop where
  debug : again.debug = debug
  chain : ∀ a v w, ⟨.read a, v⟩ ∈ again.walk → Path.lastRead? a first.walk = some w → v = w
  link : again.link = first.link
  status : Word.status again.word = Word.status word

/-- A link that was retrained to its target is left alone by a turn that reads what was last
read. -/
theorem Survey.Decides.settled {first again : Survey} {later : List Exchange}
    {result : Option RetrainOutcome} {before after target attempts : Nat}
    (h : first.Decides p path (some (.retrained before after target attempts)))
    (hreached : target ≤ after) (hagain : again.Decides p later result) :
    ∃ debug word, p.LastSeen debug word path ∧ (again.Repeats first debug word →
      result = some (.atTarget after) ∧ ∀ e ∈ later, e.command.Observes) := by
  obtain ⟨linked, -, old, tail, rfl, attempts⟩ := h.raised _ rfl rfl
  obtain ⟨rfl, debug, word, shown, hspeed⟩ := attempts.seen _ _ _ _ rfl
  refine ⟨debug, word, (shown.prepend _).prepend _, fun hr => ?_⟩
  have up : again.isUp = true := by
    rw [isUp, hr.debug]
    exact shown.up
  obtain ⟨capability, hfound⟩ := Option.isSome_iff_exists.mp linked.2
  have walk := h.walked linked.1
  rw [hfound] at walk
  have found : again.found = some capability :=
    Capability.findFrom_again [] (by decide) walk rfl (Nat.le_refl _)
      (hagain.walked up) hr.chain
  have current : again.current = after := by
    rw [Survey.current, hr.status]
    exact hspeed
  have target : again.target p = first.target p := by rw [Survey.target, Survey.target, hr.link]
  have atTarget := (hagain.atTarget after).mpr
    ⟨⟨up, by rw [found]; rfl⟩, by rwa [target, current], current⟩
  refine ⟨atTarget, hagain.idle fun o ho => ?_⟩
  rw [atTarget] at ho
  cases ho
  rfl

/-! ## Turns that end -/

theorem retrainFailed_some {target attempts : Nat} {failure : RetrainFailure}
    {result : Option RetrainOutcome} (h : Runs (p.retrainFailed target attempts failure) path result) :
    ∃ outcome, result = some outcome := by
  obtain ⟨_, _, _, -, h₁, rfl⟩ := h.bind
  obtain ⟨_, rfl, h₂⟩ := runs_report_bind.mp h₁
  exact ⟨_, (runs_done.mp h₂).2⟩

theorem reportRetrained_some {before after target attempts : Nat} {result : Option RetrainOutcome}
    (h : Runs (p.reportRetrained before after target attempts) path result) :
    ∃ outcome, result = some outcome := by
  obtain ⟨_, rfl, h₁⟩ := runs_report_bind.mp h
  exact ⟨_, (runs_done.mp h₁).2⟩

theorem attemptRetrain_some {before target extra made : Nat} {result : Option RetrainOutcome}
    (hp : 0 < policy.pollInterval)
    (h : Runs (p.attemptRetrain policy patience before target extra made) path result) :
    ∃ outcome, result = some outcome := by
  induction extra generalizing path made with
  | zero =>
    obtain ⟨r, attempt, tail, hattempt, rfl, hend⟩ := attemptRetrain_cases h
    obtain ⟨_, hr⟩ := retrainOnce_some hp hattempt
    rcases hend with ⟨rfl, -⟩ | ⟨_, -, hend⟩ | ⟨_, -, hend, -⟩ | ⟨_, _, _, _, -, hextra, -⟩
    · cases hr
    · exact retrainFailed_some hend
    · exact reportRetrained_some hend
    · cases hextra
  | succ extra ih =>
    obtain ⟨r, attempt, tail, hattempt, rfl, hend⟩ := attemptRetrain_cases h
    obtain ⟨_, hr⟩ := retrainOnce_some hp hattempt
    rcases hend with ⟨rfl, -⟩ | ⟨_, -, hend⟩ | ⟨_, -, hend, -⟩ | ⟨_, _, _, _, -, hextra, -, hend, -⟩
    · cases hr
    · exact retrainFailed_some hend
    · exact reportRetrained_some hend
    · cases hextra
      exact ih hend

theorem retrain_some {result : Option RetrainOutcome} (hp : 0 < policy.pollInterval)
    (h : Runs (p.retrain policy patience) path result) : ∃ outcome, result = some outcome := by
  obtain ⟨found, _, _, -, h₁, rfl⟩ := h.bind
  cases found with
  | none =>
    obtain ⟨_, rfl, h₂⟩ := runs_report_bind.mp h₁
    exact ⟨_, (runs_done.mp h₂).2⟩
  | some capability =>
    obtain ⟨link, _, rfl, h₂⟩ := runs_read_bind.mp h₁
    obtain ⟨status, _, _, -, h₃, rfl⟩ := h₂.bind
    dsimp only at h₃
    split at h₃
    · obtain ⟨_, rfl, h₄⟩ := runs_report_bind.mp h₃
      exact ⟨_, (runs_done.mp h₄).2⟩
    · obtain ⟨_, _, _, -, h₄, rfl⟩ := h₃.bind
      exact attemptRetrain_some hp h₄

end Port

end RootComplex
