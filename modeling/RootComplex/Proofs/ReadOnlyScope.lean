import RootComplex.Proofs.ResetSequence
import RootComplex.Proofs.Separation

/-! # The scope of the write enable

Some read-only fields of a port describe it as a bridge of its width. They are writable while
one bit of the port's miscellaneous control register is set, which is the case for exactly as
long as they are written. -/

namespace RootComplex

open Program

/-- The enable bit is as told, and all others are as they were. -/
structure MiscControl1.Switched (writable : Bool) (old new : Word) : Prop where
  enable : readOnlyWriteEnable.test new = writable
  others : ∀ i, i ≠ readOnlyWriteEnable.offset → new.getLsbD i = old.getLsbD i

theorem MiscControl1.switched_put (writable : Bool) (old : Word) :
    Switched writable old (readOnlyWriteEnable.put writable old) where
  enable := by
    rw [Field.test, Field.put, Field.getLsbD_set]
    cases writable <;> rfl
  others i hi := by
    have hc : readOnlyWriteEnable.covers i = false := by
      simp only [readOnlyWriteEnable, Field.covers] at hi ⊢
      simp
      omega
    rw [Field.put, Field.getLsbD_set, hc]
    rfl

/-- The exchange reads or writes a register in `regs`. -/
def Exchange.Accesses (regs : List Address) (e : Exchange) : Prop :=
  ∃ a ∈ regs, e.command = .read a ∨ ∃ v, e.command = .write a v

theorem Exchange.Accesses.mono {regs more : List Address} {e : Exchange} (h : e.Accesses regs)
    (hs : regs ⊆ more) : e.Accesses more := by
  obtain ⟨a, ha, hc⟩ := h
  exact ⟨a, hs ha, hc⟩

theorem Exchange.Accesses.touches {regs : List Address} {e : Exchange} (h : e.Accesses regs) :
    e.command.Touches regs := by
  obtain ⟨a, ha, hc | ⟨v, hc⟩⟩ := h
  · rwa [hc]
  · rwa [hc]

theorem Exchange.Accesses.mem {a : Address} {regs : List Address} {e : Exchange}
    (h : e.Accesses [a]) (ht : e.command.Touches regs) : a ∈ regs := by
  obtain ⟨b, hb, hc⟩ := h
  obtain rfl := List.mem_singleton.mp hb
  rcases hc with hc | ⟨v, hc⟩
  · rwa [hc] at ht
  · rwa [hc] at ht

theorem Path.accesses_modified {a : Address} {regs : List Address} (h : a ∈ regs)
    (old new : Word) : ∀ e ∈ modified a old new, e.Accesses regs := by
  simp only [modified, List.forall_mem_cons]
  exact ⟨⟨a, h, .inl rfl⟩, ⟨a, h, .inr ⟨new, rfl⟩⟩, by simp⟩

namespace Port

variable {p : Port} {path : List Exchange}

def miscRegister (p : Port) : Address := p.dbi PortLogic.miscControl1

/-- The registers whose read-only fields make the port a bridge of its width. -/
def fieldRegisters (p : Port) : List Address :=
  [ConfigHeader.classRevision, PortLogic.portLinkControl, PortLogic.gen2Control,
    PortLogic.linkCapabilities].map p.dbi

/-- Those of them that the port does not leave as its straps have them. -/
def describedRegisters (p : Port) : List Address :=
  p.dbi ConfigHeader.classRevision :: p.controller.lanes.toList.flatMap p.laneRegisters

theorem describedRegisters_subset : p.describedRegisters ⊆ p.fieldRegisters := by
  intro a ha
  simp only [describedRegisters, laneRegisters, List.mem_cons, List.mem_flatMap,
    List.mem_append, List.mem_map, List.not_mem_nil, or_false] at ha
  simp only [fieldRegisters, List.map_cons, List.map_nil, List.mem_cons, List.not_mem_nil,
    or_false]
  grind

theorem programLanes_accesses {lanes : LaneCount} (hl : p.controller.lanes = some lanes)
    (h : Runs (p.programLanes lanes) path ()) :
    ∀ e ∈ path, e.Accesses p.describedRegisters := by
  have link : p.dbi PortLogic.portLinkControl ∈ p.describedRegisters := by
    simp [describedRegisters, hl, laneRegisters]
  have width : p.dbi PortLogic.linkCapabilities ∈ p.describedRegisters := by
    simp [describedRegisters, hl, laneRegisters]
  obtain ⟨_, first, _, hfirst, h₁, rfl⟩ := h.bind
  obtain ⟨_, rfl⟩ := Path.of_modify hfirst
  refine List.forall_mem_append.mpr ⟨Path.accesses_modified link _ _, ?_⟩
  cases hn : lanes.predetermined? with
  | none =>
    rw [hn] at h₁
    obtain ⟨_, rfl⟩ := Path.of_modify h₁
    exact Path.accesses_modified width _ _
  | some n =>
    have count : p.dbi PortLogic.gen2Control ∈ p.describedRegisters := by
      simp [describedRegisters, hl, laneRegisters, hn]
    rw [hn] at h₁
    obtain ⟨_, second, third, hsecond, hthird, rfl⟩ := h₁.bind
    obtain ⟨_, rfl⟩ := Path.of_modify hsecond
    obtain ⟨_, rfl⟩ := Path.of_modify hthird
    exact List.forall_mem_append.mpr
      ⟨Path.accesses_modified count _ _, Path.accesses_modified width _ _⟩

theorem setReadOnlyWritable_switched {writable : Bool} {u : Unit}
    (h : Runs (p.setReadOnlyWritable writable) path u) :
    ∃ old new, path = Path.modified p.miscRegister old new ∧
      MiscControl1.Switched writable old new := by
  obtain ⟨old, rfl⟩ := Path.of_modify h
  exact ⟨old, _, rfl, MiscControl1.switched_put writable old⟩

/-- Between the two writes that switch the enable bit only the described registers are read
and written. -/
theorem describe_parts (h : Runs p.describe path ()) :
    ∃ old opened fields last closed,
      path = Path.modified p.miscRegister old opened ++ fields ++
        Path.modified p.miscRegister last closed ∧
      MiscControl1.Switched true old opened ∧ MiscControl1.Switched false last closed ∧
      ∀ e ∈ fields, e.Accesses p.describedRegisters := by
  obtain ⟨_, opening, _, hopening, h₁, rfl⟩ := h.bind
  obtain ⟨_, first, _, hfirst, h₂, rfl⟩ := h₁.bind
  obtain ⟨old, opened, rfl, opens⟩ := setReadOnlyWritable_switched hopening
  have revision : ∀ e ∈ first, e.Accesses p.describedRegisters := by
    obtain ⟨_, rfl⟩ := Path.of_modify hfirst
    exact Path.accesses_modified List.mem_cons_self _ _
  cases hl : p.controller.lanes with
  | none =>
    rw [hl] at h₂
    obtain ⟨last, closed, rfl, closes⟩ := setReadOnlyWritable_switched h₂
    exact ⟨old, opened, first, last, closed, (List.append_assoc _ _ _).symm, opens, closes,
      revision⟩
  | some lanes =>
    rw [hl] at h₂
    obtain ⟨_, width, closing, hwidth, hclosing, rfl⟩ := h₂.bind
    obtain ⟨last, closed, rfl, closes⟩ := setReadOnlyWritable_switched hclosing
    refine ⟨old, opened, first ++ width, last, closed, ?_, opens, closes,
      List.forall_mem_append.mpr ⟨revision, programLanes_accesses hl hwidth⟩⟩
    simp only [List.append_assoc]

/-- A path around the time for which the read-only fields of a port are writable. -/
structure ReadOnlyWindow (p : Port) where
  /-- What is done for other ports. -/
  before : List Exchange
  lead : List Exchange
  old : Word
  opened : Word
  fields : List Exchange
  last : Word
  closed : Word
  release : List Exchange
  windows : List Exchange
  speed : List Exchange
  on : List Exchange
  after : List Exchange

namespace ReadOnlyWindow

def opening (w : p.ReadOnlyWindow) : List Exchange := Path.modified p.miscRegister w.old w.opened

def closing (w : p.ReadOnlyWindow) : List Exchange := Path.modified p.miscRegister w.last w.closed

def whole (w : p.ReadOnlyWindow) : List Exchange :=
  w.before ++ w.lead ++ w.opening ++ w.fields ++ w.closing ++ w.release ++ w.windows ++
    w.speed ++ w.on ++ w.after

/-- All but what happens while the fields are writable. -/
def outside (w : p.ReadOnlyWindow) : List Exchange :=
  w.before ++ w.lead ++ w.release ++ w.windows ++ w.speed ++ w.on ++ w.after

/-- The fields are writable while they are written and no longer. Until then the port holds
PERST#, keeps the LTSSM disabled and programs no window. -/
structure Scoped (w : p.ReadOnlyWindow) (known : List Address) : Prop where
  opens : MiscControl1.Switched true w.old w.opened
  closes : MiscControl1.Switched false w.last w.closed
  /-- The two writes that switch the enable bit are all that its register sees. -/
  twice : Path.writesTo p.miscRegister (w.outside ++ w.fields) = []
  inside : ∀ e ∈ w.fields, e.Accesses p.fieldRegisters
  /-- A register that the port leaves as its straps have it may be looked at as well, if it is
  not also the address of a known one. -/
  confined : ∀ a ∈ p.fieldRegisters, a ∈ p.identityRegisters ∨ a ∉ known →
    Path.writesTo a w.outside = []
  held : ∀ line, p.perst? = some line →
    ∀ v ∈ Path.writesTo line.dataRegister (w.lead ++ w.fields), line.Shows true v
  disabled : ∀ v ∈ Path.writesTo p.ltssmRegister (w.before ++ w.lead ++ w.fields),
    v &&& p.soc.control.ltssmEnable = 0
  unmapped : ∀ a ∈ p.unitRegisters, Path.writesTo a (w.before ++ w.lead ++ w.fields) = []
  releases : p.Releases w.release
  programs : ∃ failures, Runs (p.programWindows p.controller.outboundWindows) w.windows failures
  enables : p.Switches true w.on

end ReadOnlyWindow

/-! ## Bring-up of one port -/

/-- All registers of the port but those of its identity. -/
def plainRegisters (p : Port) : List Address :=
  p.trainingRegisters ++ p.settleRegisters ++ p.unitRegisters ++ p.capabilityRegisters

theorem plainRegisters_subset : p.plainRegisters ⊆ p.registers := by
  intro a ha
  simp only [plainRegisters, trainingRegisters, settleRegisters, List.mem_append,
    List.mem_cons] at ha
  simp only [registers, quietRegisters, quietGroups, sharedRegisters, List.flatten_cons,
    List.flatten_nil, List.mem_append, List.mem_cons]
  grind

theorem retrainRegisters_plain : p.retrainRegisters ⊆ p.plainRegisters := by
  intro a ha
  simp only [retrainRegisters, attemptRegisters, List.mem_cons, List.mem_append] at ha
  simp only [plainRegisters, trainingRegisters, List.mem_append, List.mem_cons]
  grind

theorem identity_disjoint_plain (hn : p.registers.Nodup) :
    List.Disjoint p.identityRegisters p.plainRegisters := by
  simp only [registers, quietRegisters, quietGroups, sharedRegisters, List.flatten_cons,
    List.flatten_nil, List.nodup_cons, List.nodup_append, List.mem_append, List.mem_cons,
    not_or] at hn
  intro a ha hb
  simp only [plainRegisters, trainingRegisters, settleRegisters, List.mem_append,
    List.mem_cons] at hb
  grind

theorem unit_disjoint_settle (hn : p.registers.Nodup) :
    List.Disjoint p.unitRegisters (p.settleRegisters ++ p.identityRegisters) := by
  simp only [registers, quietRegisters, quietGroups, sharedRegisters, List.flatten_cons,
    List.flatten_nil, List.nodup_cons, List.nodup_append, List.mem_append, List.mem_cons,
    not_or] at hn
  intro a ha hb
  simp only [settleRegisters, List.mem_append] at hb
  grind

theorem ltssm_settled (hi : p.Isolated) : p.ltssmRegister ∉ p.settleRegisters := fun hm =>
  hi.apart (setupRegisters_subset (by simp [setupRegisters, hm]))

namespace ResetParts

variable {r : p.ResetParts} {a : Address}

/-- What a port does before it describes itself. -/
def lead (r : p.ResetParts) : List Exchange :=
  r.off ++ r.assert ++ r.set ++ r.held ++ r.clear ++ r.settle

/-- Up to there a register is written as part of the reset sequence or while things settle. -/
theorem writesTo_lead (hr : a ≠ p.resetRegister) (hs : a ∉ p.settleRegisters) :
    Path.writesTo a r.lead = Path.writesTo a r.off ++ Path.writesTo a r.assert := by
  have apart : a ∉ [p.resetRegister] := by simpa using hr
  have reset (old new : Word) : Path.writesTo a (Path.modified p.resetRegister old new) = [] :=
    Path.writesTo_of_touches (Path.touches_modified List.mem_cons_self _ _) apart
  have held : Path.writesTo a r.held = [] := rfl
  simp only [lead, set, clear, Path.writesTo_append, reset, held,
    Path.writesTo_of_touches r.settles hs, List.append_nil]

theorem lead_disabled (hi : p.Isolated) (hn : p.registers.Nodup) :
    ∀ v ∈ Path.writesTo p.ltssmRegister r.lead, v &&& p.soc.control.ltssmEnable = 0 := by
  obtain ⟨hltssm, -⟩ := List.nodup_cons.mp (sequence_nodup hn)
  have hreset := List.ne_of_not_mem_cons hltssm
  have hline := List.not_mem_of_not_mem_cons hltssm
  obtain ⟨_, off, hoff, hdisabled⟩ := r.disables
  rw [writesTo_lead hreset (ltssm_settled hi), hoff, Path.writesTo_modified,
    Path.writesTo_of_touches r.asserts.touches hline, List.append_nil]
  simpa using hdisabled

/-- PERST# is driven to the asserted level and stays there. -/
theorem lead_held (hn : p.registers.Nodup) {line : Perst} (hl : p.perst? = some line) :
    ∀ v ∈ Path.writesTo line.dataRegister r.lead, line.Shows true v := by
  have hline := lineRegisters_eq hl
  have nodup := sequence_nodup hn
  rw [sequenceRegisters, hline] at nodup
  simp only [List.nodup_cons, List.mem_cons, List.not_mem_nil, or_false, not_or] at nodup
  obtain ⟨⟨-, hltssm, -⟩, ⟨hreset, -⟩, hdata, -⟩ := nodup
  have hseq : line.dataRegister ∈ p.sequenceRegisters := by simp [sequenceRegisters, hline]
  have settle : line.dataRegister ∉ p.settleRegisters := fun hm =>
    sequence_disjoint_setup hn hseq (by simp [setupRegisters, hm])
  have off : Path.writesTo line.dataRegister r.off = [] :=
    Path.writesTo_of_touches (r.disables.touches []) (by simpa using Ne.symm hltssm)
  obtain ⟨_, idle, ⟨_, asserted, rfl, shows⟩, hassert⟩ := r.asserts.drives hl
  have direction (new : Word) : Path.writesTo line.dataRegister
      (Path.modified line.directionRegister idle new) = [] :=
    Path.writesTo_of_touches (Path.touches_modified (List.mem_singleton_self _) _ _)
      (by simpa using hdata)
  rw [writesTo_lead (Ne.symm hreset) settle, off, hassert, Path.writesTo_append,
    Path.writesTo_modified, direction]
  simpa using shows

theorem lead_unmapped (hn : p.registers.Nodup) (ha : a ∈ p.unitRegisters) :
    Path.writesTo a r.lead = [] := by
  have sequence : a ∉ p.sequenceRegisters := fun hm =>
    sequence_disjoint_setup hn hm (by simp [setupRegisters, ha])
  simp only [sequenceRegisters, List.mem_cons, not_or] at sequence
  obtain ⟨hltssm, hreset, hline⟩ := sequence
  have settle : a ∉ p.settleRegisters := fun hm =>
    unit_disjoint_settle hn ha (List.mem_append_left _ hm)
  rw [writesTo_lead hreset settle, Path.writesTo_of_touches r.asserts.touches hline,
    Path.writesTo_of_touches (r.disables.touches []) (by simpa using hltssm)]
  rfl

theorem lead_plain : ∀ e ∈ r.lead, e.command.Touches p.plainRegisters := by
  have ltssm : p.ltssmRegister ∈ p.plainRegisters := by simp [plainRegisters, trainingRegisters]
  have reset : p.resetRegister ∈ p.plainRegisters := by simp [plainRegisters, trainingRegisters]
  have line : p.lineRegisters ⊆ p.plainRegisters := fun a ha => by
    simp [plainRegisters, trainingRegisters, ha]
  have settles : p.settleRegisters ⊆ p.plainRegisters := fun a ha => by
    simp [plainRegisters, ha]
  obtain ⟨_, _, hoff, -⟩ := r.disables
  have off := Path.touches_modified ltssm
  have assert := Path.touches_mono r.asserts.touches line
  have set := Path.touches_modified reset
  have settle := Path.touches_mono r.settles settles
  simp only [lead, hoff, ResetParts.set, clear, held, List.forall_mem_append,
    List.forall_mem_singleton]
  exact ⟨⟨⟨⟨⟨off _ _, assert⟩, set _ _⟩, trivial⟩, set _ _⟩, settle⟩

/-- The window that the description of the port opens. -/
def window (r : p.ResetParts) (old opened : Word) (fields : List Exchange) (last closed : Word) :
    p.ReadOnlyWindow where
  before := []
  lead := r.lead
  old := old
  opened := opened
  fields := fields
  last := last
  closed := closed
  release := r.release
  windows := r.windows
  speed := r.speed
  on := r.on
  after := [⟨.report r.event, ()⟩]

variable {old opened last closed : Word} {fields : List Exchange}

theorem outside_window : ∀ e ∈ (r.window old opened fields last closed).outside,
    e.command.Touches p.plainRegisters := by
  have line : p.lineRegisters ⊆ p.plainRegisters := fun a ha => by
    simp [plainRegisters, trainingRegisters, ha]
  have link : p.linkRegisters ⊆ p.plainRegisters := fun a ha => by
    simp [plainRegisters, trainingRegisters, ha]
  have unit : p.unitRegisters ⊆ p.plainRegisters := fun a ha => by simp [plainRegisters, ha]
  have ltssm : [p.ltssmRegister] ⊆ p.plainRegisters := by
    simp [plainRegisters, trainingRegisters]
  have release := Path.touches_mono r.releases.touches line
  have windows := Path.touches_mono (programWindows_within (List.Subset.refl _) _ _ r.programs) unit
  have speed := Path.touches_mono (setTargetSpeed_within _ _ _ r.limits) link
  have on := Path.touches_mono (r.enables.touches []) ltssm
  simp only [window, ReadOnlyWindow.outside, List.nil_append, List.forall_mem_append,
    List.forall_mem_singleton]
  exact ⟨⟨⟨⟨⟨r.lead_plain, release⟩, windows⟩, speed⟩, on⟩, trivial⟩

theorem whole_window (h : r.describe = Path.modified p.miscRegister old opened ++ fields ++
    Path.modified p.miscRegister last closed) :
    r.whole = (r.window old opened fields last closed).whole := by
  simp [whole, after, h, window, ReadOnlyWindow.whole, ReadOnlyWindow.opening,
    ReadOnlyWindow.closing, lead]

end ResetParts

theorem misc_not_described (hn : p.registers.Nodup) : p.miscRegister ∉ p.describedRegisters := by
  have groups := (List.nodup_append.mp (List.nodup_cons.mp hn).2).1
  have identity : p.identityRegisters.Nodup :=
    (List.nodup_flatten.mp groups).1 _ (by simp [quietGroups])
  exact (List.nodup_cons.mp identity).1

/-- The write enable is in force for the description of the port and no longer. -/
theorem Isolated.configure_scoped {known : List Address} (hi : p.Isolated)
    (hn : p.registers.Nodup) (hk : p.registers ⊆ known) {report : ResetReport}
    (h : Runs p.configure path report) :
    ∃ w : p.ReadOnlyWindow, path = w.whole ∧ w.Scoped known := by
  obtain ⟨r, rfl⟩ := hi.configure_parts h
  obtain ⟨old, opened, fields, last, closed, hdescribe, opens, closes, inside⟩ :=
    describe_parts r.describes
  let w := r.window old opened fields last closed
  have plain : ∀ e ∈ w.outside, e.command.Touches p.plainRegisters := r.outside_window
  have described : ∀ e ∈ fields, e.command.Touches p.describedRegisters := fun e he =>
    (inside e he).touches
  have sequence {a : Address} (ha : a ∈ p.sequenceRegisters) : Path.writesTo a fields = [] :=
    Path.writesTo_of_touches described fun hm => sequence_disjoint_setup hn ha
      (by simp [setupRegisters, show a ∈ p.identityRegisters from List.mem_cons_of_mem _ hm])
  have twice : Path.writesTo p.miscRegister (w.outside ++ w.fields) = [] := by
    have outside : p.miscRegister ∉ p.plainRegisters :=
      identity_disjoint_plain hn List.mem_cons_self
    rw [Path.writesTo_append, Path.writesTo_of_touches plain outside]
    exact Path.writesTo_of_touches described (misc_not_described hn)
  have confined : ∀ a ∈ p.fieldRegisters, a ∈ p.identityRegisters ∨ a ∉ known →
      Path.writesTo a w.outside = [] := by
    intro a _ ha
    refine Path.writesTo_of_touches plain fun hm => ?_
    rcases ha with ha | ha
    · exact identity_disjoint_plain hn ha hm
    · exact ha (hk (plainRegisters_subset hm))
  have held : ∀ line, p.perst? = some line →
      ∀ v ∈ Path.writesTo line.dataRegister (r.lead ++ fields), line.Shows true v := by
    intro line hl
    have hline : line.dataRegister ∈ p.sequenceRegisters := by
      simp [sequenceRegisters, lineRegisters, hl, Perst.dataRegister]
    rw [Path.writesTo_append, sequence hline, List.append_nil]
    exact r.lead_held hn hl
  have disabled : ∀ v ∈ Path.writesTo p.ltssmRegister (r.lead ++ fields),
      v &&& p.soc.control.ltssmEnable = 0 := by
    rw [Path.writesTo_append, sequence List.mem_cons_self, List.append_nil]
    exact r.lead_disabled hi hn
  have unmapped : ∀ a ∈ p.unitRegisters, Path.writesTo a (r.lead ++ fields) = [] := by
    intro a ha
    have apart : a ∉ p.describedRegisters := fun hm => unit_disjoint_settle hn ha
      (List.mem_append_right _ (List.mem_cons_of_mem _ hm))
    rw [Path.writesTo_append, r.lead_unmapped hn ha, Path.writesTo_of_touches described apart]
    rfl
  exact ⟨w, r.whole_window hdescribe, opens, closes, twice,
    fun e he => (inside e he).mono describedRegisters_subset, confined, held, disabled, unmapped,
    r.releases, ⟨_, r.programs⟩, r.enables⟩

/-- After its window a port is trained and probed. -/
theorem Isolated.bringUp_scoped {soc : Soc} {c : Controller} {known : List Address}
    (hi : Isolated ⟨soc, c⟩) (hn : (registers ⟨soc, c⟩).Nodup)
    (hk : registers ⟨soc, c⟩ ⊆ known) {s : PortState} (h : Runs (PortState.bringUp soc c) path s) :
    ∃ event, ∃ w : ReadOnlyWindow ⟨soc, c⟩, ∃ rest,
      path = [⟨.report event, ()⟩] ++ w.whole ++ rest ∧ w.Scoped known ∧
        ∀ e ∈ rest, e.command.Touches (plainRegisters ⟨soc, c⟩) := by
  obtain ⟨event, reset, train, probe, hreset, htrain, hprobe, -, -, rfl⟩ :=
    PortState.bringUp_stages h
  obtain ⟨w, rfl, scope⟩ := hi.configure_scoped hn hk hreset
  have training : trainingRegisters ⟨soc, c⟩ ⊆ plainRegisters ⟨soc, c⟩ := fun a ha => by
    simp [plainRegisters, ha]
  have trained := Path.touches_mono (train_within _ _ htrain) training
  have probed : ∀ e ∈ probe, e.command.Touches (plainRegisters ⟨soc, c⟩) := by
    split at hprobe
    · exact Path.touches_mono (probeFilter_within _ _ hprobe) fun a ha =>
        training (by simp [trainingRegisters, ha])
    · obtain ⟨rfl, -⟩ := runs_done.mp hprobe
      simp
  exact ⟨event, w, train ++ probe, by simp, scope, List.forall_mem_append.mpr ⟨trained, probed⟩⟩

/-! ## Before and after -/

namespace ReadOnlyWindow

variable {w : p.ReadOnlyWindow} {front back : List Exchange} {known others later : List Address}

/-- The window in a longer path. -/
def around (w : p.ReadOnlyWindow) (front back : List Exchange) : p.ReadOnlyWindow :=
  { w with before := front ++ w.before, after := w.after ++ back }

theorem whole_around : (w.around front back).whole = front ++ w.whole ++ back := by
  simp [around, whole, opening, closing]

theorem outside_around : (w.around front back).outside = front ++ w.outside ++ back := by
  simp [around, outside]

/-- Before, others may be at work, who leave the registers of the port alone; afterwards the
port may be at work as well, as long as it leaves its identity alone. -/
theorem Scoped.around (h : w.Scoped known) (hfront : ∀ e ∈ front, e.command.Touches others)
    (hback : ∀ e ∈ back, e.command.Touches later) (hothers : others ⊆ known)
    (hlater : later ⊆ known) (hown : List.Disjoint p.ownRegisters others)
    (hidentity : List.Disjoint p.identityRegisters later) :
    (w.around front back).Scoped known := by
  have before {a : Address} (ha : a ∈ p.ownRegisters) : Path.writesTo a front = [] :=
    Path.writesTo_of_touches hfront (hown ha)
  have identity := identityRegisters_own (p := p)
  have unit : p.unitRegisters ⊆ p.ownRegisters := fun a ha =>
    List.mem_cons_of_mem _ (List.mem_flatten_of_mem (by simp [quietGroups]) ha)
  have misc : p.miscRegister ∈ p.identityRegisters := List.mem_cons_self
  have outside {a : Address} (hf : a ∉ others) (hb : a ∉ later) :
      Path.writesTo a (w.around front back).outside = Path.writesTo a w.outside := by
    rw [outside_around, Path.writesTo_append, Path.writesTo_append,
      Path.writesTo_of_touches hfront hf, Path.writesTo_of_touches hback hb, List.append_nil,
      List.nil_append]
  have early {a : Address} (ha : a ∈ p.ownRegisters) :
      Path.writesTo a (front ++ w.before ++ w.lead ++ w.fields) =
        Path.writesTo a (w.before ++ w.lead ++ w.fields) := by
    rw [List.append_assoc front, List.append_assoc front, Path.writesTo_append, before ha]
    rfl
  have twice : Path.writesTo p.miscRegister ((w.around front back).outside ++ w.fields) = [] := by
    rw [Path.writesTo_append, outside (hown (identity misc)) (hidentity misc),
      ← Path.writesTo_append]
    exact h.twice
  have confined : ∀ a ∈ p.fieldRegisters, a ∈ p.identityRegisters ∨ a ∉ known →
      Path.writesTo a (w.around front back).outside = [] := by
    intro a hfield ha
    have apart : a ∉ others ∧ a ∉ later := by
      rcases ha with ha | ha
      · exact ⟨hown (identity ha), hidentity ha⟩
      · exact ⟨fun hm => ha (hothers hm), fun hm => ha (hlater hm)⟩
    rw [outside apart.1 apart.2]
    exact h.confined a hfield ha
  have disabled : ∀ v ∈ Path.writesTo p.ltssmRegister (front ++ w.before ++ w.lead ++ w.fields),
      v &&& p.soc.control.ltssmEnable = 0 := by
    rw [early List.mem_cons_self]
    exact h.disabled
  have unmapped : ∀ a ∈ p.unitRegisters,
      Path.writesTo a (front ++ w.before ++ w.lead ++ w.fields) = [] := by
    intro a ha
    rw [early (unit ha)]
    exact h.unmapped a ha
  exact ⟨h.opens, h.closes, twice, h.inside, confined, h.held, disabled, unmapped, h.releases,
    h.programs, h.enables⟩

end ReadOnlyWindow

end Port

/-! ## Registers apart -/

namespace Topology

variable {t : Topology} {c : Controller} {cs : List Controller}

theorem flatMap_registers_subset (hcs : cs ⊆ t.controllers) :
    (cs.flatMap fun d => Port.registers ⟨t.soc, d⟩) ⊆ t.registers := by
  intro a ha
  obtain ⟨d, hd, ha⟩ := List.mem_flatMap.mp ha
  exact registers_subset (hcs hd) ha

theorem flatMap_retrainRegisters_subset :
    (t.controllers.flatMap fun d => Port.retrainRegisters ⟨t.soc, d⟩) ⊆ t.registers := by
  intro a ha
  obtain ⟨d, hd, ha⟩ := List.mem_flatMap.mp ha
  exact registers_subset hd (Port.plainRegisters_subset (Port.retrainRegisters_plain ha))

theorem RegistersDistinct.own_disjoint_others (h : t.RegistersDistinct) (hc : c ∈ t.controllers)
    (hcs : cs ⊆ t.controllers) (hne : c ∉ cs) :
    List.Disjoint (Port.ownRegisters ⟨t.soc, c⟩)
      (cs.flatMap fun d => Port.registers ⟨t.soc, d⟩) := by
  intro a ha hm
  obtain ⟨d, hd, hm⟩ := List.mem_flatMap.mp hm
  have hcd : c ≠ d := by
    rintro rfl
    exact hne hd
  exact h.disjoint_registers hc (hcs hd) hcd ha hm

/-- No port retrains by what describes another one, or itself. -/
theorem RegistersDistinct.identity_disjoint_retrain (hs : t.soc ∈ Soc.all)
    (h : t.RegistersDistinct) (hc : c ∈ t.controllers) :
    List.Disjoint (Port.identityRegisters ⟨t.soc, c⟩)
      (t.controllers.flatMap fun d => Port.retrainRegisters ⟨t.soc, d⟩) := by
  intro a ha hm
  obtain ⟨d, hd, hm⟩ := List.mem_flatMap.mp hm
  have plain := Port.retrainRegisters_plain hm
  by_cases he : c = d
  · subst he
    exact Port.identity_disjoint_plain (h.nodup_registers hs hc) ha plain
  · exact h.disjoint_registers hc hd he (Port.identityRegisters_own ha)
      (Port.plainRegisters_subset plain)

end Topology

/-! ## All ports -/

namespace Host

variable {soc : Soc} {path : List Exchange} {policy : RetrainPolicy} {patience : Nat}

theorem retrainAll_touches {h last : Host} {policies : List RetrainPolicy}
    {calls : List (List RetrainReport)}
    (hi : Controller.Independent h.soc (h.ports.map (·.controller)))
    (hp : ∀ policy ∈ policies, 0 < policy.pollInterval)
    (hr : Runs (retrainAll patience h policies) path (some (last, calls))) :
    ∀ e ∈ path, e.command.Touches ((h.ports.map (·.controller)).flatMap fun c =>
      Port.retrainRegisters ⟨h.soc, c⟩) := by
  induction policies generalizing h path last calls with
  | nil =>
    obtain ⟨rfl, -⟩ := runs_done.mp hr
    exact fun e he => absurd he List.not_mem_nil
  | cons policy rest ih =>
    obtain ⟨first, others⟩ := List.forall_mem_cons.mp hp
    obtain ⟨_, _, _, front, back, hfront, hback, rfl, -⟩ := retrainAll_cons hr
    -- the retrain before the others leaves the host with the ports that it had
    obtain ⟨next, reports, hsame, hsoc, hports, -⟩ := retrain_leaves hi first hfront
    cases hsame
    have later := ih (by rwa [hsoc, hports]) others hback
    rw [hsoc, hports] at later
    exact List.forall_mem_append.mpr ⟨retrain_within h _ _ hfront, later⟩

/-- In a bring-up of all ports, with retrains after it, each port has its window: before it only
others are at work, and what comes after leaves the fields alone. -/
theorem bringUpPorts_scoped {t : Topology} (hs : t.soc ∈ Soc.all) (h : t.RegistersDistinct)
    (hi : Controller.Independent t.soc t.controllers) {front back : List Exchange}
    {states : List PortState} (hports : Runs (bringUpPorts t.soc t.controllers) front states)
    (hback : ∀ e ∈ back, e.command.Touches
      (t.controllers.flatMap fun d => Port.retrainRegisters ⟨t.soc, d⟩))
    {c : Controller} (hc : c ∈ t.controllers) :
    ∃ w : Port.ReadOnlyWindow ⟨t.soc, c⟩, front ++ back = w.whole ∧ w.Scoped t.registers := by
  obtain ⟨before, after, hsplit⟩ := List.append_of_mem hc
  have hbefore : before ⊆ t.controllers := fun d hd => by simp [hsplit, hd]
  have hafter : after ⊆ t.controllers := fun d hd => by simp [hsplit, hd]
  have hne : c ∉ before ∧ c ∉ after := by
    have nodup := hi.indices.of_map
    rw [hsplit, List.nodup_middle] at nodup
    simpa using (List.nodup_cons.mp nodup).1
  rw [hsplit] at hports
  obtain ⟨early, own, late, s, _, _, hearly, hown, hlate, -, rfl⟩ := bringUpPorts_split hports
  have hn := h.nodup_registers hs hc
  have hmine := Topology.registers_subset hc
  obtain ⟨event, w, rest, rfl, scope, hrest⟩ := (hi.isolated c hc).bringUp_scoped hn hmine hown
  have first := bringUpPorts_within before _ _ hearly
  have last := bringUpPorts_within after _ _ hlate
  have hfront : ∀ e ∈ early ++ [⟨.report event, ()⟩],
      e.command.Touches (before.flatMap fun d => Port.registers ⟨t.soc, d⟩) :=
    List.forall_mem_append.mpr ⟨first, by simp [Command.Touches]⟩
  let later := Port.plainRegisters ⟨t.soc, c⟩ ++
    ((after.flatMap fun d => Port.registers ⟨t.soc, d⟩) ++
      t.controllers.flatMap fun d => Port.retrainRegisters ⟨t.soc, d⟩)
  have hlater : ∀ e ∈ rest ++ (late ++ back), e.command.Touches later := by
    have rest := Path.touches_mono hrest (List.subset_append_left _ _ : _ ⊆ later)
    have others := List.forall_mem_append.mpr
      ⟨Path.touches_mono last (List.subset_append_left _ _),
        Path.touches_mono hback (List.subset_append_right _ _)⟩
    exact List.forall_mem_append.mpr
      ⟨rest, Path.touches_mono others (List.subset_append_right _ _)⟩
  have laterKnown : later ⊆ t.registers :=
    List.append_subset.mpr ⟨List.Subset.trans Port.plainRegisters_subset hmine,
      List.append_subset.mpr ⟨Topology.flatMap_registers_subset hafter,
        Topology.flatMap_retrainRegisters_subset⟩⟩
  have laterApart : List.Disjoint (Port.identityRegisters ⟨t.soc, c⟩) later := by
    have others := List.disjoint_of_subset_left Port.identityRegisters_own
      (h.own_disjoint_others hc hafter hne.2)
    exact List.disjoint_append_right.mpr ⟨Port.identity_disjoint_plain hn,
      List.disjoint_append_right.mpr ⟨others, h.identity_disjoint_retrain hs hc⟩⟩
  refine ⟨_, ?_, scope.around hfront hlater (Topology.flatMap_registers_subset hbefore)
    laterKnown (h.own_disjoint_others hc hbefore hne.1) laterApart⟩
  simp [Port.ReadOnlyWindow.whole_around]

end Host

/-- Whatever the hardware answers, in a bring-up followed by any number of retrains the
read-only fields of each controller are writable once, while the engine describes the port, and
no longer. -/
theorem write_enable_scoped {soc : Soc} (hs : soc ∈ Soc.all) {nodes : List Node}
    (hd : (Topology.load soc nodes).RegistersDistinct) {policies : List RetrainPolicy}
    (hp : ∀ policy ∈ policies, 0 < policy.pollInterval) {patience : Nat}
    {front back : List Exchange} {first : Host}
    {result : Option (Host × List (List RetrainReport))}
    (hbring : Runs (Host.bringUp (Topology.load soc nodes)) front first)
    (hretrain : Runs (Host.retrainAll patience first policies) back result) :
    (∃ last calls, result = some (last, calls)) ∧
    ∀ c ∈ (Topology.load soc nodes).controllers, ∃ w : Port.ReadOnlyWindow ⟨soc, c⟩,
      front ++ back = w.whole ∧ w.Scoped (Topology.load soc nodes).registers := by
  have independent := hd.independent hs
  obtain ⟨hports, hsoc, -⟩ := Host.bringUp_ports hbring
  have hcs := Host.controllers_of_bringUpPorts hports
  have ready : Controller.Independent first.soc (first.ports.map (·.controller)) := by
    rwa [hsoc, hcs]
  obtain ⟨last, calls, rfl, -⟩ := Host.retrainAll_leaves ready hp hretrain
  refine ⟨⟨last, calls, rfl⟩, fun c hc => ?_⟩
  have retrained := Host.retrainAll_touches ready hp hretrain
  rw [hsoc, hcs] at retrained
  exact Host.bringUpPorts_scoped hs hd independent hports retrained hc

theorem write_enable_scoped_example :
    (Topology.load Bm1000.soc [exampleNode]).RegistersDistinct ∧
    exampleController ∈ (Topology.load Bm1000.soc [exampleNode]).controllers ∧
    ∃ front first back last calls,
      Runs (Host.bringUp (Topology.load Bm1000.soc [exampleNode])) front first ∧
      Runs (Host.retrainAll 0 first [.standard]) back (some (last, calls)) ∧
      ∃ w : Port.ReadOnlyWindow ⟨Bm1000.soc, exampleController⟩, front ++ back = w.whole ∧
        w.Scoped (Topology.load Bm1000.soc [exampleNode]).registers := by
  have hs : Bm1000.soc ∈ Soc.all := List.mem_cons_self
  have hd := registersDistinct_exampleNode
  have hc : exampleController ∈ (Topology.load Bm1000.soc [exampleNode]).controllers := by
    rw [load_exampleNode]
    exact List.mem_cons_self
  have hp : ∀ policy ∈ [RetrainPolicy.standard], 0 < policy.pollInterval := by decide
  let bringUp := Host.bringUp (Topology.load Bm1000.soc [exampleNode])
  have hfront := runs_exchanges losingPlatform bringUp ()
  have hback := runs_exchanges losingPlatform
    (Host.retrainAll 0 (bringUp.run losingPlatform ()).1 [.standard]) ()
  obtain ⟨⟨last, calls, hresult⟩, windows⟩ := write_enable_scoped hs hd hp hfront hback
  rw [hresult] at hback
  exact ⟨hd, hc, _, _, _, last, calls, hfront, hback, windows exampleController hc⟩

end RootComplex
