import RootComplex.Proofs.Lifecycle
import RootComplex.Proofs.Training

/-! # The order of a reset

A port is reset under a disabled LTSSM and an asserted PERST# line, and both come back only
when all else is done. The order holds on every path, whatever fails softly on the way, and
a recovery pulse keeps to it as well. -/

namespace RootComplex

open Program

namespace Path

variable {a : Address} {regs own : List Address} {path front back : List Exchange}

/-- The writes to the registers in `regs`, first to last. -/
def writesAmong (regs : List Address) (path : List Exchange) : List (Address × Word) :=
  (writes path).filter (·.1 ∈ regs)

/-- How long the path stalls in all. -/
def stalled : List Exchange → Duration
  | [] => 0
  | ⟨.stall t, _⟩ :: path => t + stalled path
  | _ :: path => stalled path

theorem writesAmong_append :
    writesAmong regs (front ++ back) = writesAmong regs front ++ writesAmong regs back := by
  rw [writesAmong, writes_append, List.filter_append]
  rfl

theorem writesAmong_modified (h : a ∈ regs) (old new : Word) :
    writesAmong regs (modified a old new) = [(a, new)] := by
  show List.filter (·.1 ∈ regs) [(a, new)] = [(a, new)]
  simp [h]

theorem writesAmong_of_touches (h : ∀ e ∈ path, e.command.Touches own)
    (hd : List.Disjoint regs own) : writesAmong regs path = [] := by
  apply List.filter_eq_nil_iff.mpr
  intro w hw hr
  exact hd (of_decide_eq_true hr) (mem_of_mem_writes (fun e he => (h e he).alters) hw)

end Path

/-! ## The parts of a reset -/

namespace Perst

def dataRegister (l : Perst) : Address := l.gpio.at GpioPort.data

def directionRegister (l : Perst) : Address := l.gpio.at GpioPort.direction

/-- The word that has the pin's bit set and no other. -/
def pinMask (l : Perst) : Word := BitVec.twoPow 32 l.line.pin

theorem bit_eq (l : Perst) : l.bit = l.pinMask := rfl

/-- The pin's bit of a data word is at the level that asserts PERST#, or at the other. -/
def Shows (l : Perst) (asserted : Bool) (data : Word) : Prop :=
  data &&& l.pinMask = if asserted != l.line.activeLow then l.pinMask else 0

theorem level_and_pinMask (l : Perst) (high : Bool) (data : Word) :
    l.level high data &&& l.pinMask = if high then l.pinMask else 0 := by
  unfold level
  rw [bit_eq]
  generalize l.pinMask = bit
  cases high with
  | true =>
    rw [if_pos rfl, if_pos rfl]
    ext i h
    grind
  | false =>
    rw [if_neg Bool.false_ne_true, if_neg Bool.false_ne_true, BitVec.and_assoc]
    simp

theorem getLsbD_pinMask (l : Perst) (i : Nat) :
    l.pinMask.getLsbD i = (decide (l.line.pin < 32) && decide (l.line.pin = i)) :=
  BitVec.getLsbD_twoPow l.line.pin i

/-- For a pin that the GPIO port has, the bit of the data word is that of the pin. -/
theorem shows_iff {l : Perst} (h : l.line.pin < GpioPort.pins) {asserted : Bool} {data : Word} :
    l.Shows asserted data ↔ data.getLsbD l.line.pin = (asserted != l.line.activeLow) := by
  have hpin : l.line.pin < 32 := h
  unfold Shows
  generalize (asserted != l.line.activeLow) = high
  constructor
  · intro hs
    have hp := congrArg (BitVec.getLsbD · l.line.pin) hs
    have hb : l.pinMask.getLsbD l.line.pin = true := by simp [getLsbD_pinMask, hpin]
    rw [BitVec.getLsbD_and, hb, Bool.and_true] at hp
    cases high with
    | true => exact hp.trans hb
    | false => simpa using hp
  · intro hs
    apply BitVec.eq_of_getLsbD_eq
    intro i hi
    by_cases hp : l.line.pin = i
    · subst hp
      cases high <;> simp_all
    · cases high <;> simp [getLsbD_pinMask, hp]

/-- The path drives the pin to the level that asserts PERST#, or to the other. -/
def Drives (l : Perst) (asserted : Bool) (path : List Exchange) : Prop :=
  ∃ old new, path = Path.modified l.dataRegister old new ∧ l.Shows asserted new

theorem drive_drives {l : Perst} {asserted : Bool} {path : List Exchange} {u : Unit}
    (h : Runs (l.drive asserted) path u) : l.Drives asserted path := by
  obtain ⟨old, rfl⟩ := runs_modify.mp h
  exact ⟨old, _, rfl, l.level_and_pinMask _ old⟩

end Perst

namespace Port

variable {p : Port} {path : List Exchange}

/-- What is held in reset together: the base and, from eight lanes on, the second pipe. A port
without a configured width has as many lanes as its chip allows. -/
def resetBundle (p : Port) : Word :=
  if 8 ≤ (p.controller.lanes.map LaneCount.count).getD p.soc.maxLanes
    then p.soc.reset.base ||| p.soc.reset.pipe1
    else p.soc.reset.base

theorem bundle_lanes (p : Port) : p.soc.reset.bundle p.lanes = p.resetBundle := by
  have lanes : p.lanes = (p.controller.lanes.map LaneCount.count).getD p.soc.maxLanes := by
    unfold lanes Controller.laneCount
    cases p.controller.lanes <;> rfl
  rw [ResetBits.bundle, resetBundle, lanes]

theorem cycleReset_eq (p : Port) : p.cycleReset = (do
    Program.modify p.resetRegister (· ||| p.resetBundle)
    Program.stall p.soc.reset.hold
    Program.modify p.resetRegister (· &&& ~~~(p.resetBundle ||| p.soc.reset.releaseExtra))) := by
  unfold cycleReset
  rw [bundle_lanes]

/-- The registers that a reset is a matter of. -/
def sequenceRegisters (p : Port) : List Address :=
  p.ltssmRegister :: p.resetRegister :: p.lineRegisters

/-- The registers in use between the reset and the description of the port. -/
def settleRegisters (p : Port) : List Address :=
  p.doneRegisters ++ p.phyRegisters ++ p.msiRegisters

/-- The registers that the configuration uses beside those of the sequence. -/
def setupRegisters (p : Port) : List Address :=
  p.settleRegisters ++ p.identityRegisters ++ p.unitRegisters ++ p.linkRegisters

/-- The path switches the LTSSM and does nothing else. -/
def Switches (p : Port) (enable : Bool) (path : List Exchange) : Prop :=
  ∃ old new, path = Path.modified p.ltssmRegister old new ∧
    (new &&& p.soc.control.ltssmEnable != 0) = enable

/-- The path asserts PERST#, if the port has a line: the level is set first, and then the pin
becomes an output. -/
def Asserts (p : Port) (path : List Exchange) : Prop :=
  match p.controller.resetLine with
  | none => path = []
  | some line =>
    let perst : Perst := ⟨p.soc.gpioBase, line⟩
    ∃ drive idle, perst.Drives true drive ∧
      path = drive ++ Path.modified perst.directionRegister idle (idle ||| perst.pinMask)

/-- The path releases PERST#, if the port has a line. -/
def Releases (p : Port) (path : List Exchange) : Prop :=
  match p.controller.resetLine with
  | none => path = []
  | some line => Perst.Drives ⟨p.soc.gpioBase, line⟩ false path

theorem assertPerst_asserts {u : Unit} (h : Runs p.assertPerst path u) : p.Asserts path := by
  unfold assertPerst perst? at h
  unfold Asserts
  cases hl : p.controller.resetLine with
  | none =>
    rw [hl] at h
    exact (runs_done.mp h).1
  | some line =>
    rw [hl] at h
    obtain ⟨_, drive, direction, hdrive, hdirection, rfl⟩ := h.bind
    obtain ⟨idle, rfl⟩ := runs_modify.mp hdirection
    rw [Perst.bit_eq]
    exact ⟨drive, idle, Perst.drive_drives hdrive, rfl⟩

theorem deassertPerst_releases {u : Unit} (h : Runs p.deassertPerst path u) :
    p.Releases path := by
  unfold deassertPerst perst? at h
  unfold Releases
  cases hl : p.controller.resetLine with
  | none =>
    rw [hl] at h
    exact (runs_done.mp h).1
  | some line =>
    rw [hl] at h
    exact Perst.drive_drives h

theorem Isolated.switches (hi : p.Isolated) {enable : Bool} {u : Unit}
    (h : Runs (p.setLtssm enable) path u) : p.Switches enable path := by
  obtain ⟨old, rfl⟩ := runs_modify.mp h
  exact ⟨old, _, rfl, ltssmWord_enabled hi enable old⟩

/-! ## The whole sequence -/

/-- Neither the wait for the end of the reset nor the configuration after it reaches the
registers of the sequence. -/
theorem sequence_disjoint_setup (hn : p.registers.Nodup) :
    List.Disjoint p.sequenceRegisters p.setupRegisters := by
  simp only [registers, quietRegisters, quietGroups, sharedRegisters, List.flatten_cons,
    List.flatten_nil, List.nodup_cons, List.nodup_append, List.mem_append, List.mem_cons,
    not_or] at hn
  intro a ha hb
  simp only [sequenceRegisters, List.mem_cons] at ha
  simp only [setupRegisters, settleRegisters, List.mem_append] at hb
  grind

theorem Switches.touches {enable : Bool} (h : p.Switches enable path) (others : List Address) :
    ∀ e ∈ path, e.command.Touches (p.ltssmRegister :: others) := by
  obtain ⟨_, _, rfl, -⟩ := h
  exact Path.touches_modified List.mem_cons_self _ _

theorem lineRegisters_eq {line : Perst} (hl : p.perst? = some line) :
    p.lineRegisters = [line.dataRegister, line.directionRegister] := by
  rw [lineRegisters, hl]
  rfl

theorem perst?_eq_some {line : Perst} : p.perst? = some line ↔
    ∃ reset, p.controller.resetLine = some reset ∧ ⟨p.soc.gpioBase, reset⟩ = line :=
  Option.map_eq_some_iff

theorem Asserts.drives (h : p.Asserts path) {line : Perst} (hl : p.perst? = some line) :
    ∃ drive idle, line.Drives true drive ∧
      path = drive ++ Path.modified line.directionRegister idle (idle ||| line.pinMask) := by
  obtain ⟨reset, hreset, rfl⟩ := perst?_eq_some.mp hl
  unfold Asserts at h
  rwa [hreset] at h

theorem Asserts.touches (h : p.Asserts path) : ∀ e ∈ path, e.command.Touches p.lineRegisters := by
  cases hl : p.controller.resetLine with
  | none =>
    unfold Asserts at h
    rw [hl] at h
    simp [h]
  | some reset =>
    have hline := perst?_eq_some.mpr ⟨reset, hl, rfl⟩
    obtain ⟨_, idle, ⟨old, new, rfl, -⟩, rfl⟩ := h.drives hline
    rw [lineRegisters_eq hline]
    exact List.forall_mem_append.mpr
      ⟨Path.touches_modified (by simp) old new, Path.touches_modified (by simp) idle _⟩

theorem Releases.drives (h : p.Releases path) {line : Perst} (hl : p.perst? = some line) :
    line.Drives false path := by
  obtain ⟨reset, hreset, rfl⟩ := perst?_eq_some.mp hl
  unfold Releases at h
  rwa [hreset] at h

theorem Releases.touches (h : p.Releases path) :
    ∀ e ∈ path, e.command.Touches p.lineRegisters := by
  cases hl : p.controller.resetLine with
  | none =>
    unfold Releases at h
    rw [hl] at h
    simp [h]
  | some reset =>
    have hline := perst?_eq_some.mpr ⟨reset, hl, rfl⟩
    obtain ⟨old, new, rfl, -⟩ := h.drives hline
    rw [lineRegisters_eq hline]
    exact Path.touches_modified (by simp) old new

theorem setupRegisters_subset : p.setupRegisters ⊆ p.quietRegisters := by
  intro a ha
  simp only [setupRegisters, settleRegisters, List.mem_append] at ha
  simp only [quietRegisters, quietGroups, sharedRegisters, List.flatten_cons, List.flatten_nil,
    List.mem_append]
  grind

theorem sequence_nodup (hn : p.registers.Nodup) : p.sequenceRegisters.Nodup := by
  have line : p.lineRegisters.Sublist p.sharedRegisters := List.sublist_append_left _ _
  have reset : [p.resetRegister].Sublist p.quietGroups.flatten :=
    List.Sublist.cons_cons _ (List.nil_sublist _)
  exact ((reset.append line).cons_cons _).nodup hn

/-- The parts of a reset and configuration, in their order. -/
structure ResetParts (p : Port) where
  off : List Exchange
  assert : List Exchange
  old : Word
  next : Word
  /-- The wait for the end of the reset, and what can be set up before the identity. -/
  settle : List Exchange
  describe : List Exchange
  release : List Exchange
  windows : List Exchange
  failures : Nat
  speed : List Exchange
  on : List Exchange
  event : Event
  disables : p.Switches false off
  asserts : p.Asserts assert
  settles : ∀ e ∈ settle, e.command.Touches p.settleRegisters
  describes : Runs p.describe describe ()
  releases : p.Releases release
  programs : Runs (p.programWindows p.controller.outboundWindows) windows failures
  limits : Runs (p.setTargetSpeed LinkSpeed.gen1.code) speed ()
  enables : p.Switches true on

namespace ResetParts

def set (r : p.ResetParts) : List Exchange :=
  Path.modified p.resetRegister r.old (r.old ||| p.resetBundle)

def held (_ : p.ResetParts) : List Exchange := [⟨.stall p.soc.reset.hold, ()⟩]

def clear (r : p.ResetParts) : List Exchange :=
  Path.modified p.resetRegister r.next (r.next &&& ~~~(p.resetBundle ||| p.soc.reset.releaseExtra))

/-- All between the two writes to the LTSSM control register. -/
def middle (r : p.ResetParts) : List Exchange :=
  r.assert ++ r.set ++ r.held ++ r.clear ++ r.settle ++ r.describe ++ r.release ++ r.windows ++
    r.speed

/-- All after the second write to the reset register. -/
def after (r : p.ResetParts) : List Exchange :=
  r.settle ++ r.describe ++ r.release ++ r.windows ++ r.speed ++ r.on ++
    [⟨.report r.event, ()⟩]

def whole (r : p.ResetParts) : List Exchange :=
  r.off ++ r.assert ++ r.set ++ r.held ++ r.clear ++ r.after

theorem whole_eq (r : p.ResetParts) :
    r.whole = r.off ++ r.middle ++ r.on ++ [⟨.report r.event, ()⟩] := by
  simp [whole, middle, after]

end ResetParts

theorem Isolated.configure_parts (hi : p.Isolated) {report : ResetReport}
    (h : Runs p.configure path report) : ∃ parts : p.ResetParts, path = parts.whole := by
  obtain ⟨off, assert, cycle, wait, phy, msi, describe, release, windows, speed, on, event, hoff,
    hassert, hcycle, hwait, hphy, hmsi, hdescribe, hrelease, hwindows, hspeed, hon, rfl⟩ :=
    configure_stages h
  rw [cycleReset_eq] at hcycle
  obtain ⟨_, set, _, hset, hrest, rfl⟩ := hcycle.bind
  obtain ⟨clear, rfl, hclear⟩ := runs_stall_bind.mp hrest
  obtain ⟨old, rfl⟩ := runs_modify.mp hset
  obtain ⟨next, rfl⟩ := runs_modify.mp hclear
  have settles : ∀ e ∈ wait ++ phy ++ msi, e.command.Touches p.settleRegisters := by
    have wait := Path.touches_mono (awaitResetDone_within _ _ hwait)
      (List.subset_append_of_subset_left p.msiRegisters
        (List.subset_append_left _ p.phyRegisters))
    have phy := Path.touches_mono (tunePhy_within _ _ hphy)
      (List.subset_append_of_subset_left p.msiRegisters
        (List.subset_append_right p.doneRegisters _))
    have msi := Path.touches_mono (routeMsi_within _ _ hmsi)
      (List.subset_append_right (p.doneRegisters ++ p.phyRegisters) _)
    exact List.forall_mem_append.mpr ⟨List.forall_mem_append.mpr ⟨wait, phy⟩, msi⟩
  refine ⟨⟨off, assert, old, next, _, describe, release, windows, _, speed, on, event,
    hi.switches hoff, assertPerst_asserts hassert, settles, hdescribe,
    deassertPerst_releases hrelease, hwindows, hspeed, hi.switches hon⟩, ?_⟩
  simp [ResetParts.whole, ResetParts.after, ResetParts.set, ResetParts.held, ResetParts.clear,
    Path.modified]

namespace ResetParts

variable {r : p.ResetParts}

theorem settle_setup : ∀ e ∈ r.settle, e.command.Touches p.setupRegisters :=
  Path.touches_mono r.settles fun a ha => by simp [setupRegisters, ha]

theorem describe_setup : ∀ e ∈ r.describe, e.command.Touches p.setupRegisters :=
  Path.touches_mono (describe_within _ _ r.describes) fun a ha => by simp [setupRegisters, ha]

theorem windows_setup : ∀ e ∈ r.windows, e.command.Touches p.setupRegisters :=
  Path.touches_mono (programWindows_within (List.Subset.refl _) _ _ r.programs) fun a ha => by
    simp [setupRegisters, ha]

theorem speed_setup : ∀ e ∈ r.speed, e.command.Touches p.setupRegisters :=
  Path.touches_mono (setTargetSpeed_within _ _ _ r.limits) fun a ha => by
    simp [setupRegisters, ha]

end ResetParts

/-- What the reset and configuration of a port does in which order. -/
structure ResetOrder (p : Port) (path : List Exchange) : Prop where
  /-- The first write of all clears the enable bit of the LTSSM, the last one sets it, and its
  register has no write in between. -/
  ltssm : ∃ off middle on,
    Path.writes path = (p.ltssmRegister, off) :: (middle ++ [(p.ltssmRegister, on)]) ∧
    off &&& p.soc.control.ltssmEnable = 0 ∧ on &&& p.soc.control.ltssmEnable ≠ 0 ∧
    ∀ w ∈ middle, w.1 ≠ p.ltssmRegister
  /-- The reset register is written twice, each time over the value just read: the bundle is
  set, held, and cleared with the bits held since power-on. -/
  reset : ∃ before old held next after,
    path = before ++ Path.modified p.resetRegister old (old ||| p.resetBundle) ++ held ++
      Path.modified p.resetRegister next
        (next &&& ~~~(p.resetBundle ||| p.soc.reset.releaseExtra)) ++ after ∧
    Path.writesTo p.resetRegister (before ++ held ++ after) = [] ∧
    p.soc.reset.hold ≤ Path.stalled held
  /-- A PERST# line is asserted, then made an output, all before the reset, and released once,
  after the reset and before the LTSSM is enabled. -/
  line : ∀ reset, p.controller.resetLine = some reset →
    let line : Perst := ⟨p.soc.gpioBase, reset⟩
    ∃ off asserted output set clear released on,
      Path.writesAmong p.sequenceRegisters path =
        [(p.ltssmRegister, off), (line.dataRegister, asserted), (line.directionRegister, output),
          (p.resetRegister, set), (p.resetRegister, clear), (line.dataRegister, released),
          (p.ltssmRegister, on)] ∧
      line.Shows true asserted ∧ output &&& line.pinMask = line.pinMask ∧
      line.Shows false released

/-- A recovery pulse does this and nothing else. -/
def PulseOrder (p : Port) (path : List Exchange) : Prop :=
  ∃ off assert old next release on,
    p.Switches false off ∧ p.Asserts assert ∧ p.Releases release ∧ p.Switches true on ∧
    path = off ++ assert ++ Path.modified p.resetRegister old (old ||| p.soc.reset.core) ++
      [⟨.stall (.milliseconds 1), ()⟩] ++
      Path.modified p.resetRegister next (next &&& ~~~p.soc.reset.core) ++ release ++ on

namespace ResetParts

variable {r : p.ResetParts}

theorem writes_whole : ∃ off on,
    Path.writes r.whole = (p.ltssmRegister, off) :: (Path.writes r.middle ++ [(p.ltssmRegister, on)]) ∧
    off &&& p.soc.control.ltssmEnable = 0 ∧ on &&& p.soc.control.ltssmEnable ≠ 0 := by
  obtain ⟨_, off, hoff, hdisabled⟩ := r.disables
  obtain ⟨_, on, hon, henabled⟩ := r.enables
  refine ⟨off, on, ?_, by simpa using hdisabled, bne_iff_ne.mp henabled⟩
  rw [whole_eq, hoff, hon, Path.writes_append, Path.writes_append, Path.writes_append]
  simp [Path.writes, Path.modified, Exchange.write?]

/-- What lies between the two does not reach their register. -/
theorem middle_quiet : ∀ e ∈ r.middle, e.command.Touches p.quietRegisters := by
  have hline : p.lineRegisters ⊆ p.quietRegisters := fun a ha =>
    List.mem_append_right _ (List.mem_append_left _ ha)
  have hreset : p.resetRegister ∈ p.quietRegisters := List.mem_append_left _ List.mem_cons_self
  have assert := Path.touches_mono r.asserts.touches hline
  have set : ∀ e ∈ r.set, e.command.Touches p.quietRegisters := Path.touches_modified hreset _ _
  have held : ∀ e ∈ r.held, e.command.Touches p.quietRegisters := by
    simp [ResetParts.held, Command.Touches]
  have clear : ∀ e ∈ r.clear, e.command.Touches p.quietRegisters :=
    Path.touches_modified hreset _ _
  have settle := Path.touches_mono r.settle_setup setupRegisters_subset
  have describe := Path.touches_mono r.describe_setup setupRegisters_subset
  have release := Path.touches_mono r.releases.touches hline
  have windows := Path.touches_mono r.windows_setup setupRegisters_subset
  have speed := Path.touches_mono r.speed_setup setupRegisters_subset
  simp only [middle, List.forall_mem_append]
  exact ⟨⟨⟨⟨⟨⟨⟨⟨assert, set⟩, held⟩, clear⟩, settle⟩, describe⟩, release⟩, windows⟩, speed⟩

/-- The reset register is written where the bundle is set and cleared, and nowhere else. -/
theorem reset_only (hn : p.registers.Nodup) :
    Path.writesTo p.resetRegister (r.off ++ r.assert ++ r.held ++ r.after) = [] := by
  have apart : p.resetRegister ∉ p.ltssmRegister :: (p.lineRegisters ++ p.setupRegisters) := by
    obtain ⟨hltssm, hrest⟩ := List.nodup_cons.mp (sequence_nodup hn)
    have hne := List.ne_of_not_mem_cons hltssm
    have hsetup : p.resetRegister ∉ p.setupRegisters :=
      sequence_disjoint_setup hn (List.mem_cons_of_mem _ List.mem_cons_self)
    exact List.not_mem_cons_of_ne_of_not_mem (Ne.symm hne)
      (List.not_mem_append (List.nodup_cons.mp hrest).1 hsetup)
  refine Path.writesTo_of_touches ?_ apart
  have hline := List.subset_cons_of_subset p.ltssmRegister
    (List.subset_append_left p.lineRegisters p.setupRegisters)
  have hsetup := List.subset_cons_of_subset p.ltssmRegister
    (List.subset_append_right p.lineRegisters p.setupRegisters)
  have off := r.disables.touches
  have assert := Path.touches_mono r.asserts.touches hline
  have settle := Path.touches_mono r.settle_setup hsetup
  have describe := Path.touches_mono r.describe_setup hsetup
  have release := Path.touches_mono r.releases.touches hline
  have windows := Path.touches_mono r.windows_setup hsetup
  have speed := Path.touches_mono r.speed_setup hsetup
  have on := r.enables.touches
  simp only [after, held, List.forall_mem_append, List.forall_mem_singleton]
  exact ⟨⟨⟨off _, assert⟩, trivial⟩,
    ⟨⟨⟨⟨⟨settle, describe⟩, release⟩, windows⟩, speed⟩, on _⟩, trivial⟩

theorem writesAmong_whole (hn : p.registers.Nodup) {line : Perst} (hl : p.perst? = some line) :
    ∃ off asserted output set clear released on,
      Path.writesAmong p.sequenceRegisters r.whole =
        [(p.ltssmRegister, off), (line.dataRegister, asserted), (line.directionRegister, output),
          (p.resetRegister, set), (p.resetRegister, clear), (line.dataRegister, released),
          (p.ltssmRegister, on)] ∧
      line.Shows true asserted ∧ output &&& line.pinMask = line.pinMask ∧
      line.Shows false released := by
  obtain ⟨_, off, hoff, -⟩ := r.disables
  obtain ⟨_, on, hon, -⟩ := r.enables
  obtain ⟨_, idle, ⟨_, asserted, rfl, hasserted⟩, hassert⟩ := r.asserts.drives hl
  obtain ⟨_, released, hrelease, hreleased⟩ := r.releases.drives hl
  refine ⟨off, asserted, idle ||| line.pinMask, r.old ||| p.resetBundle,
    r.next &&& ~~~(p.resetBundle ||| p.soc.reset.releaseExtra), released, on, ?_, hasserted,
    by simpa [Perst.level, Perst.bit_eq] using line.level_and_pinMask true idle, hreleased⟩
  have apart := sequence_disjoint_setup hn
  have hline := lineRegisters_eq hl
  have ltssm : p.ltssmRegister ∈ p.sequenceRegisters := List.mem_cons_self
  have reset : p.resetRegister ∈ p.sequenceRegisters := by simp [sequenceRegisters]
  have data : line.dataRegister ∈ p.sequenceRegisters := by simp [sequenceRegisters, hline]
  have direction : line.directionRegister ∈ p.sequenceRegisters := by
    simp [sequenceRegisters, hline]
  have held : Path.writesAmong p.sequenceRegisters r.held = [] := rfl
  have event : Path.writesAmong p.sequenceRegisters [⟨.report r.event, ()⟩] = [] := rfl
  simp only [whole, after, set, clear, Path.writesAmong_append, hoff, hon, hassert, hrelease,
    Path.writesAmong_modified ltssm, Path.writesAmong_modified reset,
    Path.writesAmong_modified data, Path.writesAmong_modified direction,
    Path.writesAmong_of_touches r.settle_setup apart,
    Path.writesAmong_of_touches r.describe_setup apart,
    Path.writesAmong_of_touches r.windows_setup apart,
    Path.writesAmong_of_touches r.speed_setup apart, held, event, List.append_nil]
  rfl

end ResetParts

theorem Isolated.resetOrder (hi : p.Isolated) (hn : p.registers.Nodup) {report : ResetReport}
    (h : Runs p.configure path report) : p.ResetOrder path := by
  obtain ⟨r, rfl⟩ := hi.configure_parts h
  obtain ⟨off, on, hwrites, hoff, hon⟩ := r.writes_whole
  have hold : p.soc.reset.hold ≤ Path.stalled r.held := by simp [ResetParts.held, Path.stalled]
  refine ⟨⟨off, _, on, hwrites, hoff, hon, ?_⟩,
    ⟨r.off ++ r.assert, r.old, r.held, r.next, r.after, rfl, r.reset_only hn, hold⟩,
    fun reset hl => r.writesAmong_whole hn (perst?_eq_some.mpr ⟨reset, hl, rfl⟩)⟩
  intro w hw heq
  have quiet := Path.mem_of_mem_writes (fun e he => (r.middle_quiet e he).alters) hw
  exact hi.apart (heq ▸ quiet)

/-! ## Recovery -/

theorem Isolated.pulseOrder (hi : p.Isolated) {u : Unit} (h : Runs p.pulseReset path u) :
    p.PulseOrder path := by
  obtain ⟨off, assert, set, clear, release, on, hoff, hassert, hset, hclear, hrelease, hon, rfl⟩ :=
    pulseReset_stages h
  obtain ⟨old, rfl⟩ := runs_modify.mp hset
  obtain ⟨next, rfl⟩ := runs_modify.mp hclear
  refine ⟨off, assert, old, next, release, on, hi.switches hoff, assertPerst_asserts hassert,
    deassertPerst_releases hrelease, hi.switches hon, ?_⟩
  simp [Path.modified, recoveryPulse]

theorem writesTo_looks (a : Address) (w : Nat → Word) (d k : Nat) :
    Path.writesTo a (p.looks w d k) = [] := by
  apply List.filterMap_eq_nil_iff.mpr
  intro e he
  obtain ⟨i, -, hi⟩ := List.mem_flatMap.mp he
  simp only [List.mem_cons, List.not_mem_nil, or_false] at hi
  rcases hi with rfl | rfl <;> rfl

theorem writesTo_setLtssm {a : Address} (ha : p.ltssmRegister ≠ a) {enable : Bool}
    (h : Runs (p.setLtssm enable) path ()) : Path.writesTo a path = [] := by
  have apart : a ∉ [p.ltssmRegister] := by simpa using ha.symm
  refine Path.writesTo_of_touches ?_ apart
  obtain ⟨v, rfl⟩ := runs_modify.mp h
  exact Path.touches_modified List.mem_cons_self _ _

theorem writesTo_ends {a : Address} (ha : p.ltssmRegister ≠ a) {debug : Word} {ms : Nat}
    {recovered : Bool} {outcome : LinkOutcome}
    (h : Training.Ends p debug ms recovered path outcome) : Path.writesTo a path = [] := by
  cases h with
  | linkUp up link => rfl
  | timeout down disabled => exact writesTo_setLtssm ha disabled

/-- Training writes the reset register in a recovery pulse only, of which there is at most
one. -/
theorem reset_in_pulse (ha : p.ltssmRegister ≠ p.resetRegister) {w : Nat → Word}
    {outcome : LinkOutcome} (h : Training.Trains p w path outcome) :
    Path.writesTo p.resetRegister path = [] ∨
      ∃ front pulse back, path = front ++ pulse ++ back ∧ Runs p.pulseReset pulse () ∧
        Path.writesTo p.resetRegister (front ++ back) = [] := by
  have look (debug : Word) (rest : List Exchange) :
      Path.writesTo p.resetRegister (p.look debug :: rest) =
        Path.writesTo p.resetRegister rest := rfl
  cases h with
  | noPartner unseen disabled =>
    left
    rw [List.cons_append, look, Path.writesTo_append, writesTo_looks,
      writesTo_setLtssm ha disabled]
    rfl
  | settled seen inTime stop free ends =>
    left
    rw [List.cons_append, look, Path.writesTo_append, writesTo_looks, writesTo_ends ha ends]
    rfl
  | recovered seen inTime stop down locked pulsed again ends =>
    right
    refine ⟨_, _, _, List.append_assoc _ _ _, pulsed, ?_⟩
    rw [List.cons_append, List.cons_append, look, Path.writesTo_append, look,
      Path.writesTo_append, writesTo_looks, writesTo_looks, writesTo_ends ha ends]
    rfl

end Port

theorem Path.writesTo_accesses (a : Address) (path : List Exchange) :
    writesTo a (accesses path) = writesTo a path := by
  unfold writesTo accesses
  rw [List.filterMap_filter]
  congr 1
  funext e
  obtain ⟨c, answer⟩ := e
  cases c <;> rfl

/-- Whatever the registers answer, the reset and configuration of a port keeps to its order,
and so does a recovery pulse; training resets the core in such a pulse only. -/
theorem reset_sequence_ordered {p : Port} (hs : p.soc ∈ Soc.all) (hn : p.registers.Nodup) :
    (∀ path report, Runs p.configure path report → p.ResetOrder path) ∧
    (∀ path, Runs p.pulseReset path () → p.PulseOrder path) ∧
    ∀ path outcome, Runs p.train path outcome →
      Path.writesTo p.resetRegister path = [] ∨
        ∃ front pulse back, Path.accesses path = front ++ pulse ++ back ∧ p.PulseOrder pulse ∧
          Path.writesTo p.resetRegister (front ++ back) = [] := by
  have isolated : p.Isolated := ⟨Soc.ltssmEnable_ne_zero hs, (List.nodup_cons.mp hn).1⟩
  refine ⟨fun path report h => isolated.resetOrder hn h, fun path h => isolated.pulseOrder h,
    fun path outcome h => ?_⟩
  have apart : p.ltssmRegister ≠ p.resetRegister := by
    intro he
    exact isolated.apart (he ▸ List.mem_append_left _ List.mem_cons_self)
  obtain ⟨w, trains⟩ := train_trains h
  rcases Port.reset_in_pulse apart trains with none | ⟨front, pulse, back, hp, hpulse, hrest⟩
  · exact .inl ((Path.writesTo_accesses _ path).symm.trans none)
  · exact .inr ⟨front, pulse, back, hp, isolated.pulseOrder hpulse, hrest⟩

theorem reset_sequence_ordered_example :
    Bm1000.soc ∈ Soc.all ∧ (Port.registers ⟨Bm1000.soc, exampleController⟩).Nodup ∧
    Port.ResetOrder ⟨Bm1000.soc, exampleController⟩
      ((Port.configure ⟨Bm1000.soc, exampleController⟩).exchanges losingPlatform ()) ∧
    Port.PulseOrder ⟨Bm1000.soc, exampleController⟩
      ((Port.pulseReset ⟨Bm1000.soc, exampleController⟩).exchanges losingPlatform ()) := by
  have hs : Bm1000.soc ∈ Soc.all := List.mem_cons_self
  have hn : (Port.registers ⟨Bm1000.soc, exampleController⟩).Nodup := by decide +kernel
  obtain ⟨configured, pulsed, -⟩ :=
    reset_sequence_ordered (p := ⟨Bm1000.soc, exampleController⟩) hs hn
  exact ⟨hs, hn, configured _ _ (runs_exchanges losingPlatform _ ()),
    pulsed _ (runs_exchanges losingPlatform _ ())⟩

end RootComplex
