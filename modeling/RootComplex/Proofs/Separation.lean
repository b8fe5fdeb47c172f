import RootComplex.Proofs.Admission
import RootComplex.Proofs.Footprint
import RootComplex.Proofs.Stages
import RootComplex.Recording

/-! # Separation

Controllers whose register blocks are apart do not disturb each other. A port uses registers of
its own and a few that it shares with others; those it only modifies, and nothing that it does
afterwards depends on what they held. So on register files that agree on its own registers a
port is brought up alike, and the other ports leave these registers as they were. -/

namespace RootComplex

open Program

/-! ## Agreement of register files -/

namespace RegisterFile

/-- On these registers the two files hold the same, let the same bits be written and have the
same answers to come. -/
def AgreeOn (regs : List Address) (f g : RegisterFile) : Prop :=
  ∀ a ∈ regs, f.peek a = g.peek a ∧ f.mask a = g.mask a ∧ f.script a = g.script a

namespace AgreeOn

variable {regs : List Address} {f g h : RegisterFile} {a : Address}

theorem refl (f : RegisterFile) : AgreeOn regs f f := fun _ _ => ⟨rfl, rfl, rfl⟩

theorem symm (hfg : AgreeOn regs f g) : AgreeOn regs g f := by
  intro b hb
  obtain ⟨hpeek, hmask, hscript⟩ := hfg b hb
  exact ⟨hpeek.symm, hmask.symm, hscript.symm⟩

theorem trans (hfg : AgreeOn regs f g) (hgh : AgreeOn regs g h) : AgreeOn regs f h := by
  intro b hb
  obtain ⟨hpeek, hmask, hscript⟩ := hfg b hb
  obtain ⟨hpeek', hmask', hscript'⟩ := hgh b hb
  exact ⟨hpeek.trans hpeek', hmask.trans hmask', hscript.trans hscript'⟩

/-- A read of another register changes nothing here. -/
theorem read_of_not_mem (ha : a ∉ regs) : AgreeOn regs f (f.read a).2 := by
  intro b hb
  have hne : a ≠ b := by
    rintro rfl
    exact ha hb
  refine ⟨(f.peek_read a b).symm, ?_, (f.script_read_of_ne hne).symm⟩
  unfold read
  split <;> rfl

/-- A write to another register changes nothing here. -/
theorem write_of_not_mem (ha : a ∉ regs) (v : Word) : AgreeOn regs f (f.write a v) := by
  intro b hb
  have hne : a ≠ b := by
    rintro rfl
    exact ha hb
  refine ⟨?_, rfl, rfl⟩
  rw [peek_write, if_neg hne]

/-- One of the registers answers both files' reads alike. -/
theorem read (hfg : AgreeOn regs f g) (ha : a ∈ regs) :
    (f.read a).1 = (g.read a).1 ∧ AgreeOn regs (f.read a).2 (g.read a).2 := by
  obtain ⟨hpeek, -, hscript⟩ := hfg a ha
  unfold RegisterFile.read
  rw [hscript]
  cases (g.script a).next? with
  | none => exact ⟨hpeek, hfg⟩
  | some next =>
    refine ⟨rfl, fun b hb => ?_⟩
    obtain ⟨hpeek, hmask, hscript⟩ := hfg b hb
    refine ⟨hpeek, hmask, ?_⟩
    simp only [script, Std.TreeMap.getD_insert]
    split
    · rfl
    · exact hscript

theorem write (hfg : AgreeOn regs f g) (a : Address) (v : Word) :
    AgreeOn regs (f.write a v) (g.write a v) := by
  intro b hb
  obtain ⟨hpeek, hmask, hscript⟩ := hfg b hb
  refine ⟨?_, hmask, hscript⟩
  rw [peek_write, peek_write]
  by_cases h : a = b
  · rw [if_pos h, if_pos h, h, hpeek, hmask]
  · rw [if_neg h, if_neg h, hpeek]

end AgreeOn

end RegisterFile

@[simp] theorem Recording.file_keep (r : Recording) (e : Event) : (r.keep e).file = r.file := by
  unfold keep
  split <;> rfl

/-! ## Programs on files that agree -/

namespace Program

variable {α β : Type} {regs more : List Address} {p : Program α}

theorem run_step {σ : Type} (platform : Platform σ) (c : Command) (next : c.Answer → Program α)
    (s : σ) : (Program.step c next).run platform s =
      (next (platform.answer c s).1).run platform (platform.answer c s).2 := rfl

/-- The first command of a program is within its footprint, and so is what comes after. -/
theorem within_step {c : Command} {next : c.Answer → Program α}
    (h : (Program.step c next).Within regs) :
    c.Touches regs ∧ ∀ answer, (next answer).Within regs := by
  constructor
  · -- any platform answers the command, so there is a path that begins with it
    have hr := runs_exchanges Recording.platform (Program.step c next) (.start .empty none)
    exact h _ _ hr _ List.mem_cons_self
  · intro answer path a hr e he
    exact h _ a (.step c next answer hr) e (List.mem_cons_of_mem _ he)

/-- A program leaves the registers outside its footprint as they were. -/
theorem Within.keeps (h : p.Within more) (hd : List.Disjoint more regs) (r : Recording) :
    r.file.AgreeOn regs (p.run Recording.platform r).2.file := by
  induction p generalizing r with
  | done a => exact .refl _
  | step c next ih =>
    obtain ⟨hc, hnext⟩ := within_step h
    have first : r.file.AgreeOn regs (Recording.platform.answer c r).2.file := by
      cases c with
      | read a => exact .read_of_not_mem (hd hc)
      | write a v => exact .write_of_not_mem (hd hc) v
      | report e =>
        show r.file.AgreeOn regs (r.keep e).file
        rw [Recording.file_keep]
        exact .refl _
      | _ => exact .refl _
    rw [run_step]
    exact first.trans (ih _ (hnext _) _)

/-- What the program returns, and how it leaves the registers, depends on no other register. -/
def Insulated (regs : List Address) (p : Program α) : Prop :=
  ∀ r s : Recording, r.file.AgreeOn regs s.file →
    (p.run Recording.platform r).1 = (p.run Recording.platform s).1 ∧
    (p.run Recording.platform r).2.file.AgreeOn regs (p.run Recording.platform s).2.file

namespace Insulated

theorem done (a : α) : (done a).Insulated regs := fun _ _ h => ⟨rfl, h⟩

theorem bind {f : α → Program β} (hp : p.Insulated regs) (hf : ∀ a, (f a).Insulated regs) :
    (p >>= f).Insulated regs := by
  intro r s h
  obtain ⟨hresult, hfile⟩ := hp r s h
  rw [run_bind, run_bind, hresult]
  exact hf _ _ _ hfile

/-- A program that uses no other register is insulated from them. -/
theorem of_within (h : p.Within regs) : p.Insulated regs := by
  induction p with
  | done a => exact .done a
  | step c next ih =>
    obtain ⟨hc, hnext⟩ := within_step h
    intro r s hrs
    have first : (Recording.platform.answer c r).1 = (Recording.platform.answer c s).1 ∧
        (Recording.platform.answer c r).2.file.AgreeOn regs
          (Recording.platform.answer c s).2.file := by
      cases c with
      | read a => exact hrs.read hc
      | write a v => exact ⟨rfl, hrs.write a v⟩
      | report e =>
        refine ⟨rfl, ?_⟩
        show (r.keep e).file.AgreeOn regs (s.keep e).file
        rw [Recording.file_keep, Recording.file_keep]
        exact hrs
      | _ => exact ⟨rfl, hrs⟩
    obtain ⟨hanswer, hfile⟩ := first
    rw [run_step, run_step, hanswer]
    exact ih _ (hnext _) _ _ hfile

/-- A modification keeps its result to the register that it modifies, so it may be one that
others modify as well. -/
theorem modify (a : Address) (f : Word → Word) : (modify a f).Insulated regs := by
  intro r s h
  refine ⟨Subsingleton.elim _ _, ?_⟩
  by_cases ha : a ∈ regs
  · exact (of_within (.modify f ha) r s h).2
  · have outside : List.Disjoint [a] regs := by simpa using ha
    have keeps := Within.keeps (.modify f List.mem_cons_self) outside
    exact (keeps r).symm.trans (h.trans (keeps s))

end Insulated

end Program

/-! ## One port -/

namespace Port

/-- The program keeps to the registers of the port, and is not affected by what others do to
the registers that they share. -/
structure Confines (p : Port) {α : Type} (q : Program α) : Prop where
  within : q.Within p.registers
  insulated : q.Insulated p.ownRegisters

variable {p : Port} {α β : Type} {q : Program α}

namespace Confines

theorem done (a : α) : p.Confines (Program.done a) := ⟨.done a, .done a⟩

theorem bind {f : α → Program β} (hq : p.Confines q) (hf : ∀ a, p.Confines (f a)) :
    p.Confines (q >>= f) :=
  ⟨hq.within.bind fun a => (hf a).within, hq.insulated.bind fun a => (hf a).insulated⟩

theorem report (e : Event) : p.Confines (Program.report e) :=
  ⟨.report e, .of_within (.report e)⟩

theorem stall (t : Duration) : p.Confines (Program.stall t) := ⟨.stall t, .of_within (.stall t)⟩

theorem modify {a : Address} (f : Word → Word) (h : a ∈ p.registers) :
    p.Confines (Program.modify a f) :=
  ⟨.modify f h, .modify a f⟩

theorem of_group {regs : List Address} (h : q.Within regs) (hg : regs ∈ p.quietGroups) :
    p.Confines q := by
  have group : regs ⊆ p.quietGroups.flatten := fun a ha => List.mem_flatten_of_mem hg ha
  exact ⟨(h.quiet hg).mono (List.subset_cons_self _ _),
    .of_within (h.mono fun a ha => List.mem_cons_of_mem _ (group ha))⟩

theorem setLtssm (enable : Bool) : p.Confines (p.setLtssm enable) :=
  modify _ List.mem_cons_self

theorem line_mem {a : Address} (h : a ∈ p.lineRegisters) : a ∈ p.registers :=
  List.mem_cons_of_mem _ (List.mem_append_right _ (List.mem_append_left _ h))

theorem assertPerst : p.Confines p.assertPerst := by
  have hmem := @line_mem p
  unfold lineRegisters at hmem
  unfold Port.assertPerst
  cases hline : p.perst? with
  | none => exact done ()
  | some line =>
    rw [hline] at hmem
    exact (modify _ (hmem (by simp))).bind fun _ => modify _ (hmem (by simp))

theorem deassertPerst : p.Confines p.deassertPerst := by
  have hmem := @line_mem p
  unfold lineRegisters at hmem
  unfold Port.deassertPerst
  cases hline : p.perst? with
  | none => exact done ()
  | some line =>
    rw [hline] at hmem
    exact modify _ (hmem (by simp))

theorem routeMsi : p.Confines p.routeMsi := by
  have hmem : p.msiRegisters ⊆ p.registers := fun a ha =>
    List.mem_cons_of_mem _ (List.mem_append_right _ (List.mem_append_right _ ha))
  unfold msiRegisters at hmem
  unfold Port.routeMsi
  cases hmsi : p.soc.msi with
  | none => exact done ()
  | some msi =>
    cases hid : p.controller.msiNumber with
    | none => exact done ()
    | some id =>
      refine (modify _ (hmem ?_)).bind fun _ => report _
      simp [hmsi, hid]

/-! ### Stages -/

theorem reset_mem : p.resetRegister ∈ p.registers := by
  simp [registers, quietRegisters, quietGroups]

theorem configure : p.Confines p.configure := by
  unfold Port.configure
  refine (setLtssm false).bind fun _ => assertPerst.bind fun _ =>
    (of_group cycleReset_within (by simp [quietGroups])).bind fun _ =>
    (of_group awaitResetDone_within (by simp [quietGroups])).bind fun _ =>
    (of_group tunePhy_within (by simp [quietGroups])).bind fun _ =>
    routeMsi.bind fun _ => (of_group describe_within (by simp [quietGroups])).bind fun _ =>
    deassertPerst.bind fun _ =>
    (of_group (programWindows_within (List.Subset.refl _)) (by simp [quietGroups])).bind fun _ =>
    (of_group (setTargetSpeed_within _) (by simp [quietGroups])).bind fun _ =>
    (setLtssm true).bind fun _ => (report _).bind fun _ => done _

theorem pulseReset : p.Confines p.pulseReset :=
  (setLtssm false).bind fun _ => assertPerst.bind fun _ => (modify _ reset_mem).bind fun _ =>
    (stall _).bind fun _ => (modify _ reset_mem).bind fun _ => deassertPerst.bind fun _ =>
    setLtssm true

theorem linkDebug : p.Confines p.linkDebug := of_group linkDebug_within (by simp [quietGroups])

theorem watch (found : Word → Bool) (left : Nat) (s : Sighting) :
    p.Confines (p.watch found left s) :=
  of_group (watch_within found left s) (by simp [quietGroups])

theorem conclude (s : Sighting) (recovered : Bool) : p.Confines (p.conclude s recovered) := by
  unfold Port.conclude
  split
  · exact of_group (reportUp_within s recovered) (by simp [quietGroups])
  · exact (setLtssm false).bind fun _ => (report _).bind fun _ => done _

theorem recover (s : Sighting) : p.Confines (p.recover s) :=
  (report _).bind fun _ => pulseReset.bind fun _ => linkDebug.bind fun _ =>
    (watch _ _ _).bind fun _ => conclude _ true

theorem train : p.Confines p.train := by
  refine linkDebug.bind fun debug => (watch _ _ _).bind fun s => ?_
  split
  · refine (report _).bind fun _ => (watch _ _ _).bind fun s => ?_
    split
    · exact recover s
    · exact conclude s false
  · exact (setLtssm false).bind fun _ => (report _).bind fun _ => done _

theorem bringUp {soc : Soc} {c : Controller} :
    Confines ⟨soc, c⟩ (PortState.bringUp soc c) := by
  refine (report _).bind fun _ => configure.bind fun _ => train.bind fun outcome => ?_
  dsimp only
  split
  · exact (of_group probeFilter_within (by simp [quietGroups])).bind fun _ => done _
  · exact done _

end Confines

end Port

/-! ## All ports -/

namespace Topology

/-- The own registers of each port are apart from those of the others, and from all that the
ports share. -/
structure BlocksApart (t : Topology) : Prop where
  own : ∀ c ∈ t.controllers, ∀ d ∈ t.controllers, c ≠ d →
    List.Disjoint (Port.ownRegisters ⟨t.soc, c⟩) (Port.ownRegisters ⟨t.soc, d⟩)
  shared : ∀ c ∈ t.controllers, List.Disjoint (Port.ownRegisters ⟨t.soc, c⟩) t.sharedRegisters

variable {t : Topology} {c d : Controller}

theorem RegistersDistinct.blocksApart (h : t.RegistersDistinct) : t.BlocksApart where
  own := h.own.2
  shared c hc a ha hs := by
    obtain ⟨d, hd, hs⟩ := List.mem_flatMap.mp (List.mem_eraseDups.mp hs)
    exact h.not_mem_shared hc hd ha hs

/-- A port uses none of the own registers of another. -/
theorem BlocksApart.disjoint (h : t.BlocksApart) (hc : c ∈ t.controllers)
    (hd : d ∈ t.controllers) (hne : d ≠ c) :
    List.Disjoint (Port.registers ⟨t.soc, d⟩) (Port.ownRegisters ⟨t.soc, c⟩) := by
  intro a had hac
  rw [Port.registers, Port.quietRegisters, ← List.cons_append] at had
  rcases List.mem_append.mp had with hown | hshared
  · exact h.own d hd c hc hne hown hac
  · have hmem : a ∈ t.sharedRegisters :=
      List.mem_eraseDups.mpr (List.mem_flatMap.mpr ⟨d, hd, hshared⟩)
    exact h.shared c hc hac hmem

end Topology

theorem PortState.controller_run_bringUp {soc : Soc} {c : Controller} (r : Recording) :
    ((PortState.bringUp soc c).run Recording.platform r).1.controller = c := by
  have path := runs_exchanges Recording.platform (PortState.bringUp soc c) r
  obtain ⟨_, _, _, _, -, -, -, hc, -⟩ := PortState.bringUp_stages path
  exact hc

namespace Host

variable {soc : Soc} {c : Controller} {cs : List Controller} {regs : List Address}

/-- The others are brought up on what the first leaves. -/
theorem run_bringUpPorts_cons (rest : List Controller) (r : Recording) :
    (bringUpPorts soc (c :: rest)).run Recording.platform r =
      (((PortState.bringUp soc c).run Recording.platform r).1 ::
          ((bringUpPorts soc rest).run Recording.platform
            ((PortState.bringUp soc c).run Recording.platform r).2).1,
        ((bringUpPorts soc rest).run Recording.platform
          ((PortState.bringUp soc c).run Recording.platform r).2).2) := by
  show (PortState.bringUp soc c >>= fun state => bringUpPorts soc rest >>= fun states =>
    pure (state :: states)).run Recording.platform r = _
  rw [run_bind, run_bind]
  rfl

theorem bringUpPorts_within (cs : List Controller) :
    (bringUpPorts soc cs).Within (cs.flatMap fun c => Port.registers ⟨soc, c⟩) := by
  induction cs with
  | nil => exact .done []
  | cons c rest ih =>
    rw [List.flatMap_cons]
    exact (Port.Confines.bringUp.within.mono (List.subset_append_left _ _)).bind fun _ =>
      (ih.mono (List.subset_append_right _ _)).bind fun _ => .done _

/-- Ports leave the registers that none of them uses as they were. -/
theorem bringUpPorts_keeps (h : ∀ d ∈ cs, List.Disjoint (Port.registers ⟨soc, d⟩) regs)
    (r : Recording) :
    r.file.AgreeOn regs ((bringUpPorts soc cs).run Recording.platform r).2.file := by
  refine Within.keeps (bringUpPorts_within cs) (fun a ha => ?_) r
  obtain ⟨d, hd, ha⟩ := List.mem_flatMap.mp ha
  exact h d hd ha

/-- In a round of bring-ups a port ends as it does alone. The induction is on the ports: those
before it leave its registers alone, its own bring-up goes as it would alone, and those after
it leave its registers alone again. -/
theorem bringUpPorts_insulates (hc : c ∈ cs) (hindices : (cs.map (·.index)).Nodup)
    (apart : ∀ d ∈ cs, d ≠ c →
      List.Disjoint (Port.registers ⟨soc, d⟩) (Port.ownRegisters ⟨soc, c⟩))
    {r s : Recording} (h : r.file.AgreeOn (Port.ownRegisters ⟨soc, c⟩) s.file) :
    ((bringUpPorts soc cs).run Recording.platform r).1.find? (·.index == c.index) =
        some ((PortState.bringUp soc c).run Recording.platform s).1 ∧
      ((bringUpPorts soc cs).run Recording.platform r).2.file.AgreeOn (Port.ownRegisters ⟨soc, c⟩)
        ((PortState.bringUp soc c).run Recording.platform s).2.file := by
  induction cs generalizing r with
  | nil => cases hc
  | cons d rest ih =>
    obtain ⟨hnew, hrest⟩ := List.nodup_cons.mp hindices
    have others : ∀ e ∈ rest, e.index ≠ d.index := by
      intro e he hed
      refine hnew ?_
      show d.index ∈ rest.map (·.index)
      rw [← hed]
      exact List.mem_map_of_mem he
    rw [run_bringUpPorts_cons]
    dsimp only
    rw [List.find?_cons, PortState.index, PortState.controller_run_bringUp]
    rcases List.mem_cons.mp hc with rfl | hc
    -- no later port has the number, so the first state found is the port's own
    · obtain ⟨hresult, hfile⟩ := Port.Confines.bringUp.insulated r s h
      have after := bringUpPorts_keeps
        (fun e he => apart e (List.mem_cons_of_mem _ he) (ne_of_apply_ne _ (others e he)))
        ((PortState.bringUp soc c).run Recording.platform r).2
      refine ⟨?_, after.symm.trans hfile⟩
      rw [beq_self_eq_true, hresult]
    · have hindex : (d.index == c.index) = false := beq_eq_false_iff_ne.mpr (others c hc).symm
      have before := Within.keeps Port.Confines.bringUp.within
        (apart d List.mem_cons_self (ne_of_apply_ne _ (others c hc).symm)) r
      rw [hindex]
      exact ih hc hrest (fun e he => apart e (List.mem_cons_of_mem _ he)) (before.symm.trans h)

end Host

/-- Brings up a topology on the register file. -/
def Recording.bringUp (r : Recording) (t : Topology) : Host × Recording :=
  (Host.bringUp t).run platform r

theorem Recording.bringUp_eq (r : Recording) (t : Topology) :
    (r.bringUp t).1.ports = ((Host.bringUpPorts t.soc t.controllers).run platform r).1 ∧
      (r.bringUp t).2 = ((Host.bringUpPorts t.soc t.controllers).run platform r).2 := by
  unfold bringUp Host.bringUp
  rw [run_bind]
  exact ⟨rfl, rfl⟩

/-- Controllers do not interfere. If the blocks of a topology are apart, then on every register
file each of its controllers is brought up alike in the company of all others and in that of
any of them, or of none. The host ends with the same state of it: its reset report, its
outcome, what became of its filter and its highest speed. And its registers end the same. -/
theorem bringUp_separates {soc : Soc} {nodes : List Node}
    (h : (Topology.load soc nodes).BlocksApart) {part : List Controller}
    (hpart : part.Sublist (Topology.load soc nodes).controllers) {c : Controller}
    (hc : c ∈ part) (r : Recording) :
    (∃ s, s.controller = c ∧
      (r.bringUp (Topology.load soc nodes)).1.port? c.index = some s ∧
      (r.bringUp ⟨soc, part⟩).1.port? c.index = some s) ∧
    (r.bringUp (Topology.load soc nodes)).2.file.AgreeOn (Port.ownRegisters ⟨soc, c⟩)
      (r.bringUp ⟨soc, part⟩).2.file := by
  have round : ∀ cs, cs.Sublist (Topology.load soc nodes).controllers → c ∈ cs →
      (r.bringUp ⟨soc, cs⟩).1.port? c.index =
          some ((PortState.bringUp soc c).run Recording.platform r).1 ∧
        (r.bringUp ⟨soc, cs⟩).2.file.AgreeOn (Port.ownRegisters ⟨soc, c⟩)
          ((PortState.bringUp soc c).run Recording.platform r).2.file := by
    intro cs hcs hmem
    obtain ⟨hports, hrecord⟩ := r.bringUp_eq ⟨soc, cs⟩
    rw [Host.port?, hports, hrecord]
    exact Host.bringUpPorts_insulates hmem ((hcs.map _).nodup Topology.nodup_index)
      (fun d hd hne => h.disjoint (hcs.subset hmem) (hcs.subset hd) hne) (.refl _)
  obtain ⟨hwhole, whole⟩ := round _ (List.Sublist.refl _) (hpart.subset hc)
  obtain ⟨hless, less⟩ := round part hpart hc
  exact ⟨⟨_, PortState.controller_run_bringUp r, hwhole, hless⟩, whole.trans less.symm⟩

/-- A port beside that of `exampleNode`, with a PERST# line and a number of its own. -/
def neighbourNode : Node := Node.build "pcie@3100000" [
  .strings "reg-names" ["dbi", "config"],
  .cells "reg" [0, 0x03100000, 0, 0x1000, 0x8, 0, 0, 0x10000000],
  .cells "baikal,pcie-lcru" [1, 0],
  .cells "num-lanes" [4],
  .cells "reset-gpios" [7, 5, 1],
  .cells "msi-map" [0, 9, 0, 0x10000]]

/-- The link of `exampleNode` is up, at the lowest speed and one lane wide. -/
def linkedFile : RegisterFile :=
  (RegisterFile.empty.poke 0x02050024 0xD1).poke 0x03200080 0x110000

def neighbourController : Controller where
  index := 0
  name := "pcie@3100000"
  dbi := 0x03100000
  control := 0x02050000
  config := 0x800000000
  configSize := 0x10000000
  lanes := some .x4
  windows := []
  resetLine := some ⟨5, true⟩
  msiNumber := some 0
  maxSpeed := 3

theorem load_neighbours : (Topology.load Bm1000.soc [neighbourNode, exampleNode]).controllers =
    [neighbourController, exampleController] := by
  have accepted : Topology.accepted Bm1000.soc [neighbourNode, exampleNode] =
      [neighbourController, exampleController] := by decide +kernel
  rw [Topology.load, accepted]
  exact List.mergeSort_of_pairwise (by decide)

theorem registersDistinct_neighbours :
    (Topology.load Bm1000.soc [neighbourNode, exampleNode]).RegistersDistinct := by
  rw [Topology.RegistersDistinct, Topology.registers, Topology.sharedRegisters, load_neighbours]
  decide +kernel

/-- In company of its neighbour, which finds no partner, the port has the link that it has
alone. -/
theorem bringUp_separates_example :
    ((Recording.start linkedFile none).bringUp
        (Topology.load Bm1000.soc [neighbourNode, exampleNode])).1.outcome?
          exampleController.index = some (.linkUp 1 1 0 false) := by
  have hpart : [exampleController].Sublist
      (Topology.load Bm1000.soc [neighbourNode, exampleNode]).controllers := by
    rw [load_neighbours]
    exact .cons _ (.refl _)
  have alone : ((Recording.start linkedFile none).bringUp
      ⟨Bm1000.soc, [exampleController]⟩).1.outcome? exampleController.index =
        some (.linkUp 1 1 0 false) := by decide +kernel
  obtain ⟨⟨s, -, hwhole, hless⟩, -⟩ := bringUp_separates registersDistinct_neighbours.blocksApart
    hpart List.mem_cons_self (.start linkedFile none)
  rw [Host.outcome?, hless] at alone
  rw [Host.outcome?, hwhole]
  exact alone

end RootComplex
