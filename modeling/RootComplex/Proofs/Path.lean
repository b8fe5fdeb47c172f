import RootComplex.Platform

/-! # Paths

A statement about every platform is a statement about every path. This module takes
paths apart step by step, says which registers the commands of a program can touch,
and collects what a path wrote to one register. -/

namespace RootComplex

/-- The command reads and writes no register outside `regs`. -/
def Command.Touches (regs : List Address) : Command → Prop
  | .read a => a ∈ regs
  | .write a _ => a ∈ regs
  | _ => True

theorem Command.Touches.mono {regs more : List Address} {c : Command} (h : c.Touches regs)
    (hs : regs ⊆ more) : c.Touches more := by
  cases c with
  | read a => exact hs h
  | write a v => exact hs h
  | _ => trivial

/-- The command writes no register outside `regs`; it may read any. -/
def Command.Alters (regs : List Address) : Command → Prop
  | .write a _ => a ∈ regs
  | _ => True

theorem Command.Touches.alters {regs : List Address} {c : Command} (h : c.Touches regs) :
    c.Alters regs := by
  cases c with
  | write a v => exact h
  | _ => trivial

theorem Command.Alters.mono {regs more : List Address} {c : Command} (h : c.Alters regs)
    (hs : regs ⊆ more) : c.Alters more := by
  cases c with
  | write a v => exact hs h
  | _ => trivial

/-- The register that an exchange wrote, and the value. -/
def Exchange.write? (e : Exchange) : Option (Address × Word) :=
  match e.command with
  | .write a v => some (a, v)
  | _ => none

/-- The value that an exchange wrote to the register at `a`, if it did. -/
def Exchange.writeTo? (a : Address) (e : Exchange) : Option Word :=
  match e.command with
  | .write b v => if b = a then some v else none
  | _ => none

namespace Program

variable {α β : Type} {path : List Exchange}

/-! ## One step at a time -/

@[simp] theorem runs_done {a b : α} : Runs (done a) path b ↔ path = [] ∧ b = a := by
  constructor
  · intro h
    cases h
    exact ⟨rfl, rfl⟩
  · rintro ⟨rfl, rfl⟩
    exact .done _

@[simp] theorem runs_step {c : Command} {next : c.Answer → Program α} {a : α} :
    Runs (step c next) path a ↔
      ∃ answer rest, path = ⟨c, answer⟩ :: rest ∧ Runs (next answer) rest a := by
  constructor
  · intro h
    cases h with
    | step _ _ answer rest => exact ⟨answer, _, rfl, rest⟩
  · rintro ⟨answer, rest, rfl, h⟩
    exact .step c next answer h

section Step

variable {a : Address} {b : β}

@[simp] theorem runs_read_bind {f : Word → Program β} :
    Runs (read a >>= f) path b ↔ ∃ v rest, path = ⟨.read a, v⟩ :: rest ∧ Runs (f v) rest b :=
  runs_step

@[simp] theorem runs_write_bind {v : Word} {f : Unit → Program β} :
    Runs (write a v >>= f) path b ↔ ∃ rest, path = ⟨.write a v, ()⟩ :: rest ∧ Runs (f ()) rest b :=
  runs_step.trans ⟨fun ⟨_, h⟩ => h, fun h => ⟨(), h⟩⟩

@[simp] theorem runs_barrier_bind {f : Unit → Program β} :
    Runs (barrier >>= f) path b ↔ ∃ rest, path = ⟨.barrier, ()⟩ :: rest ∧ Runs (f ()) rest b :=
  runs_step.trans ⟨fun ⟨_, h⟩ => h, fun h => ⟨(), h⟩⟩

@[simp] theorem runs_stall_bind {t : Duration} {f : Unit → Program β} :
    Runs (stall t >>= f) path b ↔ ∃ rest, path = ⟨.stall t, ()⟩ :: rest ∧ Runs (f ()) rest b :=
  runs_step.trans ⟨fun ⟨_, h⟩ => h, fun h => ⟨(), h⟩⟩

@[simp] theorem runs_report_bind {e : Event} {f : Unit → Program β} :
    Runs (report e >>= f) path b ↔ ∃ rest, path = ⟨.report e, ()⟩ :: rest ∧ Runs (f ()) rest b :=
  runs_step.trans ⟨fun ⟨_, h⟩ => h, fun h => ⟨(), h⟩⟩

@[simp] theorem runs_read {v : Word} : Runs (read a) path v ↔ path = [⟨.read a, v⟩] := by
  constructor
  · intro h
    obtain ⟨_, _, rfl, hd⟩ := runs_step.mp h
    obtain ⟨rfl, rfl⟩ := runs_done.mp hd
    rfl
  · rintro rfl
    exact .step (.read a) done v (.done v)

@[simp] theorem runs_write {v : Word} {u : Unit} :
    Runs (write a v) path u ↔ path = [⟨.write a v, ()⟩] := by
  constructor
  · intro h
    obtain ⟨_, _, rfl, hd⟩ := runs_step.mp h
    obtain ⟨rfl, -⟩ := runs_done.mp hd
    rfl
  · rintro rfl
    exact .step (.write a v) done () (.done ())

/-- A modification is a read and the write that answers it. -/
@[simp] theorem runs_modify {f : Word → Word} {u : Unit} :
    Runs (modify a f) path u ↔ ∃ v, path = [⟨.read a, v⟩, ⟨.write a (f v), ()⟩] := by
  simp [modify]

end Step

/-- Splits a path through a sequence. -/
theorem Runs.bind {p : Program α} {f : α → Program β} {b : β} (h : Runs (p >>= f) path b) :
    ∃ a front back, Runs p front a ∧ Runs (f a) back b ∧ path = front ++ back :=
  runs_bind.mp h

/-! ## Programs that issue commands of one kind -/

/-- Every command on every path of the program is of the kind. -/
def Issues (P : Command → Prop) (p : Program α) : Prop :=
  ∀ path a, Runs p path a → ∀ e ∈ path, P e.command

namespace Issues

variable {P Q : Command → Prop} {p : Program α}

theorem mono (h : p.Issues P) (hPQ : ∀ c, P c → Q c) : p.Issues Q :=
  fun path a hr e he => hPQ e.command (h path a hr e he)

theorem done (a : α) : (Program.done a).Issues P := by
  intro path b h e he
  obtain ⟨rfl, -⟩ := runs_done.mp h
  cases he

theorem step {c : Command} {next : c.Answer → Program α} (hc : P c)
    (hn : ∀ answer, (next answer).Issues P) : (Program.step c next).Issues P := by
  intro path a h e he
  obtain ⟨answer, rest, rfl, hr⟩ := runs_step.mp h
  rcases List.mem_cons.mp he with rfl | he
  · exact hc
  · exact hn answer rest a hr e he

/-- The second part may rely on what the first part can return. -/
theorem bind_of {f : α → Program β} (hp : p.Issues P)
    (hf : ∀ a path, Runs p path a → (f a).Issues P) : (p >>= f).Issues P := by
  intro path b h e he
  obtain ⟨a, front, back, hfront, hback, rfl⟩ := h.bind
  rcases List.mem_append.mp he with he | he
  · exact hp front a hfront e he
  · exact hf a front hfront back b hback e he

theorem bind {f : α → Program β} (hp : p.Issues P) (hf : ∀ a, (f a).Issues P) :
    (p >>= f).Issues P :=
  hp.bind_of fun a _ _ => hf a

theorem read {a : Address} (h : P (.read a)) : (Program.read a).Issues P :=
  step h fun _ => done _

theorem write {a : Address} {v : Word} (h : P (.write a v)) : (Program.write a v).Issues P :=
  step h fun _ => done _

theorem stall {t : Duration} (h : P (.stall t)) : (Program.stall t).Issues P :=
  step h fun _ => done _

theorem listens {l : Level} (h : P (.listens l)) : (Program.listens l).Issues P :=
  step h fun _ => done _

theorem report {e : Event} (h : P (.report e)) : (Program.report e).Issues P :=
  step h fun _ => done _

end Issues

/-! ## Footprints -/

/-- On every path the program reads and writes registers in `regs` only. -/
def Within (regs : List Address) (p : Program α) : Prop :=
  ∀ path a, Runs p path a → ∀ e ∈ path, e.command.Touches regs

namespace Within

variable {regs more : List Address} {p : Program α}

theorem mono (h : p.Within regs) (hs : regs ⊆ more) : p.Within more :=
  Issues.mono h fun _ hc => hc.mono hs

theorem done (a : α) : (done a).Within regs := Issues.done a

theorem step {c : Command} {next : c.Answer → Program α} (hc : c.Touches regs)
    (hn : ∀ answer, (next answer).Within regs) : (step c next).Within regs :=
  Issues.step hc hn

/-- The second part may rely on what the first part can return. -/
theorem bind_of {f : α → Program β} (hp : p.Within regs)
    (hf : ∀ a path, Runs p path a → (f a).Within regs) : (p >>= f).Within regs :=
  Issues.bind_of hp hf

theorem bind {f : α → Program β} (hp : p.Within regs) (hf : ∀ a, (f a).Within regs) :
    (p >>= f).Within regs :=
  hp.bind_of fun a _ _ => hf a

theorem read {a : Address} (h : a ∈ regs) : (read a).Within regs := Issues.read h

theorem write {a : Address} (v : Word) (h : a ∈ regs) : (write a v).Within regs := Issues.write h

theorem barrier : Program.barrier.Within regs := step trivial fun _ => done _

theorem stall (t : Duration) : (stall t).Within regs := Issues.stall trivial

theorem listens (l : Level) : (listens l).Within regs := Issues.listens trivial

theorem report (e : Event) : (report e).Within regs := Issues.report trivial

theorem modify {a : Address} (f : Word → Word) (h : a ∈ regs) : (modify a f).Within regs :=
  (read h).bind fun _ => write _ h

end Within

end Program

/-! ## What a path wrote -/

namespace Path

variable {a : Address} {front back path : List Exchange}

/-- Every write, first to last. -/
def writes (path : List Exchange) : List (Address × Word) := path.filterMap (·.write?)

theorem writes_append : writes (front ++ back) = writes front ++ writes back :=
  List.filterMap_append

/-- The values written to the register at `a`, first to last. -/
def writesTo (a : Address) (path : List Exchange) : List Word := path.filterMap (·.writeTo? a)

def lastWrite? (a : Address) (path : List Exchange) : Option Word := (writesTo a path).getLast?

theorem writesTo_append : writesTo a (front ++ back) = writesTo a front ++ writesTo a back :=
  List.filterMap_append

/-- The later part decides, unless it leaves the register alone. -/
theorem lastWrite?_append :
    lastWrite? a (front ++ back) = (lastWrite? a back).or (lastWrite? a front) := by
  rw [lastWrite?, writesTo_append, List.getLast?_append]
  rfl

theorem writesTo_of_alters {regs : List Address} (h : ∀ e ∈ path, e.command.Alters regs)
    (ha : a ∉ regs) : writesTo a path = [] := by
  apply List.filterMap_eq_nil_iff.mpr
  intro e he
  have hw := h e he
  unfold Exchange.writeTo?
  split
  · rename_i b v hc
    rw [hc] at hw
    have hb : b ≠ a := by
      rintro rfl
      exact ha hw
    rw [if_neg hb]
  · rfl

/-- Registers outside a footprint are left alone. -/
theorem writesTo_of_touches {regs : List Address} (h : ∀ e ∈ path, e.command.Touches regs)
    (ha : a ∉ regs) : writesTo a path = [] :=
  writesTo_of_alters (fun e he => (h e he).alters) ha

theorem mem_of_mem_writes {regs : List Address} (h : ∀ e ∈ path, e.command.Alters regs)
    {w : Address × Word} (hw : w ∈ writes path) : w.1 ∈ regs := by
  obtain ⟨e, he, hv⟩ := List.mem_filterMap.mp hw
  have altered := h e he
  unfold Exchange.write? at hv
  split at hv
  · rename_i b v hc
    rw [hc] at altered
    cases hv
    exact altered
  · cases hv

theorem touches_mono {regs more : List Address} (h : ∀ e ∈ path, e.command.Touches regs)
    (hs : regs ⊆ more) : ∀ e ∈ path, e.command.Touches more :=
  fun e he => (h e he).mono hs

/-- A register is read and written back. -/
def modified (a : Address) (old new : Word) : List Exchange :=
  [⟨.read a, old⟩, ⟨.write a new, ()⟩]

theorem of_modify {f : Word → Word} {u : Unit} (h : Program.Runs (.modify a f) path u) :
    ∃ old, path = modified a old (f old) :=
  Program.runs_modify.mp h

theorem touches_modified {regs : List Address} (h : a ∈ regs) (old new : Word) :
    ∀ e ∈ modified a old new, e.command.Touches regs := by
  simpa [modified, Command.Touches] using h

theorem writesTo_modified (old new : Word) : writesTo a (modified a old new) = [new] := by
  simp [writesTo, modified, Exchange.writeTo?]

/-- Every write to the register at `a` is warranted by what the path did right before it. -/
def Warranted (a : Address) (Q : List Exchange → Word → Prop) (path : List Exchange) : Prop :=
  ∀ front v back, path = front ++ ⟨.write a v, ()⟩ :: back →
    ∃ before recent, front = before ++ recent ∧ Q recent v

namespace Warranted

variable {Q : List Exchange → Word → Prop}

theorem of_writesTo (h : writesTo a path = []) : Warranted a Q path := by
  rintro front v back rfl
  rw [writesTo_append] at h
  have := (List.append_eq_nil_iff.mp h).2
  simp [writesTo, Exchange.writeTo?] at this

theorem append (hf : Warranted a Q front) (hb : Warranted a Q back) :
    Warranted a Q (front ++ back) := by
  intro left v right h
  rcases List.append_eq_append_iff.mp h with ⟨mid, hl, hr⟩ | ⟨mid, hl, hr⟩
  · obtain ⟨before, recent, rfl, hq⟩ := hb mid v right hr
    exact ⟨front ++ before, recent, by rw [hl, List.append_assoc], hq⟩
  · cases mid with
    | nil =>
      obtain ⟨before, recent, hn, hq⟩ := hb [] v right hr.symm
      obtain ⟨-, rfl⟩ := List.append_eq_nil_iff.mp hn.symm
      exact ⟨left, [], (List.append_nil left).symm, hq⟩
    | cons e tail =>
      obtain ⟨rfl, rfl⟩ := List.cons.inj hr
      exact hf left v tail hl

theorem flatMap {α : Type} {parts : List α} {f : α → List Exchange}
    (h : ∀ x ∈ parts, Warranted a Q (f x)) : Warranted a Q (parts.flatMap f) := by
  induction parts with
  | nil => exact of_writesTo rfl
  | cons x rest ih =>
    obtain ⟨first, others⟩ := List.forall_mem_cons.mp h
    exact first.append (ih others)

/-- The write comes right after what warrants it. -/
theorem write {recent : List Exchange} {v : Word} (hw : writesTo a recent = [])
    (hq : Q recent v) : Warranted a Q (recent ++ [⟨.write a v, ()⟩]) := by
  intro front w back h
  rcases List.eq_nil_or_concat back with rfl | ⟨later, e, rfl⟩
  · obtain ⟨rfl, he⟩ := List.append_inj' h rfl
    cases he
    exact ⟨[], recent, rfl, hq⟩
  -- any other write would be one that `recent` does not have
  · rw [List.concat_eq_append, ← List.cons_append, ← List.append_assoc] at h
    exact (of_writesTo hw : Warranted a Q recent) front w later (List.append_inj' h rfl).1

end Warranted

/-- Every write to the register at `a` follows a read of it, and is related to what that
read returned. -/
def Modifies (a : Address) (R : Word → Word → Prop) (path : List Exchange) : Prop :=
  ∀ front v back, path = front ++ ⟨.write a v, ()⟩ :: back →
    ∃ before old, front = before ++ [⟨.read a, old⟩] ∧ R old v

variable {R : Word → Word → Prop}

/-- The read warrants the write. -/
theorem modifies_iff_warranted : Modifies a R path ↔
    Warranted a (fun recent v => ∃ old, recent = [⟨.read a, old⟩] ∧ R old v) path := by
  constructor
  · intro h front v back hp
    obtain ⟨before, old, hf, hr⟩ := h front v back hp
    exact ⟨before, _, hf, old, rfl, hr⟩
  · intro h front v back hp
    obtain ⟨before, _, hf, old, rfl, hr⟩ := h front v back hp
    exact ⟨before, old, hf, hr⟩

theorem Modifies.of_writesTo (h : writesTo a path = []) : Modifies a R path :=
  modifies_iff_warranted.mpr (.of_writesTo h)

theorem Modifies.mono {S : Word → Word → Prop} (h : Modifies a R path)
    (hRS : ∀ old new, R old new → S old new) : Modifies a S path := by
  intro front v back hp
  obtain ⟨before, old, hf, hr⟩ := h front v back hp
  exact ⟨before, old, hf, hRS old v hr⟩

theorem Modifies.append (hf : Modifies a R front) (hb : Modifies a R back) :
    Modifies a R (front ++ back) :=
  modifies_iff_warranted.mpr
    ((modifies_iff_warranted.mp hf).append (modifies_iff_warranted.mp hb))

theorem Modifies.modify {old new : Word} (h : R old new) :
    Modifies a R [⟨.read a, old⟩, ⟨.write a new, ()⟩] := by
  have read : writesTo a [⟨.read a, old⟩] = [] := rfl
  exact modifies_iff_warranted.mpr (.write read ⟨old, rfl, h⟩)

end Path

end RootComplex
