import RootComplex.Proofs.WindowOrder

/-! # Updates

Most registers are only ever updated: they are read, and what was read is written back with some
bits changed. A run is told as its updates, in order, and the registers that it writes beside
them. On a register that reads back what was written to it, the run leaves what the updates make
of the value that was there. -/

namespace RootComplex

open Program

/-! ## One field of a register -/

/-- The field holds `v`, and every other bit is as it was. -/
structure Field.Replaced {w : Nat} (f : Field w) (v : Nat) (old new : BitVec w) : Prop where
  value : f.get new = v
  others : ∀ i, f.covers i = false → new.getLsbD i = old.getLsbD i

theorem Field.replaced_set {w : Nat} {f : Field w} {v : Nat} (h : v < 2 ^ f.width)
    (old : BitVec w) : f.Replaced v old (f.set v old) where
  value := by rw [get_set, BitVec.toNat_ofNat, Nat.mod_eq_of_lt h]
  others _ hi := getLsbD_set_of_not_covers f v old hi

namespace Word

/-- The control half is the old one with a field replaced. The status half is zero, so that no
status bit is cleared. -/
structure ControlReplaced (f : Field 16) (v : Nat) (old new : Word) : Prop where
  status : Word.status new = 0
  field : f.Replaced v (Word.control old) (Word.control new)

theorem control_ofControl (control : BitVec 16) : Word.control (ofControl control) = control := by
  unfold Word.control ofControl
  simp

theorem status_ofControl (control : BitVec 16) : Word.status (ofControl control) = 0 := by
  unfold Word.status ofControl
  apply BitVec.eq_of_getLsbD_eq
  intro i hi
  simp

theorem controlReplaced_set {f : Field 16} {v : Nat} (h : v < 2 ^ f.width) (old : Word) :
    ControlReplaced f v old (ofControl (f.set v (Word.control old))) where
  status := status_ofControl _
  field := by
    rw [control_ofControl]
    exact Field.replaced_set h _

end Word

/-! ## Lists of updates -/

/-- A register, and what is made of the value that it holds. -/
structure Update where
  register : Address
  change : Word → Word

namespace Update

variable {a : Address} {us front back : List Update}

/-- What updates make of the value of one register. -/
def contents (a : Address) (us : List Update) (v : Word) : Word :=
  us.foldl (fun v u => if u.register = a then u.change v else v) v

theorem contents_append (v : Word) :
    contents a (front ++ back) v = contents a back (contents a front v) :=
  List.foldl_append

theorem contents_nil (v : Word) : contents a [] v = v := rfl

theorem contents_cons (u : Update) (v : Word) :
    contents a (u :: us) v = contents a us (if u.register = a then u.change v else v) :=
  rfl

theorem contents_of_not_mem (h : a ∉ us.map (·.register)) (v : Word) : contents a us v = v := by
  induction us with
  | nil => rfl
  | cons u rest ih =>
    rw [List.map_cons, List.mem_cons, not_or] at h
    rw [contents_cons, if_neg (Ne.symm h.1), ih h.2]

end Update

/-! ## Paths that make updates -/

namespace Path

/-- The path makes the updates, in order, and writes only registers in `others` beside them. -/
inductive Makes (others : List Address) : List Update → List Exchange → Prop where
  | nil : Makes others [] []
  | beside {e : Exchange} {us : List Update} {path : List Exchange}
      (alters : e.command.Alters others) (rest : Makes others us path) :
      Makes others us (e :: path)
  | update {u : Update} {us : List Update} {path : List Exchange} (old : Word)
      (rest : Makes others us path) :
      Makes others (u :: us) (modified u.register old (u.change old) ++ path)

namespace Makes

variable {others more : List Address} {us ws : List Update} {front back path : List Exchange}
  {a : Address}

theorem append (hf : Makes others us front) (hb : Makes others ws back) :
    Makes others (us ++ ws) (front ++ back) := by
  induction hf with
  | nil => exact hb
  | beside alters _ ih => exact .beside alters ih
  | update old _ ih =>
    rw [List.append_assoc]
    exact .update old ih

theorem mono (h : Makes others us path) (hs : others ⊆ more) : Makes more us path := by
  induction h with
  | nil => exact .nil
  | beside alters _ ih => exact .beside (alters.mono hs) ih
  | update old _ ih => exact .update old ih

theorem none (h : ∀ e ∈ path, e.command.Alters others) : Makes others [] path := by
  induction path with
  | nil => exact .nil
  | cons e rest ih =>
    obtain ⟨first, later⟩ := List.forall_mem_cons.mp h
    exact .beside first (ih later)

theorem report_cons {e : Event} (h : Makes others us path) :
    Makes others us (⟨.report e, ()⟩ :: path) :=
  beside (show Command.Alters others (.report e) from trivial) h

theorem stall_cons {t : Duration} (h : Makes others us path) :
    Makes others us (⟨.stall t, ()⟩ :: path) :=
  beside (show Command.Alters others (.stall t) from trivial) h

theorem of_touches (h : ∀ e ∈ path, e.command.Touches others) : Makes others [] path :=
  none fun e he => (h e he).alters

/-- A part without updates comes first. -/
theorem prepend (hb : Makes others us back) (hf : ∀ e ∈ front, e.command.Alters others) :
    Makes others us (front ++ back) :=
  (none hf).append hb

theorem modify {f : Word → Word} {u : Unit} (h : Runs (Program.modify a f) path u) :
    Makes others [⟨a, f⟩] path := by
  obtain ⟨old, rfl⟩ := of_modify h
  exact .update old .nil

/-- What the path writes is updated, or is among the others. -/
theorem alters (h : Makes others us path) :
    ∀ e ∈ path, e.command.Alters (others ++ us.map (·.register)) := by
  induction h with
  | nil => exact fun e he => absurd he List.not_mem_nil
  | beside alters _ ih =>
    exact List.forall_mem_cons.mpr ⟨alters.mono (List.subset_append_left _ _), ih⟩
  | @update u us path old _ ih =>
    refine List.forall_mem_append.mpr ⟨fun e he => ?_, fun e he => (ih e he).mono fun a ha => ?_⟩
    · exact (touches_modified (by simp) old _ e he).alters
    · rw [List.map_cons]
      simp only [List.mem_append, List.mem_cons] at ha ⊢
      exact ha.imp_right .inr

theorem mem_of_mem_writes (h : Makes others us path) {w : Address × Word}
    (hw : w ∈ writes path) : w.1 ∈ others ∨ w.1 ∈ us.map (·.register) :=
  List.mem_append.mp (Path.mem_of_mem_writes h.alters hw)

/-- Every write to a register that is only updated follows a read of it, and is what one of the
updates makes of the value read. -/
theorem modifies (h : Makes others us path) (ha : a ∉ others) :
    Modifies a (fun old new => ∃ u ∈ us, u.register = a ∧ new = u.change old) path := by
  induction h with
  | nil => exact .of_writesTo rfl
  | @beside e us path alters _ ih =>
    have single : Modifies a (fun old new => ∃ u ∈ us, u.register = a ∧ new = u.change old) [e] :=
      .of_writesTo (writesTo_of_alters (by simpa using alters) ha)
    exact single.append ih
  | @update u us path old _ ih =>
    refine Modifies.append ?_ (ih.mono fun _ _ ⟨v, hv, h⟩ => ⟨v, List.mem_cons_of_mem _ hv, h⟩)
    by_cases hu : u.register = a
    · subst hu
      exact .modify ⟨u, List.mem_cons_self, rfl, rfl⟩
    · refine .of_writesTo ?_
      simp [writesTo, modified, Exchange.writeTo?, hu]

end Makes

end Path

/-! ## What a run leaves -/

/-- From `s` on the platform answers the commands of the path as the path says; then it is in
`t`. -/
def Platform.Follows {σ : Type} (platform : Platform σ) : σ → List Exchange → σ → Prop
  | s, [], t => s = t
  | s, e :: path, t => (platform.answer e.command s).1 = e.answer ∧
      platform.Follows (platform.answer e.command s).2 path t

theorem Platform.follows_run {α σ : Type} (platform : Platform σ) (q : Program α) (s : σ) :
    platform.Follows s (q.exchanges platform s) (q.run platform s).2 := by
  induction q generalizing s with
  | done a => rfl
  | step c next ih => exact ⟨rfl, ih _ _⟩

/-- A register that reads back what was written to it: all its bits are writable, and no
scripted answers are to come. -/
structure RegisterFile.Plain (f : RegisterFile) (a : Address) : Prop where
  writable : f.mask a = BitVec.allOnes 32
  unscripted : (f.script a).remaining = 0

namespace RegisterFile.Plain

variable {f : RegisterFile} {a : Address}

theorem read (h : f.Plain a) (b : Address) : (f.read b).2.Plain a := by
  by_cases hb : b = a
  · rw [hb, read_of_remaining_eq_zero f h.unscripted]
    exact h
  · refine ⟨?_, ?_⟩
    · rw [← h.writable]
      unfold RegisterFile.read
      split <;> rfl
    · rw [script_read_of_ne f hb]
      exact h.unscripted

theorem peek_write (h : f.Plain a) (v : Word) : (f.write a v).peek a = v := by
  rw [RegisterFile.peek_write, if_pos rfl, h.writable, BitVec.not_allOnes, BitVec.and_zero,
    BitVec.zero_or, BitVec.and_allOnes]

end RegisterFile.Plain

namespace Recording

variable {a : Address} {r s : Recording} {others : List Address} {us : List Update}
  {path : List Exchange}

theorem plain_answer (h : r.file.Plain a) (c : Command) :
    (platform.answer c r).2.file.Plain a := by
  cases c with
  | read b => exact h.read b
  | report e =>
    show (r.keep e).file.Plain a
    rw [file_keep]
    exact h
  | write b v => exact ⟨h.writable, h.unscripted⟩
  | _ => exact h

theorem peek_answer {c : Command} (hc : c.Alters others) (ha : a ∉ others) (r : Recording) :
    (platform.answer c r).2.file.peek a = r.file.peek a := by
  cases c with
  | read b => exact r.file.peek_read b a
  | write b v =>
    have hb : b ≠ a := fun he => ha (he ▸ hc)
    show (r.file.write b v).peek a = _
    rw [RegisterFile.peek_write, if_neg hb]
  | report e =>
    show (r.keep e).file.peek a = _
    rw [file_keep]
  | _ => rfl

/-- An update of a plain register leaves in it what it makes of the value there, and leaves
every other register alone. -/
theorem peek_modified {b : Address} {old new : Word} {f : Word → Word} (hn : new = f old)
    (hr : r.file.Plain a) (h : platform.Follows r (Path.modified b old new) s) :
    s.file.peek a = (if b = a then f (r.file.peek a) else r.file.peek a) ∧ s.file.Plain a := by
  obtain ⟨hold, -, rfl⟩ := h
  have hread := plain_answer hr (.read b)
  refine ⟨?_, plain_answer hread (.write b new)⟩
  by_cases hb : b = a
  · subst hb
    have hsame : r.file.read b = (r.file.peek b, r.file) :=
      r.file.read_of_remaining_eq_zero hr.unscripted
    have value : r.file.peek b = old := (congrArg Prod.fst hsame).symm.trans hold
    rw [if_pos rfl, value, ← hn]
    exact hread.peek_write new
  · rw [if_neg hb]
    show ((r.file.read b).2.write b new).peek a = _
    rw [RegisterFile.peek_write, if_neg hb, RegisterFile.peek_read]

theorem follows_append {front back : List Exchange} (h : platform.Follows r (front ++ back) s) :
    ∃ t, platform.Follows r front t ∧ platform.Follows t back s := by
  induction front generalizing r with
  | nil => exact ⟨r, rfl, h⟩
  | cons e rest ih =>
    obtain ⟨he, hrest⟩ := h
    obtain ⟨t, hf, hb⟩ := ih hrest
    exact ⟨t, ⟨he, hf⟩, hb⟩

/-- In a plain register a path leaves what its updates make of the value that was there. -/
theorem contents_of_makes (h : Path.Makes others us path) (ha : a ∉ others)
    (hr : r.file.Plain a) (hp : platform.Follows r path s) :
    s.file.peek a = Update.contents a us (r.file.peek a) := by
  induction h generalizing r with
  | nil =>
    cases hp
    rfl
  | beside alters _ ih =>
    rw [ih (plain_answer hr _) hp.2, peek_answer alters ha]
  | @update u us path old _ ih =>
    obtain ⟨t, hmodified, hrest⟩ := follows_append hp
    obtain ⟨hpeek, hplain⟩ := peek_modified rfl hr hmodified
    rw [ih hplain hrest, hpeek]
    rfl

/-- What a program leaves in a register that it does not write. -/
theorem peek_run_of_not_mem {α : Type} {q : Program α} (r : Recording)
    (h : a ∉ (Path.writes (q.exchanges platform r)).map (·.1)) :
    (q.run platform r).2.file.peek a = r.file.peek a := by
  rw [peek_run, Memory.after_of_not_mem h]

end Recording

end RootComplex
