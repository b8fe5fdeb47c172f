import Std.Data.TreeMap
import RootComplex.Word

/-! A register file: memory behind write masks, with scripted answers in front of it.
A scripted answer is used up by the read that gets it; writes go past the scripts to
the memory. -/

namespace RootComplex

/-- Answers to come, as runs of a count and a value. -/
abbrev Script := List (Nat × Word)

/-- The next answer and what is left of the script. Spent runs are dropped. -/
def Script.next? : Script → Option (Word × Script)
  | [] => none
  | (0, _) :: rest => Script.next? rest
  | (n + 1, v) :: rest => some (v, (n, v) :: rest)

def Script.remaining : Script → Nat
  | [] => 0
  | (n, _) :: rest => n + Script.remaining rest

theorem Script.remaining_of_next? {s rest : Script} {v : Word} (h : s.next? = some (v, rest)) :
    rest.remaining + 1 = s.remaining := by
  fun_induction Script.next? s with
  | case1 => cases h
  | case2 _ _ ih => simpa [remaining] using ih h
  | case3 n w tail =>
    cases h
    simp [remaining]
    omega

/-- A script has an answer exactly if one is still to come. -/
theorem Script.next?_eq_none_iff {s : Script} : s.next? = none ↔ s.remaining = 0 := by
  fun_induction Script.next? s with
  | case1 => simp [remaining]
  | case2 _ _ ih => simpa [remaining] using ih
  | case3 n w tail => simp [remaining]

structure RegisterFile where
  memory : Std.TreeMap Address Word
  /-- What every address holds that was never set. -/
  background : Word
  /-- The writable bits; an address without a mask is writable throughout. -/
  masks : Std.TreeMap Address Word
  scripts : Std.TreeMap Address Script

namespace RegisterFile

def empty : RegisterFile := ⟨∅, 0, ∅, ∅⟩

def peek (f : RegisterFile) (a : Address) : Word := f.memory.getD a f.background

def mask (f : RegisterFile) (a : Address) : Word := f.masks.getD a (BitVec.allOnes 32)

def script (f : RegisterFile) (a : Address) : Script := f.scripts.getD a []

/-- How many scripted answers are still to come, at all addresses together. -/
def scripted (f : RegisterFile) : Nat := f.scripts.foldl (fun n _ s => n + s.remaining) 0

def poke (f : RegisterFile) (a : Address) (v : Word) : RegisterFile :=
  { f with memory := f.memory.insert a v }

def extend (f : RegisterFile) (a : Address) (s : Script) : RegisterFile :=
  { f with scripts := f.scripts.insert a (f.script a ++ s) }

/-- A read takes the next scripted answer, or the memory if there is none. -/
def read (f : RegisterFile) (a : Address) : Word × RegisterFile :=
  match (f.script a).next? with
  | some (v, rest) => (v, { f with scripts := f.scripts.insert a rest })
  | none => (f.peek a, f)

/-- A write changes the writable bits of the memory. -/
def write (f : RegisterFile) (a : Address) (v : Word) : RegisterFile :=
  f.poke a ((f.peek a &&& ~~~f.mask a) ||| (v &&& f.mask a))

theorem peek_poke (f : RegisterFile) (a b : Address) (v : Word) :
    (f.poke a v).peek b = if a = b then v else f.peek b := by
  simp [peek, poke, Std.TreeMap.getD_insert]

theorem peek_write (f : RegisterFile) (a b : Address) (v : Word) :
    (f.write a v).peek b =
      if a = b then (f.peek a &&& ~~~f.mask a) ||| (v &&& f.mask a) else f.peek b :=
  peek_poke ..

theorem peek_read (f : RegisterFile) (a b : Address) : (f.read a).2.peek b = f.peek b := by
  unfold read
  split <;> rfl

theorem peek_extend (f : RegisterFile) (a b : Address) (s : Script) :
    (f.extend a s).peek b = f.peek b := rfl

/-- Reading one address does not use up the script of another. -/
theorem script_read_of_ne (f : RegisterFile) {a b : Address} (h : a ≠ b) :
    (f.read a).2.script b = f.script b := by
  unfold read
  split
  · simp [script, Std.TreeMap.getD_insert, h]
  · rfl

theorem script_write (f : RegisterFile) (a b : Address) (v : Word) :
    (f.write a v).script b = f.script b := rfl

/-- With no answer to come a read changes nothing, so it repeats itself. -/
theorem read_of_remaining_eq_zero (f : RegisterFile) {a : Address}
    (h : (f.script a).remaining = 0) : f.read a = (f.peek a, f) := by
  simp [read, Script.next?_eq_none_iff.mpr h]

theorem read_of_script_nil (f : RegisterFile) {a : Address} (h : f.script a = []) :
    f.read a = (f.peek a, f) := by
  simp [read, h, Script.next?]

end RegisterFile

end RootComplex
