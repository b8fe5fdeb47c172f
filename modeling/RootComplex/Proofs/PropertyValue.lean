import Mathlib.Data.List.Basic
import RootComplex.DeviceTree.Node

/-! # Property values

What the bytes of a property say, without the way in which they are read: a value of whole
cells says the same as its cells, and a list of strings is there exactly if some strings spell
the pieces between the NUL bytes. -/

namespace RootComplex

/-- A list that is not empty and whose length is a multiple of four has a first four. -/
theorem exists_four_of_dvd_length {α : Type} {l : List α} (hne : l ≠ []) (h : 4 ∣ l.length) :
    ∃ a b c d rest, l = a :: b :: c :: d :: rest :=
  match l, hne, h with
  | [], hne, _ => absurd rfl hne
  | [_], _, h => by simp at h
  | [_, _], _, h => by simp at h
  | [_, _, _], _, h => by simp at h
  | a :: b :: c :: d :: rest, _, _ => ⟨a, b, c, d, rest, rfl⟩

namespace Property

/-- Cell number `i` of a value: four bytes, the highest first. Past the end it is zero. -/
def cellAt (bytes : Bytes) (i : Nat) : Nat :=
  ((bytes.drop (4 * i)).take 4).foldl (fun n b => n * 0x100 + b.toNat) 0

/-- Cell number `i` of a list of them, and zero past its end. -/
def wordAt (cells : List Word) (i : Nat) : Nat := (cells.getD i 0).toNat

@[simp] theorem wordAt_cons_zero (c : Word) (cells : List Word) :
    wordAt (c :: cells) 0 = c.toNat := rfl

@[simp] theorem wordAt_cons_succ (c : Word) (cells : List Word) (i : Nat) :
    wordAt (c :: cells) (i + 1) = wordAt cells i := rfl

theorem toNat_cellOfBytes (a b c d : UInt8) :
    (cellOfBytes a b c d).toNat =
      ((a.toNat * 0x100 + b.toNat) * 0x100 + c.toNat) * 0x100 + d.toNat := by
  have ha := a.toNat_lt
  have hb := b.toNat_lt
  have hc := c.toNat_lt
  have hd := d.toNat_lt
  rw [cellOfBytes, BitVec.toNat_ofNat]
  omega

/-- A value that can be read as cells is as long as they are, and says what they say. -/
theorem readCells?_spec {bytes : Bytes} {cells : List Word} (h : readCells? bytes = some cells) :
    bytes.length = 4 * cells.length ∧ cellAt bytes = wordAt cells := by
  fun_induction readCells? bytes generalizing cells with
  | case1 =>
    cases h
    refine ⟨rfl, funext fun i => ?_⟩
    simp [cellAt, wordAt]
  | case2 a b c d rest ih =>
    obtain ⟨others, ho, rfl⟩ := Option.map_eq_some_iff.mp h
    obtain ⟨hlength, hcell⟩ := ih ho
    refine ⟨by simp only [List.length_cons]; omega, funext fun i => ?_⟩
    cases i with
    | zero => simp [cellAt, toNat_cellOfBytes]
    | succ i =>
      have hi := congrFun hcell i
      simpa [cellAt, Nat.mul_add] using hi
  | case3 => cases h

theorem exists_readCells?_iff {bytes : Bytes} :
    (∃ cells, readCells? bytes = some cells) ↔ 4 ∣ bytes.length := by
  constructor
  · rintro ⟨cells, h⟩
    exact ⟨_, (readCells?_spec h).1⟩
  · intro h
    fun_induction readCells? bytes with
    | case1 => exact ⟨[], rfl⟩
    | case2 a b c d rest ih =>
      have hrest : 4 ∣ rest.length := by
        simp only [List.length_cons] at h
        omega
      obtain ⟨cells, hc⟩ := ih hrest
      exact ⟨cellOfBytes a b c d :: cells, by rw [hc]; rfl⟩
    | case3 bytes hnil hlong =>
      obtain ⟨a, b, c, d, rest, rfl⟩ := exists_four_of_dvd_length hnil h
      exact absurd rfl (hlong a b c d rest)

/-- A text is read from its own bytes and from no others. -/
theorem readText?_eq_some_iff {bytes : Bytes} {s : String} :
    readText? bytes = some s ↔ textBytes s = bytes := by
  unfold readText? String.fromUTF8?
  constructor
  · intro h
    split at h
    · cases h
      rfl
    · cases h
  · rintro rfl
    have hs : ByteArray.mk (textBytes s).toArray = s.toByteArray := rfl
    rw [hs, dif_pos s.isValidUTF8]
    rfl

theorem mapM_readText?_eq_some_iff {pieces : List Bytes} {strings : List String} :
    pieces.mapM readText? = some strings ↔ strings.map textBytes = pieces := by
  induction pieces generalizing strings with
  | nil => simp [eq_comm]
  | cons piece rest ih =>
    rw [List.mapM_cons]
    constructor
    · intro h
      obtain ⟨s, hs, h⟩ := Option.bind_eq_some_iff.mp h
      obtain ⟨others, ho, h⟩ := Option.bind_eq_some_iff.mp h
      cases h
      rw [List.map_cons, readText?_eq_some_iff.mp hs, ih.mp ho]
    · intro h
      obtain ⟨s, others, rfl, hs, ho⟩ := List.map_eq_cons_iff.mp h
      rw [readText?_eq_some_iff.mpr hs, ih.mpr ho]
      rfl

theorem strings_eq_ok_iff {bytes : Bytes} {list : List String} :
    strings bytes = .ok list ↔ list.map textBytes = pieces bytes := by
  rw [← mapM_readText?_eq_some_iff, strings]
  split
  · rename_i found h
    rw [h]
    simp
  · rename_i h
    rw [h]
    simp

end Property

end RootComplex
