/-! Bit fields of registers. A field is a run of bits inside a register; reading
and writing it are inverse to each other and leave every other bit alone. -/

namespace RootComplex

/-- `width` bits of a `w`-bit register, starting at bit `offset`. -/
structure Field (w : Nat) where
  offset : Nat
  width : Nat
  /-- As a test, so that a field given by numbers proves it by computing. -/
  inside : Nat.ble (offset + width) w = true

namespace Field

variable {w : Nat}

abbrev bits (offset width : Nat)
    (inside : Nat.ble (offset + width) w = true := by exact @rfl Bool true) : Field w :=
  ⟨offset, width, inside⟩

theorem fits (f : Field w) : f.offset + f.width ≤ w := Nat.le_of_ble_eq_true f.inside

/-- The register value with all bits of the field set and no others. -/
def mask (f : Field w) : BitVec w := (BitVec.allOnes f.width).setWidth w <<< f.offset

def bitsOf (f : Field w) (r : BitVec w) : BitVec f.width := r.extractLsb' f.offset f.width

def get (f : Field w) (r : BitVec w) : Nat := (f.bitsOf r).toNat

/-- Replaces the field by the low bits of `v`. -/
def set (f : Field w) (v : Nat) (r : BitVec w) : BitVec w :=
  (r &&& ~~~f.mask) ||| ((BitVec.ofNat f.width v).setWidth w <<< f.offset)

/-- Refuses a value that does not fit instead of dropping its high bits. -/
def set? (f : Field w) (v : Nat) (r : BitVec w) : Option (BitVec w) :=
  if (BitVec.ofNat f.width v).toNat = v then some (f.set v r) else none

def test (f : Field w) (r : BitVec w) : Bool := r.getLsbD f.offset

def put (f : Field w) (b : Bool) (r : BitVec w) : BitVec w := f.set b.toNat r

def covers (f : Field w) (i : Nat) : Bool := f.offset ≤ i && i < f.offset + f.width

def Below (f g : Field w) : Prop := f.offset + f.width ≤ g.offset

instance (f g : Field w) : Decidable (f.Below g) := inferInstanceAs (Decidable (_ ≤ _))

theorem getLsbD_mask (f : Field w) (i : Nat) : f.mask.getLsbD i = (decide (i < w) && f.covers i) := by
  simp only [mask, covers, BitVec.getLsbD_shiftLeft, BitVec.getLsbD_setWidth,
    BitVec.getLsbD_allOnes]
  grind

/-- Bit by bit, a write takes the covered positions from the value and the rest
from the register. -/
theorem getLsbD_set (f : Field w) (v : Nat) (r : BitVec w) (i : Nat) :
    (f.set v r).getLsbD i =
      if f.covers i then decide (i < w) && v.testBit (i - f.offset) else r.getLsbD i := by
  have hr : r.getLsbD i = (decide (i < w) && r.getLsbD i) := by
    by_cases h : i < w
    · simp [h]
    · simp [h, BitVec.getLsbD_of_ge r i (by omega)]
  simp only [set, BitVec.getLsbD_or, BitVec.getLsbD_and, BitVec.getLsbD_not, getLsbD_mask,
    BitVec.getLsbD_shiftLeft, BitVec.getLsbD_setWidth, BitVec.getLsbD_ofNat, covers]
  grind

theorem getLsbD_bitsOf (f : Field w) (r : BitVec w) (i : Nat) :
    (f.bitsOf r).getLsbD i = (decide (i < f.width) && r.getLsbD (f.offset + i)) := by
  simp [bitsOf]

theorem bitsOf_set (f : Field w) (v : Nat) (r : BitVec w) :
    f.bitsOf (f.set v r) = BitVec.ofNat f.width v := by
  apply BitVec.eq_of_getLsbD_eq
  intro i hi
  have := f.fits
  have hc : f.covers (f.offset + i) = true := by simp [covers]; omega
  have hw : f.offset + i < w := by omega
  rw [getLsbD_bitsOf, getLsbD_set, BitVec.getLsbD_ofNat]
  simp [hi, hc, hw]

/-- A field reads back what was written, less the bits that do not fit. -/
theorem get_set (f : Field w) (v : Nat) (r : BitVec w) :
    f.get (f.set v r) = (BitVec.ofNat f.width v).toNat := by
  rw [get, bitsOf_set]

theorem getLsbD_set_of_not_covers (f : Field w) (v : Nat) (r : BitVec w) {i : Nat}
    (h : f.covers i = false) : (f.set v r).getLsbD i = r.getLsbD i := by
  rw [getLsbD_set, h]
  rfl

theorem bitsOf_set_of_below (f g : Field w) (v : Nat) (r : BitVec w)
    (h : f.Below g ∨ g.Below f) : g.bitsOf (f.set v r) = g.bitsOf r := by
  apply BitVec.eq_of_getLsbD_eq
  intro i hi
  have hc : f.covers (g.offset + i) = false := by
    simp only [covers, Bool.and_eq_false_iff, decide_eq_false_iff_not]
    simp only [Below] at h
    omega
  rw [getLsbD_bitsOf, getLsbD_bitsOf, getLsbD_set_of_not_covers f v r hc]

/-- A write is not seen through any field that shares no bit with it. -/
theorem get_set_of_below (f g : Field w) (v : Nat) (r : BitVec w) (h : f.Below g ∨ g.Below f) :
    g.get (f.set v r) = g.get r := by
  rw [get, get, bitsOf_set_of_below f g v r h]

end Field

end RootComplex
