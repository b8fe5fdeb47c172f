import RootComplex.Soc

/-! The description of one controller: where its registers are, how wide its link is,
and which address windows lead to its bus. -/

namespace RootComplex

inductive LaneCount where
  | x1 | x2 | x4 | x8 | x16 | x32
  deriving DecidableEq, Repr

namespace LaneCount

def count : LaneCount → Nat
  | x1 => 1
  | x2 => 2
  | x4 => 4
  | x8 => 8
  | x16 => 16
  | x32 => 32

def name : LaneCount → String
  | x1 => "X1"
  | x2 => "X2"
  | x4 => "X4"
  | x8 => "X8"
  | x16 => "X16"
  | x32 => "X32"

def ofCount? : Nat → Option LaneCount
  | 1 => some x1
  | 2 => some x2
  | 4 => some x4
  | 8 => some x8
  | 16 => some x16
  | 32 => some x32
  | _ => none

/-- What the port's lane mask field holds: ones up to the lane count's own bit. -/
def linkCapable (l : LaneCount) : Nat := 2 * l.count - 1

/-- What the predetermined lane count field holds; it ends at sixteen, and wider
ports keep their strap value. -/
def predetermined? (l : LaneCount) : Option Nat := if l.count ≤ 16 then some l.count else none

theorem ofCount?_eq_some {n : Nat} {l : LaneCount} : ofCount? n = some l ↔ n = l.count := by
  constructor
  · intro h
    unfold ofCount? at h
    split at h <;> cases h <;> rfl
  · rintro rfl
    cases l <;> rfl

end LaneCount

inductive Space where
  | io | mem32 | mem64
  deriving DecidableEq, Repr

def Space.name : Space → String
  | .io => "Io"
  | .mem32 => "Mem32"
  | .mem64 => "Mem64"

/-- A range of CPU addresses and the bus addresses it leads to. -/
structure Window where
  space : Space
  cpu : Address
  pci : Address
  size : Address
  deriving DecidableEq, Repr

structure ResetLine where
  pin : Nat
  /-- Driving the pin low asserts PERST#. -/
  activeLow : Bool
  deriving DecidableEq, Repr

structure Controller where
  /-- Selects the chip's slices and is the PCI segment number. -/
  index : Nat
  name : String
  /-- The root port's register block. -/
  dbi : Address
  control : Address
  config : Address
  configSize : Address
  /-- The configured width; without one the strap decides. -/
  lanes : Option LaneCount
  windows : List Window
  resetLine : Option ResetLine
  /-- The root complex number that its message interrupts carry. -/
  msiNumber : Option Nat
  maxSpeed : Nat
  deriving DecidableEq, Repr

def Controller.window? (c : Controller) (space : Space) : Option Window :=
  c.windows.find? (·.space == space)

def Controller.laneCount (c : Controller) (soc : Soc) : Nat :=
  match c.lanes with
  | some lanes => lanes.count
  | none => soc.maxLanes

/-- Bytes of configuration space for one bus. -/
def busSize : Nat := 0x100000

/-- The root bus and at least one more. -/
def minConfigSize : Nat := 2 * busSize

/-- The ceiling of a node that does not set one. -/
def defaultMaxSpeed : LinkSpeed := .gen3

end RootComplex
