import RootComplex.Controller
import RootComplex.Program

/-! The indirect PHY port. An access names the lanes and the register, and then waits
for the handshake before it touches the data; a handshake that never completes ends
the access. -/

namespace RootComplex

/-- A handshake that did not complete, with the last status read. -/
structure PhyTimeout where
  address : Nat
  status : Word
  deriving DecidableEq, Repr

def PhyTimeout.message (t : PhyTimeout) : String :=
  "phy access to " ++ Text.hex t.address ++ " timed out with status " ++ Text.hex t.status.toNat

namespace Phy

def laneMask (lanes : Nat) : Word :=
  (BitVec.allOnes (min lanes 32)).setWidth 32

def isReady (status : Word) : Bool := PhyStatus.done.test status && !PhyStatus.busy.test status

/-- Waits for the handshake; `last` is the status that was read last. -/
def await (dbi : Address) (address : Nat) : Nat → Word → Program (Except PhyTimeout Unit)
  | 0, last => pure (.error ⟨address, last⟩)
  | polls + 1, _ => do
    let status ← Program.read (dbi.at PhyPort.status)
    if isReady status then pure (.ok ())
    else
      Program.stall (.microseconds PhyPort.pollMicroseconds)
      await dbi address polls status

/-- Names the lanes and the register, and says whether it will be written. -/
def select (dbi : Address) (lanes : Word) (address : Nat) (writes : Bool) : Program Unit := do
  Program.write (dbi.at PhyPort.lanes) lanes
  Program.write (dbi.at PhyPort.address)
    (PhyAddress.write.put writes (PhyAddress.address.set address 0))

def read (dbi : Address) (lanes : Word) (address : Nat) : Program (Except PhyTimeout Word) := do
  select dbi lanes address false
  match ← await dbi address PhyPort.polls 0 with
  | .error e => pure (.error e)
  | .ok () =>
    let value ← Program.read (dbi.at PhyPort.data)
    pure (.ok value)

def write (dbi : Address) (lanes : Word) (address : Nat) (value : Word) :
    Program (Except PhyTimeout Unit) := do
  select dbi lanes address true
  match ← await dbi address PhyPort.polls 0 with
  | .error e => pure (.error e)
  | .ok () =>
    Program.write (dbi.at PhyPort.data) value
    await dbi address PhyPort.polls 0

def tuned (t : PhyTuning) (value : Word) : Event :=
  ⟨.debug, "phy tuning applied",
    [("register", t.name), ("address", toString t.address), ("value", toString value.toNat)]⟩

def adjust (dbi : Address) (lanes : Word) (t : PhyTuning) : Program (Except PhyTimeout Unit) := do
  match ← read dbi lanes t.address with
  | .error e => pure (.error e)
  | .ok current =>
    match ← write dbi lanes t.address (t.apply current) with
    | .error e => pure (.error e)
    | .ok () =>
      Program.report (tuned t (t.apply current))
      pure (.ok ())

/-- Applies a table in order. The first failed access ends it; what was written before
stays. -/
def tune (dbi : Address) (lanes : Word) : List PhyTuning → Program (Except PhyTimeout Unit)
  | [] => pure (.ok ())
  | t :: rest => do
    match ← adjust dbi lanes t with
    | .error e => pure (.error e)
    | .ok () => tune dbi lanes rest

end Phy

end RootComplex
