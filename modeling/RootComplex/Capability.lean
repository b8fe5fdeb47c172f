import RootComplex.Program
import RootComplex.Register.Express

/-! The capability list of a function: a chain of headers, each with an ID and the
offset of the next. -/

namespace RootComplex

namespace Capability

def id (header : Word) : Nat := header.toNat % 0x100

/-- The next header, at a multiple of four. -/
def next (header : Word) : Nat := (header >>> 8).toNat &&& 0xFC

/-- Walks a number of headers at most. An offset below the first entry and a header
that nothing claimed end the chain. -/
def findFrom (config : Address) (wanted : Nat) : Nat → Nat → Program (Option Nat)
  | 0, _ => pure none
  | entries + 1, offset => do
    if offset < ConfigHeader.firstCapability then pure none
    else
      let header ← Program.read (config.at offset)
      if header = ConfigHeader.unclaimed then pure none
      else if id header = wanted then pure (some offset)
      else findFrom config wanted entries (next header)

def find (config : Address) (wanted : Nat) : Program (Option Nat) :=
  findFrom config wanted maxEntries ConfigHeader.firstCapability

end Capability

end RootComplex
