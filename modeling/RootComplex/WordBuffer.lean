import RootComplex.Platform

/-! Plain memory as a platform: registers are the words of a buffer, found by byte
offset. Nothing is masked, scripted or recorded, apart from the time waited. -/

namespace RootComplex

structure WordBuffer where
  words : Array Word
  waited : Duration

namespace WordBuffer

/-- The word that holds a byte offset. -/
def position (a : Address) : Nat := a.toNat / 4

/-- Only aligned offsets inside the buffer are registers; others read as zero and
ignore writes. -/
def answer : (c : Command) → WordBuffer → c.Answer × WordBuffer
  | .read a, b => (b.words.getD (position a) 0, b)
  | .write a v, b => ((), { b with words := b.words.setIfInBounds (position a) v })
  | .barrier, b => ((), b)
  | .stall t, b => ((), { b with waited := b.waited + t })
  | .listens _, b => (false, b)
  | .report _, b => ((), b)

def platform : Platform WordBuffer := ⟨answer⟩

end WordBuffer

end RootComplex
