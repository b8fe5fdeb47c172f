import RootComplex.Platform
import RootComplex.RegisterFile
import RootComplex.Trace

/-! A register file that records what is done to it: the accesses, and the events
that its verbosity keeps. It listens to every level and chooses only what to keep, so
its verbosity does not reach the program. -/

namespace RootComplex

structure Recording where
  file : RegisterFile
  verbosity : Verbosity
  /-- The accesses since the record was last cleared, the latest first. -/
  latestAccesses : List Access
  /-- The events kept since then, the latest first. -/
  latestEvents : List Event

namespace Recording

def start (file : RegisterFile) (verbosity : Verbosity) : Recording := ⟨file, verbosity, [], []⟩

def note (r : Recording) (a : Access) : Recording :=
  { r with latestAccesses := a :: r.latestAccesses }

def keep (r : Recording) (e : Event) : Recording :=
  if r.verbosity.keeps e.level then { r with latestEvents := e :: r.latestEvents } else r

/-- The register file answers reads; everything else only leaves its mark. -/
def answer : (c : Command) → Recording → c.Answer × Recording
  | .read a, r =>
    match r.file.read a with
    | (v, file) => (v, { r with file := file }.note (.read a))
  | .write a v, r => ((), { r with file := r.file.write a v }.note (.write a v))
  | .barrier, r => ((), r.note .barrier)
  | .stall t, r => ((), r.note (.stall t))
  | .listens _, r => (true, r)
  | .report e, r => ((), r.keep e)

def platform : Platform Recording := ⟨answer⟩

/-- Enough polls to see how a link that is only watched behaves. Each poll uses up a
scripted answer or sees what the poll before it saw, so one that has not ended after the
scripts and once more never ends. -/
def patience (r : Recording) : Nat := r.file.scripted + 1

def accesses (r : Recording) : List Access := r.latestAccesses.reverse

def events (r : Recording) : List Event := r.latestEvents.reverse

def clear (r : Recording) : Recording := { r with latestAccesses := [], latestEvents := [] }

end Recording

end RootComplex
