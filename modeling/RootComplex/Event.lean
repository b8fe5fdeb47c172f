import RootComplex.Word

/-! Diagnostic events. An event is a value: what happened, how severe it is, and the
facts that go with it. -/

namespace RootComplex

/-- Severity of an event, the most severe first. -/
inductive Level where
  | error | warn | info | debug | trace
  deriving DecidableEq, Repr

namespace Level

def rank : Level → Nat
  | error => 1
  | warn => 2
  | info => 3
  | debug => 4
  | trace => 5

def name : Level → String
  | error => "error"
  | warn => "warn"
  | info => "info"
  | debug => "debug"
  | trace => "trace"

end Level

/-- The least severe level that is kept; `none` keeps nothing. -/
abbrev Verbosity := Option Level

namespace Verbosity

def keeps (v : Verbosity) (l : Level) : Bool :=
  match v with
  | none => false
  | some limit => l.rank ≤ limit.rank

/-- The verbosity called by a level's name, or `off`. -/
def ofName? : String → Option Verbosity
  | "off" => some none
  | "error" => some (some .error)
  | "warn" => some (some .warn)
  | "info" => some (some .info)
  | "debug" => some (some .debug)
  | "trace" => some (some .trace)
  | _ => none

end Verbosity

structure Event where
  level : Level
  message : String
  fields : List (String × String)
  deriving DecidableEq, Repr

end RootComplex
