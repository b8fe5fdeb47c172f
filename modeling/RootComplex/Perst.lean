import RootComplex.Controller
import RootComplex.Program

/-! The PERST# line of a port, one pin of a GPIO port that all controllers share. -/

namespace RootComplex

structure Perst where
  gpio : Address
  line : ResetLine
  deriving DecidableEq, Repr

namespace Perst

def bit (p : Perst) : Word := 1 <<< p.line.pin

def level (p : Perst) (high : Bool) (data : Word) : Word :=
  if high then data ||| p.bit else data &&& ~~~p.bit

/-- Drives the pin to the level that asserts or releases PERST#. -/
def drive (p : Perst) (asserted : Bool) : Program Unit :=
  Program.modify (p.gpio.at GpioPort.data) (p.level (asserted != p.line.activeLow))

/-- The level is set before the pin becomes an output, so the line never shows the
released level in between. -/
def assert (p : Perst) : Program Unit := do
  p.drive true
  Program.modify (p.gpio.at GpioPort.direction) (· ||| p.bit)

def deassert (p : Perst) : Program Unit := p.drive false

end Perst

end RootComplex
