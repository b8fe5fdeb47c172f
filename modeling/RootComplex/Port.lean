import RootComplex.Ltssm
import RootComplex.Perst

/-! One root port: a controller on its chip, and the registers that every stage of the
bring-up uses. -/

namespace RootComplex

structure Port where
  soc : Soc
  controller : Controller

namespace Port

def dbi (p : Port) (offset : Nat) : Address := p.controller.dbi.at offset

def control (p : Port) (offset : Nat) : Address := p.controller.control.at offset

def config (p : Port) (offset : Nat) : Address := p.controller.config.at offset

def perst? (p : Port) : Option Perst := p.controller.resetLine.map (⟨p.soc.gpioBase, ·⟩)

def label (p : Port) : String × String := ("controller", toString p.controller.index)

/-- Sets or clears the enable bit and keeps the rest of its register. -/
def ltssmWord (p : Port) (enable : Bool) (v : Word) : Word :=
  if enable then v ||| p.soc.control.ltssmEnable else v &&& ~~~p.soc.control.ltssmEnable

def setLtssm (p : Port) (enable : Bool) : Program Unit :=
  Program.modify (p.control p.soc.control.ltssmControl) (p.ltssmWord enable)

def linkDebug (p : Port) : Program Word := Program.read (p.control p.soc.control.linkStatus)

def linkStatus (p : Port) : Program (BitVec 16) := do
  let v ← Program.read (p.dbi PortLogic.linkControlStatus)
  pure (Word.status v)

/-- Asks for a speed. Only the control half is written. -/
def setTargetSpeed (p : Port) (speed : Nat) : Program Unit :=
  Program.modify (p.dbi PortLogic.linkControlStatus2) fun v =>
    Word.ofControl (LinkControl2.targetLinkSpeed.set speed (Word.control v))

def assertPerst (p : Port) : Program Unit :=
  match p.perst? with
  | some line => line.assert
  | none => pure ()

def deassertPerst (p : Port) : Program Unit :=
  match p.perst? with
  | some line => line.deassert
  | none => pure ()

/-- What the link debug word says, as events quote it. -/
def linkFacts (p : Port) (debug : Word) : List (String × String) :=
  [p.label, ("ltssm", (LinkDebug.state debug).text),
    ("smlh", Text.bool (LinkDebug.physicalUp.test debug)),
    ("rdlh", Text.bool (LinkDebug.dataLinkUp.test debug))]

end Port

end RootComplex
