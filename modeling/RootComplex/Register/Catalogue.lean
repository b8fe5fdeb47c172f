import RootComplex.Register.Glue

/-! Every register type under its data sheet name. -/

namespace RootComplex

structure RegisterType where
  name : String
  width : Nat
  layout : Layout width

/-- A register of one chip only has the chip in its name, since both have a reset control. -/
def registerTypes : List RegisterType := [
  ⟨"LinkCapabilities", 32, LinkCapabilities.layout⟩,
  ⟨"LinkControl", 16, LinkControl.layout⟩,
  ⟨"LinkStatus", 16, LinkStatus.layout⟩,
  ⟨"LinkControl2", 16, LinkControl2.layout⟩,
  ⟨"PortLinkControl", 32, PortLinkControl.layout⟩,
  ⟨"Gen2Control", 32, Gen2Control.layout⟩,
  ⟨"MiscControl1", 32, MiscControl1.layout⟩,
  ⟨"RegionControl1", 32, RegionControl1.layout⟩,
  ⟨"RegionControl2", 32, RegionControl2.layout⟩,
  ⟨"LinkDebugStatus", 32, LinkDebug.layout⟩,
  ⟨"bm1000.ResetControl", 32, Bm1000.ResetControl.layout⟩,
  ⟨"bm1000.GeneralControl", 32, Bm1000.GeneralControl.layout⟩,
  ⟨"bm1000.PhyAddress", 32, PhyAddress.layout⟩,
  ⟨"bm1000.PhyStatus", 32, PhyStatus.layout⟩,
  ⟨"bs1000.ResetControl", 32, Bs1000.ResetControl.layout⟩,
  ⟨"bs1000.ResetStatus", 32, Bs1000.ResetStatus.layout⟩,
  ⟨"bs1000.GeneralControl3", 32, Bs1000.GeneralControl3.layout⟩,
  ⟨"AllocationAttributes", 64, AllocationAttributes.layout⟩]

def RegisterType.find? (name : String) : Option RegisterType :=
  registerTypes.find? (·.name == name)

end RootComplex
