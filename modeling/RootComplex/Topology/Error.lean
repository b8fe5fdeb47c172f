import RootComplex.Controller
import RootComplex.DeviceTree.Node

/-! Why a controller node is passed over. -/

namespace RootComplex

structure Region where
  base : Address
  size : Address
  deriving DecidableEq, Repr

inductive NodeError where
  | missingProperty (name : String)
  | undecodable (name : String) (cause : Property.DecodeError)
  | malformed (name reason : String)
  | missingRegion (name : String)
  | indexOutOfRange (index count : Nat)
  /-- The DBI base is in no table of the chip. -/
  | unknownController (dbi : Address)
  | invalidRegion (name : String) (region : Region)
  | configTooSmall (size : Address)
  | windowSize (space : Space) (size : Address)
  | windowAlignment (window : Window)
  /-- The window runs past the last address. -/
  | windowWraps (window : Window)
  | duplicateIndex (index : Nat)
  deriving DecidableEq, Repr

namespace NodeError

def ranges (w : Window) : String :=
  w.space.name ++ " window cpu " ++ Text.hex w.cpu.toNat ++ " pci " ++ Text.hex w.pci.toNat ++
    " size " ++ Text.hex w.size.toNat

/-- What went wrong, followed by its cause if it has one. -/
def message : NodeError → String
  | missingProperty name => "missing required property " ++ name
  | undecodable name cause => "failed to decode property " ++ name ++ ": " ++ cause.message
  | malformed name reason => "property " ++ name ++ " is malformed: " ++ reason
  | missingRegion name => "no " ++ name ++ " region in reg"
  | indexOutOfRange index count =>
    "controller index " ++ toString index ++ " is out of range, the SoC has " ++
      toString count ++ " controllers"
  | unknownController dbi =>
    "dbi base " ++ Text.hex dbi.toNat ++ " does not belong to any controller"
  | invalidRegion name region =>
    name ++ " region " ++ Text.hex region.base.toNat ++ "+" ++ Text.hex region.size.toNat ++
      " is invalid"
  | configTooSmall size => "config window size " ++ Text.hex size.toNat ++ " is below 2 MiB"
  | windowSize space size =>
    space.name ++ " window size " ++ Text.hex size.toNat ++ " is outside [64 KiB, 4 GiB)"
  | windowAlignment window => ranges window ++ " is not 64 KiB aligned"
  | windowWraps window => ranges window ++ " wraps"
  | duplicateIndex index =>
    "controller index " ++ toString index ++ " is claimed by an earlier node"

end NodeError

end RootComplex
