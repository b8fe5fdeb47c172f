import RootComplex.Topology.Error
import RootComplex.Event

/-! Reading a controller from its node. A node either describes a controller that the
chip and its translation unit can serve, or is refused for the first fault found. -/

namespace RootComplex

namespace Region

/-- The region is not empty and ends at the last address or before. -/
def Fits (r : Region) : Prop := r.size ≠ 0 ∧ r.base.toNat + (r.size.toNat - 1) < Address.count

instance (r : Region) : Decidable r.Fits := inferInstanceAs (Decidable (_ ∧ _))

/-- A region at zero is as good as none. -/
def Usable (r : Region) : Prop := r.base ≠ 0 ∧ r.Fits

instance (r : Region) : Decidable r.Usable := inferInstanceAs (Decidable (_ ∧ _))

/-- Four cells make a region: base and size, two cells each. -/
def ofCells? : List Word → Option (List Region)
  | [] => some []
  | a :: b :: c :: d :: rest =>
    (ofCells? rest).map (⟨Address.ofWords a b, Address.ofWords c d⟩ :: ·)
  | _ => none

end Region

namespace Node

def decodeCells (n : Node) (name : String) : Except NodeError (Option (List Word)) :=
  (n.cells? name).mapError (.undecodable name)

def decodeStrings (n : Node) (name : String) : Except NodeError (Option (List String)) :=
  (n.strings? name).mapError (.undecodable name)

def requireCells (n : Node) (name : String) : Except NodeError (List Word) := do
  match ← n.decodeCells name with
  | some cells => pure cells
  | none => throw (.missingProperty name)

def requireStrings (n : Node) (name : String) : Except NodeError (List String) := do
  match ← n.decodeStrings name with
  | some strings => pure strings
  | none => throw (.missingProperty name)

def singleCell (n : Node) (name : String) : Except NodeError (Option Nat) := do
  match ← n.decodeCells name with
  | none => pure none
  | some [cell] => pure (some cell.toNat)
  | some _ => throw (.malformed name "expected a single cell")

def regions (n : Node) : Except NodeError (List Region) := do
  let cells ← n.requireCells "reg"
  match Region.ofCells? cells with
  | some (region :: rest) => pure (region :: rest)
  | _ => throw (.malformed "reg" "expected <address size> entries of two cells each")

end Node

/-- Which controller a node means, and where its register blocks are. -/
structure Placement where
  index : Nat
  dbi : Region
  control : Address
  config : Region
  deriving DecidableEq, Repr

namespace Placement

/-- The region whose place in `reg` is the place of its name in `reg-names`. -/
def namedRegion (names : List String) (regions : List Region) (name : String) :
    Except NodeError Region :=
  match (names.idxOf? name).bind (regions[·]?) with
  | some region => pure region
  | none => throw (.missingRegion name)

/-- The number is the last cell, after a phandle or alone. -/
def declaredIndex (soc : Soc) (n : Node) : Except NodeError Nat := do
  match (← n.requireCells "baikal,pcie-lcru").getLast? with
  | none => throw (.malformed "baikal,pcie-lcru" "empty")
  | some cell =>
    if cell.toNat < soc.controllers then pure cell.toNat
    else throw (.indexOutOfRange cell.toNat soc.controllers)

def locate (soc : Soc) (n : Node) (regions : List Region) : Except NodeError Placement :=
  match soc.blocks with
  | .named controlBase stride => do
    let names ← n.requireStrings "reg-names"
    let dbi ← namedRegion names regions "dbi"
    let config ← namedRegion names regions "config"
    let index ← declaredIndex soc n
    pure ⟨index, dbi, controlBase + BitVec.ofNat 64 index * stride, config⟩
  | .positional dbiBases =>
    match regions with
    | [dbi, apb, config] =>
      match dbiBases.idxOf? dbi.base with
      | none => throw (.unknownController dbi.base)
      | some index =>
        if apb.Usable then pure ⟨index, dbi, apb.base, config⟩
        else throw (.invalidRegion "apb" apb)
    | _ => throw (.malformed "reg" "expected dbi, apb and config regions")

/-- The config window can be translated: aligned at both ends, and short enough past
its first bus for one region. -/
def ConfigUsable (config : Region) : Prop :=
  config.Usable ∧ config.base.Aligned ∧ config.size.Aligned ∧
    config.size.toNat - busSize < Translation.maxSize

instance (config : Region) : Decidable (ConfigUsable config) :=
  inferInstanceAs (Decidable (_ ∧ _))

/-- Refuses register blocks that are not there or cannot be translated. -/
def check (p : Placement) : Except NodeError Placement :=
  if ¬p.dbi.Usable then throw (.invalidRegion "dbi" p.dbi)
  else if ¬ConfigUsable p.config then throw (.invalidRegion "config" p.config)
  else if p.config.size.toNat < minConfigSize then throw (.configTooSmall p.config.size)
  else pure p

def ofNode (soc : Soc) (n : Node) : Except NodeError Placement := do
  let regions ← n.regions
  let placement ← locate soc n regions
  placement.check

end Placement

namespace Window

/-- The space code of a range: two bits of its first cell. Configuration space, code
zero, makes no window. -/
def spaceOfCell? (cell : Word) : Option Space :=
  match (cell >>> 24).toNat % 4 with
  | 1 => some .io
  | 2 => some .mem32
  | 3 => some .mem64
  | _ => none

def cpuRegion (w : Window) : Region := ⟨w.cpu, w.size⟩

def pciRegion (w : Window) : Region := ⟨w.pci, w.size⟩

/-- Refuses what one translation region cannot map. -/
def check (w : Window) : Except NodeError Window :=
  if w.size.toNat < Translation.minSize ∨ Translation.maxSize ≤ w.size.toNat then
    throw (.windowSize w.space w.size)
  else if ¬(w.cpu.Aligned ∧ w.pci.Aligned ∧ w.size.Aligned) then throw (.windowAlignment w)
  else if ¬(w.cpuRegion.Fits ∧ w.pciRegion.Fits) then throw (.windowWraps w)
  else pure w

/-- Seven cells make a range: the space and the bus address, the CPU address, the size. -/
def ofCells : List Word → Except NodeError (List Window)
  | kind :: a :: b :: c :: d :: e :: f :: rest =>
    match spaceOfCell? kind with
    | none => ofCells rest
    | some space => do
      let window ← check ⟨space, Address.ofWords c d, Address.ofWords a b, Address.ofWords e f⟩
      let windows ← ofCells rest
      pure (window :: windows)
  | _ => pure []

/-- The windows of `ranges`; a node without it has none. -/
def ofNode (n : Node) : Except NodeError (List Window) := do
  match ← n.decodeCells "ranges" with
  | none => pure []
  | some cells =>
    if cells.length % 7 = 0 then ofCells cells
    else throw (.malformed "ranges" "expected entries of seven cells")

end Window

namespace Controller

/-- The configured width. Zero, or a width that links do not have, leaves it to the
strap. -/
def lanesOfNode (n : Node) : Except NodeError (Option LaneCount) := do
  match ← n.singleCell "num-lanes" with
  | none => pure none
  | some count => pure (LaneCount.ofCount? count)

/-- The speed ceiling; a code that is no speed leaves the default. -/
def maxSpeedOfNode (n : Node) : Except NodeError LinkSpeed := do
  match ← n.singleCell "max-link-speed" with
  | none => pure defaultMaxSpeed
  | some code => pure ((LinkSpeed.ofCode? code).getD defaultMaxSpeed)

/-- Pin and flags are the last two cells, after a phandle or alone. -/
def resetLineOfNode (n : Node) : Except NodeError (Option ResetLine) := do
  match ← n.decodeCells "reset-gpios" with
  | none => pure none
  | some cells =>
    match cells.reverse with
    | flags :: pin :: _ =>
      if pin.toNat < GpioPort.pins then
        pure (some ⟨pin.toNat, flags.getLsbD 0⟩)
      else throw (.malformed "reset-gpios" "pin out of range")
    | _ => throw (.malformed "reset-gpios" "expected <pin flags>")

/-- The root complex number is in the third of four cells. Only a chip that tags its
message interrupts looks for it. -/
def msiNumberOfNode (soc : Soc) (n : Node) : Except NodeError (Option Nat) := do
  if soc.msi.isNone then pure none
  else
    match ← n.decodeCells "msi-map" with
    | none => pure none
    | some [_, _, base, _] => pure (some ((base >>> 16).toNat % 4))
    | some _ => throw (.malformed "msi-map" "expected <rid-base phandle msi-base length>")

def ofNode (soc : Soc) (n : Node) : Except NodeError Controller := do
  let placement ← Placement.ofNode soc n
  let windows ← Window.ofNode n
  let lanes ← lanesOfNode n
  let maxSpeed ← maxSpeedOfNode n
  let resetLine ← resetLineOfNode n
  let msiNumber ← msiNumberOfNode soc n
  pure {
    index := placement.index
    name := n.name
    dbi := placement.dbi.base
    control := placement.control
    config := placement.config.base
    configSize := placement.config.size
    lanes := lanes
    windows := windows
    resetLine := resetLine
    msiNumber := msiNumber
    maxSpeed := maxSpeed.code }

def laneNotice (n : Node) : Option Nat → List Event
  | none => []
  | some count =>
    if count = 0 ∨ (LaneCount.ofCount? count).isSome then []
    else [⟨.warn, "unsupported lane count, keeping strap width",
      [("node", n.name), ("count", toString count)]⟩]

def speedNotice (n : Node) : Option Nat → List Event
  | none => []
  | some code =>
    if (LinkSpeed.ofCode? code).isSome then []
    else [⟨.warn, "invalid max-link-speed", [("node", n.name), ("speed", toString code)]⟩]

/-- What is said while a node is read, up to its first fault. -/
def notices (soc : Soc) (n : Node) : List Event :=
  match Placement.ofNode soc n, Window.ofNode n, n.singleCell "num-lanes" with
  | .ok _, .ok _, .ok count =>
    match n.singleCell "max-link-speed" with
    | .ok code => laneNotice n count ++ speedNotice n code
    | .error _ => laneNotice n count
  | _, _, _ => []

end Controller

end RootComplex
