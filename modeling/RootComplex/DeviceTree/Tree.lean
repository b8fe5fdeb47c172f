import RootComplex.DeviceTree.Node
import RootComplex.Json.Reader

/-! A device tree as a flat list of nodes, and its JSON form: an object with `nodes`,
each an object with `name` and `properties`. A list of numbers is a cell list, a
string one string, a list of strings a string list. -/

namespace RootComplex

structure DeviceTree where
  nodes : List Node
  deriving DecidableEq, Repr

namespace DeviceTree

def compatible (t : DeviceTree) (binding : String) : List Node :=
  t.nodes.filter (·.isCompatible binding)

/-- What is said about a text that is not the JSON form of a tree. -/
def invalidSnapshot : String := "invalid device tree snapshot"

/-- A cell is a natural number that a word holds; minus zero and one point zero are not. -/
def cellOfJson? : Json → Option Word
  | .natural n => if n < Word.count then some (BitVec.ofNat 32 n) else none
  | _ => none

/-- The value of a property. An empty list is an empty list of cells. -/
def valueOfJson? : Json → Option Bytes
  | .text (some s) => some (Property.ofStrings [s])
  | .array items =>
    match items.mapM cellOfJson? with
    | some cells => some (Property.ofCells cells)
    | none => (items.mapM Json.text?).map Property.ofStrings
  | _ => none

def propertyOfJson? : Option String × Json → Option (String × Bytes)
  | (some name, value) => (valueOfJson? value).map fun bytes => (name, bytes)
  | (none, _) => none

/-- Of a repeated property the last value counts, yet every one must be a value. -/
def propertiesOfJson? (name : String) : Json → Option Node
  | .object members => (members.mapM propertyOfJson?).map fun properties =>
      properties.foldl (fun node p => node.insert p.1 p.2) (Node.empty name)
  | _ => none

/-- A member that may be given once: its value if it is, `none` if it is repeated. -/
def uniqueMember? (name : String) (members : List (Option String × Json)) :
    Option (Option Json) :=
  match members.filter (·.1 == some name) with
  | [] => some none
  | [(_, value)] => some (some value)
  | _ => none

/-- Every member has a name that is text; unknown ones are passed over unread. -/
def namesAreText (members : List (Option String × Json)) : Bool := members.all (·.1.isSome)

def nodeOfParts? (name : Json) (properties : Option Json) : Option Node := do
  let name ← name.text?
  match properties with
  | none => some (Node.empty name)
  | some properties => propertiesOfJson? name properties

def nodeOfJson? : Json → Option Node
  | .object members => do
    guard (namesAreText members)
    let name ← (← uniqueMember? "name" members)
    nodeOfParts? name (← uniqueMember? "properties" members)
  | .array [name] => nodeOfParts? name none
  | .array [name, properties] => nodeOfParts? name (some properties)
  | _ => none

def nodesOfJson? (nodes : Json) : Option DeviceTree := do
  let nodes ← (← nodes.items?).mapM nodeOfJson?
  some ⟨nodes⟩

def ofJson? : Json → Option DeviceTree
  | .object members => do
    guard (namesAreText members)
    let nodes ← (← uniqueMember? "nodes" members)
    nodesOfJson? nodes
  | .array [nodes] => nodesOfJson? nodes
  | _ => none

def parse? (text : String) : Option DeviceTree := (Json.read? text).bind ofJson?

/-- A text that is not a tree is refused with one message, whatever is wrong with it. -/
def read (text : String) : Except String DeviceTree :=
  match parse? text with
  | some t => .ok t
  | none => .error invalidSnapshot

end DeviceTree

end RootComplex
