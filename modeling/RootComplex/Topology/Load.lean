import RootComplex.Topology.Decode
import RootComplex.Program

/-! The controllers of a chip, from its nodes. Each node gets a verdict in tree order;
the accepted controllers, sorted by number, are the topology. -/

namespace RootComplex

inductive Verdict where
  | disabled
  | refused (error : NodeError)
  | accepted (controller : Controller)
  deriving DecidableEq, Repr

namespace Verdict

/-- The verdict on a node after the numbers in `taken` are given away. -/
def ofNode (soc : Soc) (taken : List Nat) (n : Node) : Verdict :=
  if n.isEnabled then
    match Controller.ofNode soc n with
    | .error e => .refused e
    | .ok c => if taken.contains c.index then .refused (.duplicateIndex c.index) else .accepted c
  else .disabled

def controller? : Verdict → Option Controller
  | accepted c => some c
  | _ => none

def claims : Verdict → List Nat
  | accepted c => [c.index]
  | _ => []

/-- The width of a found controller, spelled as an optional value. -/
def lanesText : Option LaneCount → String
  | none => "None"
  | some lanes => "Some(" ++ lanes.name ++ ")"

def events (soc : Soc) (n : Node) : Verdict → List Event
  | disabled => [⟨.debug, "pcie controller disabled", [("node", n.name)]⟩]
  | refused e => Controller.notices soc n ++ [⟨.warn, "skipping pcie controller",
      [("node", n.name), ("soc", soc.name), ("error", e.message)]⟩]
  | accepted c => Controller.notices soc n ++ [⟨.info, "pcie controller found",
      [("node", n.name), ("controller", toString c.index), ("lanes", lanesText c.lanes),
        ("windows", toString c.windows.length)]⟩]

end Verdict

/-- The enabled and well-formed controllers of a chip, by number. -/
structure Topology where
  soc : Soc
  controllers : List Controller

namespace Topology

/-- The verdicts on a list of nodes, each after those before it. -/
def verdictsAfter (soc : Soc) (taken : List Nat) : List Node → List (Node × Verdict)
  | [] => []
  | n :: rest =>
    let v := Verdict.ofNode soc taken n
    (n, v) :: verdictsAfter soc (v.claims ++ taken) rest

def verdicts (soc : Soc) (nodes : List Node) : List (Node × Verdict) :=
  verdictsAfter soc [] nodes

def accepted (soc : Soc) (nodes : List Node) : List Controller :=
  (verdicts soc nodes).filterMap (·.2.controller?)

def load (soc : Soc) (nodes : List Node) : Topology :=
  ⟨soc, (accepted soc nodes).mergeSort (fun a b => decide (a.index ≤ b.index))⟩

/-- All that is said while the nodes are loaded. -/
def loadEvents (soc : Soc) (nodes : List Node) : List Event :=
  (verdicts soc nodes).flatMap fun (n, v) => v.events soc n

def report : List Event → Program Unit
  | [] => pure ()
  | e :: rest => do
    Program.report e
    report rest

/-- Loads the nodes and reports what there is to say. -/
def discover (soc : Soc) (nodes : List Node) : Program Topology := do
  report (loadEvents soc nodes)
  pure (load soc nodes)

end Topology

end RootComplex
