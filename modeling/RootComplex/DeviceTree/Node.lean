import RootComplex.DeviceTree.Property

/-! Nodes of a device tree: a name and a finite map from property names to values. -/

namespace RootComplex

structure Node where
  name : String
  properties : List (String × Bytes)
  deriving DecidableEq, Repr

namespace Node

def empty (name : String) : Node := ⟨name, []⟩

def property? (n : Node) (name : String) : Option Bytes := n.properties.lookup name

def erase (n : Node) (name : String) : Node :=
  { n with properties := n.properties.filter (·.1 != name) }

/-- Sets a property, in the place of an earlier value. -/
def insert (n : Node) (name : String) (value : Bytes) : Node :=
  { n with properties := (name, value) :: (n.erase name).properties }

def cells? (n : Node) (name : String) : Except Property.DecodeError (Option (List Word)) :=
  match n.property? name with
  | none => .ok none
  | some bytes => (Property.cells bytes).map some

def strings? (n : Node) (name : String) : Except Property.DecodeError (Option (List String)) :=
  match n.property? name with
  | none => .ok none
  | some bytes => (Property.strings bytes).map some

/-- A node without `status` is enabled, and so is one that says it is; a status that
cannot be read or says nothing disables it. -/
def isEnabled (n : Node) : Bool :=
  match n.strings? "status" with
  | .ok none => true
  | .ok (some (status :: _)) => status = "okay" || status = "ok"
  | _ => false

/-- The `compatible` list can be read and names the binding. -/
def isCompatible (n : Node) (binding : String) : Bool :=
  match n.strings? "compatible" with
  | .ok (some bindings) => bindings.contains binding
  | _ => false

inductive Edit where
  | cells (name : String) (cells : List Word)
  | string (name : String) (value : String)
  | strings (name : String) (values : List String)
  | without (name : String)
  deriving DecidableEq, Repr

def edit (n : Node) : Edit → Node
  | .cells name cells => n.insert name (Property.ofCells cells)
  | .string name value => n.insert name (Property.ofStrings [value])
  | .strings name values => n.insert name (Property.ofStrings values)
  | .without name => n.erase name

def build (name : String) (edits : List Edit) : Node := edits.foldl edit (empty name)

theorem property?_erase (n : Node) (name other : String) :
    (n.erase name).property? other = if name = other then none else n.property? other := by
  unfold erase property?
  induction n.properties with
  | nil => simp
  | cons p rest ih =>
    obtain ⟨k, v⟩ := p
    rw [List.filter_cons, List.lookup_cons]
    by_cases hk : k = name
    · subst hk
      by_cases ho : k = other
      · subst ho
        simpa using ih
      · have hb : (other == k) = false := by simpa using Ne.symm ho
        simpa [hb, ho] using ih
    · have hk' : (k != name) = true := by simpa using hk
      simp only [hk', if_true, List.lookup_cons]
      by_cases ho : other = k
      · subst ho
        simp [Ne.symm hk]
      · have hb : (other == k) = false := by simpa using ho
        simpa [hb] using ih

/-- A property is what it was last set to. -/
theorem property?_insert (n : Node) (name other : String) (value : Bytes) :
    (n.insert name value).property? other =
      if name = other then some value else n.property? other := by
  by_cases h : name = other
  · simp [insert, property?, h]
  · have hb : (other == name) = false := by simpa using Ne.symm h
    have he := property?_erase n name other
    simp only [h, if_false] at he ⊢
    simpa [insert, property?, List.lookup_cons, hb] using he

end Node

end RootComplex
