import RootComplex.Register.Field

/-! Named layouts. A layout lists the named fields of one register type from bit 0
up; whatever lies between them is reserved and is kept by every assignment. -/

namespace RootComplex

inductive FieldKind where
  | number
  | flag
  deriving DecidableEq, Repr

/-- A field under the name its data sheet gives it. -/
structure NamedField (w : Nat) where
  name : String
  kind : FieldKind
  field : Field w

/-- The fields of a register type, in ascending order and without overlap. -/
structure Layout (w : Nat) where
  fields : List (NamedField w)
  ascending : fields.Pairwise (fun f g => f.field.Below g.field) := by decide

inductive FieldValue where
  | number (n : Nat)
  | flag (b : Bool)
  deriving DecidableEq, Repr

namespace NamedField

variable {w : Nat}

def number (name : String) (field : Field w) : NamedField w := ⟨name, .number, field⟩

def flag (name : String) (field : Field w) : NamedField w := ⟨name, .flag, field⟩

def value (f : NamedField w) (r : BitVec w) : FieldValue :=
  match f.kind with
  | .number => .number (f.field.get r)
  | .flag => .flag (f.field.test r)

/-- A flag takes any number, zero for clear; a number field takes what fits. -/
def assign? (f : NamedField w) (v : Nat) (r : BitVec w) : Option (BitVec w) :=
  match f.kind with
  | .number => f.field.set? v r
  | .flag => some (f.field.put (v != 0) r)

end NamedField

namespace Layout

variable {w : Nat}

def field? (l : Layout w) (name : String) : Option (NamedField w) :=
  l.fields.find? (·.name == name)

def values (l : Layout w) (r : BitVec w) : List (String × FieldValue) :=
  l.fields.map fun f => (f.name, f.value r)

/-- One assignment by name; refused if the field is unknown or the value too big. -/
def assign? (l : Layout w) (name : String) (v : Nat) (r : BitVec w) : Option (BitVec w) :=
  (l.field? name).bind fun f => f.assign? v r

/-- Assignments in order; the first refusal refuses them all. -/
def assignAll? (l : Layout w) (sets : List (String × Nat)) (r : BitVec w) : Option (BitVec w) :=
  sets.foldlM (fun r s => l.assign? s.1 s.2 r) r

end Layout

end RootComplex
