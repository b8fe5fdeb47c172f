import RootComplex.Word

/-! JSON values, kept as they are written: natural numbers apart from all other
numbers, members in order with repeated names, and strings that may spell no text. -/

namespace RootComplex

inductive Json where
  | null
  | bool (b : Bool)
  /-- A number without sign, fraction and exponent. -/
  | natural (n : Nat)
  /-- Any other number, as it is spelled. -/
  | number (spelling : String)
  /-- A string; `none` if its escapes leave a surrogate without its partner, which
  the grammar allows and no text can hold. -/
  | text (t : Option String)
  | array (items : List Json)
  | object (members : List (Option String × Json))

namespace Json

def str (s : String) : Json := .text (some s)

def ofMembers (members : List (String × Json)) : Json :=
  .object (members.map fun m => (some m.1, m.2))

def hex (n : Nat) : Json := .str (Text.hex n)

def ofOption {α : Type} (f : α → Json) : Option α → Json
  | none => .null
  | some a => f a

def member? (name : String) : Json → Option Json
  | .object members => (members.find? (·.1 == some name)).map (·.2)
  | _ => none

def text? : Json → Option String
  | .text t => t
  | _ => none

def natural? : Json → Option Nat
  | .natural n => some n
  | _ => none

def items? : Json → Option (List Json)
  | .array items => some items
  | _ => none

end Json

end RootComplex
