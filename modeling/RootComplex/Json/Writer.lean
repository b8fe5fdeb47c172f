import RootComplex.Json.Value

/-! Writing JSON text on one line, without white space. -/

namespace RootComplex.Json

/-- Quotes, backslashes and control characters are escaped, all else is written as
it is. -/
def writeChar (c : Char) : String :=
  if c = '"' then "\\\""
  else if c = '\\' then "\\\\"
  else if c.toNat < 0x20 then
    "\\u00" ++ String.ofList [Nat.digitChar (c.toNat / 16), Nat.digitChar (c.toNat % 16)]
  else String.singleton c

def writeText (s : String) : String :=
  s.foldl (fun out c => out ++ writeChar c) "\"" ++ "\""

/-- A string that spells no text is written as one replacement character. -/
def writeTextOption (t : Option String) : String := writeText (t.getD "\uFFFD")

mutual

def write : Json → String
  | .null => "null"
  | .bool b => Text.bool b
  | .natural n => toString n
  | .number spelling => spelling
  | .text t => writeTextOption t
  | .array items => "[" ++ writeItems items ++ "]"
  | .object members => "\x7b" ++ writeMembers members ++ "\x7d"

def writeItems : List Json → String
  | [] => ""
  | [item] => item.write
  | item :: rest => item.write ++ "," ++ writeItems rest

def writeMembers : List (Option String × Json) → String
  | [] => ""
  | [(name, value)] => writeTextOption name ++ ":" ++ value.write
  | (name, value) :: rest =>
    writeTextOption name ++ ":" ++ value.write ++ "," ++ writeMembers rest

end

end RootComplex.Json
