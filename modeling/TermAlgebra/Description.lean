import TermAlgebra.Pool.Registry
/-!
Descriptions: texts that show how a value is built up, field by field, with names in quotes. They
serve inspection; unlike the exchange form they are not read back.

Characters are escaped by fixed ranges. Format characters, separators, combining marks, and private
and unassigned code points would be escaped too in a full inspection text; which these are depends
on the edition of Unicode, and here they stand for themselves.
-/
namespace TermAlgebra

namespace Description

/-- How a character stands in a described text: quotes, backslashes and control characters are
escaped, also the controls from 0x7f to 0x9f. -/
def escape (c : Char) : String :=
  if c = '"' then "\\\""
  else if c = '\\' then "\\\\"
  else if c = '\n' then "\\n"
  else if c = '\r' then "\\r"
  else if c = '\t' then "\\t"
  else if c = '\x00' then "\\0"
  else if c.toNat < 0x20 ∨ (0x7f ≤ c.toNat ∧ c.toNat < 0xa0) then
    "\\u\x7b" ++ String.ofList (Nat.toDigits 16 c.toNat) ++ "\x7d"
  else c.toString

/-- A text in quotes. -/
def quoted (s : String) : String := "\"" ++ String.join (s.toList.map escape) ++ "\""

def listed (parts : List String) : String := String.intercalate ", " parts

def record (name : String) (fields : List (String × String)) : String :=
  name ++ " \x7b " ++ listed (fields.map fun f => f.1 ++ ": " ++ f.2) ++ " \x7d"

/-- A value marked with its kind. -/
def kind (name : String) (inner : String) : String := name ++ "(" ++ inner ++ ")"

end Description

open Description

def Constant.description (c : Constant) : String := record "Constant" [("name", quoted c.name)]

def FunctionSymbol.description (f : FunctionSymbol) : String :=
  record "Function" [("name", quoted f.name), ("arity", f.arity.toNat.repr)]

/-- A variable with its name, and its index if it has one. -/
def Label.description (l : Label) : String :=
  let name := ("name", quoted l.name)
  match l.index with
  | none => record "Variable" [name]
  | some i => record "Variable" [name, ("index", i.toNat.repr)]

def Symbol.description : Symbol Label → String
  | const c => kind "Constant" c.description
  | func f => kind "Function" f.description
  | var l => kind "Variable" l.description

namespace Term

mutual

/-- A term marked with its kind. -/
def description : Term Label → String
  | const c => kind "Constant" c.description
  | var l => kind "Variable" l.description
  | app f args =>
    kind "Application" (record "Application"
      [("root", f.description), ("children", "[" ++ listed (descriptions args) ++ "]")])

def descriptions : List (Term Label) → List String
  | [] => []
  | t :: rest => description t :: descriptions rest

end

end Term

def Position.description (p : Position) : String := kind "Position" p.text

def Substitution.description (s : Substitution Label) : String :=
  let bindings := s.toList.map fun b => b.1.description ++ ": " ++ b.2.description
  record "Substitution" [("map", "\x7b" ++ listed bindings ++ "\x7d")]

def Pool.Config.description (c : Pool.Config) : String :=
  record "PoolConfig"
    [("first_index", c.firstIndex.toNat.repr), ("anonymous_name", quoted c.anonymousName)]

def Pool.description (p : Pool) : String :=
  record "VariablePool" [("config", p.config.description), ("names", p.names.size.repr)]

end TermAlgebra
