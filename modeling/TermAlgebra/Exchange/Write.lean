import TermAlgebra.Json.Basic
import TermAlgebra.Pool.Basic
import TermAlgebra.Substitution
/-!
The exchange form: every value as JSON, with fields in a fixed order. Variables are written by their
labels, so a written value does not say which pool a variable came from.
-/
namespace TermAlgebra

def Constant.toJson (c : Constant) : Json := .object [("name", .string c.name)]

/-- A function symbol is an object with its name and arity. -/
def FunctionSymbol.toJson (f : FunctionSymbol) : Json :=
  .object [("name", .string f.name), ("arity", .natural f.arity.toNat)]

/-- A label is an object with its name, and its index if it has one. -/
def Label.toJson (l : Label) : Json :=
  match l.index with
  | none => .object [("name", .string l.name)]
  | some i => .object [("name", .string l.name), ("index", .natural i.toNat)]

/-- The exchange form of the symbol's own kind, which is not marked. Symbols as such have no
exchange form: none is read back, and none stands in a written term. -/
def Symbol.toJson : Symbol Label → Json
  | const c => c.toJson
  | func f => f.toJson
  | var l => l.toJson

/-- An application is an object with its symbol and its arguments. -/
def Json.application (f : FunctionSymbol) (args : List Json) : Json :=
  .object [("root", f.toJson), ("children", .array args)]

namespace Term

mutual

def toJson : Term Label → Json
  | const c => .object [("Constant", c.toJson)]
  | var l => .object [("Variable", l.toJson)]
  | app f args => .object [("Application", .application f (toJsonAll args))]

def toJsonAll : List (Term Label) → List Json
  | [] => []
  | t :: rest => toJson t :: toJsonAll rest

end

/-- A term without the field that is named for its kind. -/
def bodyToJson : Term Label → Json
  | const c => c.toJson
  | var l => l.toJson
  | app f args => .application f (toJsonAll args)

end Term

def Position.toJson (p : Position) : Json := .array (p.map Json.natural)

def Substitution.toJson (s : Substitution Label) : Json :=
  .array (s.toList.map fun b => .array [b.1.toJson, b.2.toJson])

def Pool.Config.toJson (c : Pool.Config) : Json :=
  .object [("first_index", .natural c.firstIndex.toNat),
    ("anonymous_name", .string c.anonymousName)]

end TermAlgebra
