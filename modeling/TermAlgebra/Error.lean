import TermAlgebra.Position
import TermAlgebra.Symbol
/-!
The ways in which building, addressing and renaming terms can fail, and the sentence that reports
each of them.
-/
namespace TermAlgebra

/-- What a function symbol was asked for although it is no term. -/
inductive Operation where
  | listVariables
  | useAsTerm
deriving DecidableEq

/-- The operation as the report words it. -/
def Operation.text : Operation → String
  | .listVariables => "variables"
  | .useAsTerm => "use as a term"

/-- Why an operation on terms gave no result. -/
inductive TermError where
  /-- A function symbol was declared with arity zero. -/
  | invalidArity (name : String)
  /-- A function symbol was given `found` arguments, which is not its arity. -/
  | arityMismatch (symbol : FunctionSymbol) (found : Nat)
  /-- The term has no subterm at the position that was asked for. -/
  | invalidPosition (position : Position)
  /-- A function symbol alone is not a term. -/
  | unsupportedOperand (operation : Operation) (operand : FunctionSymbol)
  /-- The value, given by its text, belongs to no pool that is still open. -/
  | notPoolBound (value : String)
  /-- Every index of the name has been issued or reserved. -/
  | indexExhausted (name : String)
deriving DecidableEq

def TermError.message : TermError → String
  | .invalidArity name =>
    "Invalid arity for function symbol " ++ name ++
      ": arity must be 1 or greater, use a constant for arity 0"
  | .arityMismatch symbol found =>
    "Incorrect number of child terms for " ++ symbol.text ++
      ": expected " ++ symbol.arity.toNat.repr ++ ", found " ++ found.repr
  | .invalidPosition position => "Invalid position: " ++ position.text
  | .unsupportedOperand operation operand =>
    "Value does not support " ++ operation.text ++ ": " ++ operand.text
  | .notPoolBound value => "Value is not associated with a variable pool: " ++ value
  | .indexExhausted name => "No fresh index left for variable " ++ name

/-- Declares a function symbol, which must have at least one argument. -/
def FunctionSymbol.declare (name : String) (arity : UInt64) : Except TermError FunctionSymbol :=
  match FunctionSymbol.ofArity? name arity with
  | some f => .ok f
  | none => .error (.invalidArity name)

end TermAlgebra
