import TermAlgebra.Order.Measure
import TermAlgebra.Variable
/-!
The weight of a term: the weights of all its symbol occurrences together, in 64-bit arithmetic that
stops at the largest number.
-/
namespace TermAlgebra

/-- The sum of two numbers, or the largest number if that is too great. -/
def saturatingAdd (a b : UInt64) : UInt64 :=
  if a.toNat + b.toNat < UInt64.size then a + b else 18446744073709551615

structure Weight where
  /-- Weights of constants and function symbols by name. -/
  symbols : Table String UInt64 := .empty
  /-- The weight of a constant or function symbol that is not listed. -/
  unlisted : UInt64 := 1
  perVariable : UInt64 := 1
deriving Inhabited

namespace Weight

variable {ν : Type}

/-- Two configurations are equal when they list the same weights, in whatever order. -/
instance : BEq Weight := ⟨fun w x =>
  w.symbols.sameBindings x.symbols && w.unlisted == x.unlisted && w.perVariable == x.perVariable⟩

def ofName (w : Weight) (name : String) : UInt64 := (w.symbols.get? name).getD w.unlisted

mutual

/-- The weight of a term: its root's, to which the arguments' are added from left to right. -/
def ofTerm (w : Weight) : Term ν → UInt64
  | .var _ => w.perVariable
  | .const c => w.ofName c.name
  | .app f args => ofTerms w (w.ofName f.name) args

def ofTerms (w : Weight) (total : UInt64) : List (Term ν) → UInt64
  | [] => total
  | t :: rest => ofTerms w (saturatingAdd total (ofTerm w t)) rest

end

def measure (w : Weight) : Measure (Term ν) UInt64 := ⟨w.ofTerm⟩

end Weight

end TermAlgebra
