/-!
Relations, the outcomes they are asked of, and boolean expressions over them. An outcome may be
missing, when two values are incomparable; then no relation holds.
-/
namespace TermAlgebra

inductive Relation where
  | less
  | lessOrEqual
  | greater
  | greaterOrEqual
deriving DecidableEq

namespace Relation

/-- Whether the relation holds for an outcome. Incomparable values satisfy no relation. -/
def holds : Relation → Option Ordering → Bool
  | _, none => false
  | less, some o => o.isLT
  | lessOrEqual, some o => o.isLE
  | greater, some o => o.isGT
  | greaterOrEqual, some o => o.isGE

def text : Relation → String
  | less => "<"
  | lessOrEqual => "<="
  | greater => ">"
  | greaterOrEqual => ">="

end Relation

inductive Comparison where
  | rel (relation : Relation) (outcome : Option Ordering)
  | and (left right : Comparison)
  | or (left right : Comparison)
  | not (inner : Comparison)
deriving DecidableEq

def Comparison.holds : Comparison → Bool
  | rel relation outcome => relation.holds outcome
  | and left right => left.holds && right.holds
  | or left right => left.holds || right.holds
  | not inner => !inner.holds

end TermAlgebra
