import TermAlgebra.Order.Weight
import TermAlgebra.Term.Occurrence
/-!
Ready-made measures for integers and for terms. Their keys are grades: a number, a text, or a grade
of its own for values that nothing can be compared with, not even themselves.
-/
namespace TermAlgebra

/-- The key of a ready-made measure. -/
inductive Grade where
  | number (n : Int)
  | text (s : String)
  | incomparable
deriving DecidableEq

namespace Grade

instance : PartialCompare Grade where
  partialCompare
    | number m, number n => some (compare m n)
    | text s, text t => some (compare s t)
    | _, _ => none

/-- The grade written out; there is nothing to write for an incomparable value. -/
def show? : Grade → Option String
  | number n => some n.repr
  | text s => some s
  | incomparable => none

end Grade

/-- Ready-made measures for integers. -/
inductive IntScale where
  | ascending
  /-- The number with its sign changed. -/
  | descending
  /-- The distance from zero. -/
  | magnitude
  /-- The least non-negative number that leaves the same remainder on division by `divisor`. -/
  | residue (divisor : Nat)
  /-- The number itself if it is even; odd numbers are incomparable. -/
  | evens
  /-- Nothing: all numbers are alike. -/
  | indifferent

def IntScale.grade : IntScale → Int → Grade
  | ascending, n => .number n
  | descending, n => .number (-n)
  | magnitude, n => .number n.natAbs
  | residue divisor, n => .number (n % divisor)
  | evens, n => if n % 2 = 0 then .number n else .incomparable
  | indifferent, _ => .number 0

def IntScale.measure (s : IntScale) : Measure Int Grade := ⟨s.grade⟩

/-- Ready-made measures for terms. -/
inductive TermScale where
  /-- The weight under a configuration. -/
  | weight (w : Weight)
  | size
  | depth
  /-- The size of a term without variables; other terms are incomparable. -/
  | ground
  | text

def TermScale.grade : TermScale → Term Variable → Grade
  | weight w, t => .number (w.ofTerm t).toNat
  | size, t => .number t.size
  | depth, t => .number t.depth
  | ground, t => if t.occurrences.isEmpty then .number t.size else .incomparable
  | text, t => .text t.labels.text

def TermScale.measure (s : TermScale) : Measure (Term Variable) Grade := ⟨s.grade⟩

end TermAlgebra
