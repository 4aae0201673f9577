import TermAlgebra.Order.Comparison
/-!
Measures, which compare values by comparing keys, and values that carry a measure of their own.
When such a value is compared with something on its right, its measure is used on both sides.
-/
namespace TermAlgebra

/-- Keys of which some pairs can be compared. -/
class PartialCompare (κ : Type) where
  partialCompare : κ → κ → Option Ordering

export PartialCompare (partialCompare)

/-- Keys with a total order are always comparable. -/
instance (priority := low) {κ : Type} [Ord κ] : PartialCompare κ :=
  ⟨fun a b => some (compare a b)⟩

/-- A way to compare values. -/
abbrev Comparator (α : Type) := α → α → Option Ordering

/-- A way to compare values by their keys. -/
structure Measure (α κ : Type) where
  key : α → κ

def Measure.compare {α κ : Type} [PartialCompare κ] (m : Measure α κ) : Comparator α :=
  fun left right => partialCompare (m.key left) (m.key right)

/-- A value with the comparator that is used when it stands on the left. -/
structure Operand (α : Type) where
  value : α
  comparator : Comparator α

namespace Operand

variable {α : Type}

/-- A value that is compared by a measure. -/
def measured {κ : Type} [PartialCompare κ] (m : Measure α κ) (value : α) : Operand α :=
  ⟨value, m.compare⟩

/-- The outcome against a value on the right, under this operand's own comparator. -/
def compareTo (a : Operand α) (right : α) : Option Ordering := a.comparator a.value right

/-- The outcome against a value on the right, asked for as a relation. -/
def compare (a : Operand α) (relation : Relation) (right : α) : Comparison :=
  .rel relation (a.compareTo right)

instance [BEq α] : BEq (Operand α) := ⟨fun a b => a.value == b.value⟩

end Operand

end TermAlgebra
