/-!
Putting values in ascending order.
-/
namespace TermAlgebra

/-- The values in ascending order; values that compare as equal keep their order. -/
def ascending {α : Type} [Ord α] (xs : List α) : List α :=
  xs.mergeSort fun a b => (compare a b).isLE

end TermAlgebra
