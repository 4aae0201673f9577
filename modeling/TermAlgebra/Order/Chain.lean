import TermAlgebra.Order.Measure
/-!
Chains of comparisons `a R b S c …`. Each link compares neighbours under the comparator of the left
one, and the chain holds when all its links do.
-/
namespace TermAlgebra

/-- A chain: the operand that the next link will have on its left, and the conjunction of the links
so far, none if there are none. -/
structure Chain (α : Type) where
  left : Operand α
  comparison : Option Comparison

namespace Chain

variable {α : Type}

def start (first : Operand α) : Chain α := ⟨first, none⟩

/-- The expression with one more link, to a value on the right. -/
def close (c : Chain α) (relation : Relation) (right : α) : Comparison :=
  let leaf := c.left.compare relation right
  match c.comparison with
  | some previous => .and previous leaf
  | none => leaf

/-- The chain with one more link, whose right operand is the left one of the link after it. -/
def link (c : Chain α) (relation : Relation) (next : Operand α) : Chain α :=
  ⟨next, some (c.close relation next.value)⟩

/-- Whether all links hold; a chain without links holds. -/
def holds (c : Chain α) : Bool :=
  match c.comparison with
  | some comparison => comparison.holds
  | none => true

/-- The chain after all the given links. -/
def linkAll (c : Chain α) (links : List (Relation × Operand α)) : Chain α :=
  links.foldl (fun c l => c.link l.1 l.2) c

/-- The chain after none, one, two, … of the given links. -/
def growth (c : Chain α) : List (Relation × Operand α) → List (Chain α)
  | [] => [c]
  | (relation, next) :: rest => c :: growth (c.link relation next) rest

end Chain

end TermAlgebra
