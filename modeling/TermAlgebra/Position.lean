/-!
Positions are paths of child indices from the root of a term down to a subterm. The empty path is
the whole term. They are compared lexicographically, so a position comes before all its extensions.
Indices are natural numbers; only those that are read from a text are checked to be words.
-/
namespace TermAlgebra

/-- A path from the root; each element selects a child, counted from zero. -/
abbrev Position := List Nat

namespace Position

def root : Position := []

def child (p : Position) (i : Nat) : Position := p ++ [i]

/-- One level up; the root has no parent. -/
def parent? : Position → Option Position
  | [] => none
  | i :: p => some (i :: p).dropLast

/-- Whether `q` lies at or below `p`. -/
def isAbove (p q : Position) : Bool := p.isPrefixOf q

theorem isAbove_iff {p q : Position} : p.isAbove q = true ↔ p <+: q :=
  List.isPrefixOf_iff_prefix

theorem isAbove_eq_false_iff {p q : Position} : p.isAbove q = false ↔ ¬ p <+: q := by
  rw [← isAbove_iff, Bool.not_eq_true]

def text (p : Position) : String :=
  "[" ++ String.intercalate ", " (p.map Nat.repr) ++ "]"

/-- One step of a walk through the positions of a tree. -/
inductive Move where
  | child (index : Nat)
  | parent
  | reset
deriving DecidableEq

/-- Where a move leads; only leaving the root upwards leads nowhere. -/
def Move.apply? (p : Position) : Move → Option Position
  | .child i => some (p.child i)
  | .parent => p.parent?
  | .reset => some root

/-- What each move of a walk gave, and where the walk ends. A move that leads nowhere leaves the
walker in place. -/
def walk (p : Position) : List Move → List (Option Position) × Position
  | [] => ([], p)
  | m :: rest =>
    let next := m.apply? p
    let (trail, last) := walk (next.getD p) rest
    (next :: trail, last)

end Position

end TermAlgebra
