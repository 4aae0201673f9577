import Mathlib.Data.List.Induction
import Mathlib.Logic.Relation
import TermAlgebra.Position
/-!
Positions above one another, and positions beside one another. One position is above another when
its path is the beginning of the other path; this is the same as getting from the one to the other
by going to children (`isAbove_iff_descends`), and back by going to parents
(`isAbove_iff_ascends`). Of two positions of which neither is above the other, one parts from their
common way to the left (`LeftOf`), and then so does all that is below it. The lexicographic order is
put together from these two relations (`compare_eq_lt_iff`).
-/
namespace TermAlgebra.Position

variable {p q r : Position}

theorem compare_cons_lt {i j : Nat} {p q : Position} :
    compare (i :: p : Position) (j :: q) = .lt ↔ i < j ∨ i = j ∧ compare p q = .lt := by
  rw [List.compare_cons_cons, Ordering.then_eq_lt, Nat.compare_eq_lt, Nat.compare_eq_eq]

theorem compare_append_left (r p q : Position) :
    compare (r ++ p : Position) (r ++ q) = compare p q := by
  induction r with
  | nil => rfl
  | cons i r ih =>
    rw [List.cons_append, List.cons_append, List.compare_cons_cons, ih, Nat.compare_eq_eq.2 rfl]
    rfl

theorem compare_append_self (p q : Position) : compare p (p ++ q : Position) = compare root q := by
  have suffixes := compare_append_left p root q
  rwa [root, List.append_nil] at suffixes

/-- Nothing below a position comes before it. -/
theorem compare_append_ne_lt (p q : Position) : compare (p ++ q : Position) p ≠ .lt := by
  intro before
  have after : compare p (p ++ q : Position) = .gt := Std.OrientedCmp.gt_of_lt before
  rw [compare_append_self] at after
  cases q <;> cases after

theorem isAbove_refl (p : Position) : p.isAbove p = true := isAbove_iff.2 (List.prefix_refl p)

theorem isAbove_trans (first : p.isAbove q = true) (second : q.isAbove r = true) :
    p.isAbove r = true :=
  isAbove_iff.2 ((isAbove_iff.1 first).trans (isAbove_iff.1 second))

theorem isAbove_antisymm (there : p.isAbove q = true) (back : q.isAbove p = true) : p = q :=
  (isAbove_iff.1 there).eq_of_length_le (isAbove_iff.1 back).length_le

theorem isAbove_child (p : Position) (i : Nat) : p.isAbove (p.child i) = true :=
  isAbove_iff.2 (List.prefix_append p [i])

theorem isAbove_cons (i : Nat) (above : p.isAbove q = true) : isAbove (i :: p) (i :: q) = true :=
  isAbove_iff.2 (List.cons_prefix_cons.2 ⟨rfl, isAbove_iff.1 above⟩)

theorem parent?_child (p : Position) (i : Nat) : (p.child i).parent? = some p := by
  cases p with
  | nil => rfl
  | cons j p =>
    show some ((j :: p) ++ [i]).dropLast = _
    rw [List.dropLast_concat]

theorem parent?_eq_some_iff : q.parent? = some p ↔ ∃ i, q = p.child i := by
  constructor
  · intro up
    cases q with
    | nil => cases up
    | cons i q =>
      obtain rfl := Option.some.inj up
      exact ⟨_, (List.dropLast_concat_getLast (List.cons_ne_nil i q)).symm⟩
  · rintro ⟨i, rfl⟩
    exact parent?_child p i

/-- From one position to another by going to a child any number of times. -/
def Descends : Position → Position → Prop :=
  Relation.ReflTransGen fun upper lower => ∃ i, lower = upper.child i

/-- From one position to another by going to the parent any number of times. -/
def Ascends : Position → Position → Prop :=
  Relation.ReflTransGen fun lower upper => lower.parent? = some upper

theorem isAbove_iff_descends : p.isAbove q = true ↔ p.Descends q := by
  constructor
  · intro above
    obtain ⟨path, rfl⟩ := isAbove_iff.1 above
    induction path using List.reverseRecOn with
    | nil =>
      rw [List.append_nil]
      exact .refl
    | append_singleton path i ih =>
      exact .tail (ih (isAbove_iff.2 (List.prefix_append p path)))
        ⟨i, (List.append_assoc p path [i]).symm⟩
  · intro descends
    induction descends with
    | refl => exact isAbove_refl p
    | tail _ step above =>
      obtain ⟨i, rfl⟩ := step
      exact isAbove_trans above (isAbove_child _ i)

/-- Each step up undoes a step down. -/
theorem isAbove_iff_ascends : p.isAbove q = true ↔ q.Ascends p := by
  rw [isAbove_iff_descends, Descends, Ascends, ← Relation.reflTransGen_swap]
  simp only [parent?_eq_some_iff]

/-- From some common way `p` goes on to an earlier child than `q`. -/
def LeftOf (p q : Position) : Prop :=
  ∃ (r : Position) (i j : Nat), i < j ∧ (r.child i).isAbove p = true ∧ (r.child j).isAbove q = true

theorem leftOf_of_lt {i j : Nat} (less : i < j) (p q : Position) : LeftOf (i :: p) (j :: q) :=
  ⟨root, i, j, less, isAbove_iff.2 (List.prefix_append [i] p),
    isAbove_iff.2 (List.prefix_append [j] q)⟩

theorem LeftOf.below {p' q' : Position} (left : p.LeftOf q) (above : p.isAbove p' = true)
    (above' : q.isAbove q' = true) : p'.LeftOf q' := by
  obtain ⟨r, i, j, less, onPath, onPath'⟩ := left
  exact ⟨r, i, j, less, isAbove_trans onPath above, isAbove_trans onPath' above'⟩

theorem LeftOf.cons (i : Nat) (left : p.LeftOf q) : LeftOf (i :: p) (i :: q) := by
  obtain ⟨r, j, k, less, onPath, onPath'⟩ := left
  exact ⟨i :: r, j, k, less, isAbove_cons i onPath, isAbove_cons i onPath'⟩

theorem LeftOf.compare_eq_lt (left : p.LeftOf q) : compare p q = .lt := by
  obtain ⟨r, i, j, less, onPath, onPath'⟩ := left
  obtain ⟨s, rfl⟩ := isAbove_iff.1 onPath
  obtain ⟨t, rfl⟩ := isAbove_iff.1 onPath'
  rw [child, child, List.append_assoc, List.append_assoc, compare_append_left]
  exact compare_cons_lt.2 (.inl less)

theorem LeftOf.not_isAbove (left : p.LeftOf q) : p.isAbove q = false := by
  rw [← Bool.not_eq_true]
  intro above
  have irreflexive := (left.below above (isAbove_refl q)).compare_eq_lt
  rw [Std.ReflOrd.compare_self] at irreflexive
  cases irreflexive

/-- A position comes before those properly below it and before those to its right. The two paths are
followed to their first difference: one of them ends there, or both go on, to different children. -/
theorem compare_eq_lt_iff :
    compare p q = .lt ↔ p.isAbove q = true ∧ p ≠ q ∨ p.LeftOf q := by
  constructor
  · intro before
    induction p generalizing q with
    | nil =>
      refine .inl ⟨rfl, ?_⟩
      rintro rfl
      cases before
    | cons i p ih =>
      cases q with
      | nil => cases before
      | cons j q =>
        rcases compare_cons_lt.1 before with less | ⟨rfl, rest⟩
        · exact .inr (leftOf_of_lt less p q)
        · rcases ih rest with ⟨above, other⟩ | left
          · exact .inl ⟨isAbove_cons i above, fun same => other (List.cons.inj same).2⟩
          · exact .inr (left.cons i)
  · rintro (⟨above, other⟩ | left)
    · obtain ⟨path, rfl⟩ := isAbove_iff.1 above
      rw [compare_append_self]
      cases path with
      | nil => exact absurd (List.append_nil p).symm other
      | cons i path => rfl
    · exact left.compare_eq_lt

theorem isLE_compare_of_isAbove (above : p.isAbove q = true) : (compare p q).isLE = true := by
  obtain ⟨path, rfl⟩ := isAbove_iff.1 above
  rw [compare_append_self]
  cases path <;> rfl

/-- What is so of positions above one another, and of the order in which positions are compared. -/
structure TreeOrder : Prop where
  byChildren : ∀ p q : Position, p.isAbove q = true ↔ p.Descends q
  byParents : ∀ p q : Position, p.isAbove q = true ↔ q.Ascends p
  before : ∀ p q : Position, p.isAbove q = true → (compare p q).isLE = true
  refl : ∀ p : Position, p.isAbove p = true
  trans : ∀ p q r : Position, p.isAbove q = true → q.isAbove r = true → p.isAbove r = true
  antisymm : ∀ p q : Position, p.isAbove q = true → q.isAbove p = true → p = q
  least : ∀ p : Position, root.isAbove p = true
  /-- What is below the first of two positions beside one another comes before what is below the
  second. -/
  beside : ∀ p q : Position, compare p q = .lt → p.isAbove q = false →
    ∀ p' q' : Position, p.isAbove p' = true → q.isAbove q' = true → compare p' q' = .lt

/-- Being above one another is a partial order with the root above all: the order of going down to
children, and of going back up to parents. Comparing paths extends it, so that of two positions
which are not above one another everything below the first comes before everything below the
second. -/
theorem tree_order : TreeOrder where
  byChildren p q := isAbove_iff_descends
  byParents p q := isAbove_iff_ascends
  before p q := isLE_compare_of_isAbove
  refl := isAbove_refl
  trans p q r := isAbove_trans
  antisymm p q := isAbove_antisymm
  least p := rfl
  beside p q before apart p' q' above above' := by
    rcases compare_eq_lt_iff.1 before with ⟨onPath, -⟩ | left
    · rw [onPath] at apart
      cases apart
    · exact (left.below above above').compare_eq_lt

/-- `[0, 2]` and `[1]` part at the root, so that `[0, 2, 7]` comes before `[1, 0]`; the way from
`[1]` down to `[1, 0]` leads back. -/
theorem tree_order_parting :
    compare ([0, 2] : Position) [1] = .lt ∧ isAbove [0, 2] [1] = false ∧
      compare ([0, 2, 7] : Position) [1, 0] = .lt ∧ Descends [1] [1, 0] ∧ Ascends [1, 0] [1] :=
  ⟨rfl, rfl, tree_order.beside [0, 2] [1] rfl rfl [0, 2, 7] [1, 0] rfl rfl,
    (tree_order.byChildren [1] [1, 0]).1 rfl, (tree_order.byParents [1] [1, 0]).1 rfl⟩

end TermAlgebra.Position
