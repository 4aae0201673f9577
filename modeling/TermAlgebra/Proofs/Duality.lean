import TermAlgebra.Proofs.OrderedChains
/-!
Comparison expressions and their duals. The dual of an expression is its negation pushed down to the
leaves, and there it becomes the complement of the relation. For comparable values the complement
holds when the relation does not; of incomparable values neither holds, and so the dual can fail
together with the expression. What is left of the law depends on the negations above a leaf: under
an even number of them an outcome that goes missing can only make an expression fail, under an odd
number it can only make it hold (`Leaning.entails_obscured`), and likewise an expression and its
dual cannot both hold in the one case, and not both fail in the other (`Leaning.entails_dual`).
-/
namespace TermAlgebra

theorem Relation.holds_none (r : Relation) : r.holds none = false := by
  cases r <;> rfl

namespace Comparison

/-- Conjunctions and disjunctions change places, and every relation becomes its complement. The
outcomes that were measured stay, and so do the negations. -/
def dual : Comparison → Comparison
  | rel relation outcome => rel relation.complement outcome
  | and left right => or left.dual right.dual
  | or left right => and left.dual right.dual
  | not inner => not inner.dual

/-- No leaf of the expression is about incomparable values. -/
def Comparable : Comparison → Prop
  | rel _ outcome => outcome ≠ none
  | and left right | or left right => left.Comparable ∧ right.Comparable
  | not inner => inner.Comparable

theorem Comparable.holds_dual {e : Comparison} (comparable : e.Comparable) :
    e.dual.holds = !e.holds := by
  induction e with
  | rel relation outcome =>
    obtain ⟨o, rfl⟩ := Option.ne_none_iff_exists'.1 comparable
    exact relation.holds_complement o
  | and left right ihLeft ihRight =>
    rw [dual, holds, holds, ihLeft comparable.1, ihRight comparable.2, Bool.not_and]
  | or left right ihLeft ihRight =>
    rw [dual, holds, holds, ihLeft comparable.1, ihRight comparable.2, Bool.not_or]
  | not inner ih => rw [dual, holds, holds, ih comparable]

/-- No part of the expression is a negation. -/
def NegationFree : Comparison → Prop
  | rel _ _ => True
  | and left right | or left right => left.NegationFree ∧ right.NegationFree
  | not _ => False

/-- Every leaf of the expression lies under an even number of negations, or every one under an odd
number. -/
def Leaning : Bool → Comparison → Prop
  | even, rel _ _ => even = true
  | even, and left right | even, or left right => left.Leaning even ∧ right.Leaning even
  | even, not inner => inner.Leaning !even

theorem NegationFree.leaning {e : Comparison} (free : e.NegationFree) : e.Leaning true := by
  induction e with
  | rel relation outcome => rfl
  | and left right ihLeft ihRight => exact ⟨ihLeft free.1, ihRight free.2⟩
  | or left right ihLeft ihRight => exact ⟨ihLeft free.1, ihRight free.2⟩
  | not inner ih => exact free.elim

/-- The second expression is the first one, with any number of outcomes turned into incomparable
ones. -/
inductive Obscured : Comparison → Comparison → Prop where
  | kept (relation : Relation) (outcome : Option Ordering) :
      Obscured (rel relation outcome) (rel relation outcome)
  | lost (relation : Relation) (outcome : Option Ordering) :
      Obscured (rel relation outcome) (rel relation none)
  | and {left left' right right' : Comparison} (first : Obscured left left')
      (second : Obscured right right') : Obscured (and left right) (and left' right')
  | or {left left' right right' : Comparison} (first : Obscured left left')
      (second : Obscured right right') : Obscured (or left right) (or left' right')
  | not {inner inner' : Comparison} (inside : Obscured inner inner') :
      Obscured (not inner) (not inner')

/-- The first truth value implies the second, or the other way round. -/
def Entails (forward : Bool) (a b : Bool) : Prop :=
  if forward then a = true → b = true else b = true → a = true

namespace Entails

variable {forward a b c d : Bool}

theorem refl (forward a : Bool) : Entails forward a a := by
  cases forward <;> exact id

theorem and (first : Entails forward a b) (second : Entails forward c d) :
    Entails forward (a && c) (b && d) := by
  cases forward <;> simp only [Entails, Bool.and_eq_true] at * <;> exact And.imp first second

theorem or (first : Entails forward a b) (second : Entails forward c d) :
    Entails forward (a || c) (b || d) := by
  cases forward <;> simp only [Entails, Bool.or_eq_true] at * <;> exact Or.imp first second

/-- Negation turns an implication round. -/
theorem not (inside : Entails (!forward) a b) : Entails forward (!a) (!b) := by
  cases forward <;> cases a <;> cases b <;> simp_all [Entails]

end Entails

variable {e e' : Comparison} {even : Bool}

theorem Leaning.entails_obscured (leaning : e.Leaning even) (obscured : e.Obscured e') :
    Entails even e'.holds e.holds := by
  induction obscured generalizing even with
  | kept relation outcome => exact Entails.refl even _
  | lost relation outcome =>
    obtain rfl : even = true := leaning
    intro satisfied
    rw [holds, relation.holds_none] at satisfied
    cases satisfied
  | and _ _ ihFirst ihSecond => exact (ihFirst leaning.1).and (ihSecond leaning.2)
  | or _ _ ihFirst ihSecond => exact (ihFirst leaning.1).or (ihSecond leaning.2)
  | not _ ih => exact Entails.not (ih leaning)

theorem Leaning.entails_dual (leaning : e.Leaning even) :
    Entails even e.holds !e.dual.holds := by
  induction e generalizing even with
  | rel relation outcome =>
    obtain rfl : even = true := leaning
    intro satisfied
    cases outcome with
    | none =>
      rw [holds, relation.holds_none] at satisfied
      cases satisfied
    | some o => rwa [dual, holds, relation.holds_complement, Bool.not_not]
  | and left right ihLeft ihRight =>
    rw [dual, holds, holds, Bool.not_or]
    exact (ihLeft leaning.1).and (ihRight leaning.2)
  | or left right ihLeft ihRight =>
    rw [dual, holds, holds, Bool.not_and]
    exact (ihLeft leaning.1).or (ihRight leaning.2)
  | not inner ih =>
    rw [dual, holds, holds]
    exact Entails.not (ih leaning)

/-- The dual says the opposite as long as all values are comparable. Without negations what remains
for incomparable values is that an expression and its dual do not both hold, and that turning
outcomes into incomparable ones can only make the expression fail. -/
theorem duality (e : Comparison) :
    (e.Comparable → e.dual.holds = !e.holds) ∧
    (e.NegationFree → ¬ (e.holds = true ∧ e.dual.holds = true)) ∧
    (e.NegationFree → ∀ e', e.Obscured e' → e'.holds = true → e.holds = true) := by
  refine ⟨Comparable.holds_dual, ?apart, ?fewer⟩
  case apart =>
    rintro free ⟨satisfied, dualSatisfied⟩
    have opposite : (!e.dual.holds) = true := free.leaning.entails_dual satisfied
    rw [dualSatisfied] at opposite
    cases opposite
  case fewer =>
    intro free e' obscured
    exact free.leaning.entails_obscured obscured

/-- A disjunction that holds because of its comparable side fails when this outcome is lost too. The
other expression has a negation, and its dual says the opposite all the same. -/
theorem duality_incomparable :
    let e : Comparison := .or (.rel .less (some .lt)) (.rel .greaterOrEqual none)
    let e' : Comparison := .or (.rel .less none) (.rel .greaterOrEqual none)
    let c : Comparison := .not (.and (.rel .less (some .lt)) (.rel .greater (some .eq)))
    e.NegationFree ∧ e.Obscured e' ∧ ¬ (e.holds = true ∧ e.dual.holds = true) ∧
      (e'.holds = true → e.holds = true) ∧ c.Comparable ∧ c.dual.holds = !c.holds := by
  intro e e' c
  have free : e.NegationFree := ⟨trivial, trivial⟩
  have obscured : e.Obscured e' := .or (.lost _ _) (.kept _ _)
  have comparable : c.Comparable := ⟨Option.some_ne_none _, Option.some_ne_none _⟩
  exact ⟨free, obscured, (duality e).2.1 free, (duality e).2.2 free e' obscured, comparable,
    (duality c).1 comparable⟩

/-- Under a negation an incomparable outcome satisfies an expression and its dual. -/
example : (Comparison.not (.rel .less none)).holds = true ∧
    (Comparison.not (.rel .less none)).dual.holds = true := by decide

end Comparison

end TermAlgebra
