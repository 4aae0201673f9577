import TermAlgebra.Order.Chain
import TermAlgebra.Order.Scale
/-!
Chains, link by link. Every operand but the last stands on the left of one link, which compares it
with the next operand's value; `leaves` lists these comparisons. What a chain accumulates is their
conjunction, bracketed to the left (`comparison_linkAll`), and all that a chain says follows from
that: when it holds, what breaks it, and which comparisons an operand's comparator can change.
-/
namespace TermAlgebra

namespace Comparison

/-- The conjunction of comparisons in their order, bracketed to the left. There is none of no
comparisons. -/
def conjunction : List Comparison → Option Comparison
  | [] => none
  | leaf :: rest => some (rest.foldl .and leaf)

theorem holds_foldl_and (e : Comparison) (rest : List Comparison) :
    (rest.foldl .and e).holds = (e.holds && rest.all holds) := by
  induction rest generalizing e with
  | nil => rw [List.foldl_nil, List.all_nil, Bool.and_true]
  | cons leaf rest ih => rw [List.foldl_cons, ih, holds, List.all_cons, Bool.and_assoc]

/-- What is accumulated so far may be taken for a single comparison when more are added. -/
theorem conjunction_append (es rest : List Comparison) :
    conjunction ((conjunction es).toList ++ rest) = conjunction (es ++ rest) := by
  cases es with
  | nil => rfl
  | cons e es =>
    show some (rest.foldl .and (es.foldl .and e)) = some ((es ++ rest).foldl .and e)
    rw [List.foldl_append]

end Comparison

namespace Chain

open Comparison

variable {α : Type}

/-- The operands of a chain, from left to right. -/
def operands (first : Operand α) (links : List (Relation × Operand α)) : List (Operand α) :=
  first :: links.map (·.2)

/-- The comparison that each link makes, in order: the operand before the link with the operand
after it, under the comparator of the former. -/
def leaves (first : Operand α) (links : List (Relation × Operand α)) : List Comparison :=
  List.zipWith (fun left link => left.compare link.1 link.2.value) (operands first links) links

/-- The link in place `i` of a chain, with the operand on its left. -/
structure LinkAt (first : Operand α) (links : List (Relation × Operand α)) (i : Nat)
    (left : Operand α) (relation : Relation) (right : Operand α) : Prop where
  before : (operands first links)[i]? = some left
  link : links[i]? = some (relation, right)

variable {first first' : Operand α} {links links' : List (Relation × Operand α)}

theorem leaves_cons (first : Operand α) (link : Relation × Operand α)
    (links : List (Relation × Operand α)) :
    leaves first (link :: links) = first.compare link.1 link.2.value :: leaves link.2 links := rfl

theorem length_leaves (first : Operand α) (links : List (Relation × Operand α)) :
    (leaves first links).length = links.length := by
  simp [leaves, operands]

theorem leaves_take (first : Operand α) (links : List (Relation × Operand α)) (k : Nat) :
    leaves first (links.take k) = (leaves first links).take k := by
  induction links generalizing first k with
  | nil => simp [leaves]
  | cons link links ih =>
    cases k with
    | zero => rfl
    | succ k => rw [List.take_succ_cons, leaves_cons, leaves_cons, List.take_succ_cons, ih]

/-- A leaf is decided by the operand on its left, its relation, and the value on its right. -/
theorem getElem?_leaves (first : Operand α) (links : List (Relation × Operand α)) (i : Nat) :
    (leaves first links)[i]? = (operands first links)[i]?.bind fun left =>
      (links.map (·.1))[i]?.bind fun relation =>
        ((operands first links).map (·.value))[i + 1]?.map fun right =>
          left.compare relation right := by
  rw [leaves, List.getElem?_zipWith']
  have next : ((operands first links).map (·.value))[i + 1]? = links[i]?.map (·.2.value) := by
    simp [operands, Function.comp_def]
  rw [next, List.getElem?_map]
  cases (operands first links)[i]? with
  | none => rfl
  | some left => cases links[i]? <;> rfl

theorem LinkAt.leaf {i : Nat} {left right : Operand α} {relation : Relation}
    (l : LinkAt first links i left relation right) :
    (leaves first links)[i]? = some (left.compare relation right.value) := by
  rw [leaves, List.getElem?_zipWith', l.before, l.link]
  rfl

/-- Each leaf belongs to a link. -/
theorem exists_linkAt_of_leaf {i : Nat} {leaf : Comparison}
    (found : (leaves first links)[i]? = some leaf) : ∃ left relation right,
      LinkAt first links i left relation right ∧ leaf = left.compare relation right.value := by
  rw [leaves, List.getElem?_zipWith_eq_some] at found
  obtain ⟨left, ⟨relation, right⟩, before, link, same⟩ := found
  exact ⟨left, relation, right, ⟨before, link⟩, same.symm⟩

/-! ## What a chain accumulates -/

/-- The conjunction grows by one leaf for each link, and the operand just linked is the next one on
the left. -/
theorem comparison_linkAll (c : Chain α) (links : List (Relation × Operand α)) :
    (c.linkAll links).comparison = conjunction (c.comparison.toList ++ leaves c.left links) := by
  induction links generalizing c with
  | nil =>
    obtain ⟨left, comparison⟩ := c
    cases comparison <;> rfl
  | cons link links ih =>
    have accumulated : (c.link link.1 link.2).comparison =
        conjunction (c.comparison.toList ++ [c.left.compare link.1 link.2.value]) := by
      obtain ⟨left, comparison⟩ := c
      cases comparison <;> rfl
    have step : c.linkAll (link :: links) = (c.link link.1 link.2).linkAll links := rfl
    rw [step, ih, accumulated, conjunction_append, List.append_assoc]
    rfl

theorem left_linkAll (c : Chain α) (links : List (Relation × Operand α)) :
    (operands c.left links)[links.length]? = some (c.linkAll links).left := by
  induction links generalizing c with
  | nil => rfl
  | cons link links ih => exact ih (c.link link.1 link.2)

theorem close_eq_conjunction (first : Operand α) (links : List (Relation × Operand α))
    (relation : Relation) (value : α) :
    some (((start first).linkAll links).close relation value) = conjunction
      (leaves first links ++ [((start first).linkAll links).left.compare relation value]) := by
  have accumulated := comparison_linkAll (start first) links
  rw [← conjunction_append]
  change ((start first).linkAll links).comparison = conjunction (leaves first links) at accumulated
  rw [← accumulated, close]
  cases ((start first).linkAll links).comparison <;> rfl

theorem holds_of_comparison {c : Chain α} {es : List Comparison}
    (accumulated : c.comparison = conjunction es) : c.holds = es.all Comparison.holds := by
  rw [holds, accumulated]
  cases es with
  | nil => rfl
  | cons e es => exact holds_foldl_and e es

theorem getElem?_growth (c : Chain α) (links : List (Relation × Operand α)) {k : Nat}
    (within : k ≤ links.length) : (c.growth links)[k]? = some (c.linkAll (links.take k)) := by
  induction links generalizing c k with
  | nil =>
    obtain rfl := Nat.le_zero.1 within
    rfl
  | cons link links ih =>
    cases k with
    | zero => rfl
    | succ k => exact ih (c.link link.1 link.2) (Nat.le_of_succ_le_succ within)

/-- Two chains that differ at most in the comparator of the operand in place `j`. -/
structure Remeasured (j : Nat) (first : Operand α) (links : List (Relation × Operand α))
    (first' : Operand α) (links' : List (Relation × Operand α)) : Prop where
  relations : links'.map (·.1) = links.map (·.1)
  values : (operands first' links').map (·.value) = (operands first links).map (·.value)
  others : ∀ i, i ≠ j → (operands first' links')[i]? = (operands first links)[i]?

/-- The comparator of an operand is asked by the link on its right and by no other. -/
theorem Remeasured.leaves {j i : Nat} (change : Remeasured j first links first' links')
    (other : i ≠ j) : (leaves first' links')[i]? = (leaves first links)[i]? := by
  rw [getElem?_leaves, getElem?_leaves, change.relations, change.values, change.others i other]

/-- The comparator of the last operand is not asked at all. -/
theorem Remeasured.comparison (change : Remeasured links.length first links first' links') :
    ((start first').linkAll links').comparison = ((start first).linkAll links).comparison := by
  have sameLength : links'.length = links.length := by
    have counted := congrArg List.length change.relations
    rwa [List.length_map, List.length_map] at counted
  have sameLeaves : Chain.leaves first' links' = Chain.leaves first links := by
    refine List.ext_getElem? fun i => ?_
    by_cases last : i = links.length
    · rw [List.getElem?_eq_none (Nat.le_of_eq (by rw [length_leaves, last, sameLength])),
        List.getElem?_eq_none (Nat.le_of_eq (by rw [length_leaves, last]))]
    · exact change.leaves last
  rw [comparison_linkAll, comparison_linkAll]
  exact congrArg conjunction sameLeaves

/-- What is so of the chain that begins with an operand and goes on by links, at every length. -/
structure Accumulates (first : Operand α) (links : List (Relation × Operand α)) : Prop where
  /-- Growing by one link at a time gives the chains of all lengths. -/
  stages : ∀ k, k ≤ links.length →
    ((start first).growth links)[k]? = some ((start first).linkAll (links.take k))
  oneLeaf : (leaves first links).length = links.length
  /-- A leaf records the relation asked for and the outcome under the left operand's comparator. -/
  recorded : ∀ i left relation right, LinkAt first links i left relation right →
    (leaves first links)[i]? =
      some (Comparison.rel relation (left.comparator left.value right.value))
  /-- An operand with a measure compares by the keys that this measure gives both values. -/
  measured : ∀ (κ : Type) [PartialCompare κ] (m : Measure α κ) value i relation right,
    LinkAt first links i (Operand.measured m value) relation right → (leaves first links)[i]? =
      some (Comparison.rel relation (partialCompare (m.key value) (m.key right.value)))
  accumulated : ∀ k, ((start first).linkAll (links.take k)).comparison =
    conjunction ((leaves first links).take k)
  holds_iff : ∀ k, ((start first).linkAll (links.take k)).holds = true ↔
    ∀ i left relation right, i < k → LinkAt first links i left relation right →
      (left.compare relation right.value).holds = true
  empty : (start first).holds = true
  /-- A link that is false, or whose values are incomparable, breaks every chain that has it. -/
  broken : ∀ i left relation right, LinkAt first links i left relation right →
    left.compareTo right.value = none ∨ (left.compare relation right.value).holds = false →
    ∀ k, i < k → ((start first).linkAll (links.take k)).holds = false
  /-- A value closes the chain as any operand with that value would continue it. -/
  closed : ∀ relation value (next : Operand α), next.value = value →
    some (((start first).linkAll links).close relation value) =
      (((start first).linkAll links).link relation next).comparison
  /-- The leaf that closes the chain is that of its last operand. -/
  lastLeaf : ∀ last, (operands first links)[links.length]? = some last → ∀ relation value,
    some (((start first).linkAll links).close relation value) =
      conjunction (leaves first links ++ [last.compare relation value])
  remeasured : ∀ j first' links', Remeasured j first links first' links' →
    (∀ i, i ≠ j → (leaves first' links')[i]? = (leaves first links)[i]?) ∧
    (j = links.length →
      ((start first').linkAll links').comparison = ((start first).linkAll links).comparison)

theorem holds_linkAll_take (first : Operand α) (links : List (Relation × Operand α)) (k : Nat) :
    ((start first).linkAll (links.take k)).holds = true ↔
      ∀ i left relation right, i < k → LinkAt first links i left relation right →
        (left.compare relation right.value).holds = true := by
  have accumulated := comparison_linkAll (start first) (links.take k)
  change _ = conjunction (leaves first (links.take k)) at accumulated
  rw [leaves_take] at accumulated
  rw [holds_of_comparison accumulated, List.all_eq_true]
  constructor
  · intro all i left relation right below l
    refine all _ (List.mem_of_getElem? (i := i) ?_)
    rw [List.getElem?_take_of_lt below]
    exact l.leaf
  · intro each leaf member
    obtain ⟨i, found⟩ := List.getElem?_of_mem member
    have below : i < k := Nat.lt_of_not_le fun beyond => by
      rw [List.getElem?_take_eq_none beyond] at found
      cases found
    rw [List.getElem?_take_of_lt below] at found
    obtain ⟨left, relation, right, l, rfl⟩ := exists_linkAt_of_leaf found
    exact each i left relation right below l

/-- A chain accumulates the comparisons of its links, whatever the operands, their comparators and
the relations are. -/
theorem chain_accumulates (first : Operand α) (links : List (Relation × Operand α)) :
    Accumulates first links := by
  constructor
  case stages => exact fun k within => getElem?_growth (start first) links within
  case oneLeaf => exact length_leaves first links
  case recorded => exact fun i left relation right l => l.leaf
  case measured => exact fun κ _ m value i relation right l => l.leaf
  case accumulated =>
    intro k
    rw [comparison_linkAll, ← leaves_take]
    rfl
  case holds_iff => exact holds_linkAll_take first links
  case empty => rfl
  case broken =>
    intro i left relation right l broken k below
    rw [Bool.eq_false_iff]
    intro holds
    have kept := (holds_linkAll_take first links k).1 holds i left relation right below l
    rcases broken with incomparable | false'
    · rw [Operand.compare, incomparable] at kept
      cases relation <;> cases kept
    · rw [false'] at kept
      cases kept
  case closed =>
    rintro relation value next rfl
    rfl
  case lastLeaf =>
    intro last there relation value
    have left := left_linkAll (start first) links
    rw [close_eq_conjunction, ← Option.some.inj (there.symm.trans left)]
  case remeasured =>
    intro j first' links' change
    refine ⟨fun i other => change.leaves other, ?_⟩
    rintro rfl
    exact change.comparison

/-- A measure is asked by the link on its right only: `2 < 1` holds descending and `1 < 3`
ascending. With the ascending measure on `2` the first link fails; any measure of `3` will do. -/
example :
    ((start (.measured IntScale.descending.measure 2)).linkAll
      [(.less, .measured IntScale.ascending.measure 1),
        (.less, .measured IntScale.evens.measure 3)]).holds = true ∧
    ((start (.measured IntScale.ascending.measure 2)).linkAll
      [(.less, .measured IntScale.ascending.measure 1),
        (.less, .measured IntScale.descending.measure 3)]).holds = false := by
  decide

end Chain

end TermAlgebra
