import TermAlgebra.Proofs.ChainLinks
/-!
Chains under a single measure. If the keys of the measure are totally ordered, a chain whose
relations all lead one way holds exactly when its operands are sorted that way, and not only
neighbours: every operand stands in the weak relation to all that follow it, and in the strict one
as soon as one of the relations between the two is strict (`Ascent`). The induction is along the
links, and transitivity joins the first of them to what the rest say.
-/
namespace TermAlgebra

namespace Relation

/-- The relation as it reads from the right. -/
def converse : Relation → Relation
  | less => greater
  | lessOrEqual => greaterOrEqual
  | greater => less
  | greaterOrEqual => lessOrEqual

/-- The relation that holds of comparable values when this one does not. -/
def complement : Relation → Relation
  | less => greaterOrEqual
  | lessOrEqual => greater
  | greater => lessOrEqual
  | greaterOrEqual => less

theorem holds_converse (r : Relation) (outcome : Ordering) :
    r.converse.holds (some outcome.swap) = r.holds (some outcome) := by
  cases r <;> cases outcome <;> rfl

theorem holds_complement (r : Relation) (outcome : Ordering) :
    r.complement.holds (some outcome) = !r.holds (some outcome) := by
  cases r <;> cases outcome <;> rfl

end Relation

/-- The two ways in which the relations of a chain can lead. -/
inductive Direction where
  | up
  | down

namespace Direction

/-- The relation that leads this way between values that are not alike. -/
def strict : Direction → Relation
  | up => .less
  | down => .greater

/-- The relation that leads this way or stays on the level. -/
def weak : Direction → Relation
  | up => .lessOrEqual
  | down => .greaterOrEqual

theorem holds_weak_of_strict (d : Direction) {outcome : Option Ordering}
    (strict : d.strict.holds outcome = true) : d.weak.holds outcome = true := by
  cases outcome with
  | none => cases strict
  | some o => cases d <;> cases o <;> first | rfl | cases strict

end Direction

namespace Measure

variable {α κ : Type} [PartialCompare κ] {m : Measure α κ} {a b c : α}

/-- The keys that the measure gives are totally ordered: any two of them can be compared, and this
is a preorder. -/
def IsTotal (m : Measure α κ) : Prop :=
  ∃ cmp : α → α → Ordering, Std.TransCmp cmp ∧ ∀ a b, m.compare a b = some (cmp a b)

/-- A measure is total if it compares as the elements of a total order compare. -/
theorem isTotal_of_order {τ : Type} [Ord τ] [Std.TransOrd τ] (f : α → τ)
    (compared : ∀ a b, m.compare a b = some (Ord.compare (f a) (f b))) : m.IsTotal :=
  ⟨compareOn f, inferInstance, compared⟩

theorem IsTotal.holds_converse (total : m.IsTotal) (r : Relation) :
    r.converse.holds (m.compare b a) = r.holds (m.compare a b) := by
  obtain ⟨cmp, order, compared⟩ := total
  have swapped : cmp b a = (cmp a b).swap := Std.OrientedCmp.eq_swap
  rw [compared, compared, swapped, Relation.holds_converse]

theorem IsTotal.holds_complement (total : m.IsTotal) (r : Relation) :
    r.complement.holds (m.compare a b) = !r.holds (m.compare a b) := by
  obtain ⟨cmp, order, compared⟩ := total
  rw [compared, Relation.holds_complement]

variable (d : Direction)

/-- Transitivity, for the weak relation and with a strict one on either side. -/
theorem IsTotal.weak_trans (total : m.IsTotal) (first : d.weak.holds (m.compare a b) = true)
    (second : d.weak.holds (m.compare b c) = true) : d.weak.holds (m.compare a c) = true := by
  obtain ⟨cmp, order, compared⟩ := total
  rw [compared] at first second ⊢
  cases d with
  | up => exact Std.TransCmp.isLE_trans first second
  | down => exact Std.TransCmp.isGE_trans first second

/-- Of two values either the first is strictly before the second or the second is weakly before the
first. -/
theorem IsTotal.strict_iff (total : m.IsTotal) :
    d.strict.holds (m.compare a b) = true ↔ ¬ d.weak.holds (m.compare b a) = true := by
  have other : d.strict.holds (m.compare a b) = !d.weak.holds (m.compare b a) := by
    cases d with
    | up => exact (total.holds_converse .greater).trans (total.holds_complement .lessOrEqual)
    | down => exact (total.holds_converse .less).trans (total.holds_complement .greaterOrEqual)
  rw [other, Bool.not_eq_true', Bool.not_eq_true]

theorem IsTotal.strict_of_strict_weak (total : m.IsTotal)
    (first : d.strict.holds (m.compare a b) = true)
    (second : d.weak.holds (m.compare b c) = true) : d.strict.holds (m.compare a c) = true := by
  rw [total.strict_iff] at first ⊢
  exact fun back => first (total.weak_trans d second back)

theorem IsTotal.strict_of_weak_strict (total : m.IsTotal)
    (first : d.weak.holds (m.compare a b) = true)
    (second : d.strict.holds (m.compare b c) = true) : d.strict.holds (m.compare a c) = true := by
  rw [total.strict_iff] at second ⊢
  exact fun back => second (total.weak_trans d back first)

end Measure

/-! ## Chains that lead one way -/

namespace Chain

variable {α κ : Type} [PartialCompare κ] {m : Measure α κ} {d : Direction}

/-- All relations of the chain lead this way, and all its operands are compared by the measure. -/
structure Leads (m : Measure α κ) (d : Direction) (first : Operand α)
    (links : List (Relation × Operand α)) : Prop where
  measured : ∀ a ∈ operands first links, a.comparator = m.compare
  directed : ∀ link ∈ links, link.1 = d.weak ∨ link.1 = d.strict

/-- One of the links between the operands in the places `i` and `j` is strict. -/
def StrictBetween (d : Direction) (links : List (Relation × Operand α)) (i j : Nat) : Prop :=
  ∃ k right, i ≤ k ∧ k < j ∧ links[k]? = some (d.strict, right)

/-- Every operand of the chain stands in the weak relation to all that follow it, and in the strict
one to those that a strict link separates from it. -/
def Ascent (d : Direction) (first : Operand α) (links : List (Relation × Operand α)) : Prop :=
  ∀ (i j : Nat) (a b : Operand α), i < j →
    (operands first links)[i]? = some a → (operands first links)[j]? = some b →
    (a.compare d.weak b.value).holds = true ∧
    (StrictBetween d links i j → (a.compare d.strict b.value).holds = true)

theorem holds_compare {a : Operand α} (measured : a.comparator = m.compare) (r : Relation)
    (value : α) : (a.compare r value).holds = r.holds (m.compare a.value value) := by
  rw [Operand.compare, Comparison.holds, Operand.compareTo, measured]

variable {first : Operand α} {link : Relation × Operand α} {links : List (Relation × Operand α)}

theorem Leads.tail (leads : Leads m d first (link :: links)) : Leads m d link.2 links :=
  ⟨fun a member => leads.measured a (List.mem_cons_of_mem first member),
    fun l member => leads.directed l (List.mem_cons_of_mem link member)⟩

theorem strictBetween_succ {i j : Nat} :
    StrictBetween d (link :: links) (i + 1) (j + 1) ↔ StrictBetween d links i j := by
  constructor
  · rintro ⟨_ | k, right, above, below, there⟩
    · exact absurd above (Nat.not_succ_le_zero i)
    · exact ⟨k, right, Nat.le_of_succ_le_succ above, Nat.lt_of_succ_lt_succ below, there⟩
  · rintro ⟨k, right, above, below, there⟩
    exact ⟨k + 1, right, Nat.succ_le_succ above, Nat.succ_lt_succ below, there⟩

/-- After the first operand a strict link comes at once or later. -/
theorem strictBetween_zero {j : Nat} : StrictBetween d (link :: links) 0 (j + 1) ↔
    link.1 = d.strict ∨ StrictBetween d links 0 j := by
  constructor
  · rintro ⟨_ | k, right, above, below, there⟩
    · exact .inl (congrArg Prod.fst (Option.some.inj there))
    · exact .inr ⟨k, right, Nat.zero_le k, Nat.lt_of_succ_lt_succ below, there⟩
  · rintro (strict | ⟨k, right, above, below, there⟩)
    · exact ⟨0, link.2, Nat.le_refl 0, Nat.succ_pos j, by rw [← strict]; rfl⟩
    · exact ⟨k + 1, right, Nat.zero_le _, Nat.succ_lt_succ below, there⟩

/-- One more link in front: its operand stands to the next one as the link says, and from there the
rest of the chain leads on. -/
theorem Ascent.cons (total : m.IsTotal) (leads : Leads m d first (link :: links))
    (holds : (first.compare link.1 link.2.value).holds = true) (rest : Ascent d link.2 links) :
    Ascent d first (link :: links) := by
  have measured := leads.measured first List.mem_cons_self
  have measured' := leads.tail.measured link.2 List.mem_cons_self
  rw [holds_compare measured] at holds
  have near : d.weak.holds (m.compare first.value link.2.value) = true := by
    rcases leads.directed link List.mem_cons_self with weak | strict
    · rwa [weak] at holds
    · rw [strict] at holds
      exact d.holds_weak_of_strict holds
  intro i j a b before there there'
  obtain ⟨j, rfl⟩ := Nat.exists_eq_add_of_le' (Nat.zero_lt_of_lt before)
  cases i with
  | succ i =>
    rw [strictBetween_succ]
    exact rest i j a b (Nat.lt_of_succ_lt_succ before) there there'
  | zero =>
    obtain rfl := Option.some.inj there
    rw [strictBetween_zero, holds_compare measured, holds_compare measured]
    cases j with
    | zero =>
      obtain rfl := Option.some.inj there'
      refine ⟨near, ?_⟩
      rintro (strict | ⟨k, right, -, below, -⟩)
      · rwa [strict] at holds
      · exact absurd below (Nat.not_lt_zero k)
    | succ j =>
      obtain ⟨weak, strict⟩ := rest 0 (j + 1) link.2 b (Nat.succ_pos j) rfl there'
      rw [holds_compare measured'] at weak strict
      refine ⟨total.weak_trans d near weak, ?_⟩
      rintro (here | later)
      · rw [here] at holds
        exact total.strict_of_strict_weak d holds weak
      · exact total.strict_of_weak_strict d near (strict later)

/-- If all links hold, so does all that follows from them. -/
theorem ascent_of_leaves (total : m.IsTotal) (leads : Leads m d first links)
    (holds : ∀ leaf ∈ leaves first links, leaf.holds = true) : Ascent d first links := by
  induction links generalizing first with
  | nil =>
    intro i j a b before there there'
    have last := (List.getElem?_eq_some_iff.1 there').1
    simp only [operands, List.map_nil, List.length_singleton] at last
    omega
  | cons link links ih =>
    rw [leaves_cons, List.forall_mem_cons] at holds
    exact .cons total leads holds.1 (ih leads.tail holds.2)

/-- The links are what is said of neighbours. -/
theorem Ascent.leaf (ascent : Ascent d first links) (leads : Leads m d first links)
    {i : Nat} {left right : Operand α} {relation : Relation}
    (l : LinkAt first links i left relation right) :
    (left.compare relation right.value).holds = true := by
  have next : (operands first links)[i + 1]? = some right := by
    rw [operands, List.getElem?_cons_succ, List.getElem?_map, l.link]
    rfl
  obtain ⟨weak, strict⟩ := ascent i (i + 1) left right (Nat.lt_succ_self i) l.before next
  rcases leads.directed _ (List.mem_of_getElem? l.link) with isWeak | isStrict
  · rwa [show relation = d.weak from isWeak]
  · obtain rfl : relation = d.strict := isStrict
    exact strict ⟨i, right, Nat.le_refl i, Nat.lt_succ_self i, l.link⟩

theorem holds_iff_ascent (total : m.IsTotal) (leads : Leads m d first links) :
    ((start first).linkAll links).holds = true ↔ Ascent d first links := by
  have accumulated := comparison_linkAll (start first) links
  rw [holds_of_comparison accumulated, List.all_eq_true]
  constructor
  · exact ascent_of_leaves total leads
  · intro ascent leaf member
    obtain ⟨i, found⟩ := List.getElem?_of_mem member
    obtain ⟨left, relation, right, l, rfl⟩ := exists_linkAt_of_leaf found
    exact ascent.leaf leads l

end Chain

/-- What is so of operands under one measure. -/
structure Measure.Orders {α κ : Type} [PartialCompare κ] (m : Measure α κ) : Prop where
  chains : ∀ (d : Direction) (first : Operand α) (links : List (Relation × Operand α)),
    Chain.Leads m d first links →
      (((Chain.start first).linkAll links).holds = true ↔ Chain.Ascent d first links)
  /-- What a relation says of two operands its converse says of them the other way round. -/
  converse : ∀ (a b : Operand α), a.comparator = m.compare → b.comparator = m.compare →
    ∀ r : Relation, (b.compare r.converse a.value).holds = (a.compare r b.value).holds
  complement : ∀ (a b : Operand α), a.comparator = m.compare →
    ∀ r : Relation, (a.compare r.complement b.value).holds = !(a.compare r b.value).holds

/-- A total measure orders its operands along every chain that leads one way. Measures with totally
ordered keys are total, among them the weight, the size and the depth of terms. -/
theorem chains_ordered :
    (∀ (α κ : Type) [PartialCompare κ] (m : Measure α κ), m.IsTotal → m.Orders) ∧
    (∀ (α κ : Type) [Ord κ] [Std.TransOrd κ] (m : Measure α κ), m.IsTotal) ∧
    (∀ w : Weight, (w.measure : Measure (Term Variable) UInt64).IsTotal ∧
      (TermScale.weight w).measure.IsTotal) ∧
    TermScale.size.measure.IsTotal ∧ TermScale.depth.measure.IsTotal := by
  refine ⟨fun α κ _ m total => ?orders, fun α κ _ _ m => ?keys, fun w => ⟨?weight, ?graded⟩, ?size,
    ?depth⟩
  case orders =>
    constructor
    case chains => exact fun d first links leads => Chain.holds_iff_ascent total leads
    case converse =>
      intro a b measured measured' r
      rw [Chain.holds_compare measured, Chain.holds_compare measured', total.holds_converse]
    case complement =>
      intro a b measured r
      rw [Chain.holds_compare measured, Chain.holds_compare measured, total.holds_complement]
  case keys => exact Measure.isTotal_of_order m.key fun a b => rfl
  case weight => exact Measure.isTotal_of_order w.ofTerm fun a b => rfl
  case graded => exact Measure.isTotal_of_order (fun t => ((w.ofTerm t).toNat : Int)) fun a b => rfl
  case size => exact Measure.isTotal_of_order (fun t => (t.size : Int)) fun a b => rfl
  case depth => exact Measure.isTotal_of_order (fun t => (t.depth : Int)) fun a b => rfl

/-- Of `?x <= c < g(c)`, by size, the ends are strictly ordered, and so they are from the right. -/
theorem chains_ordered_sizes :
    let operand : Term Variable → Operand (Term Variable) := .measured TermScale.size.measure
    let x := operand (.var ⟨⟨"x", none⟩, .free 0⟩)
    let c := operand (.const ⟨"c"⟩)
    let gc := operand (.app ⟨"g", 1, by decide⟩ [.const ⟨"c"⟩])
    let links : List (Relation × Operand (Term Variable)) := [(.lessOrEqual, c), (.less, gc)]
    TermScale.size.measure.IsTotal ∧ Chain.Leads TermScale.size.measure .up x links ∧
      ((Chain.start x).linkAll links).holds = true ∧ (x.compare .less gc.value).holds = true ∧
      (gc.compare .greater x.value).holds = true := by
  intro operand x c gc links
  obtain ⟨orders, -, -, total, -⟩ := chains_ordered
  have leads : Chain.Leads TermScale.size.measure .up x links :=
    ⟨by simp [Chain.operands, links, x, c, gc, operand, Operand.measured],
      by simp [links, Direction.weak, Direction.strict]⟩
  have holds : ((Chain.start x).linkAll links).holds = true := rfl
  have ascent := ((orders _ _ _ total).chains .up x links leads).1 holds
  have ends := (ascent 0 2 x gc (by decide) rfl rfl).2 ⟨1, gc, by decide, by decide, rfl⟩
  have back := (orders _ _ _ total).converse x gc rfl rfl .less
  exact ⟨total, leads, holds, ends, back.trans ends⟩

end TermAlgebra
