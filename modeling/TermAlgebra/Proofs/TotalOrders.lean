import Mathlib.Data.List.Forall2
import TermAlgebra.Order.Sort
import TermAlgebra.Position
import TermAlgebra.Proofs.NameOrder
import TermAlgebra.Variable
/-!
The orders on constants, function symbols, variables and positions, and what they say of sorting.
Each of them is put together from the orders of the parts, and by the laws of lexicographic
comparison it is total and agrees with equality: for variables with equality of labels, so that two
instances with one label are in the same place of the order. Where a comparison is total and agrees
with equality, a list can be brought into ascending order in one way only, up to equal values
(`IsAscending.unique`): the first items of two such lists have to be equal, since each of them
stands somewhere in the other list, and so the induction goes on with the rest.
-/
namespace TermAlgebra

section
variable {α : Type} [Ord α]

/-- No value stands after a greater one. -/
def IsAscending (xs : List α) : Prop := xs.Pairwise fun a b => (compare a b).isLE = true

theorem ascending_perm (xs : List α) : (ascending xs).Perm xs := List.mergeSort_perm _ _

variable [Std.TransOrd α]

theorem isAscending_ascending (xs : List α) : IsAscending (ascending xs) := by
  refine List.pairwise_mergeSort (fun a b c => Std.TransCmp.isLE_trans) (fun a b => ?_) xs
  have swapped : compare b a = (compare a b).swap := Std.OrientedCmp.eq_swap
  rw [swapped]
  cases compare a b <;> rfl

variable [BEq α] [Std.LawfulBEqOrd α] {a b : α} {xs ys : List α}

theorem equivBEq_of_order : EquivBEq α := @Std.LawfulBEqCmp.equivBEq α _ compare _ _

/-- The first value of an ascending list is not greater than any value that occurs in it. -/
theorem IsAscending.isLE_of_count (sorted : IsAscending (a :: xs))
    (there : 0 < (a :: xs).count b) : (compare a b).isLE = true := by
  have equivalence : EquivBEq α := equivBEq_of_order
  obtain ⟨x, member, same⟩ := List.countP_pos_iff.1 there
  have alike : compare x b = .eq := Std.LawfulBEqCmp.compare_eq_iff_beq.2 same
  have first : (compare a x).isLE = true := by
    rcases List.mem_cons.1 member with rfl | later
    · rw [Std.ReflOrd.compare_self]
      rfl
    · exact (List.pairwise_cons.1 sorted).1 x later
  exact Std.TransCmp.isLE_trans first (by rw [alike]; rfl)

theorem count_head_pos (a : α) (xs : List α) : 0 < (a :: xs).count a := by
  have equivalence : EquivBEq α := equivBEq_of_order
  rw [List.count_cons, if_pos BEq.rfl]
  exact Nat.succ_pos _

/-- Two ascending lists with the same values, each as often in the one as in the other, are equal
item by item. -/
theorem IsAscending.unique (sorted : IsAscending xs) (sorted' : IsAscending ys)
    (counts : ∀ a, xs.count a = ys.count a) : List.Forall₂ (fun a b => (a == b) = true) xs ys := by
  have equivalence : EquivBEq α := equivBEq_of_order
  induction xs generalizing ys with
  | nil =>
    cases ys with
    | nil => exact .nil
    | cons b ys =>
      have present := count_head_pos b ys
      rw [← counts, List.count_nil] at present
      cases present
  | cons a xs ih =>
    cases ys with
    | nil =>
      have present := count_head_pos a xs
      rw [counts, List.count_nil] at present
      cases present
    | cons b ys =>
      have le : (compare a b).isLE = true :=
        sorted.isLE_of_count (counts b ▸ count_head_pos b ys)
      have ge : (compare b a).isLE = true :=
        sorted'.isLE_of_count (counts a ▸ count_head_pos a xs)
      have same : (a == b) = true :=
        Std.LawfulBEqCmp.compare_eq_iff_beq.1 (Std.OrientedCmp.isLE_antisymm le ge)
      refine .cons same (ih sorted.of_cons sorted'.of_cons fun c => ?_)
      have counted := counts c
      rw [List.count_cons, List.count_cons, BEq.congr_left same] at counted
      exact Nat.add_right_cancel counted

/-- A total order that agrees with equality, and what sorting by it gives. -/
structure TotallyOrdered (α : Type) [Ord α] [BEq α] : Prop where
  eq_iff : ∀ a b : α, compare a b = .eq ↔ (a == b) = true
  antisymm : ∀ a b : α, compare b a = (compare a b).swap
  trans : ∀ a b c : α, (compare a b).isLE = true → (compare b c).isLE = true →
    (compare a c).isLE = true
  sorts : ∀ xs : List α, (ascending xs).Perm xs ∧ IsAscending (ascending xs)
  /-- No other ascending list has the same values as often, up to equality. -/
  unique : ∀ xs ys : List α, IsAscending ys → (∀ a, xs.count a = ys.count a) →
    List.Forall₂ (fun a b => (a == b) = true) (ascending xs) ys
  anyOrder : ∀ xs ys : List α, xs.Perm ys →
    List.Forall₂ (fun a b => (a == b) = true) (ascending xs) (ascending ys)

theorem totallyOrdered : TotallyOrdered α where
  eq_iff a b := Std.LawfulBEqCmp.compare_eq_iff_beq
  antisymm a b := Std.OrientedCmp.eq_swap
  trans a b c := Std.TransCmp.isLE_trans
  sorts xs := ⟨ascending_perm xs, isAscending_ascending xs⟩
  unique xs ys sorted counts := (isAscending_ascending xs).unique sorted fun a => by
    rw [(ascending_perm xs).count_eq, counts]
  anyOrder xs ys reordered :=
    (isAscending_ascending xs).unique (isAscending_ascending ys) fun a => by
      rw [(ascending_perm xs).count_eq, (ascending_perm ys).count_eq, reordered.count_eq]

end

instance : Std.TransOrd Constant := inferInstanceAs (Std.TransCmp (compareOn Constant.name))

instance : Std.LawfulEqOrd Constant where
  eq_of_compare {c d} same := by
    cases c
    cases d
    exact congrArg Constant.mk (Std.LawfulEqOrd.eq_of_compare same)

instance : Std.TransOrd FunctionSymbol := inferInstanceAs
  (Std.TransCmp (compareLex (compareOn FunctionSymbol.name) (compareOn FunctionSymbol.arity)))

theorem FunctionSymbol.compare_eq (f g : FunctionSymbol) :
    compare f g = (compare f.name g.name).then (compare f.arity g.arity) := rfl

instance : Std.LawfulEqOrd FunctionSymbol where
  eq_of_compare {f g} same := by
    rw [FunctionSymbol.compare_eq, Ordering.then_eq_eq, Std.LawfulEqOrd.compare_eq_iff_eq,
      Std.LawfulEqOrd.compare_eq_iff_eq] at same
    cases f
    cases g
    simpa using same

instance : Std.TransOrd Label := inferInstanceAs
  (Std.TransCmp (compareLex (compareOn Label.name) (compareOn Label.index)))

theorem Label.compare_eq (l m : Label) :
    compare l m = (compare l.name m.name).then (compare l.index m.index) := rfl

instance : Std.LawfulEqOrd Label where
  eq_of_compare {l m} same := by
    rw [Label.compare_eq, Ordering.then_eq_eq, Std.LawfulEqOrd.compare_eq_iff_eq,
      Std.LawfulEqOrd.compare_eq_iff_eq] at same
    cases l
    cases m
    simpa using same

instance : Std.TransOrd Variable := inferInstanceAs (Std.TransCmp (compareOn Variable.label))

theorem Variable.compare_eq (v w : Variable) : compare v w = compare v.label w.label := rfl

/-- Comparing variables and testing them for equality both go by the label. -/
instance : Std.LawfulBEqOrd Variable where
  compare_eq_iff_beq {v w} := by
    rw [Variable.compare_eq, Std.LawfulEqOrd.compare_eq_iff_eq, Variable.beq_iff]

/-- What has no index comes before everything with one; indices are in ascending order. -/
def IndexBefore : Option UInt64 → Option UInt64 → Prop
  | none, some _ => True
  | some i, some j => i < j
  | _, none => False

theorem compare_index_eq_lt_iff {i j : Option UInt64} : compare i j = .lt ↔ IndexBefore i j := by
  cases i with
  | none =>
    cases j with
    | none => simp [IndexBefore]
    | some j => exact iff_of_true rfl trivial
  | some i =>
    cases j with
    | none => simp [IndexBefore]
    | some j => exact (Std.compare_eq_lt : compare i j = .lt ↔ i < j)

/-- Equal variables are those that no hasher tells apart. -/
theorem Variable.beq_iff_hashInto {v w : Variable} : (v == w) = true ↔
    ∀ (σ : Type) (h : Hasher σ) (state : σ), v.hashInto h state = w.hashInto h state := by
  rw [beq_iff]
  constructor
  · intro same σ h state
    rw [hashInto, hashInto, same]
  · intro alike
    -- A hasher that keeps what it takes in.
    have parts := alike (String × Option UInt64)
      ⟨fun state name => (name, state.2), fun state index => (state.1, index)⟩ ("", none)
    obtain ⟨⟨name, index⟩, origin⟩ := v
    obtain ⟨⟨name', index'⟩, origin'⟩ := w
    simpa [hashInto] using parts

/-- What is so of the orders on symbols, variables and positions. -/
structure Orders : Prop where
  onConstants : TotallyOrdered Constant
  onFunctions : TotallyOrdered FunctionSymbol
  onVariables : TotallyOrdered Variable
  onPositions : TotallyOrdered Position
  byName : ∀ c d : Constant, compare c d = compare c.name d.name
  byArity : ∀ f g : FunctionSymbol, compare f g = .lt ↔
    compare f.name g.name = .lt ∨ f.name = g.name ∧ f.arity < g.arity
  byIndex : ∀ v w : Variable, compare v w = .lt ↔
    compare v.label.name w.label.name = .lt ∨
      v.label.name = w.label.name ∧ IndexBefore v.label.index w.label.index
  lexicographic : ∀ p q : Position, compare p q = .lt ↔ p < q
  /-- Where an instance comes from changes nothing. -/
  byLabel : ∀ v v' w w' : Variable, v.label = v'.label → w.label = w'.label →
    compare v w = compare v' w' ∧ (v == w) = (v' == w')
  hashed : ∀ v w : Variable, (v == w) = true ↔
    ∀ (σ : Type) (h : Variable.Hasher σ) (state : σ), v.hashInto h state = w.hashInto h state
  byBytes : ∀ s t : String, compare s t = compare (Utf8.bytes s) (Utf8.bytes t)
  byCodePoints : ∀ s t : String, compare s t = compare (Utf8.codePoints s) (Utf8.codePoints t)

/-- The orders on constants, function symbols, variables and positions are total and agree with
equality, and there is one way to sort by each of them. They go by the parts of a value in turn, by
the label alone in a variable, and by the bytes of a name or by its code points, which is the
same. -/
theorem orders_total : Orders where
  onConstants := totallyOrdered
  onFunctions := totallyOrdered
  onVariables := totallyOrdered
  onPositions := totallyOrdered
  byName c d := rfl
  byArity f g := by
    have arities : compare f.arity g.arity = .lt ↔ f.arity < g.arity := Std.compare_eq_lt
    rw [FunctionSymbol.compare_eq, Ordering.then_eq_lt, Std.LawfulEqOrd.compare_eq_iff_eq,
      arities]
  byIndex v w := by
    rw [Variable.compare_eq, Label.compare_eq, Ordering.then_eq_lt,
      Std.LawfulEqOrd.compare_eq_iff_eq, compare_index_eq_lt_iff]
  lexicographic p q := compare_list_eq_lt_iff fun i j => Nat.compare_eq_lt
  byLabel v v' w w' same same' := by
    rw [Variable.compare_eq, Variable.compare_eq, Variable.beq_def, Variable.beq_def, same, same']
    exact ⟨rfl, rfl⟩
  hashed v w := Variable.beq_iff_hashInto
  byBytes s t := (Utf8.compare_bytes s t).symm
  byCodePoints s t := (Utf8.compare_codePoints s t).symm

/-- Two instances of `?x#2` are in the same place of the order, and so a list with the plain `?x`
behind them is sorted in the same way as one with `?x` in front. -/
theorem orders_total_instances :
    let x : Variable := ⟨⟨"x", none⟩, .free 0⟩
    let x2 : Variable := ⟨⟨"x", some 2⟩, .issued 0 0⟩
    let x2' : Variable := ⟨⟨"x", some 2⟩, .free 1⟩
    x2.label = x2'.label ∧ compare x2 x = compare x2' x ∧ [x2, x2', x].Perm [x, x2', x2] ∧
      List.Forall₂ (fun v w => (v == w) = true)
        (ascending [x2, x2', x]) (ascending [x, x2', x2]) := by
  intro x x2 x2'
  have reordered : [x2, x2', x].Perm [x, x2', x2] := List.reverse_perm [x, x2', x2]
  exact ⟨rfl, (orders_total.byLabel x2 x2' x x rfl rfl).1, reordered,
    orders_total.onVariables.anyOrder _ _ reordered⟩

end TermAlgebra
