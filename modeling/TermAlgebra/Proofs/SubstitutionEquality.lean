import Mathlib.Data.List.Perm.Subperm
import TermAlgebra.Proofs.Provenance
/-!
Equality of substitutions does not look at the order of bindings, nor does anything that is made
from them. Equal substitutions are, on labels, the same bindings in some order (`beq_iff_perm`);
since no variable is bound twice, that is to give equal answers to every look-up (`beq_iff_get?`).
Applying and composing go by look-ups alone (`get?_compose`, `apply_eq_bind`), so their results are
equal too, although composing goes through the bindings of both operands in order.
-/
namespace TermAlgebra

namespace Table

variable {κ α : Type} [BEq κ]

/-- Distinct keys are distinct in any order. -/
theorem distinct_of_perm [PartialEquivBEq κ] {es ds : List (κ × α)} (reordered : es.Perm ds)
    (distinct : es.Pairwise fun a b => (a.1 == b.1) = false) :
    ds.Pairwise fun a b => (a.1 == b.1) = false :=
  reordered.pairwise distinct fun apart => BEq.comm.trans apart

variable [LawfulBEq κ] {t u : Table κ α}

theorem mem_entries_iff {k : κ} {a : α} : (k, a) ∈ t.entries ↔ t.get? k = some a := by
  constructor
  · exact fun member => get?_of_mem member BEq.rfl
  · intro held
    obtain ⟨e, member, same, rfl⟩ := exists_mem_of_get? held
    exact eq_of_beq same ▸ member

theorem nodup_entries (t : Table κ α) : t.entries.Nodup := by
  refine t.distinct.imp fun {a b} apart same => ?_
  rw [same, BEq.rfl] at apart
  cases apart

/-- Tables have the same entries, in some order, if and only if they give the same answers. -/
theorem perm_entries_iff : t.entries.Perm u.entries ↔ ∀ k, t.get? k = u.get? k := by
  rw [List.perm_ext_iff_of_nodup t.nodup_entries u.nodup_entries]
  constructor
  · intro same k
    refine Option.ext fun a => ?_
    rw [← mem_entries_iff, ← mem_entries_iff]
    exact same (k, a)
  · rintro same ⟨k, a⟩
    rw [mem_entries_iff, mem_entries_iff, same]

/-- A table that has all entries of one of the same size has no others. -/
theorem perm_entries_iff_size :
    t.entries.Perm u.entries ↔ t.size = u.size ∧ ∀ e ∈ t.entries, u.get? e.1 = some e.2 := by
  constructor
  · exact fun same => ⟨same.length_eq, fun e member => mem_entries_iff.1 (same.subset member)⟩
  · rintro ⟨sizes, held⟩
    -- Neither table repeats an entry, so that the sizes leave no room for a further one.
    have included : t.entries ⊆ u.entries := fun e member => mem_entries_iff.2 (held e member)
    have fits := List.subperm_of_subset t.nodup_entries included
    exact fits.perm_of_length_le (Nat.le_of_eq sizes.symm)

end Table

theorem Term.option_beq_iff {o o' : Option (Term Variable)} :
    (o == o') = true ↔ o.map labels = o'.map labels := by
  cases o <;> cases o' <;> simp [beq_iff]

namespace Substitution

variable {s r : Substitution Variable}

/-- Equal substitutions have the same bindings, in whatever order. -/
theorem beq_iff_perm : (s == r) = true ↔ s.labels.toList.Perm r.labels.toList :=
  beq_iff.trans Table.perm_entries_iff_size.symm

theorem beq_iff_labels_get? :
    (s == r) = true ↔ ∀ l, s.labels.get? l = r.labels.get? l :=
  beq_iff_perm.trans Table.perm_entries_iff

/-- Equal substitutions bind the same variables, and to equal terms. -/
theorem beq_iff_get? : (s == r) = true ↔ ∀ v, (s.get? v == r.get? v) = true := by
  simp only [beq_iff_labels_get?, Term.option_beq_iff, ← labels_get?]
  exact ⟨fun same v => same v.label, fun same l => same ⟨l, default⟩⟩

instance : EquivBEq (Substitution Variable) where
  rfl := beq_iff_perm.2 (.refl _)
  symm same := beq_iff_perm.2 (beq_iff_perm.1 same).symm
  trans same sameToo := beq_iff_perm.2 ((beq_iff_perm.1 same).trans (beq_iff_perm.1 sameToo))

theorem beq_of_perm (reordered : s.toList.Perm r.toList) : (s == r) = true := by
  rw [beq_iff_perm, toList_labels, toList_labels]
  exact reordered.map _

theorem labels_image_congr (same : (s == r) = true) : s.labels.image = r.labels.image := by
  funext l
  rw [image, image, beq_iff_labels_get?.1 same l]

theorem labels_apply_congr (same : (s == r) = true) : s.labels.apply = r.labels.apply := by
  funext t
  rw [apply_eq_bind, apply_eq_bind, labels_image_congr same]

theorem apply_congr (same : (s == r) = true) (t : Term Variable) :
    (s.apply t == r.apply t) = true := by
  rw [Term.beq_iff, labels_apply, labels_apply, labels_apply_congr same]

theorem compose_congr {outer outer' inner inner' : Substitution Variable}
    (sameOuter : (outer == outer') = true) (sameInner : (inner == inner') = true) :
    (outer.compose inner == outer'.compose inner') = true := by
  refine beq_iff_labels_get?.2 fun l => ?_
  rw [labels_compose, labels_compose, get?_compose, get?_compose, labels_apply_congr sameOuter,
    beq_iff_labels_get?.1 sameOuter l, beq_iff_labels_get?.1 sameInner l]

/-- Two substitutions that are equal, and of which the same can be made: what they do to a term, to
a variable and to an application on its own is equal, and so is what they are composed to with any
third one on either side. -/
structure Interchangeable (s r : Substitution Variable) : Prop where
  equal : (s == r) = true
  apply : ∀ t, (s.apply t == r.apply t) = true
  image : ∀ v, (s.image v == r.image v) = true
  applyToArgs : ∀ a, ((s.applyToArgs a).toTerm == (r.applyToArgs a).toTerm) = true
  asOuter : ∀ inner, (s.compose inner == r.compose inner) = true
  asInner : ∀ outer : Substitution Variable, (outer.compose s == outer.compose r) = true

theorem interchangeable (same : (s == r) = true) : s.Interchangeable r where
  equal := same
  apply := apply_congr same
  image v := apply_congr same (.var v)
  applyToArgs a := by
    rw [toTerm_applyToArgs, toTerm_applyToArgs]
    exact apply_congr same a.toTerm
  asOuter _ := compose_congr same BEq.rfl
  asInner _ := compose_congr BEq.rfl same

/-- Collecting distinct variables in another order gives an equal substitution. -/
theorem ofList_beq_of_perm {pairs pairs' : List (Variable × Term Variable)}
    (reordered : pairs.Perm pairs')
    (distinct : pairs.Pairwise fun a b => (a.1 == b.1) = false) :
    (ofList pairs == ofList pairs') = true := by
  have distinct' := Table.distinct_of_perm reordered distinct
  have bindings : (ofList pairs).toList.Perm (ofList pairs').toList := by
    show (Table.ofList pairs).entries.Perm (Table.ofList pairs').entries
    rw [Table.entries_ofList distinct, Table.entries_ofList distinct']
    exact reordered
  exact beq_of_perm bindings

/-- Substitutions are equal if and only if they bind the same variables to equal terms, and equal
ones can stand for each other. So it does not matter in which order bindings of distinct variables
are collected, neither to equality nor to anything that is applied or composed. -/
theorem equality_ignores_order :
    (∀ s r : Substitution Variable, (s == r) = true ↔ ∀ v, (s.get? v == r.get? v) = true) ∧
    (∀ s r : Substitution Variable, (s == r) = true → s.Interchangeable r) ∧
    ∀ pairs pairs' : List (Variable × Term Variable), pairs.Perm pairs' →
      (pairs.Pairwise fun a b => (a.1 == b.1) = false) →
      (ofList pairs).Interchangeable (ofList pairs') :=
  ⟨fun _ _ => beq_iff_get?, fun _ _ => interchangeable,
    fun _ _ reordered distinct => interchangeable (ofList_beq_of_perm reordered distinct)⟩

/-- Two variables bound to each other, and with other instances in the other order. -/
theorem equality_ignores_order_swap :
    let x (serial : Nat) : Variable := ⟨⟨"x", none⟩, .issued 0 serial⟩
    let y (serial : Nat) : Variable := ⟨⟨"y", some 1⟩, .issued 1 serial⟩
    let pairs : List (Variable × Term Variable) := [(x 0, .var (y 0)), (y 0, .var (x 0))]
    let s := ofList pairs
    let r := ofList [(y 1, .var (x 1)), (x 1, .var (y 1))]
    (s == r) = true ∧ s.Interchangeable r ∧ pairs.Perm pairs.reverse ∧
      (pairs.Pairwise fun a b => (a.1 == b.1) = false) ∧
      s.Interchangeable (ofList pairs.reverse) := by
  intro x y pairs s r
  obtain ⟨-, substitute, collected⟩ := equality_ignores_order
  have same : (s == r) = true := rfl
  have reordered : pairs.Perm pairs.reverse := pairs.reverse_perm.symm
  have distinct : pairs.Pairwise fun a b => (a.1 == b.1) = false := List.pairwise_pair.2 rfl
  exact ⟨same, substitute s r same, reordered, distinct, collected _ _ reordered distinct⟩

end Substitution

end TermAlgebra
