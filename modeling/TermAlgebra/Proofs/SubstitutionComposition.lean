import Mathlib.Data.List.Infix
import TermAlgebra.Proofs.TermBinding
import TermAlgebra.Variable
/-!
Composing substitutions, against applying them one after another. A substitution acts on a term
only through the images of its variables (`apply_eq_bind`), whichever way the application branch is
taken; so the law for terms rests on the law for a single variable, `image_compose`, where the
four cases of the two domains meet. From it composition is associative with the identity on both
sides, as an equality of tables: instances, terms and order of insertion included.
-/
namespace TermAlgebra

variable {ν : Type}

namespace Substitution

variable [BEq ν]

theorem applyAll_eq_map (s : Substitution ν) (ts : List (Term ν)) :
    s.applyAll ts = ts.map s.apply := by
  induction ts with
  | nil => rfl
  | cons t rest ih => rw [applyAll, ih, List.map_cons]

theorem image_of_isEmpty {s : Substitution ν} (empty : s.isEmpty = true) : s.image = .var := by
  obtain ⟨⟨entries, distinct⟩⟩ := s
  obtain rfl : entries = [] := List.isEmpty_iff.1 empty
  rfl

/-- The branch that leaves an application alone gives what rebuilding it would give. -/
theorem apply_eq_bind (s : Substitution ν) (t : Term ν) : s.apply t = t.bind s.image := by
  induction t with
  | const c => rfl
  | var v => rfl
  | app f args ih =>
    by_cases empty : s.isEmpty = true
    · rw [apply, if_pos empty, image_of_isEmpty empty, Term.bind_var]
    · rw [apply, if_neg empty, applyAll_eq_map, Term.bind, Term.bindAll_eq_map]
      exact congrArg (Term.app f) (List.map_congr_left ih)

@[simp] theorem identity_apply (t : Term ν) : (identity : Substitution ν).apply t = t := by
  rw [apply_eq_bind, image_of_isEmpty rfl, Term.bind_var]

/-- Outside a term, an application becomes what it becomes inside one. -/
theorem toTerm_applyToArgs (s : Substitution ν) (a : Application ν) :
    (s.applyToArgs a).toTerm = s.apply a.toTerm := by
  show Term.app a.symbol (s.applyAll a.args) = s.apply (.app a.symbol a.args)
  rw [apply_eq_bind, Term.bind, Term.bindAll_eq_map, applyAll_eq_map]
  exact congrArg (Term.app a.symbol) (List.map_congr_left fun t _ => apply_eq_bind s t)

theorem toList_compose (outer inner : Substitution ν) :
    (outer.compose inner).toList = (inner.toList.map fun b => (b.1, outer.apply b.2)) ++
      outer.toList.filter fun b => !inner.contains b.1 := by
  simp only [toList, contains, compose, Table.extend, Table.contains_mapValues]
  rfl

theorem mem_toList_compose {outer inner : Substitution ν} {b : ν × Term ν} :
    b ∈ (outer.compose inner).toList ↔
      (∃ a ∈ inner.toList, (a.1, outer.apply a.2) = b) ∨
        b ∈ outer.toList ∧ inner.contains b.1 = false := by
  rw [toList_compose, List.mem_append, List.mem_map, List.mem_filter, Bool.not_eq_true']

section
variable [PartialEquivBEq ν]

/-- The inner binding comes first and is rewritten; the outer one is used where there is none. -/
theorem get?_compose (outer inner : Substitution ν) (v : ν) :
    (outer.compose inner).get? v = ((inner.get? v).map outer.apply).or (outer.get? v) := by
  simp only [get?, compose, Table.get?_extend, Table.get?_mapValues]

theorem image_compose (outer inner : Substitution ν) (v : ν) :
    (outer.compose inner).image v = outer.apply (inner.image v) := by
  simp only [image, get?_compose]
  cases inner.get? v with
  | some t => rfl
  | none => rfl

theorem apply_compose (outer inner : Substitution ν) (t : Term ν) :
    (outer.compose inner).apply t = outer.apply (inner.apply t) := by
  simp only [apply_eq_bind, Term.bind_bind]
  congr 1
  funext v
  rw [image_compose, apply_eq_bind]

theorem applyToArgs_compose (outer inner : Substitution ν) (a : Application ν) :
    (outer.compose inner).applyToArgs a = outer.applyToArgs (inner.applyToArgs a) := by
  simp only [applyToArgs, applyAll_eq_map, List.map_map]
  exact congrArg (Application.mk a.symbol)
    (List.map_congr_left fun t _ => apply_compose outer inner t)

end

/-- The law of brackets, as tables: the bindings of all three come in the same order. -/
theorem compose_assoc [PartialEquivBEq ν] (a b c : Substitution ν) :
    (a.compose b).compose c = a.compose (b.compose c) := by
  apply Substitution.ext
  have images : (a.compose b).apply = fun t => a.apply (b.apply t) := funext (apply_compose a b)
  calc (c.bindings.mapValues (a.compose b).apply).extend
        ((b.bindings.mapValues a.apply).extend a.bindings)
      = ((c.bindings.mapValues (a.compose b).apply).extend (b.bindings.mapValues a.apply)).extend
          a.bindings := (Table.extend_assoc _ _ _).symm
    _ = (((c.bindings.mapValues b.apply).extend b.bindings).mapValues a.apply).extend
          a.bindings := by
      rw [Table.mapValues_extend, Table.mapValues_mapValues, images]

@[simp] theorem identity_compose (s : Substitution ν) : identity.compose s = s := by
  apply Substitution.ext
  have fixes : (identity : Substitution ν).apply = fun t => t := funext identity_apply
  show (s.bindings.mapValues identity.apply).extend Table.empty = s.bindings
  rw [Table.extend_empty, fixes, Table.mapValues_id]

@[simp] theorem compose_identity (s : Substitution ν) : s.compose identity = s :=
  Substitution.ext (Table.empty_extend s.bindings)

theorem composeRight_cons (s : Substitution ν) (ss : List (Substitution ν)) :
    composeRight (s :: ss) = s.compose (composeRight ss) := by
  cases ss with
  | nil => exact (compose_identity s).symm
  | cons r rest => rfl

section
variable [PartialEquivBEq ν]

theorem composeRight_append (ss rs : List (Substitution ν)) :
    composeRight (ss ++ rs) = (composeRight ss).compose (composeRight rs) := by
  induction ss with
  | nil => exact (identity_compose _).symm
  | cons s ss ih => rw [List.cons_append, composeRight_cons, ih, composeRight_cons, compose_assoc]

/-- One application of the composition of a list is one application of each, the last first. -/
theorem apply_composeRight (ss : List (Substitution ν)) (t : Term ν) :
    (composeRight ss).apply t = applyInTurn ss t := by
  induction ss with
  | nil => exact identity_apply t
  | cons s ss ih =>
    rw [composeRight_cons, apply_compose, ih, applyInTurn, applyInTurn, List.foldr_cons]

private theorem composeLeft_go (acc : Substitution ν) (ss : List (Substitution ν)) :
    composeLeft.go acc ss = ss.inits.tail.map fun part => acc.compose (composeRight part) := by
  induction ss generalizing acc with
  | nil => rfl
  | cons s ss ih =>
    have further : ∀ part, (acc.compose s).compose (composeRight part) =
        acc.compose (composeRight (s :: part)) := fun part => by
      rw [compose_assoc, composeRight_cons]
    rw [composeLeft.go, ih]
    simp only [further]
    cases ss <;> simp [composeRight]

/-- Bracketing to the left gives, for each beginning of the list, what bracketing it to the right
gives. -/
theorem composeLeft_eq (ss : List (Substitution ν)) :
    composeLeft ss = ss.inits.tail.map composeRight := by
  cases ss with
  | nil => rfl
  | cons s ss =>
    rw [composeLeft, composeLeft_go]
    simp only [← composeRight_cons]
    cases ss <;> simp [composeRight]

/-- A composition with all its brackets: one substitution, or two parts composed. -/
inductive Bracketing (ν : Type) [BEq ν] where
  | one (s : Substitution ν)
  | both (outer inner : Bracketing ν)

/-- The substitutions that are composed, from left to right. -/
def Bracketing.parts : Bracketing ν → List (Substitution ν)
  | one s => [s]
  | both outer inner => outer.parts ++ inner.parts

/-- The composition, done as the brackets say. -/
def Bracketing.composite : Bracketing ν → Substitution ν
  | one s => s
  | both outer inner => outer.composite.compose inner.composite

theorem Bracketing.composite_eq (b : Bracketing ν) : b.composite = composeRight b.parts := by
  induction b with
  | one s => rfl
  | both outer inner ihOuter ihInner =>
    rw [composite, ihOuter, ihInner, parts, composeRight_append]

end

/-- Applying a composition once is applying its parts in turn, inner first: to a term, to an
application on its own, and to a bare variable; and so for a list of any length. The results are the
same down to the instances of their variables. -/
theorem compose_applies_in_turn :
    (∀ (outer inner : Substitution Variable) (t : Term Variable),
      (outer.compose inner).apply t = outer.apply (inner.apply t)) ∧
    (∀ (outer inner : Substitution Variable) (a : Application Variable),
      (outer.compose inner).applyToArgs a = outer.applyToArgs (inner.applyToArgs a)) ∧
    (∀ (outer inner : Substitution Variable) (v : Variable),
      (outer.compose inner).image v = outer.apply (inner.image v)) ∧
    ∀ (ss : List (Substitution Variable)) (t : Term Variable),
      (composeRight ss).apply t = applyInTurn ss t :=
  ⟨apply_compose, applyToArgs_compose, image_compose, apply_composeRight⟩

/-- Substitutions are a monoid under composition, as lists of bindings in order: what is composed
decides the result, and the brackets around it do not. -/
theorem compose_monoid :
    (∀ a b c : Substitution Variable, (a.compose b).compose c = a.compose (b.compose c)) ∧
    (∀ s : Substitution Variable, identity.compose s = s ∧ s.compose identity = s) ∧
    ∀ b : Bracketing Variable, b.composite = composeRight b.parts :=
  ⟨compose_assoc, fun s => ⟨identity_compose s, compose_identity s⟩, Bracketing.composite_eq⟩

end Substitution

end TermAlgebra
