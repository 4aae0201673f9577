import TermAlgebra.Proofs.LabelEquality
import TermAlgebra.Proofs.SubstitutionComposition
/-!
Substitutions that put variables for variables, no variable twice. Such a renaming acts on a term as
a change of variables (`apply_eq_map`), so it moves nothing in it. The inverse mapping takes each
new variable back to the one it was put for, up to the instance; therefore it undoes the renaming
on terms whose variables are all bound, and two variables with the same new one are equal.
-/
namespace TermAlgebra.Substitution

variable {s : Substitution Variable}

/-- The mapping from the variables that a substitution puts for others back to these. -/
def inverse (s : Substitution Variable) : Substitution Variable :=
  .ofList (s.toList.filterMap fun b => b.2.asVariable?.map fun w => (w, .var b.1))

/-- The variable that is put for another one; with a term in its place, the very variable. -/
def rename (s : Substitution Variable) (v : Variable) : Variable :=
  (s.image v).asVariable?.getD v

/-- Every binding puts a variable for a variable, and no two of them put equal ones. -/
structure IsRenaming (s : Substitution Variable) : Prop where
  vars : ∀ b ∈ s.toList, ∃ w, b.2 = .var w
  distinct : s.toList.Pairwise fun a b => (a.2 == b.2) = false

theorem image_of_mem {b : Variable × Term Variable} (member : b ∈ s.toList) {v : Variable}
    (same : (b.1 == v) = true) : s.image v = b.2 := by
  rw [image, get?, Table.get?_of_mem member same, Option.getD_some]

theorem exists_mem_of_contains {v : Variable} (bound : s.contains v = true) :
    ∃ b ∈ s.toList, (b.1 == v) = true :=
  List.any_eq_true.1 bound

theorem contains_of_mem {b : Variable × Term Variable} (member : b ∈ s.toList) {v : Variable}
    (same : (b.1 == v) = true) : s.contains v = true :=
  List.any_eq_true.2 ⟨b, member, same⟩

theorem image_of_not_contains {v : Variable} (free : s.contains v = false) :
    s.image v = .var v := by
  rw [contains, Table.contains_eq_isSome, Option.isSome_eq_false_iff,
    Option.isNone_iff_eq_none] at free
  rw [image, get?, free, Option.getD_none]

namespace IsRenaming

theorem image (renames : s.IsRenaming) (v : Variable) : s.image v = .var (s.rename v) := by
  have isVariable : ∃ w, s.image v = .var w := by
    cases bound : s.contains v with
    | false => exact ⟨v, image_of_not_contains bound⟩
    | true =>
      obtain ⟨b, member, same⟩ := exists_mem_of_contains bound
      obtain ⟨w, isVar⟩ := renames.vars b member
      exact ⟨w, (image_of_mem member same).trans isVar⟩
  obtain ⟨w, found⟩ := isVariable
  rw [rename, found]
  rfl

theorem apply_eq_map (renames : s.IsRenaming) (t : Term Variable) :
    s.apply t = t.map s.rename := by
  rw [apply_eq_bind, funext renames.image]
  rfl

theorem snd_of_mem (renames : s.IsRenaming) {b : Variable × Term Variable}
    (member : b ∈ s.toList) : b.2 = .var (s.rename b.1) := by
  rw [← renames.image]
  exact (image_of_mem member BEq.rfl).symm

theorem toList_inverse (renames : s.IsRenaming) :
    s.inverse.toList = s.toList.map fun b => (s.rename b.1, .var b.1) := by
  have turned : (s.toList.filterMap fun b => b.2.asVariable?.map fun w => (w, Term.var b.1)) =
      s.toList.map fun b => (s.rename b.1, .var b.1) := by
    refine List.filterMap_eq_map_iff_forall_eq_some.2 fun b member => ?_
    rw [renames.snd_of_mem member]
    rfl
  have distinct : (s.toList.map fun b => (s.rename b.1, Term.var b.1)).Pairwise
      fun a b => (a.1 == b.1) = false := by
    rw [List.pairwise_map]
    refine renames.distinct.imp_of_mem fun {a b} memberA memberB differ => ?_
    rw [renames.snd_of_mem memberA, renames.snd_of_mem memberB] at differ
    exact differ
  rw [inverse, turned]
  exact Table.entries_ofList distinct

/-- What the inverse mapping puts for a new variable is the bound variable equal to the old one. -/
theorem image_inverse (renames : s.IsRenaming) {v w : Variable} (bound : s.contains v = true)
    (same : (s.rename v == w) = true) :
    ∃ first, s.inverse.image w = .var first ∧ (first == v) = true := by
  obtain ⟨b, member, equal⟩ := exists_mem_of_contains bound
  have renamed : s.rename v = s.rename b.1 := by
    rw [rename, rename, image_of_mem member equal, image_of_mem member BEq.rfl,
      renames.snd_of_mem member]
    rfl
  have turned : (s.rename b.1, Term.var b.1) ∈ s.inverse.toList := by
    rw [renames.toList_inverse]
    exact List.mem_map_of_mem member
  exact ⟨b.1, image_of_mem turned (renamed ▸ same), equal⟩

/-- Variables with equal new variables are equal. -/
theorem injective (renames : s.IsRenaming) {v w : Variable} (boundV : s.contains v = true)
    (boundW : s.contains w = true) (same : (s.rename v == s.rename w) = true) :
    (v == w) = true := by
  obtain ⟨first, back, equalV⟩ := renames.image_inverse boundV same
  obtain ⟨other, again, equalW⟩ := renames.image_inverse boundW BEq.rfl
  obtain rfl : first = other := Term.var.inj (back.symm.trans again)
  exact BEq.trans (BEq.symm equalV) equalW

/-- The inverse mapping undoes a renaming of all variables of a term. -/
theorem inverse_apply (renames : s.IsRenaming) {t : Term Variable}
    (bound : ∀ v ∈ t.occurrences, s.contains v = true) :
    (s.inverse.apply (s.apply t) == t) = true := by
  rw [Term.beq_iff, renames.apply_eq_map, apply_eq_bind, Term.bind_map, Term.labels, Term.map,
    Term.bind_bind]
  refine Term.bind_congr fun v occurs => ?_
  obtain ⟨first, back, equal⟩ := renames.image_inverse (bound v occurs) BEq.rfl
  rw [back, Term.bind, Variable.beq_iff.1 equal]

end IsRenaming

/-- Distinct variables for distinct variables make a renaming. -/
theorem isRenaming_ofList {vs ws : List Variable} (length : ws.length = vs.length)
    (toList : s.toList = vs.zip (ws.map .var))
    (distinct : ws.Pairwise fun v w => (v == w) = false) : s.IsRenaming := by
  have images : s.toList.map Prod.snd = ws.map Term.var := by
    rw [toList, List.map_snd_zip]
    rw [List.length_map, length]
  constructor
  · intro b member
    have image : b.2 ∈ ws.map Term.var := images ▸ List.mem_map_of_mem member
    obtain ⟨w, -, equal⟩ := List.mem_map.1 image
    exact ⟨w, equal.symm⟩
  · rw [← List.pairwise_map (f := Prod.snd) (R := fun a b => (a == b) = false), images,
      List.pairwise_map]
    exact distinct

end TermAlgebra.Substitution
