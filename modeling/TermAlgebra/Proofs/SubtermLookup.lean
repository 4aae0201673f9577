import TermAlgebra.Term.Subterm
/-!
Looking up a subterm: one index leads to an argument, and a path in two parts is followed part by
part (`subterm?_append`). An answer with an error says no more than that there is none, since the
error names the position that was asked for and nothing else.
-/
namespace TermAlgebra.Term

variable {ν : Type}

theorem subterm?_cons (t : Term ν) (i : Nat) (p : Position) :
    t.subterm? (i :: p) = t.children[i]?.bind fun u => u.subterm? p := by
  rw [subterm?]
  cases t.children[i]? <;> rfl

theorem subterm?_append (t : Term ν) (p q : Position) :
    t.subterm? (p ++ q) = (t.subterm? p).bind fun u => u.subterm? q := by
  induction p generalizing t with
  | nil => rfl
  | cons i p ih =>
    rw [List.cons_append, subterm?_cons, subterm?_cons]
    cases t.children[i]? with
    | none => rfl
    | some u => exact ih u

/-- Only an application has anything below its root, and there it has its arguments. -/
theorem subterm?_cons_eq_some {t u : Term ν} {i : Nat} {p : Position}
    (found : t.subterm? (i :: p) = some u) :
    ∃ f args c, t = app f args ∧ args[i]? = some c ∧ c.subterm? p = some u := by
  rw [subterm?_cons, Option.bind_eq_some_iff] at found
  obtain ⟨c, held, found⟩ := found
  cases t with
  | const d => cases held
  | var v => cases held
  | app f args => exact ⟨f, args, c, rfl, held, found⟩

theorem subtermAt_eq_ok_iff {t u : Term ν} {p : Position} :
    t.subtermAt p = .ok u ↔ t.subterm? p = some u := by
  rw [subtermAt]
  cases t.subterm? p <;> simp

theorem subtermAt_eq_error_iff {t : Term ν} {p : Position} {e : TermError} :
    t.subtermAt p = .error e ↔ t.subterm? p = none ∧ e = .invalidPosition p := by
  rw [subtermAt]
  cases t.subterm? p <;> simp [eq_comm]

theorem hasPosition_iff {t : Term ν} {p : Position} :
    t.hasPosition p = true ↔ ∃ u, t.subterm? p = some u :=
  Option.isSome_iff_exists

end TermAlgebra.Term
