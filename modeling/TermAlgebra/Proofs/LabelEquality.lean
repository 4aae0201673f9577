import TermAlgebra.Proofs.TermBinding
import TermAlgebra.Variable
/-!
Equality goes by labels: two terms are equal under `==` when forgetting the origins of their
variables makes them the same. Two substitutions are equal when on labels one is as large as the
other and all its bindings are found there. So substitutions with the same labels are equal; the
converse fails, as equality does not look at the order of bindings.
-/
namespace TermAlgebra

namespace Term

theorem labels_app (f : FunctionSymbol) (args : List (Term Variable)) :
    labels (.app f args) = .app f (args.map labels) :=
  map_app Variable.label f args

private theorem beqAll_iff {ts : List (Term Variable)}
    (each : ∀ t ∈ ts, ∀ u, beq t u = true ↔ t.labels = u.labels) (us : List (Term Variable)) :
    beqAll ts us = true ↔ ts.map labels = us.map labels := by
  induction ts generalizing us with
  | nil => cases us <;> simp [beqAll]
  | cons t ts ih =>
    cases us with
    | nil => simp [beqAll]
    | cons u us =>
      have rest := ih (fun t' member => each t' (List.mem_cons_of_mem t member)) us
      rw [beqAll, Bool.and_eq_true, each t List.mem_cons_self u, rest, List.map_cons, List.map_cons,
        List.cons.injEq]

theorem beq_iff {t u : Term Variable} : (t == u) = true ↔ t.labels = u.labels := by
  show beq t u = true ↔ t.labels = u.labels
  induction t generalizing u with
  | const c => cases u <;> simp [beq, labels, map, bind, bindAll_eq_map]
  | var v =>
    cases u with
    | var w => simp [beq, labels, map, bind, Variable.beq_iff]
    | const c => simp [beq, labels, map, bind]
    | app g us => simp [beq, labels, map, bind]
  | app f ts ih =>
    cases u with
    | app g us =>
      have each : ∀ t ∈ ts, ∀ u, beq t u = true ↔ t.labels = u.labels :=
        fun t member u => ih t member
      rw [beq, Bool.and_eq_true, beqAll_iff each, labels_app, labels_app, app.injEq, beq_iff_eq]
    | const c => simp [beq, labels, map, bind]
    | var w => simp [beq, labels, map, bind]

instance : EquivBEq (Term Variable) where
  rfl := beq_iff.2 rfl
  symm same := beq_iff.2 (beq_iff.1 same).symm
  trans same sameToo := beq_iff.2 ((beq_iff.1 same).trans (beq_iff.1 sameToo))

end Term

namespace Substitution

theorem toList_labels (s : Substitution Variable) :
    s.labels.toList = s.toList.map fun b => (b.1.label, b.2.labels) := rfl

theorem labels_get? (s : Substitution Variable) (v : Variable) :
    s.labels.get? v.label = (s.get? v).map Term.labels := by
  simp [get?, Table.get?, labels, List.find?_map, Function.comp_def, Variable.beq_def]

/-- Equality of substitutions, too, is a matter of labels. -/
theorem beq_iff {s r : Substitution Variable} : (s == r) = true ↔
    s.labels.size = r.labels.size ∧ ∀ b ∈ s.labels.toList, r.labels.get? b.1 = some b.2 := by
  show s.bindings.sameBindings r.bindings = true ↔ _
  rw [Table.sameBindings, Bool.and_eq_true, beq_iff_eq, List.all_eq_true, toList_labels,
    List.forall_mem_map]
  refine and_congr (by simp [size, Table.size, labels]) (forall₂_congr fun b _ => ?_)
  rw [labels_get?, get?]
  cases r.bindings.get? b.1 with
  | none => simp
  | some t =>
    rw [Option.map_some, Option.some.injEq, Term.beq_iff]
    exact eq_comm

theorem beq_of_labels {s r : Substitution Variable} (same : s.labels = r.labels) :
    (s == r) = true := by
  rw [beq_iff, same]
  exact ⟨rfl, fun b member => Table.get?_of_mem member BEq.rfl⟩

end Substitution

end TermAlgebra
