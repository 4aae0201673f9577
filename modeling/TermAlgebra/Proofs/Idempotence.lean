import TermAlgebra.Proofs.Coincidence
import TermAlgebra.Proofs.SubstitutionEquality
/-!
Substitutions that need to be applied only once. Whether a second application changes anything
shows at single variables: the image of each has to stay as it is (`Settled`). For terms this is
read off their occurrences, for the composition of a substitution with itself off its look-ups, and
for the bindings themselves it is a condition on the variables that occur in their terms: none of
them may be bound, unless to itself.
-/
namespace TermAlgebra.Substitution

variable {s : Substitution Variable}

/-- Whatever a variable stands for, a second application leaves it as it is. -/
def Settled (s : Substitution Variable) : Prop := ∀ v, (s.apply (s.image v) == s.image v) = true

theorem settled_iff_apply : s.Settled ↔ ∀ t, (s.apply (s.apply t) == s.apply t) = true := by
  constructor
  · intro settled t
    rw [← apply_compose, apply_beq_apply_iff]
    intro v _
    rw [image_compose]
    exact settled v
  · exact fun twice v => twice (.var v)

/-- The second application acts on each binding by itself. -/
theorem settled_iff_compose : s.Settled ↔ (s.compose s == s) = true := by
  rw [beq_iff_get?]
  refine forall_congr' fun v => ?_
  rw [image, get?_compose]
  cases bound : s.get? v with
  | none =>
    -- There is nothing to compare in the tables, and the variable stands for itself.
    have unbound : s.apply (.var v) = .var v := by rw [apply, image, bound, Option.getD_none]
    simp [unbound]
  | some u => simp

theorem settled_iff_bindings : s.Settled ↔ ∀ b ∈ s.toList, (s.apply b.2 == b.2) = true := by
  constructor
  · intro settled b member
    have image : s.image b.1 = b.2 := image_of_mem member BEq.rfl
    exact image ▸ settled b.1
  · intro fixed v
    cases bound : s.contains v with
    | false =>
      rw [image_of_not_contains bound, apply, image_of_not_contains bound]
      exact BEq.rfl
    | true =>
      obtain ⟨b, member, same⟩ := exists_mem_of_contains bound
      rw [image_of_mem member same]
      exact fixed b member

/-- A variable is bound to nothing but itself if it is not bound, or bound to itself. -/
theorem bound_to_itself_iff {v : Variable} :
    (∀ u, s.get? v = some u → (u == .var v) = true) ↔
      s.contains v = false ∨ ∃ u, s.get? v = some u ∧ (u == .var v) = true := by
  have bound : s.contains v = (s.get? v).isSome := Table.contains_eq_isSome s.bindings v
  rw [bound]
  cases s.get? v <;> simp

/-- A substitution is equal to its composition with itself if and only if applying it to a term
twice is applying it once, and if and only if every variable in the image of a binding is not bound
or bound to itself. For all of this it is enough that the images of single variables stay as they
are. -/
theorem idempotence_forms (s : Substitution Variable) :
    ((s.compose s == s) = true ↔ ∀ t, (s.apply (s.apply t) == s.apply t) = true) ∧
    ((s.compose s == s) = true ↔ ∀ b ∈ s.toList, ∀ v ∈ b.2.occurrences,
      s.contains v = false ∨ ∃ u, s.get? v = some u ∧ (u == .var v) = true) ∧
    ((s.compose s == s) = true ↔ s.Settled) := by
  refine ⟨settled_iff_compose.symm.trans settled_iff_apply, ?_, settled_iff_compose.symm⟩
  rw [← settled_iff_compose, settled_iff_bindings]
  simp only [apply_beq_self_iff, bound_to_itself_iff]

/-- A binding to a term with a variable that is bound to another instance of itself, against one of
a variable to a term in which it occurs, and against two variables that are exchanged. -/
theorem idempotence_forms_cyclic :
    let x : Variable := ⟨⟨"x", none⟩, .free 0⟩
    let y (serial : Nat) : Variable := ⟨⟨"y", none⟩, .free serial⟩
    let g (t : Term Variable) : Term Variable := .app ⟨"g", 1, by decide⟩ [t]
    let s : Substitution Variable := .ofList [(x, g (.var (y 1))), (y 2, .var (y 3))]
    let cycle := single x (g (.var x))
    let swap : Substitution Variable := .ofList [(x, .var (y 1)), (y 2, .var x)]
    (s.compose s == s) = true ∧ (∀ t, (s.apply (s.apply t) == s.apply t) = true) ∧
      (cycle.compose cycle == cycle) = false ∧
      ¬ (∀ t, (cycle.apply (cycle.apply t) == cycle.apply t) = true) ∧
      (swap.compose swap == swap) = false ∧
      ¬ ∀ t, (swap.apply (swap.apply t) == swap.apply t) = true := by
  intro x y g s cycle swap
  have settled : (s.compose s == s) = true := rfl
  have cyclic : (cycle.compose cycle == cycle) = false := rfl
  have swapped : (swap.compose swap == swap) = false := rfl
  refine ⟨settled, (idempotence_forms s).1.1 settled, cyclic, fun twice => ?_, swapped,
    fun twice => ?_⟩
  · rw [(idempotence_forms cycle).1.2 twice] at cyclic
    cases cyclic
  · rw [(idempotence_forms swap).1.2 twice] at swapped
    cases swapped

end TermAlgebra.Substitution
