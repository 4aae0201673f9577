import TermAlgebra.Proofs.Renaming
/-!
When two substitutions do the same to a term: exactly if they do the same to every variable that
occurs in it, at whichever depth (`apply_beq_apply_iff`). In particular a term stays as it is if and
only if those of its variables that are bound are bound to themselves. Tables of bindings tell more
substitutions apart than what they do to terms: a variable bound to itself counts in a table, and
does nothing.
-/
namespace TermAlgebra

namespace Term

/-- Replacing variables gives equal terms if and only if each variable is replaced by equal ones. -/
theorem bind_beq_bind_iff {ν : Type} {g h : ν → Term Variable} {t : Term ν} :
    (t.bind g == t.bind h) = true ↔ ∀ v ∈ t.occurrences, (g v == h v) = true := by
  simp only [beq_iff, labels, map, bind_bind]
  exact bind_eq_bind_iff

end Term

namespace Substitution

variable {s r : Substitution Variable}

theorem apply_beq_apply_iff {t : Term Variable} :
    (s.apply t == r.apply t) = true ↔ ∀ v ∈ t.occurrences, (s.image v == r.image v) = true := by
  rw [apply_eq_bind, apply_eq_bind]
  exact Term.bind_beq_bind_iff

/-- A variable stands for itself unless it is bound to something else. -/
theorem image_beq_var_iff {v : Variable} :
    (s.image v == .var v) = true ↔ ∀ u, s.get? v = some u → (u == .var v) = true := by
  rw [image]
  cases s.get? v with
  | none => simp
  | some u => simp

theorem apply_beq_self_iff {t : Term Variable} :
    (s.apply t == t) = true ↔
      ∀ v ∈ t.occurrences, ∀ u, s.get? v = some u → (u == .var v) = true := by
  have unbound : (s.apply t == t) = (s.apply t == identity.apply t) := by rw [identity_apply]
  rw [unbound, apply_beq_apply_iff]
  exact forall₂_congr fun v _ => image_beq_var_iff

/-- Every binding shows in what becomes of its variable alone. -/
theorem forall_apply_beq_self_iff :
    (∀ t, (s.apply t == t) = true) ↔ ∀ b ∈ s.toList, (b.2 == .var b.1) = true := by
  constructor
  · intro fixes b member
    have image : s.apply (.var b.1) = b.2 := image_of_mem member BEq.rfl
    exact image ▸ fixes (.var b.1)
  · intro toItself t
    refine apply_beq_self_iff.2 fun v _ u held => ?_
    obtain ⟨b, member, same, rfl⟩ := Table.exists_mem_of_get? held
    have instances : (Term.var b.1 == Term.var v) = true := same
    exact BEq.trans (toItself b member) instances

/-- Substitutions do the same to a term if and only if they do the same to each of its variables. So
a term stays as it is exactly if those of its variables that are bound are bound to themselves, and
all terms stay as they are exactly if every binding is of a variable to itself. There may be such
bindings: a table that has one is neither empty nor equal to the empty one. -/
theorem apply_coincides :
    (∀ (s r : Substitution Variable) (t : Term Variable),
      (s.apply t == r.apply t) = true ↔
        ∀ v ∈ t.occurrences, (s.image v == r.image v) = true) ∧
    (∀ (s : Substitution Variable) (t : Term Variable),
      (s.apply t == t) = true ↔
        ∀ v ∈ t.occurrences, ∀ u, s.get? v = some u → (u == .var v) = true) ∧
    (∀ s : Substitution Variable,
      (∀ t, (s.apply t == t) = true) ↔ ∀ b ∈ s.toList, (b.2 == .var b.1) = true) ∧
    ∀ v : Variable, (single v (.var v)).isEmpty = false ∧
      (single v (.var v) == identity) = false ∧ ∀ t, ((single v (.var v)).apply t == t) = true := by
  refine ⟨fun _ _ _ => apply_beq_apply_iff, fun _ _ => apply_beq_self_iff,
    fun _ => forall_apply_beq_self_iff, fun v => ⟨rfl, rfl, ?_⟩⟩
  refine forall_apply_beq_self_iff.2 fun b member => ?_
  obtain rfl : b = (v, .var v) := List.mem_singleton.1 member
  exact BEq.rfl

/-- A substitution without bindings against one that binds a variable, in another instance, to
itself and a second variable to a constant: they part only where the second variable occurs. -/
theorem apply_coincides_one_empty :
    let x : Variable := ⟨⟨"x", none⟩, .free 0⟩
    let x' : Variable := ⟨⟨"x", none⟩, .free 1⟩
    let y : Variable := ⟨⟨"y", some 2⟩, .free 2⟩
    let pair (t : Term Variable) : Term Variable := .app ⟨"f", 2, by decide⟩ [.var x, t]
    let s : Substitution Variable := .ofList [(x', .var x'), (y, .const ⟨"a"⟩)]
    (s.apply (pair (pair (.var x))) == identity.apply (pair (pair (.var x)))) = true ∧
      (s.apply (pair (pair (.var y))) == identity.apply (pair (pair (.var y)))) = false := by
  intro x x' y pair s
  have both (v : Variable) : (pair (pair (.var v))).occurrences = [x, x, v] := by
    simp [pair, Term.occurrences_app]
  have alike := apply_coincides.1 s identity
  refine ⟨(alike _).2 fun v occurs => ?_, Bool.eq_false_iff.2 fun same => ?_⟩
  · obtain rfl : v = x := by simpa [both] using occurs
    rfl
  · have seen := (alike _).1 same y (by simp [both])
    cases seen

end Substitution

end TermAlgebra
