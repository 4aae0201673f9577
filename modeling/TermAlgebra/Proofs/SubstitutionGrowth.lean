import TermAlgebra.Proofs.ExactWeight
import TermAlgebra.Proofs.VariableEnumeration
/-!
How a term grows under a substitution. The images come in where the variables were: their variables
take the places of the old ones in order, and each image adds its size but for the one position that
the variable had. The depth is that of the term, or that of an image below the position where it
stands, whichever is greater (`depth_bind_le_iff`).
-/
namespace TermAlgebra

variable {ν μ : Type}

namespace Term

theorem size_pos (t : Term ν) : 1 ≤ t.size := by
  rw [size_eq]
  omega

/-- Sizes are weights in which every symbol counts for one. -/
theorem total_eq_size (t : Term ν) : ({} : Weight).total t = t.size := by
  have one : ∀ u : Term ν, ({} : Weight).ofRoot u = 1 := fun u => by cases u <;> rfl
  rw [Weight.total_eq_length_positions {} one, positions, List.length_map, length_subterms]

theorem size_bind (g : ν → Term μ) (t : Term ν) :
    (t.bind g).size = t.size + (t.occurrences.map fun v => (g v).size - 1).sum := by
  have light : ∀ v ∈ t.occurrences, ({} : Weight).perVariable.toNat ≤ ({} : Weight).total (g v) :=
    fun v _ => by
      rw [total_eq_size]
      exact size_pos (g v)
  have grown := Weight.total_bind {} light
  simp only [total_eq_size, Weight.excess] at grown
  exact grown

/-- Images take the place of variables, above which nothing changes. -/
theorem depth_le_depth_bind (g : ν → Term μ) (t : Term ν) : t.depth ≤ (t.bind g).depth := by
  induction t with
  | const c => exact Nat.le_refl _
  | var v => exact Nat.zero_le _
  | app f args ih =>
    have arguments : depthAll args ≤ depthAll (args.map (bind g)) :=
      depthAll_le_iff.2 fun c member =>
        Nat.le_trans (ih c member) (le_depthAll (List.mem_map_of_mem member))
    rw [bind_app, depth, depth]
    omega

/-- What bounds the depth afterwards: a bound on the depth before and on that of every image,
counted from the root of the term. -/
theorem depth_bind_le_iff {g : ν → Term μ} {t : Term ν} {n : Nat} :
    (t.bind g).depth ≤ n ↔
      t.depth ≤ n ∧ ∀ p v, t.subterm? p = some (.var v) → p.length + (g v).depth ≤ n := by
  constructor
  · intro bound
    refine ⟨Nat.le_trans (depth_le_depth_bind g t) bound, fun p v isVar => ?_⟩
    exact Nat.le_trans (length_add_depth_le (subterm?_bind g isVar)) bound
  · rintro ⟨ofTerm, ofImages⟩
    induction t generalizing n with
    | const c => exact Nat.zero_le n
    | var v =>
      have image := ofImages [] v rfl
      rw [List.length_nil, Nat.zero_add] at image
      exact image
    | app f args ih =>
      rw [depth] at ofTerm
      obtain ⟨m, rfl⟩ := Nat.exists_eq_add_of_le' (Nat.le_trans (Nat.le_add_right 1 _) ofTerm)
      have each : ∀ c ∈ args, (c.bind g).depth ≤ m := by
        intro c member
        obtain ⟨i, held⟩ := List.mem_iff_getElem?.1 member
        have shallow := le_depthAll member
        refine ih c member (by omega) fun p v isVar => ?_
        have inside : (app f args).subterm? (i :: p) = some (.var v) := by
          rw [subterm?_cons, children, held, Option.bind_some, isVar]
        have image := ofImages (i :: p) v inside
        rw [List.length_cons] at image
        omega
      have arguments : depthAll (args.map (bind g)) ≤ m :=
        depthAll_le_iff.2 (List.forall_mem_map.2 each)
      rw [bind_app, depth]
      omega

/-- The depth afterwards is the greatest of the depths that have to be looked at. -/
theorem max?_depth_bind (g : ν → Term μ) (t : Term ν) :
    (t.depth :: t.places.map fun place => place.1.length + (g place.2).depth).max? =
      some (t.bind g).depth := by
  obtain ⟨n, greatest⟩ :
      ∃ n, (t.depth :: t.places.map fun place => place.1.length + (g place.2).depth).max? =
        some n :=
    ⟨_, List.max?_cons'⟩
  rw [greatest, Option.some.injEq]
  obtain ⟨listed, bound⟩ := List.max?_eq_some_iff.1 greatest
  rw [List.forall_mem_cons, List.forall_mem_map] at bound
  obtain ⟨ofTerm, ofImages⟩ := depth_bind_le_iff.1 (Nat.le_refl (t.bind g).depth)
  refine Nat.le_antisymm ?_ ?_
  · rcases List.mem_cons.1 listed with rfl | image
    · exact ofTerm
    · obtain ⟨⟨p, v⟩, place, rfl⟩ := List.mem_map.1 image
      exact ofImages p v (mem_places.1 place)
  · exact depth_bind_le_iff.2 ⟨bound.1, fun p v isVar => bound.2 (p, v) (mem_places.2 isVar)⟩

end Term

namespace Substitution

/-- A term is without variables after a substitution if each of its variables is bound to a term
without variables. -/
theorem occurrences_image_eq_nil_iff [BEq ν] {s : Substitution ν} {v : ν} :
    (s.image v).occurrences = [] ↔ ∃ u, s.get? v = some u ∧ u.occurrences = [] := by
  rw [image]
  cases s.get? v with
  | none => simp
  | some u => simp

/-- What a substitution makes of a term, in numbers. The occurrences of variables are those of the
images, in the order of the old ones; every occurrence adds the size of its image less the one
position that it had; the depth is the greatest among that of the term and those of the images below
the positions where they come in. No variable is left exactly if every variable of the term is bound
to a term without variables. -/
theorem apply_accounted (s : Substitution Variable) (t : Term Variable) :
    (s.apply t).occurrences = (t.occurrences.flatMap fun v => (s.image v).occurrences) ∧
    (s.apply t).size = t.size + (t.occurrences.map fun v => (s.image v).size - 1).sum ∧
    (∀ v, 1 ≤ (s.image v).size) ∧
    (t.depth :: t.places.map fun place => place.1.length + (s.image place.2).depth).max? =
      some (s.apply t).depth ∧
    ((s.apply t).occurrences = [] ↔
      ∀ v ∈ t.occurrences, ∃ u, s.get? v = some u ∧ u.occurrences = []) := by
  rw [apply_eq_bind, Term.occurrences_bind]
  refine ⟨rfl, Term.size_bind s.image t, fun v => (s.image v).size_pos,
    Term.max?_depth_bind s.image t, ?_⟩
  rw [List.flatMap_eq_nil_iff]
  exact forall₂_congr fun v _ => occurrences_image_eq_nil_iff

/-- A variable that occurs twice, at different depths, beside one that is bound to itself. -/
theorem apply_accounted_twice :
    let x : Variable := ⟨⟨"x", none⟩, .free 0⟩
    let y : Variable := ⟨⟨"y", none⟩, .free 1⟩
    let g (t : Term Variable) : Term Variable := .app ⟨"g", 1, by decide⟩ [t]
    let t : Term Variable := .app ⟨"f", 2, by decide⟩ [.var x, g (.var x)]
    let s : Substitution Variable := .ofList [(x, g (.const ⟨"a"⟩)), (y, .var y)]
    (∀ v ∈ t.occurrences, ∃ u, s.get? v = some u ∧ u.occurrences = []) ∧
      (s.apply t).occurrences = [] ∧ (s.apply t).size = 6 ∧
      (s.apply (g (.var y))).occurrences ≠ [] := by
  intro x y g t s
  obtain ⟨-, size, -, -, ground⟩ := apply_accounted s t
  obtain ⟨-, -, -, -, groundToo⟩ := apply_accounted s (g (.var y))
  have twice : t.occurrences = [x, x] := by simp [t, g, Term.occurrences_app]
  have once : (g (.var y)).occurrences = [y] := by simp [g, Term.occurrences_app]
  have bound : ∀ v ∈ t.occurrences, ∃ u, s.get? v = some u ∧ u.occurrences = [] := by
    rw [twice]
    intro v member
    obtain rfl : v = x := by simpa using member
    exact ⟨g (.const ⟨"a"⟩), rfl, by simp [g, Term.occurrences_app]⟩
  refine ⟨bound, ground.2 bound, ?_, fun nothing => ?_⟩
  · rw [size, twice]
    rfl
  · obtain ⟨u, held, free⟩ := groundToo.1 nothing y (by simp [once])
    obtain rfl : u = .var y := Option.some.inj (held.symm.trans rfl)
    simp at free

end Substitution

end TermAlgebra
