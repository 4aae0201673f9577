import TermAlgebra.Proofs.Replacement
import TermAlgebra.Proofs.SubstitutionComposition
/-!
Applying a substitution, against positions. A position of a term stays one and holds the old subterm
with the substitution applied to it; new positions begin only where a variable was, and continue as
in what that variable stands for. Applying a substitution after a replacement is therefore a
replacement after applying it. All of this holds for putting any terms for variables (`Term.bind`).
-/
namespace TermAlgebra

variable {ν μ : Type}

namespace Term

section
variable (g : ν → Term μ) {t u r t' : Term ν} {p : Position}

theorem subterm?_bind (found : t.subterm? p = some u) :
    (t.bind g).subterm? p = some (u.bind g) := by
  induction p generalizing t with
  | nil =>
    obtain rfl := Option.some.inj found
    rfl
  | cons i p ih =>
    obtain ⟨f, args, c, rfl, held, inside⟩ := subterm?_cons_eq_some found
    rw [bind_app, subterm?_cons, children, List.getElem?_map, held, Option.map_some,
      Option.bind_some]
    exact ih inside

/-- Below the place of a variable there is what stands below the root of its image. -/
theorem subterm?_bind_below {v : ν} (found : t.subterm? p = some (.var v)) (q : Position) :
    (t.bind g).subterm? (p ++ q) = (g v).subterm? q := by
  rw [subterm?_append, subterm?_bind g found, Option.bind_some, bind]

/-- A position that was not in the term leads through the place of a variable into its image. -/
theorem subterm?_of_bind {w : Term μ} (found : (t.bind g).subterm? p = some w) :
    (∃ u, t.subterm? p = some u) ∨
      ∃ q s v, p = q ++ s ∧ t.subterm? q = some (.var v) ∧ (g v).subterm? s = some w := by
  induction p generalizing t with
  | nil => exact .inl ⟨t, rfl⟩
  | cons i p ih =>
    cases t with
    | const c => cases found
    | var v => exact .inr ⟨[], i :: p, v, rfl, rfl, found⟩
    | app f args =>
      rw [bind_app, subterm?_cons, children, List.getElem?_map, Option.bind_eq_some_iff] at found
      obtain ⟨c', held', found⟩ := found
      obtain ⟨c, held, rfl⟩ := Option.map_eq_some_iff.1 held'
      have inside : ∀ q, (app f args).subterm? (i :: q) = c.subterm? q := fun q => by
        rw [subterm?_cons, children, held, Option.bind_some]
      rcases ih found with ⟨u, old⟩ | ⟨q, s, v, rfl, isVar, below⟩
      · exact .inl ⟨u, (inside p).trans old⟩
      · exact .inr ⟨i :: q, s, v, rfl, (inside q).trans isVar, below⟩

theorem replace?_bind (done : t.replace? p r = some t') :
    (t.bind g).replace? p (r.bind g) = some (t'.bind g) := by
  induction p generalizing t t' with
  | nil =>
    rw [replace?_nil] at done ⊢
    obtain rfl := Option.some.inj done
    rfl
  | cons i p ih =>
    obtain ⟨f, args, u, u', rfl, held, inside, rfl⟩ := replace?_cons_eq_some done
    rw [bind_app, replace?_app_cons, List.getElem?_map, held, Option.map_some, Option.bind_some,
      ih inside, Option.map_some, bind_app, List.map_set]

end

end Term

namespace Substitution

/-- Applying a substitution respects the structure of a term. The positions afterwards are the old
ones and those that lead through a variable into what it stands for; at each of them stands what
should, and the substitution may be applied before or after a subterm is replaced. -/
theorem apply_respects_positions (s : Substitution Variable) (t : Term Variable) :
    (∀ p, (s.apply t).hasPosition p = true ↔ t.hasPosition p = true ∨
      ∃ q r v, p = q ++ r ∧ t.subtermAt q = .ok (.var v) ∧ (s.image v).hasPosition r = true) ∧
    (∀ p u, t.subtermAt p = .ok u → (s.apply t).subtermAt p = .ok (s.apply u)) ∧
    (∀ p v, t.subtermAt p = .ok (.var v) → ∀ q u,
      (s.apply t).subtermAt (p ++ q) = .ok u ↔ (s.image v).subtermAt q = .ok u) ∧
    ∀ p r, t.hasPosition p = true → ∃ t', t.replaceAt p r = .ok t' ∧
      (s.apply t).replaceAt p (s.apply r) = .ok (s.apply t') := by
  simp only [Term.subtermAt_eq_ok_iff, Term.hasPosition_iff, Term.replaceAt_eq_ok_iff,
    apply_eq_bind]
  refine ⟨fun p => ⟨?onlyThese, ?these⟩, ?subterms, ?images, ?replacements⟩
  case onlyThese =>
    rintro ⟨w, found⟩
    rcases Term.subterm?_of_bind s.image found with old | ⟨q, r, v, split, isVar, below⟩
    · exact .inl old
    · exact .inr ⟨q, r, v, split, isVar, w, below⟩
  case these =>
    rintro (⟨u, found⟩ | ⟨q, r, v, rfl, isVar, w, below⟩)
    · exact ⟨_, Term.subterm?_bind s.image found⟩
    · exact ⟨w, (Term.subterm?_bind_below s.image isVar r).trans below⟩
  case subterms => exact fun p u found => Term.subterm?_bind s.image found
  case images =>
    intro p v isVar q u
    rw [Term.subterm?_bind_below s.image isVar]
  case replacements =>
    rintro p r ⟨u, found⟩
    have succeeds : (t.replace? p r).isSome = true := by
      rw [Term.isSome_replace?, found, Option.isSome_some]
    obtain ⟨t', done⟩ := Option.isSome_iff_exists.1 succeeds
    exact ⟨t', done, Term.replace?_bind s.image done⟩

/-- Into the image of a variable whose equal is bound, and beside it. -/
theorem apply_respects_positions_image :
    let x (serial : Nat) : Variable := ⟨⟨"x", none⟩, .free serial⟩
    let g (t : Term Variable) : Term Variable := .app ⟨"g", 1, by decide⟩ [t]
    let a : Term Variable := .const ⟨"a"⟩
    let s : Substitution Variable := single (x 0) (g (.var (x 0)))
    (g (.var (x 1))).subtermAt [0] = .ok (.var (x 1)) ∧
      (s.apply (g (.var (x 1)))).subtermAt [0, 0] = .ok (.var (x 0)) ∧
      ∃ t', (g (.var (x 1))).replaceAt [0] a = .ok t' ∧
        (s.apply (g (.var (x 1)))).replaceAt [0] (s.apply a) = .ok (s.apply t') := by
  intro x g a s
  have laws := apply_respects_positions s (g (.var (x 1)))
  have isVar : (g (.var (x 1))).subtermAt [0] = .ok (.var (x 1)) := rfl
  have inside : (s.image (x 1)).subtermAt [0] = .ok (.var (x 0)) := rfl
  exact ⟨isVar, (laws.2.2.1 [0] (x 1) isVar [0] (.var (x 0))).2 inside,
    laws.2.2.2 [0] a rfl⟩

end Substitution

end TermAlgebra
