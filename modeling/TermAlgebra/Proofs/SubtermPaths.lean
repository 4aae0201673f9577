import TermAlgebra.Proofs.PositionOrder
import TermAlgebra.Proofs.WellFormed
/-!
Paths in two parts. What stands at the end of a path is found from wherever its first part leads,
and if nothing stands there, the error names the whole path: not the part that could be followed,
and not the rest. Where the walk came to its end is told by `Stops`, and by induction along the path
it always comes to such an end if it finds nothing (`subterm?_eq_none_iff`).
-/
namespace TermAlgebra.Term

variable {ν : Type} {t : Term ν} {p q r : Position}

/-- The walk along the path `r` reaches the subterm `u` at `p` and is to go on to an argument in the
place `i`, which `u` does not have. -/
structure Stops (t : Term ν) (r p : Position) (i : Nat) (u : Term ν) : Prop where
  onPath : (p.child i).isAbove r = true
  reached : t.subtermAt p = .ok u
  lacking : u.children.length ≤ i

theorem Stops.cons {i j : Nat} {c u : Term ν} (held : t.children[i]? = some c)
    (stops : c.Stops r p j u) : t.Stops (i :: r) (i :: p) j u where
  onPath := Position.isAbove_cons i stops.onPath
  reached := by
    rw [subtermAt_eq_ok_iff, subterm?_cons, held, Option.bind_some]
    exact subtermAt_eq_ok_iff.1 stops.reached
  lacking := stops.lacking

/-- A walk that stops somewhere finds nothing further down. -/
theorem Stops.subterm?_eq_none {i : Nat} {u : Term ν} (stops : t.Stops r p i u) :
    t.subterm? r = none := by
  obtain ⟨rest, rfl⟩ := Position.isAbove_iff.1 stops.onPath
  rw [Position.child, List.append_assoc, List.singleton_append, subterm?_append,
    subtermAt_eq_ok_iff.1 stops.reached, Option.bind_some, subterm?_cons,
    List.getElem?_eq_none stops.lacking, Option.bind_none]

theorem subterm?_eq_none_iff : t.subterm? r = none ↔ ∃ p i u, t.Stops r p i u := by
  constructor
  · intro lost
    induction r generalizing t with
    | nil => cases lost
    | cons i r ih =>
      cases held : t.children[i]? with
      | none =>
        exact ⟨[], i, t, Position.isAbove_iff.2 (List.prefix_append [i] r), rfl,
          List.getElem?_eq_none_iff.1 held⟩
      | some c =>
        rw [subterm?_cons, held, Option.bind_some] at lost
        obtain ⟨p, j, u, stops⟩ := ih lost
        exact ⟨i :: p, j, u, stops.cons held⟩
  · rintro ⟨p, i, u, stops⟩
    exact stops.subterm?_eq_none

theorem hasPosition_append : t.hasPosition (p ++ q) = true ↔
    ∃ u, t.subterm? p = some u ∧ u.hasPosition q = true := by
  simp only [hasPosition_iff, subterm?_append, Option.bind_eq_some_iff]
  constructor
  · rintro ⟨v, u, found, further⟩
    exact ⟨u, found, v, further⟩
  · rintro ⟨u, found, v, further⟩
    exact ⟨v, u, found, further⟩

/-- One step down from the root leads to an argument. -/
theorem hasPosition_singleton {i : Nat} :
    t.hasPosition [i] = true ↔ ∃ f args, t = app f args ∧ i < args.length := by
  rw [hasPosition_iff]
  constructor
  · rintro ⟨u, found⟩
    obtain ⟨f, args, c, rfl, held, -⟩ := subterm?_cons_eq_some found
    exact ⟨f, args, rfl, (List.getElem?_eq_some_iff.1 held).1⟩
  · rintro ⟨f, args, rfl, inside⟩
    refine ⟨args[i], ?_⟩
    rw [subterm?_cons, children, List.getElem?_eq_getElem inside]
    rfl

/-- What is so of a path in two parts. -/
structure FollowedInParts (t : Term ν) (p q : Position) : Prop where
  found_iff : ∀ v, t.subtermAt (p ++ q) = .ok v ↔
    ∃ u, t.subtermAt p = .ok u ∧ u.subtermAt q = .ok v
  /-- In every other case the whole path is reported. -/
  fails_iff : t.subtermAt (p ++ q) = .error (.invalidPosition (p ++ q)) ↔
    ¬ ∃ u v, t.subtermAt p = .ok u ∧ u.subtermAt q = .ok v
  /-- Nothing else is reported, wherever the walk stops. -/
  reports : ∀ e, t.subtermAt (p ++ q) = .error e ↔
    e = .invalidPosition (p ++ q) ∧ ∃ s i u, t.Stops (p ++ q) s i u
  position_iff : ∀ s, t.hasPosition s = true ↔ ∃ u, t.subtermAt s = .ok u
  above : ∀ s, s.isAbove (p ++ q) = true → t.hasPosition (p ++ q) = true → t.hasPosition s = true
  child : t.WellFormed → ∀ i, t.hasPosition (p.child i) = true ↔
    ∃ f args, t.subtermAt p = .ok (app f args) ∧ i < f.arity.toNat

/-- A path in two parts is followed part by part, and reported as a whole. -/
theorem paths_compose (t : Term ν) (p q : Position) : FollowedInParts t p q := by
  have found (v : Term ν) : t.subtermAt (p ++ q) = .ok v ↔
      ∃ u, t.subtermAt p = .ok u ∧ u.subtermAt q = .ok v := by
    simp only [subtermAt_eq_ok_iff, subterm?_append, Option.bind_eq_some_iff]
  constructor
  case found_iff => exact found
  case fails_iff =>
    have lost : t.subtermAt (p ++ q) = .error (.invalidPosition (p ++ q)) ↔
        ¬ ∃ v, t.subtermAt (p ++ q) = .ok v := by
      simp only [subtermAt_eq_error_iff, and_true, subtermAt_eq_ok_iff, not_exists,
        Option.eq_none_iff_forall_ne_some, ne_eq]
    exact lost.trans (not_congr ((exists_congr found).trans exists_comm))
  case reports =>
    intro e
    rw [subtermAt_eq_error_iff, subterm?_eq_none_iff, and_comm]
  case position_iff =>
    intro s
    simp only [hasPosition_iff, subtermAt_eq_ok_iff]
  case above =>
    intro s above valid
    obtain ⟨rest, whole⟩ := Position.isAbove_iff.1 above
    rw [← whole, hasPosition_append] at valid
    obtain ⟨u, found, -⟩ := valid
    exact hasPosition_iff.2 ⟨u, found⟩
  case child =>
    intro wellFormed i
    simp only [Position.child, hasPosition_append, hasPosition_singleton, subtermAt_eq_ok_iff]
    constructor
    · rintro ⟨u, there, f, args, rfl, inside⟩
      rw [(wellFormed_app.1 (wellFormed_subterm? wellFormed there)).1] at inside
      exact ⟨f, args, there, inside⟩
    · rintro ⟨f, args, there, inside⟩
      rw [← (wellFormed_app.1 (wellFormed_subterm? wellFormed there)).1] at inside
      exact ⟨_, there, f, args, rfl, inside⟩

/-- In `f(g(a), a)` the walk along `[0, 0, 7, 1]` stops at the constant, and the whole path is
reported. -/
theorem paths_compose_stopped :
    let a : Term Label := .const ⟨"a"⟩
    let t : Term Label := .app ⟨"f", 2, by decide⟩ [.app ⟨"g", 1, by decide⟩ [a], a]
    t.WellFormed ∧ t.Stops [0, 0, 7, 1] [0, 0] 7 a ∧
      t.subtermAt ([0, 0] ++ [7, 1]) = .error (.invalidPosition [0, 0, 7, 1]) ∧
      (t.hasPosition [1] = true ↔
        ∃ f args, t.subtermAt [] = .ok (app f args) ∧ 1 < f.arity.toNat) := by
  intro a t
  have wellFormed : t.WellFormed := ⟨rfl, ⟨rfl, trivial, trivial⟩, trivial, trivial⟩
  have stops : t.Stops [0, 0, 7, 1] [0, 0] 7 a := ⟨rfl, rfl, Nat.zero_le 7⟩
  have reported := ((paths_compose t [0, 0] [7, 1]).reports _).2 ⟨rfl, [0, 0], 7, a, stops⟩
  exact ⟨wellFormed, stops, reported, (paths_compose t [] []).child wellFormed 1⟩

end TermAlgebra.Term
