import TermAlgebra.Proofs.SubtermEnumeration
/-!
Subterms in the list of all subterms. A walk through a term comes to every subterm that can be
looked up (`Walk.exists_takes`), and from there it goes through this subterm before it touches
anything else that is pending (`Walk.takes_below`). So what it lists from there on is the list of
the subterm's own subterms, moved; and since no position is listed twice, nothing that stands below
is listed earlier or later (`Visit.outside`).
-/
namespace TermAlgebra.Term

variable {ν : Type} {t u : Term ν} {p : Position}

namespace Walk

theorem takes_below (p : Position) (u : Term ν) (pending : List (Position × Term ν)) :
    Takes ⟨(p, u) :: pending⟩ (u.subterms.map (moved p)) ⟨pending⟩ := by
  rw [← toList_singleton]
  exact takes_pending [(p, u)] pending

/-- A walk comes to every subterm. On the way it goes through the arguments to the left of the path,
and those to the right of it are put in front of what was pending. -/
theorem exists_takes (found : t.subterm? p = some u) (q : Position)
    (outer : List (Position × Term ν)) :
    ∃ before pending, Takes ⟨(q, t) :: outer⟩ before ⟨(q ++ p, u) :: pending⟩ := by
  induction p generalizing t q outer with
  | nil =>
    obtain rfl := Option.some.inj found
    rw [List.append_nil]
    exact ⟨[], outer, .none _⟩
  | cons i p ih =>
    rw [subterm?_cons, Option.bind_eq_some_iff] at found
    obtain ⟨c, held, found⟩ := found
    obtain ⟨left, right, arguments⟩ :=
      List.append_of_mem (mem_childrenAt.2 ⟨i, held, rfl⟩ : (q.child i, c) ∈ childrenAt q t)
    obtain ⟨between, pending, inside⟩ := ih found (q.child i) (right ++ outer)
    have across : Takes ⟨childrenAt q t ++ outer⟩ (toList ⟨left⟩)
        ⟨(q.child i, c) :: (right ++ outer)⟩ := by
      rw [arguments, List.append_assoc]
      exact takes_pending left _
    rw [Position.child, List.append_assoc, List.singleton_append] at inside
    exact ⟨(q, t) :: (toList ⟨left⟩ ++ between), pending, .step rfl (across.append inside)⟩

end Walk

/-- The walk through `t` comes to its subterm `u` at `p` when it has listed `before`, goes through
`u` while the rest is `pending`, and lists `after` when it goes on to that. -/
structure Visit (t : Term ν) (p : Position) (u : Term ν)
    (before pending after : List (Position × Term ν)) : Prop where
  reaches : (Walk.start t).Takes before ⟨(p, u) :: pending⟩
  through : Walk.Takes ⟨(p, u) :: pending⟩ (u.subterms.map (moved p)) ⟨pending⟩
  goesOn : Walk.Lists ⟨pending⟩ after

theorem exists_visit (found : t.subterm? p = some u) :
    ∃ before pending after, t.Visit p u before pending after := by
  obtain ⟨before, pending, reached⟩ := Walk.exists_takes found Position.root []
  exact ⟨before, pending, Walk.toList ⟨pending⟩, reached, Walk.takes_below p u pending,
    Walk.lists_toList ⟨pending⟩⟩

namespace Visit

variable {before pending after : List (Position × Term ν)}

theorem subterms_eq (visit : t.Visit p u before pending after) :
    t.subterms = before ++ (u.subterms.map (moved p) ++ after) :=
  (visit.reaches.lists (visit.through.lists visit.goesOn)).eq_toList.symm

theorem found (visit : t.Visit p u before pending after) : t.subterm? p = some u := by
  refine mem_subterms.1 ?_
  rw [visit.subterms_eq, List.mem_append, List.mem_append]
  refine .inr (.inl (List.mem_map.2 ⟨(Position.root, u), mem_subterms.2 rfl, ?_⟩))
  rw [moved, Position.root, List.append_nil]

/-- What stands below the position is listed among the subterms there, and so nowhere else. -/
theorem outside (visit : t.Visit p u before pending after) {item : Position × Term ν}
    (other : item ∈ before ∨ item ∈ after) : p.isAbove item.1 = false := by
  rw [Position.isAbove_eq_false_iff]
  intro below
  obtain ⟨q, v⟩ := item
  obtain ⟨s, rfl⟩ := below
  have listed : (p ++ s, v) ∈ t.subterms := by
    rw [visit.subterms_eq, List.mem_append, List.mem_append]
    exact other.imp_right .inr
  have inside : p ++ s ∈ (u.subterms.map (moved p)).map (·.1) := by
    rw [mem_subterms, subterm?_append, visit.found, Option.bind_some] at listed
    exact List.mem_map_of_mem (List.mem_map.2 ⟨(s, v), mem_subterms.2 listed, rfl⟩)
  have once := t.nodup_positions
  rw [positions, visit.subterms_eq, List.map_append, List.map_append, List.nodup_append] at once
  obtain ⟨-, onceLater, apart⟩ := once
  rcases other with earlier | later
  · exact apart _ (List.mem_map_of_mem earlier) _ (List.mem_append_left _ inside) rfl
  · exact (List.nodup_append.1 onceLater).2.2 _ inside _ (List.mem_map_of_mem later) rfl

theorem filter_eq (visit : t.Visit p u before pending after) :
    t.subterms.filter (fun item => p.isAbove item.1) = u.subterms.map (moved p) := by
  have inside : ∀ item ∈ u.subterms.map (moved p), p.isAbove item.1 = true := by
    intro item member
    obtain ⟨inner, -, rfl⟩ := List.mem_map.1 member
    exact Position.isAbove_iff.2 (List.prefix_append p inner.1)
  have none {items : List (Position × Term ν)}
      (others : ∀ item ∈ items, item ∈ before ∨ item ∈ after) :
      items.filter (fun item => p.isAbove item.1) = [] := by
    refine List.filter_eq_nil_iff.2 fun item member => ?_
    rw [visit.outside (others item member)]
    exact Bool.false_ne_true
  rw [visit.subterms_eq, List.filter_append, List.filter_append, none fun item => .inl,
    none fun item => .inr, List.filter_eq_self.2 inside, List.nil_append, List.append_nil]

end Visit

/-- The subterms at a position and below are listed one right after the other, beginning with the
one at the position: as the walk through this subterm alone lists them, with the position put in
front of theirs. -/
theorem subterms_in_blocks (found : t.subtermAt p = .ok u) :
    ∃ before pending after, t.Visit p u before pending after ∧
      t.subterms = before ++ (u.subterms.map (moved p) ++ after) ∧
      (∀ item, item ∈ before ∨ item ∈ after → p.isAbove item.1 = false) ∧
      t.subterms.filter (fun item => p.isAbove item.1) = u.subterms.map (moved p) ∧
      (u.subterms.map (moved p)).head? = some (p, u) ∧
      (u.subterms.map (moved p)).length = u.size := by
  obtain ⟨before, pending, after, visit⟩ := exists_visit (subtermAt_eq_ok_iff.1 found)
  refine ⟨before, pending, after, visit, visit.subterms_eq, fun item => visit.outside,
    visit.filter_eq, ?first, ?count⟩
  case first =>
    rw [Term.subterms_eq, List.map_cons, List.head?_cons, moved, Position.root, List.append_nil]
  case count => rw [List.length_map, length_subterms]

/-- In `f(a, g(a), a)` the block of `g(a)` has two items, though `a` is listed on both sides of
it. -/
theorem subterms_in_blocks_middle :
    let a : Term Label := .const ⟨"a"⟩
    let ga : Term Label := .app ⟨"g", 1, by decide⟩ [a]
    let t : Term Label := .app ⟨"f", 3, by decide⟩ [a, ga, a]
    t.subtermAt [1] = .ok ga ∧
      t.subterms.filter (fun item => Position.isAbove [1] item.1) =
        ga.subterms.map (moved [1]) := by
  intro a ga t
  obtain ⟨before, pending, after, -, -, -, filtered, -⟩ :=
    subterms_in_blocks (rfl : t.subtermAt [1] = .ok ga)
  exact ⟨rfl, filtered⟩

end TermAlgebra.Term
