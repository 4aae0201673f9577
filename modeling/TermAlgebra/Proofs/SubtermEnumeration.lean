import TermAlgebra.Proofs.PositionOrder
import TermAlgebra.Proofs.SubtermLookup
import TermAlgebra.Proofs.WellFormed
/-!
The walk through the subterms of a term, against looking them up one by one. A walk finishes what is
on top of its queue before it touches the rest (`Walk.takes_pending`), and what it lists below a
position is what it lists from the subterm there, moved (`Walk.toList_moved`). So it lists a term
and then its arguments in turn (`subterms_eq`), and by induction along this the list is in order,
without loss or repetition, as long as the term is large and as deep as it is deep.
-/
namespace TermAlgebra

variable {ν : Type}

namespace Term

/-- What is found somewhere in the subterm at `p`, as a part of the whole term. -/
def moved {α : Type} (p : Position) (item : Position × α) : Position × α := (p ++ item.1, item.2)

theorem childrenAt_append (p q : Position) (t : Term ν) :
    childrenAt (p ++ q) t = (childrenAt q t).map (moved p) := by
  simp [childrenAt, moved, Position.child, List.mapIdx_eq_zipIdx_map]

theorem mem_childrenAt {p q : Position} {t u : Term ν} :
    (q, u) ∈ childrenAt p t ↔ ∃ i, t.children[i]? = some u ∧ q = p.child i := by
  simp only [childrenAt, List.mem_mapIdx, Prod.mk.injEq, List.getElem?_eq_some_iff]
  constructor
  · rintro ⟨i, inside, rfl, rfl⟩
    exact ⟨i, ⟨inside, rfl⟩, rfl⟩
  · rintro ⟨i, ⟨inside, rfl⟩, rfl⟩
    exact ⟨i, inside, rfl, rfl⟩

theorem pairwise_childrenAt (p : Position) (t : Term ν) :
    (childrenAt p t).Pairwise fun a b => ∃ i j, i < j ∧ a.1 = p.child i ∧ b.1 = p.child j := by
  refine List.pairwise_iff_getElem.2 fun i j _ _ before => ⟨i, j, before, ?_, ?_⟩ <;>
    simp [childrenAt]

namespace Walk

/-- Taking one subterm after another from a walk gives the items in this order and then nothing. -/
inductive Lists : Walk ν → List (Position × Term ν) → Prop where
  | done {w : Walk ν} (ended : w.next? = none) : Lists w []
  | step {w w' : Walk ν} {item : Position × Term ν} {items : List (Position × Term ν)}
      (taken : w.next? = some (item, w')) (rest : Lists w' items) : Lists w (item :: items)

/-- Taking one subterm after another from the first walk gives the items and then leaves the second
walk. -/
inductive Takes : Walk ν → List (Position × Term ν) → Walk ν → Prop where
  | none (w : Walk ν) : Takes w [] w
  | step {w w' w'' : Walk ν} {item : Position × Term ν} {items : List (Position × Term ν)}
      (taken : w.next? = some (item, w')) (rest : Takes w' items w'') : Takes w (item :: items) w''

/-- Every walk comes to an end. -/
theorem lists_toList (w : Walk ν) : w.Lists w.toList := by
  induction w using Walk.toList.induct with
  | case1 w ended =>
    rw [Walk.toList, ended]
    exact .done ended
  | case2 w item w' taken ih =>
    rw [Walk.toList, taken]
    exact .step taken ih

theorem length_toList (w : Walk ν) : w.toList.length = w.remaining := by
  obtain ⟨pending⟩ := w
  induction pending using Walk.induct with
  | finished =>
    rw [toList_nil]
    rfl
  | step p t rest ih =>
    have oneFewer : remaining ⟨childrenAt p t ++ rest⟩ + 1 = remaining ⟨(p, t) :: rest⟩ :=
      remaining_next rfl
    rw [toList_cons, List.length_cons, ih, oneFewer]

section
variable {w w' w'' : Walk ν} {items items' : List (Position × Term ν)}

theorem Takes.append (first : Takes w items w') (second : Takes w' items' w'') :
    Takes w (items ++ items') w'' := by
  induction first with
  | none w => exact second
  | step taken rest ih => exact .step taken (ih second)

theorem Takes.lists (first : Takes w items w') (rest : Lists w' items') :
    Lists w (items ++ items') := by
  induction first with
  | none w => exact rest
  | step taken _ ih => exact .step taken (ih rest)

/-- What a walk lists is determined by the walk. -/
theorem Lists.eq_toList (lists : Lists w items) : items = w.toList := by
  induction lists with
  | done ended => rw [toList, ended]
  | step taken _ ih => rw [toList, taken, ih]

/-- What is above in the queue is gone through with all that is below it in the term, and then the
rest of the queue is left as it was. -/
theorem takes_pending (items rest : List (Position × Term ν)) :
    Takes ⟨items ++ rest⟩ (toList ⟨items⟩) ⟨rest⟩ := by
  induction items using Walk.induct with
  | finished =>
    rw [toList_nil]
    exact .none ⟨rest⟩
  | step p t items ih =>
    rw [List.append_assoc] at ih
    rw [toList_cons]
    exact .step rfl ih

end

/-- What is above in the queue is listed with all that is below it in the term before the rest is
touched. -/
theorem toList_append (items rest : List (Position × Term ν)) :
    toList ⟨items ++ rest⟩ = toList ⟨items⟩ ++ toList ⟨rest⟩ :=
  ((takes_pending items rest).lists (lists_toList ⟨rest⟩)).eq_toList.symm

/-- A walk elsewhere in a term takes the same steps. -/
theorem toList_moved (p : Position) (items : List (Position × Term ν)) :
    toList ⟨items.map (moved p)⟩ = (toList ⟨items⟩).map (moved p) := by
  induction items using Walk.induct with
  | finished => rw [List.map_nil, toList_nil, List.map_nil]
  | step q t items ih =>
    rw [List.map_append, ← childrenAt_append] at ih
    show toList ⟨(p ++ q, t) :: items.map (moved p)⟩ = _
    rw [toList_cons, toList_cons, List.map_cons, ih]
    rfl

theorem toList_singleton (p : Position) (t : Term ν) :
    toList ⟨[(p, t)]⟩ = t.subterms.map (moved p) := by
  rw [subterms, ← toList_moved, start, List.map_singleton, moved, Position.root, List.append_nil]

/-- A walk lists the subterms of each pending term in turn. -/
theorem toList_eq_flatMap (items : List (Position × Term ν)) :
    toList ⟨items⟩ = items.flatMap fun item => item.2.subterms.map (moved item.1) := by
  induction items with
  | nil => exact toList_nil
  | cons item items ih =>
    rw [List.flatMap_cons, ← ih, ← toList_singleton]
    exact toList_append [item] items

end Walk

theorem subterms_eq (t : Term ν) :
    t.subterms = (Position.root, t) ::
      (childrenAt Position.root t).flatMap fun item => item.2.subterms.map (moved item.1) := by
  rw [subterms, Walk.start, Walk.toList_cons, List.append_nil, Walk.toList_eq_flatMap]

/-- A subterm is listed with the positions where it is found, and with no others. -/
theorem mem_subterms {t u : Term ν} {p : Position} :
    (p, u) ∈ t.subterms ↔ t.subterm? p = some u := by
  induction p generalizing t with
  | nil =>
    rw [subterms_eq, List.mem_cons, subterm?, Option.some.injEq, Prod.mk.injEq]
    constructor
    · rintro (⟨-, same⟩ | later)
      · exact same.symm
      · -- What stands below an argument has a position with an index in it.
        obtain ⟨⟨q, c⟩, child, below⟩ := List.mem_flatMap.1 later
        obtain ⟨j, -, rfl⟩ := mem_childrenAt.1 child
        obtain ⟨inner, -, same⟩ := List.mem_map.1 below
        cases congrArg Prod.fst same
    · exact fun same => .inl ⟨rfl, same.symm⟩
  | cons i p ih =>
    rw [subterms_eq, List.mem_cons, List.mem_flatMap, subterm?_cons, Option.bind_eq_some_iff]
    constructor
    · rintro (atRoot | ⟨⟨q, c⟩, child, below⟩)
      · cases atRoot
      · obtain ⟨j, held, rfl⟩ := mem_childrenAt.1 child
        obtain ⟨⟨r, v⟩, listed, same⟩ := List.mem_map.1 below
        obtain ⟨⟨rfl, rfl⟩, rfl⟩ : (j = i ∧ r = p) ∧ v = u := by
          simpa [moved, Position.child, Position.root] using same
        exact ⟨c, held, ih.1 listed⟩
    · rintro ⟨c, held, found⟩
      exact .inr ⟨(Position.root.child i, c), mem_childrenAt.2 ⟨i, held, rfl⟩,
        List.mem_map.2 ⟨(p, u), ih.2 found, rfl⟩⟩

theorem mem_positions {t : Term ν} {p : Position} :
    p ∈ t.positions ↔ ∃ u, t.subterm? p = some u := by
  simp only [positions, List.mem_map, Prod.exists, mem_subterms, exists_and_right, exists_eq_right]

/-- The arguments of an application follow it and each other in the order of positions. -/
theorem pairwise_positions (t : Term ν) :
    t.positions.Pairwise fun p q => compare p q = .lt := by
  rw [positions, List.pairwise_map]
  induction t with
  | const c =>
    rw [subterms_eq]
    exact List.pairwise_singleton _ _
  | var v =>
    rw [subterms_eq]
    exact List.pairwise_singleton _ _
  | app f args ih =>
    rw [subterms_eq, List.pairwise_cons, List.pairwise_flatMap]
    refine ⟨?root, ?within, ?across⟩
    case root =>
      intro item later
      obtain ⟨⟨q, c⟩, child, below⟩ := List.mem_flatMap.1 later
      obtain ⟨i, -, rfl⟩ := mem_childrenAt.1 child
      obtain ⟨inner, -, rfl⟩ := List.mem_map.1 below
      rfl
    case within =>
      rintro ⟨q, c⟩ child
      obtain ⟨i, held, rfl⟩ := mem_childrenAt.1 child
      rw [List.pairwise_map]
      refine (ih c (List.mem_of_getElem? held)).imp fun {a b} before => ?_
      exact (Position.compare_append_left _ a.1 b.1).trans before
    case across =>
      refine (pairwise_childrenAt Position.root (app f args)).imp fun {a b} apart => ?_
      obtain ⟨i, j, before, left, right⟩ := apart
      intro x inA y inB
      obtain ⟨x, -, rfl⟩ := List.mem_map.1 inA
      obtain ⟨y, -, rfl⟩ := List.mem_map.1 inB
      rw [moved, moved, left, right]
      exact Position.compare_cons_lt.2 (.inl before)

theorem nodup_positions (t : Term ν) : t.positions.Nodup :=
  t.pairwise_positions.imp fun {p q} before same => by
    rw [same, Std.ReflOrd.compare_self] at before
    cases before

theorem length_subterms (t : Term ν) : t.subterms.length = t.size := by
  rw [subterms, Walk.length_toList]
  rfl

theorem depthAll_le_iff {ts : List (Term ν)} {n : Nat} :
    depthAll ts ≤ n ↔ ∀ t ∈ ts, t.depth ≤ n := by
  induction ts with
  | nil => simp [depthAll]
  | cons t ts ih => rw [depthAll, Nat.max_le, ih, List.forall_mem_cons]

theorem le_depthAll {t : Term ν} {ts : List (Term ν)} (member : t ∈ ts) :
    t.depth ≤ depthAll ts :=
  depthAll_le_iff.1 (Nat.le_refl _) t member

theorem exists_depth_eq_depthAll {ts : List (Term ν)} (some : ts ≠ []) :
    ∃ t ∈ ts, t.depth = depthAll ts := by
  induction ts with
  | nil => exact absurd rfl some
  | cons u ts ih =>
    by_cases deeper : depthAll ts ≤ u.depth
    · exact ⟨u, List.mem_cons_self, (Nat.max_eq_left deeper).symm⟩
    · have others : ts ≠ [] := by
        rintro rfl
        exact deeper (Nat.zero_le _)
      obtain ⟨t, member, deepest⟩ := ih others
      refine ⟨t, List.mem_cons_of_mem u member, ?_⟩
      rw [depthAll, deepest, Nat.max_eq_right (Nat.le_of_not_le deeper)]

/-- A term is at least as deep as a position in it leads down, and the subterm there from there
on. -/
theorem length_add_depth_le {t u : Term ν} {p : Position} (found : t.subterm? p = some u) :
    p.length + u.depth ≤ t.depth := by
  induction p generalizing t with
  | nil =>
    obtain rfl := Option.some.inj found
    exact Nat.le_of_eq (Nat.zero_add _)
  | cons i p ih =>
    obtain ⟨f, args, c, rfl, held, inside⟩ := subterm?_cons_eq_some found
    have inner := ih inside
    have bound := le_depthAll (List.mem_of_getElem? held)
    rw [List.length_cons, depth]
    omega

/-- Some position is as long as the term is deep. An application without arguments would be deeper
than any, but the arity of its symbol rules it out. -/
theorem exists_length_eq_depth {t : Term ν} (wellFormed : t.WellFormed) :
    ∃ p u, t.subterm? p = some u ∧ p.length = t.depth := by
  induction t with
  | const c => exact ⟨[], _, rfl, rfl⟩
  | var v => exact ⟨[], _, rfl, rfl⟩
  | app f args ih =>
    obtain ⟨c, member, deepest⟩ := exists_depth_eq_depthAll (args_ne_nil wellFormed)
    obtain ⟨p, u, found, length⟩ := ih c member ((wellFormed_app.1 wellFormed).2 c member)
    obtain ⟨i, held⟩ := List.mem_iff_getElem?.1 member
    refine ⟨i :: p, u, ?_, ?_⟩
    · rw [subterm?_cons, children, held, Option.bind_some, found]
    · rw [List.length_cons, depth, length, deepest, Nat.add_comm]

theorem max?_length_positions {t : Term ν} (wellFormed : t.WellFormed) :
    (t.positions.map List.length).max? = some t.depth := by
  refine List.max?_eq_some_iff.2 ⟨?_, ?_⟩
  · obtain ⟨p, u, found, length⟩ := exists_length_eq_depth wellFormed
    exact List.mem_map.2 ⟨p, mem_positions.2 ⟨u, found⟩, length⟩
  · intro n listed
    obtain ⟨p, member, rfl⟩ := List.mem_map.1 listed
    obtain ⟨u, found⟩ := mem_positions.1 member
    exact Nat.le_of_add_right_le (length_add_depth_le found)

/-- The walk through a term comes to an end, having listed its subterms in the order of their
positions, and so none of them twice: every subterm that can be looked up and no other, as many as
the term has positions. The longest of these is as long as the term is deep. -/
theorem subterms_enumerate (t : Term ν) :
    (Walk.start t).Lists t.subterms ∧
    (t.positions.Pairwise fun p q => compare p q = .lt) ∧
    t.positions.Nodup ∧
    (∀ p u, (p, u) ∈ t.subterms ↔ t.subtermAt p = .ok u) ∧
    t.subterms.length = t.size ∧
    (t.WellFormed → (t.positions.map List.length).max? = some t.depth) := by
  refine ⟨(Walk.start t).lists_toList, t.pairwise_positions, t.nodup_positions, ?_,
    t.length_subterms, max?_length_positions⟩
  intro p u
  rw [mem_subterms, subtermAt_eq_ok_iff]

/-- Branches of different depths and equal subterms at different positions. -/
theorem subterms_enumerate_branches :
    let x : Term Label := .var ⟨"x", none⟩
    let g (u : Term Label) : Term Label := .app ⟨"g", 1, by decide⟩ [u]
    let t : Term Label := .app ⟨"f", 3, by decide⟩ [x, g (g x), x]
    t.WellFormed ∧ (t.positions.map List.length).max? = some 3 := by
  intro x g t
  have wellFormed : t.WellFormed := by simp [t, g, x, WellFormed, WellFormedAll]
  exact ⟨wellFormed, (subterms_enumerate t).2.2.2.2.2 wellFormed⟩

end Term

end TermAlgebra
