import TermAlgebra.Proofs.SubstitutionGrowth
import TermAlgebra.Proofs.SuccessiveReplacements
/-!
How a term grows under a replacement. The size changes by what is put in less what is taken out, in
the term as in every subterm above the place. Read from left to right, the variables of the term are
those before the place of the replacement, those at or below it, and those after it; only the middle
ones change (`places_split`), since nothing that stands above that place is a variable.
-/
namespace TermAlgebra.Term

variable {ν : Type} {t u r t' : Term ν} {p : Position}

theorem size_subterm?_le (found : t.subterm? p = some u) : u.size ≤ t.size := by
  have part := Weight.total_subterm? {} found
  simp only [total_eq_size] at part
  exact part

theorem size_replace? (found : t.subterm? p = some u) (done : t.replace? p r = some t') :
    t'.size = t.size - u.size + r.size := by
  have part := size_subterm?_le found
  have changed := Weight.total_replace? {} found done
  simp only [total_eq_size] at changed
  omega

theorem depth_replace?_le (done : t.replace? p r = some t') :
    t'.depth ≤ max t.depth (p.length + r.depth) := by
  induction p generalizing t t' with
  | nil =>
    rw [replace?_nil] at done
    obtain rfl := Option.some.inj done
    simp
  | cons i p ih =>
    obtain ⟨f, args, c, c', rfl, held, inside, rfl⟩ := replace?_cons_eq_some done
    have old := le_depthAll (List.mem_of_getElem? held)
    have changed := ih inside
    have arguments : depthAll (args.set i c') ≤ max (depthAll args) (p.length + r.depth) := by
      refine depthAll_le_iff.2 fun d member => ?_
      rcases List.mem_or_eq_of_mem_set member with kept | rfl
      · exact Nat.le_trans (le_depthAll kept) (Nat.le_max_left _ _)
      · omega
    rw [depth, depth, List.length_cons]
    omega

theorem length_add_depth_le_replaced (done : t.replace? p r = some t') :
    p.length + r.depth ≤ t'.depth := by
  have there := subterm?_replaced_below (s := []) done
  rw [List.append_nil] at there
  exact length_add_depth_le there

/-- The places of variables in several subterms, as places in the whole term. -/
def placesIn (items : List (Position × Term ν)) : List (Position × ν) :=
  items.flatMap fun item => item.2.places.map (moved item.1)

theorem places_app (f : FunctionSymbol) (args : List (Term ν)) :
    (app f args).places = placesIn (childrenAt Position.root (app f args)) := by
  rw [places, subterms_eq, List.filterMap_cons, asVariable?, Option.map_none,
    List.filterMap_flatMap]
  refine List.flatMap_congr fun item _ => ?_
  rw [places, List.filterMap_map, List.map_filterMap]
  congr 1
  funext below
  simp [moved, Option.map_map, Function.comp_def]

/-- Arguments in a row have their places under the indices that they are counted with. -/
theorem exists_of_mem_placesIn_mapIdx (index : Nat → Nat) {us : List (Term ν)}
    {place : Position × ν} (member : place ∈ placesIn (us.mapIdx fun j u => ([index j], u))) :
    ∃ j < us.length, ∃ q, place.1 = index j :: q := by
  obtain ⟨item, listed, inside⟩ := List.mem_flatMap.1 member
  obtain ⟨j, inRange, rfl⟩ := List.mem_mapIdx.1 listed
  obtain ⟨inner, -, rfl⟩ := List.mem_map.1 inside
  exact ⟨j, inRange, inner.1, rfl⟩

/-- The places in an argument stand between those in arguments with smaller and with greater
indices, which stay when it is exchanged. -/
theorem places_app_set (f : FunctionSymbol) {args : List (Term ν)} {i : Nat}
    (inRange : i < args.length) :
    ∃ before after : List (Position × ν),
      (∀ place ∈ before, ∃ j < i, ∃ q, place.1 = j :: q) ∧
      (∀ place ∈ after, ∃ j, i < j ∧ ∃ q, place.1 = j :: q) ∧
      ∀ c, (app f (args.set i c)).places = before ++ c.places.map (moved [i]) ++ after := by
  have length : (args.take i).length = i := List.length_take_of_le (Nat.le_of_lt inRange)
  refine ⟨placesIn ((args.take i).mapIdx fun j u => ([j], u)),
    placesIn ((args.drop (i + 1)).mapIdx fun j u => ([j + 1 + i], u)), ?_, ?_, fun c => ?_⟩
  · intro place member
    obtain ⟨j, below, q, start⟩ := exists_of_mem_placesIn_mapIdx (fun j => j) member
    exact ⟨j, length ▸ below, q, start⟩
  · intro place member
    obtain ⟨j, -, q, start⟩ := exists_of_mem_placesIn_mapIdx (fun j => j + 1 + i) member
    exact ⟨j + 1 + i, by omega, q, start⟩
  · rw [places_app, childrenAt, children, List.set_eq_take_append_cons_drop, if_pos inRange,
      List.mapIdx_append, List.mapIdx_cons, length]
    simp [placesIn, Position.child, Position.root]

/-- The places of variables below a position are one block among all places: whatever is put at the
position, its places make up the block, and the places before and after are the same. -/
theorem places_split (found : t.subterm? p = some u) :
    ∃ before after : List (Position × ν),
      (∀ place ∈ before, compare place.1 p = .lt) ∧
      (∀ place ∈ after, p.LeftOf place.1) ∧
      ∀ r t', t.replace? p r = some t' → t'.places = before ++ r.places.map (moved p) ++ after := by
  induction p generalizing t with
  | nil =>
    refine ⟨[], [], by simp, by simp, fun r t' done => ?_⟩
    rw [replace?_nil] at done
    obtain rfl := Option.some.inj done
    have same : r.places.map (moved []) = r.places := List.map_id _
    simp [same]
  | cons i p ih =>
    obtain ⟨f, args, c, rfl, held, inside⟩ := subterm?_cons_eq_some found
    obtain ⟨inRange, -⟩ := List.getElem?_eq_some_iff.1 held
    obtain ⟨before, after, less, greater, replaced⟩ := ih inside
    obtain ⟨earlier, later, smaller, larger, exchanged⟩ := places_app_set f inRange
    refine ⟨earlier ++ before.map (moved [i]), after.map (moved [i]) ++ later, ?less, ?greater,
      ?replaced⟩
    case less =>
      intro place member
      rcases List.mem_append.1 member with outside | within
      · obtain ⟨j, index, q, start⟩ := smaller place outside
        rw [start]
        exact Position.compare_cons_lt.2 (.inl index)
      · obtain ⟨inner, listed, rfl⟩ := List.mem_map.1 within
        exact Position.compare_cons_lt.2 (.inr ⟨rfl, less inner listed⟩)
    case greater =>
      intro place member
      rcases List.mem_append.1 member with within | outside
      · obtain ⟨inner, listed, rfl⟩ := List.mem_map.1 within
        exact (greater inner listed).cons i
      · obtain ⟨j, index, q, start⟩ := larger place outside
        rw [start]
        exact Position.leftOf_of_lt index p q
    case replaced =>
      intro r t' done
      obtain ⟨g, args', d, c', same, held', inner, rfl⟩ := replace?_cons_eq_some done
      obtain ⟨rfl, rfl⟩ := app.inj same
      obtain rfl := Option.some.inj (held.symm.trans held')
      rw [exchanged c', replaced r c' inner]
      simp [moved, Function.comp_def]

/-- The occurrences of variables at positions before `p`. -/
def occurrencesBefore (t : Term ν) (p : Position) : List ν :=
  (t.places.filter fun place => (compare place.1 p).isLT).map (·.2)

/-- The occurrences of variables at positions after `p` and everything below it. -/
def occurrencesAfter (t : Term ν) (p : Position) : List ν :=
  (t.places.filter fun place => (compare p place.1).isLT && !p.isAbove place.1).map (·.2)

theorem occurrences_replace? (found : t.subterm? p = some u) (done : t.replace? p r = some t') :
    t'.occurrences = t.occurrencesBefore p ++ r.occurrences ++ t.occurrencesAfter p := by
  obtain ⟨before, after, less, greater, replaced⟩ := places_split found
  have whole := replaced u t (replace?_self found)
  have isBefore : t.occurrencesBefore p = before.map (·.2) := by
    rw [occurrencesBefore, whole, List.append_assoc, List.filter_append,
      List.filter_eq_self.2 fun place member => Ordering.isLT_iff_eq_lt.2 (less place member),
      List.filter_eq_nil_iff.2 fun place member earlier => ?others, List.append_nil]
    case others =>
      have ordered := Ordering.isLT_iff_eq_lt.1 earlier
      rcases List.mem_append.1 member with block | later
      · obtain ⟨inner, -, rfl⟩ := List.mem_map.1 block
        exact Position.compare_append_ne_lt p inner.1 ordered
      · have turned := Std.OrientedCmp.gt_of_lt ordered
        rw [(greater place later).compare_eq_lt] at turned
        cases turned
  have isAfter : t.occurrencesAfter p = after.map (·.2) := by
    rw [occurrencesAfter, whole, List.filter_append,
      List.filter_eq_nil_iff.2 fun place member later => ?others,
      List.filter_eq_self.2 fun place member => ?kept, List.nil_append]
    case others =>
      rw [Bool.and_eq_true, Bool.not_eq_true', Position.isAbove_eq_false_iff] at later
      rcases List.mem_append.1 member with earlier | block
      · have turned := Std.OrientedCmp.gt_of_lt (Ordering.isLT_iff_eq_lt.1 later.1)
        rw [less place earlier] at turned
        cases turned
      · obtain ⟨inner, -, rfl⟩ := List.mem_map.1 block
        exact later.2 (List.prefix_append p inner.1)
    case kept =>
      have left := greater place member
      rw [Bool.and_eq_true, Bool.not_eq_true']
      exact ⟨Ordering.isLT_iff_eq_lt.2 left.compare_eq_lt, left.not_isAbove⟩
  have inBlock : (r.places.map (moved p)).map (·.2) = r.occurrences := by
    rw [List.map_map, ← map_snd_places]
    rfl
  rw [← map_snd_places, replaced r t' done, List.map_append, List.map_append, inBlock, isBefore,
    isAfter]

/-- What a replacement changes, in numbers. It takes away the size of the old subterm and adds that
of the new one. The new subterm reaches as deep as it does from its position on, and nothing becomes
deeper than the deeper of it and the old term. The variables before the position and those after all
that stands below it are the same before and afterwards; between them are those of the old subterm,
and afterwards those of the new one. -/
theorem replaceAt_accounted (t u r : Term ν) (p : Position) (found : t.subtermAt p = .ok u) :
    ∃ t', t.replaceAt p r = .ok t' ∧
      (u.size ≤ t.size ∧ t'.size = t.size - u.size + r.size) ∧
      (p.length + r.depth ≤ t'.depth ∧ t'.depth ≤ max t.depth (p.length + r.depth)) ∧
      t.occurrences = t.occurrencesBefore p ++ u.occurrences ++ t.occurrencesAfter p ∧
      t'.occurrences = t.occurrencesBefore p ++ r.occurrences ++ t.occurrencesAfter p := by
  have there := subtermAt_eq_ok_iff.1 found
  obtain ⟨t', done⟩ := exists_replace? (hasPosition_iff.2 ⟨u, there⟩) r
  exact ⟨t', replaceAt_eq_ok_iff.2 done, ⟨size_subterm?_le there, size_replace? there done⟩,
    ⟨length_add_depth_le_replaced done, depth_replace?_le done⟩,
    occurrences_replace? there (replace?_self there), occurrences_replace? there done⟩

/-- Between other occurrences of the same variable, one before and one after. -/
theorem replaceAt_accounted_between :
    let x : Term Label := .var ⟨"x", none⟩
    let y : Term Label := .var ⟨"y", none⟩
    let g (u : Term Label) : Term Label := .app ⟨"g", 1, by decide⟩ [u]
    let t : Term Label := .app ⟨"f", 3, by decide⟩ [x, g x, x]
    t.subtermAt [1] = .ok (g x) ∧
      ∃ t', t.replaceAt [1] (g (g y)) = .ok t' ∧ t'.size = 6 ∧ t'.depth = 3 ∧
        t'.occurrences = t.occurrencesBefore [1] ++ [⟨"y", none⟩] ++ t.occurrencesAfter [1] := by
  intro x y g t
  have found : t.subtermAt [1] = .ok (g x) := rfl
  obtain ⟨t', done, ⟨-, size⟩, ⟨deep, shallow⟩, -, afterwards⟩ :=
    replaceAt_accounted t (g x) (g (g y)) [1] found
  have inside : (g (g y)).occurrences = [⟨"y", none⟩] := by simp [g, y, occurrences_app]
  exact ⟨found, t', done, size, Nat.le_antisymm shallow deep, inside ▸ afterwards⟩

end TermAlgebra.Term
