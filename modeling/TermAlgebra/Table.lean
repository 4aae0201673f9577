/-!
Finite maps that remember the order in which their keys were first inserted. Keys are told apart
by `==`, which may be coarser than equality: the table then keeps the first of several equal keys.
Everything about a table is said through `entries`; `get?_insert`, `get?_extend` and
`get?_mapValues` say what each operation does to a lookup.
-/
namespace TermAlgebra

/-- A finite map, listed in the order of first insertion. No two keys are equal under `==`. -/
@[ext]
structure Table (κ α : Type) [BEq κ] where
  entries : List (κ × α)
  distinct : entries.Pairwise fun a b => (a.1 == b.1) = false

namespace Table

variable {κ α β : Type} [BEq κ]

/-- The value of the entry with a key equal to `k`. -/
def get? (t : Table κ α) (k : κ) : Option α :=
  (t.entries.find? fun e => e.1 == k).map (·.2)

def contains (t : Table κ α) (k : κ) : Bool :=
  t.entries.any fun e => e.1 == k

def keys (t : Table κ α) : List κ := t.entries.map (·.1)

def size (t : Table κ α) : Nat := t.entries.length

def isEmpty (t : Table κ α) : Bool := t.entries.isEmpty

/-- Whether two tables give equal values to equal keys, in whatever order. -/
def sameBindings [BEq α] (t u : Table κ α) : Bool :=
  t.size == u.size && t.entries.all fun e =>
    match u.get? e.1 with
    | some a => e.2 == a
    | none => false

def empty : Table κ α := ⟨[], .nil⟩

instance : EmptyCollection (Table κ α) := ⟨empty⟩

instance : Inhabited (Table κ α) := ⟨empty⟩

/-- Entries after a value is set: an equal key keeps its place and its own instance. -/
def setEntry (k : κ) (a : α) : List (κ × α) → List (κ × α)
  | [] => [(k, a)]
  | e :: rest => if e.1 == k then (e.1, a) :: rest else e :: setEntry k a rest

theorem mem_setEntry {k : κ} {a : α} {es : List (κ × α)} {e : κ × α}
    (h : e ∈ setEntry k a es) : e.1 = k ∨ e.1 ∈ es.map (·.1) := by
  induction es with
  | nil => simp_all [setEntry]
  | cons d rest ih =>
    by_cases hd : d.1 == k
    · simp only [setEntry, hd, if_true, List.mem_cons] at h
      rcases h with rfl | h
      · simp
      · exact .inr (List.mem_cons_of_mem _ (List.mem_map_of_mem h))
    · simp only [setEntry, hd, Bool.false_eq_true, if_false, List.mem_cons] at h
      rcases h with rfl | h
      · simp
      · rcases ih h with h | h
        · exact .inl h
        · exact .inr (List.mem_cons_of_mem _ h)

theorem pairwise_setEntry (k : κ) (a : α) {es : List (κ × α)}
    (h : es.Pairwise fun a b => (a.1 == b.1) = false) :
    (setEntry k a es).Pairwise fun a b => (a.1 == b.1) = false := by
  induction es with
  | nil => exact List.pairwise_singleton _ _
  | cons d rest ih =>
    obtain ⟨head, tail⟩ := List.pairwise_cons.1 h
    by_cases hd : d.1 == k
    · simp only [setEntry, hd, if_true]
      exact List.pairwise_cons.2 ⟨head, tail⟩
    · simp only [setEntry, hd, Bool.false_eq_true, if_false]
      refine List.pairwise_cons.2 ⟨fun e he => ?_, ih tail⟩
      rcases mem_setEntry he with hk | hk
      · simpa [hk] using hd
      · obtain ⟨e', he', same⟩ := List.mem_map.1 hk
        exact same ▸ head e' he'

/-- Gives `k` the value `a`. A new key goes to the end; an equal key keeps its place. -/
def insert (t : Table κ α) (k : κ) (a : α) : Table κ α :=
  ⟨setEntry k a t.entries, pairwise_setEntry k a t.distinct⟩

/-- The table after inserting the pairs one by one. -/
def ofList (pairs : List (κ × α)) : Table κ α :=
  pairs.foldl (fun t e => t.insert e.1 e.2) empty

def erase (t : Table κ α) (k : κ) : Table κ α :=
  ⟨t.entries.filter fun e => !(e.1 == k), t.distinct.filter _⟩

/-- Every value replaced by its image, keys and order unchanged. -/
def mapValues (f : α → β) (t : Table κ α) : Table κ β :=
  ⟨t.entries.map fun e => (e.1, f e.2), List.pairwise_map.2 t.distinct⟩

/-- All of `t`, then the entries of `u` whose keys `t` lacks. -/
def extend (t u : Table κ α) : Table κ α :=
  ⟨t.entries ++ u.entries.filter fun e => !t.contains e.1,
    List.pairwise_append.2 ⟨t.distinct, u.distinct.filter _, fun a ha b hb => by
      have lacks := (List.mem_filter.1 hb).2
      simp only [contains, Bool.not_eq_eq_eq_not, Bool.not_true, List.any_eq_false] at lacks
      simpa using lacks a ha⟩⟩

/-! ## What each operation does to a lookup -/

theorem contains_eq_isSome (t : Table κ α) (k : κ) : t.contains k = (t.get? k).isSome := by
  simp only [contains, get?, Option.isSome_map, List.isSome_find?]

@[simp] theorem get?_mapValues (f : α → β) (t : Table κ α) (k : κ) :
    (t.mapValues f).get? k = (t.get? k).map f := by
  simp [mapValues, get?, List.find?_map, Function.comp_def]

private theorem find?_setEntry [PartialEquivBEq κ] (k k' : κ) (a : α) (es : List (κ × α)) :
    ((setEntry k a es).find? fun e => e.1 == k').map (·.2) =
      if k == k' then some a else (es.find? fun e => e.1 == k').map (·.2) := by
  induction es with
  | nil => by_cases h : k == k' <;> simp [setEntry, h]
  | cons d rest ih =>
    by_cases hd : d.1 == k
    · have same : (d.1 == k') = (k == k') := by
        rw [Bool.eq_iff_iff]
        exact ⟨fun h => PartialEquivBEq.trans (PartialEquivBEq.symm hd) h,
          fun h => PartialEquivBEq.trans hd h⟩
      by_cases h : k == k' <;> simp [setEntry, hd, same, h]
    · by_cases hk' : d.1 == k'
      · have differ : (k == k') = false := by
          rw [Bool.eq_false_iff]
          exact fun h => hd (PartialEquivBEq.trans hk' (PartialEquivBEq.symm h))
        simp [setEntry, hd, hk', differ]
      · simp [setEntry, hd, hk', ih]

/-- The value just inserted is found under every equal key; other lookups are unchanged. -/
theorem get?_insert [PartialEquivBEq κ] (t : Table κ α) (k k' : κ) (a : α) :
    (t.insert k a).get? k' = if k == k' then some a else t.get? k' :=
  find?_setEntry k k' a t.entries

/-- The first table is asked first. -/
theorem get?_extend [PartialEquivBEq κ] (t u : Table κ α) (k : κ) :
    (t.extend u).get? k = (t.get? k).or (u.get? k) := by
  simp only [get?, extend, List.find?_append, Option.map_or]
  cases found : t.entries.find? fun e => e.1 == k with
  | some e => rfl
  | none =>
    have agree : (fun e : κ × α => decide ((!t.contains e.1) = true ∧ (e.1 == k) = true)) =
        fun e => e.1 == k := by
      funext e
      by_cases he : e.1 == k
      · have lacks : t.contains e.1 = false := by
          simp only [contains, List.any_eq_false]
          exact fun d hd same =>
            (List.find?_eq_none.1 found) d hd (PartialEquivBEq.trans same he)
        simp [lacks, he]
      · simp [he]
    simp only [List.find?_filter, agree, Option.map_none, Option.none_or]

/-- A key that was taken out is found no more; other lookups are unchanged. -/
theorem get?_erase [PartialEquivBEq κ] (t : Table κ α) (k k' : κ) :
    (t.erase k).get? k' = if k == k' then none else t.get? k' := by
  simp only [get?, erase, List.find?_filter]
  by_cases same : k == k'
  · have gone : t.entries.find? (fun e => decide ((!(e.1 == k)) = true ∧ (e.1 == k') = true)) =
        none := by
      refine List.find?_eq_none.2 fun e _ held => ?_
      obtain ⟨other, found⟩ := of_decide_eq_true held
      have alsoGone := PartialEquivBEq.trans found (PartialEquivBEq.symm same)
      simp [alsoGone] at other
    rw [gone, if_pos same, Option.map_none]
  · have kept : (fun e : κ × α => decide ((!(e.1 == k)) = true ∧ (e.1 == k') = true)) =
        fun e => e.1 == k' := by
      funext e
      by_cases found : e.1 == k'
      · have other : (e.1 == k) = false := Bool.eq_false_iff.2 fun h =>
          same (PartialEquivBEq.trans (PartialEquivBEq.symm h) found)
        simp [found, other]
      · simp [found]
    rw [kept, if_neg same]

theorem exists_mem_of_get? {t : Table κ α} {k : κ} {a : α} (held : t.get? k = some a) :
    ∃ e ∈ t.entries, (e.1 == k) = true ∧ e.2 = a := by
  obtain ⟨e, found, rfl⟩ := Option.map_eq_some_iff.1 held
  have same := List.find?_some found
  exact ⟨e, List.mem_of_find?_eq_some found, same, rfl⟩

private theorem setEntry_of_find? {k : κ} {a : α} {es : List (κ × α)}
    (held : (es.find? fun e => e.1 == k).map (·.2) = some a) : setEntry k a es = es := by
  induction es with
  | nil => simp at held
  | cons e rest ih =>
    by_cases here : e.1 == k
    · simp only [List.find?_cons, here, Option.map_some, Option.some.injEq] at held
      rw [setEntry, if_pos here, ← held]
    · simp only [List.find?_cons, here] at held
      rw [setEntry, if_neg here, ih held]

/-- Setting a key to the value it has changes nothing. -/
theorem insert_of_get? {t : Table κ α} {k : κ} {a : α} (held : t.get? k = some a) :
    t.insert k a = t :=
  Table.ext (setEntry_of_find? held)

/-! ## Tables of distinct keys -/

/-- An entry is what is found under every key equal to its own. -/
theorem get?_of_mem [PartialEquivBEq κ] {t : Table κ α} {e : κ × α} {k : κ}
    (member : e ∈ t.entries) (same : e.1 == k) : t.get? k = some e.2 := by
  obtain ⟨entries, distinct⟩ := t
  simp only [get?]
  induction entries with
  | nil => cases member
  | cons d rest ih =>
    obtain ⟨apart, distinct⟩ := List.pairwise_cons.1 distinct
    rcases List.mem_cons.1 member with rfl | member
    · simp only [List.find?_cons, same, Option.map_some]
    · have other : (d.1 == k) = false := Bool.eq_false_iff.2 fun found =>
        Bool.eq_false_iff.1 (apart e member)
          (PartialEquivBEq.trans found (PartialEquivBEq.symm same))
      simp only [List.find?_cons, other]
      exact ih distinct member

/-- Equal keys have one entry between them. -/
theorem eq_of_mem [PartialEquivBEq κ] {t : Table κ α} {d e : κ × α} (member : d ∈ t.entries)
    (member' : e ∈ t.entries) (same : d.1 == e.1) : d = e := by
  obtain ⟨i, bound, rfl⟩ := List.mem_iff_getElem.1 member
  obtain ⟨j, bound', rfl⟩ := List.mem_iff_getElem.1 member'
  have apart := List.pairwise_iff_getElem.1 t.distinct
  rcases Nat.lt_trichotomy i j with before | rfl | after
  · exact absurd same (Bool.eq_false_iff.1 (apart i j bound bound' before))
  · rfl
  · exact absurd (PartialEquivBEq.symm same) (Bool.eq_false_iff.1 (apart j i bound' bound after))

private theorem setEntry_of_lacks {k : κ} {a : α} {es : List (κ × α)}
    (lacks : ∀ e ∈ es, (e.1 == k) = false) : setEntry k a es = es ++ [(k, a)] := by
  induction es with
  | nil => rfl
  | cons e rest ih =>
    have other := lacks e List.mem_cons_self
    rw [setEntry, if_neg (Bool.eq_false_iff.1 other),
      ih fun d member => lacks d (List.mem_cons_of_mem e member), List.cons_append]

/-- Collecting pairs with distinct keys keeps them as they are. -/
theorem entries_ofList {pairs : List (κ × α)}
    (distinct : pairs.Pairwise fun a b => (a.1 == b.1) = false) :
    (ofList pairs).entries = pairs := by
  suffices ∀ t : Table κ α, (t.entries ++ pairs).Pairwise (fun a b => (a.1 == b.1) = false) →
      (pairs.foldl (fun t e => t.insert e.1 e.2) t).entries = t.entries ++ pairs from
    this empty distinct
  clear distinct
  induction pairs with
  | nil => exact fun t _ => (List.append_nil _).symm
  | cons e rest ih =>
    intro t distinct
    have lacks : ∀ d ∈ t.entries, (d.1 == e.1) = false := fun d member =>
      (List.pairwise_append.1 distinct).2.2 d member e List.mem_cons_self
    have appended : (t.insert e.1 e.2).entries = t.entries ++ [e] := setEntry_of_lacks lacks
    rw [List.append_cons, ← appended] at distinct
    rw [List.foldl_cons, ih _ distinct, appended, List.append_assoc, List.singleton_append]

/-- The entries of a table are collected into that table again. -/
theorem ofList_entries (t : Table κ α) : ofList t.entries = t :=
  Table.ext (entries_ofList t.distinct)

/-- A value that stands in a table after a value was set was set now or stood there before. -/
theorem snd_mem_setEntry {k : κ} {a : α} {es : List (κ × α)} {e : κ × α}
    (member : e ∈ setEntry k a es) : e.2 = a ∨ ∃ d ∈ es, d.2 = e.2 := by
  induction es with
  | nil =>
    obtain rfl := List.mem_singleton.1 member
    exact .inl rfl
  | cons d rest ih =>
    rw [setEntry] at member
    split at member
    · rcases List.mem_cons.1 member with rfl | later
      · exact .inl rfl
      · exact .inr ⟨e, List.mem_cons_of_mem d later, rfl⟩
    · rcases List.mem_cons.1 member with rfl | later
      · exact .inr ⟨e, List.mem_cons_self, rfl⟩
      · refine (ih later).imp_right fun ⟨b, held, same⟩ => ⟨b, List.mem_cons_of_mem d held, same⟩

/-- The keys of a table that was collected from pairs are keys of the pairs. -/
theorem fst_mem_ofList {pairs : List (κ × α)} {e : κ × α} (member : e ∈ (ofList pairs).entries) :
    ∃ d ∈ pairs, d.1 = e.1 := by
  suffices ∀ t : Table κ α, e ∈ (pairs.foldl (fun t e => t.insert e.1 e.2) t).entries →
      e.1 ∈ t.keys ∨ ∃ d ∈ pairs, d.1 = e.1 from
    (this empty member).resolve_left fun held => absurd held List.not_mem_nil
  clear member
  induction pairs with
  | nil => exact fun t member => .inl (List.mem_map_of_mem member)
  | cons b rest ih =>
    intro t member
    rcases ih _ member with held | ⟨d, later, same⟩
    · obtain ⟨d, held, same⟩ := List.mem_map.1 held
      rcases mem_setEntry held with new | old
      · exact .inr ⟨b, List.mem_cons_self, new.symm.trans same⟩
      · exact .inl (same ▸ old)
    · exact .inr ⟨d, List.mem_cons_of_mem b later, same⟩

/-- The values of a table that was collected from pairs are values of the pairs. -/
theorem snd_mem_ofList {pairs : List (κ × α)} {e : κ × α} (member : e ∈ (ofList pairs).entries) :
    ∃ d ∈ pairs, d.2 = e.2 := by
  suffices ∀ t : Table κ α, e ∈ (pairs.foldl (fun t e => t.insert e.1 e.2) t).entries →
      (∃ d ∈ t.entries, d.2 = e.2) ∨ ∃ d ∈ pairs, d.2 = e.2 from
    (this empty member).resolve_left fun ⟨d, held, _⟩ => absurd held List.not_mem_nil
  clear member
  induction pairs with
  | nil => exact fun t member => .inl ⟨e, member, rfl⟩
  | cons b rest ih =>
    intro t member
    rcases ih _ member with ⟨d, held, same⟩ | ⟨d, later, same⟩
    · rcases snd_mem_setEntry held with new | ⟨d', old, same'⟩
      · exact .inr ⟨b, List.mem_cons_self, new.symm.trans same⟩
      · exact .inl ⟨d', old, same'.trans same⟩
    · exact .inr ⟨d, List.mem_cons_of_mem b later, same⟩

/-- The number of keys whose values have a property. -/
def count (f : α → Bool) (t : Table κ α) : Nat := t.entries.countP fun e => f e.2

private theorem countP_setEntry (f : α → Bool) (k : κ) (a : α) (es : List (κ × α)) :
    (setEntry k a es).countP (fun e => f e.2) +
        (((es.find? fun e => e.1 == k).map (·.2)).any f).toNat =
      es.countP (fun e => f e.2) + (f a).toNat := by
  induction es with
  | nil => cases new : f a <;> simp [setEntry, new]
  | cons e rest ih =>
    by_cases here : e.1 == k
    · cases new : f a <;> cases old : f e.2 <;>
        simp [setEntry, here, new, old]
    · cases kept : f e.2 <;> simp [setEntry, here, kept] <;> omega

/-- A value that is set counts in place of the one that the key had. -/
theorem count_insert (f : α → Bool) (t : Table κ α) (k : κ) (a : α) :
    (t.insert k a).count f + ((t.get? k).any f).toNat = t.count f + (f a).toNat :=
  countP_setEntry f k a t.entries

/-- A key that is taken out takes its value from the count. -/
theorem count_erase [PartialEquivBEq κ] (f : α → Bool) (t : Table κ α) (k : κ) :
    (t.erase k).count f + ((t.get? k).any f).toNat = t.count f := by
  obtain ⟨entries, distinct⟩ := t
  simp only [erase, get?, count]
  induction entries with
  | nil => rfl
  | cons e rest ih =>
    obtain ⟨apart, distinct⟩ := List.pairwise_cons.1 distinct
    by_cases here : e.1 == k
    · have others : rest.filter (fun d => !(d.1 == k)) = rest := by
        refine List.filter_eq_self.2 fun d member => ?_
        have other : (d.1 == k) = false := Bool.eq_false_iff.2 fun same =>
          Bool.eq_false_iff.1 (apart d member)
            (PartialEquivBEq.trans here (PartialEquivBEq.symm same))
        rw [other]
        rfl
      cases counted : f e.2 <;> simp [here, others, counted]
    · have later := ih distinct
      cases counted : f e.2 <;> simp [here, counted] <;> omega

theorem count_pos [EquivBEq κ] {f : α → Bool} {t : Table κ α} :
    0 < t.count f ↔ ∃ k a, t.get? k = some a ∧ f a = true := by
  rw [count, List.countP_pos_iff]
  constructor
  · rintro ⟨e, member, counts⟩
    exact ⟨e.1, e.2, get?_of_mem member BEq.rfl, counts⟩
  · rintro ⟨k, a, held, counts⟩
    obtain ⟨e, member, -, rfl⟩ := exists_mem_of_get? held
    exact ⟨e, member, counts⟩

/-! ## The algebra of tables -/

@[simp] theorem contains_mapValues (f : α → β) (t : Table κ α) (k : κ) :
    (t.mapValues f).contains k = t.contains k := by
  rw [contains_eq_isSome, contains_eq_isSome, get?_mapValues, Option.isSome_map]

@[simp] theorem contains_extend [PartialEquivBEq κ] (t u : Table κ α) (k : κ) :
    (t.extend u).contains k = (t.contains k || u.contains k) := by
  simp only [contains_eq_isSome, get?_extend, Option.isSome_or]

@[simp] theorem mapValues_id (t : Table κ α) : t.mapValues (fun a => a) = t :=
  Table.ext (List.map_id' t.entries)

theorem mapValues_mapValues {γ : Type} (f : α → β) (g : β → γ) (t : Table κ α) :
    (t.mapValues f).mapValues g = t.mapValues fun a => g (f a) :=
  Table.ext (by simp only [mapValues, List.map_map, Function.comp_def])

@[simp] theorem empty_extend (t : Table κ α) : empty.extend t = t :=
  Table.ext (List.filter_eq_self.2 fun _ _ => rfl)

@[simp] theorem extend_empty (t : Table κ α) : t.extend empty = t :=
  Table.ext (List.append_nil t.entries)

/-- Changing the values after one table was put behind another changes both parts. -/
theorem mapValues_extend (f : α → β) (t u : Table κ α) :
    (t.extend u).mapValues f = (t.mapValues f).extend (u.mapValues f) := by
  apply Table.ext
  simp only [mapValues, extend, List.map_append, List.filter_map, Function.comp_def]
  congr 3
  funext e
  exact congrArg Bool.not (contains_mapValues f t e.1).symm

/-- Of three tables, one behind the other, the brackets do not matter, to the order either. -/
theorem extend_assoc [PartialEquivBEq κ] (t u w : Table κ α) :
    (t.extend u).extend w = t.extend (u.extend w) := by
  apply Table.ext
  have lacks : (fun e : κ × α => !(t.extend u).contains e.1) =
      fun e => !t.contains e.1 && !u.contains e.1 := by
    funext e
    rw [contains_extend, Bool.not_or]
  show (t.extend u).entries ++ w.entries.filter (fun e => !(t.extend u).contains e.1) =
    t.entries ++ (u.extend w).entries.filter fun e => !t.contains e.1
  rw [lacks]
  simp only [extend, List.filter_append, List.filter_filter, List.append_assoc]

end Table

end TermAlgebra
