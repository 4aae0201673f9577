import Mathlib.Data.Finset.Card
import TermAlgebra.Proofs.Provenance
import TermAlgebra.Proofs.ReadTerms
import TermAlgebra.Proofs.RoundTrip
import TermAlgebra.Proofs.VariableSet
/-!
Collecting pairs into a substitution. The place and the key are those of the first pair of a
variable, the term is that of its last: `Collected` says so of any pairs with any repetitions, and
one substitution only is like that. Pairs that are read are collected in the same way, the bindings
of a substitution are collected into the same one, and a composition binds each variable of its two
parts once.
-/
namespace TermAlgebra

namespace Table

variable {κ α : Type} [BEq κ]

theorem ofList_concat (pairs : List (κ × α)) (e : κ × α) :
    ofList (pairs ++ [e]) = (ofList pairs).insert e.1 e.2 :=
  List.foldl_concat ..

/-- A key that is in the table already stays as it is. -/
theorem keys_insert (t : Table κ α) (k : κ) (a : α) :
    (t.insert k a).keys = t.keys ++ if t.contains k then [] else [k] := by
  show (setEntry k a t.entries).map (·.1) =
    t.entries.map (·.1) ++ if t.entries.any fun e => e.1 == k then [] else [k]
  induction t.entries with
  | nil => rfl
  | cons e rest ih =>
    cases here : e.1 == k with
    | true => simp [setEntry, here]
    | false =>
      rw [setEntry, if_neg (Bool.eq_false_iff.1 here), List.map_cons, ih, List.any_cons, here,
        Bool.false_or]
      rfl

section
variable [PartialEquivBEq κ]

/-- The last pair of a key is what is found. -/
theorem get?_ofList (pairs : List (κ × α)) (k : κ) :
    (ofList pairs).get? k = (pairs.reverse.find? fun e => e.1 == k).map (·.2) := by
  induction pairs using List.reverseRecOn with
  | nil => rfl
  | append_singleton pairs e ih =>
    rw [ofList_concat, get?_insert, ih, List.reverse_concat, List.find?_cons]
    cases e.1 == k with
    | true => rfl
    | false => rfl

theorem contains_ofList (pairs : List (κ × α)) (k : κ) :
    (ofList pairs).contains k = pairs.any fun e => e.1 == k := by
  rw [contains_eq_isSome, get?_ofList, Option.isSome_map, List.isSome_find?, List.any_reverse]

/-- The keys are those of the pairs, each where and as it came first. -/
theorem keys_ofList (pairs : List (κ × α)) : (ofList pairs).keys = firsts (pairs.map (·.1)) := by
  induction pairs using List.reverseRecOn with
  | nil => rfl
  | append_singleton pairs e ih =>
    rw [ofList_concat, keys_insert, ih, contains_ofList, List.map_append, List.map_singleton,
      firsts_concat, List.any_map]
    rfl

/-- A table is known by its keys, in order, and by what is found under each of them. -/
theorem ext_of_keys [ReflBEq κ] {t u : Table κ α} (keys : t.keys = u.keys)
    (values : ∀ e ∈ t.entries, u.get? e.1 = some e.2) : t = u := by
  have length : t.entries.length = u.entries.length := by
    simpa [Table.keys] using congrArg List.length keys
  apply Table.ext
  refine List.ext_getElem length fun i bound bound' => ?_
  have key : t.entries[i].1 = u.entries[i].1 := by
    have there := congrArg (fun ks : List κ => ks[i]?) keys
    simpa [Table.keys, bound, bound'] using there
  have held : u.get? t.entries[i].1 = some u.entries[i].2 :=
    get?_of_mem (List.getElem_mem bound') (key ▸ BEq.rfl)
  have value := (values _ (List.getElem_mem bound)).symm.trans held
  exact Prod.ext key (Option.some.inj value)

end

end Table

namespace Substitution

/-- The bindings of a substitution that was collected from pairs: the variables of the pairs in the
order in which they come first and as they come there, one binding for each of them, and the term of
the last pair for it, which is found under every equal variable. -/
structure Collected {ν : Type} [BEq ν] (pairs : List (ν × Term ν)) (s : Substitution ν) : Prop where
  keys : s.domain = firsts (pairs.map (·.1))
  oneEach : ∀ a ∈ pairs, ∃! b, b ∈ s.toList ∧ (b.1 == a.1) = true
  latest : ∀ before v t after, pairs = before ++ (v, t) :: after →
    (∀ a ∈ after, (a.1 == v) = false) → ∀ w, (v == w) = true → s.get? w = some t

section
variable {ν : Type} [BEq ν] [EquivBEq ν] {pairs : List (ν × Term ν)} {s : Substitution ν}

/-- A variable of the pairs has a pair after which it comes no more. -/
theorem exists_latest {w : ν} (occurs : pairs.any (fun a => a.1 == w) = true) :
    ∃ before v t after, pairs = before ++ (v, t) :: after ∧ (v == w) = true ∧
      ∀ a ∈ after, (a.1 == v) = false := by
  rw [← List.any_reverse, ← List.isSome_find?] at occurs
  obtain ⟨⟨v, t⟩, found⟩ := Option.isSome_iff_exists.1 occurs
  obtain ⟨same, after, before, split, lacks⟩ := List.find?_eq_some_iff_append.1 found
  refine ⟨before.reverse, v, t, after.reverse, ?_, same, fun a member => ?_⟩
  · simpa using congrArg List.reverse split
  · have other := lacks a (List.mem_reverse.1 member)
    simp only [Bool.not_eq_true'] at other
    exact Bool.eq_false_iff.2 fun equal => Bool.eq_false_iff.1 other (BEq.trans equal same)

theorem collected_ofList (pairs : List (ν × Term ν)) : Collected pairs (ofList pairs) := by
  constructor
  case keys => exact Table.keys_ofList pairs
  case oneEach =>
    intro a member
    have held : (ofList pairs).contains a.1 = true := by
      rw [contains, ofList, Table.contains_ofList]
      exact List.any_eq_true.2 ⟨a, member, BEq.rfl⟩
    obtain ⟨b, bound, same⟩ := List.any_eq_true.1 held
    refine ⟨b, ⟨bound, same⟩, ?_⟩
    rintro c ⟨bound', same'⟩
    exact Table.eq_of_mem bound' bound (BEq.trans same' (BEq.symm same))
  case latest =>
    rintro before v t after rfl lacks w same
    have others : (after.reverse.find? fun a => a.1 == w) = none := by
      refine List.find?_eq_none.2 fun a member equal => ?_
      exact Bool.eq_false_iff.1 (lacks a (List.mem_reverse.1 member))
        (BEq.trans equal (BEq.symm same))
    rw [get?, ofList, Table.get?_ofList, List.reverse_append, List.reverse_cons, List.append_assoc,
      List.find?_append, others, Option.none_or, List.singleton_append, List.find?_cons, same]
    rfl

theorem collected_iff : Collected pairs s ↔ s = ofList pairs := by
  constructor
  · intro collected
    -- Both have the keys of the pairs, and under each of them the term of its last pair.
    have model := collected_ofList pairs
    refine Substitution.ext (Table.ext_of_keys (collected.keys.trans model.keys.symm) ?_)
    intro e member
    have key : e.1 ∈ (ofList pairs).domain := by
      rw [model.keys, ← collected.keys]
      exact List.mem_map_of_mem member
    obtain ⟨b, bound, same⟩ := List.mem_map.1 key
    obtain ⟨a, given, same'⟩ := Table.fst_mem_ofList bound
    have occurs : pairs.any (fun a => a.1 == e.1) = true :=
      List.any_eq_true.2 ⟨a, given, by rw [same', same, BEq.rfl]⟩
    obtain ⟨before, v, t, after, split, same, lacks⟩ := exists_latest occurs
    have held := collected.latest before v t after split lacks e.1 same
    have value := (Table.get?_of_mem member BEq.rfl).symm.trans held
    rw [Option.some.inj value]
    exact model.latest before v t after split lacks e.1 same
  · rintro rfl
    exact collected_ofList pairs

end

end Substitution

theorem Read.mapM_eq_ok_iff {α : Type} {read : Json → Read α} {items : List Json}
    {values : List α} :
    items.mapM read = .ok values ↔ List.Forall₂ (fun j b => read j = .ok b) items values := by
  induction items generalizing values with
  | nil =>
    constructor
    · intro done
      obtain rfl := Except.ok.inj done
      exact .nil
    · rintro ⟨⟩
      rfl
  | cons j items ih =>
    rw [List.mapM_cons]
    constructor
    · intro done
      obtain ⟨b, first, done⟩ := eq_ok_of_bind done
      obtain ⟨bs, others, done⟩ := eq_ok_of_bind done
      obtain rfl := Except.ok.inj done
      exact .cons first (ih.1 others)
    · rintro (_ | ⟨first, others⟩)
      rw [first, ih.2 others]
      rfl

namespace Substitution

/-- What is read from a text is collected from the pairs in it. -/
theorem collected_of_ofText {serial : Nat} {text : String} {r : Substitution Variable}
    (done : ofText serial text = .ok r) : ∃ items pairs, Json.parse? text = some (.array items) ∧
      List.Forall₂ (fun j b => Read.binding j = .ok b) items pairs ∧ Collected pairs r.labels := by
  obtain ⟨s, read, rfl⟩ := Read.eq_ok_of_map done
  rw [labels_ofList_instances]
  rw [Read.ofText] at read
  cases parsed : Json.parse? text with
  | none =>
    rw [parsed] at read
    cases read
  | some j =>
    rw [parsed, Option.elim_some] at read
    cases j with
    | array items =>
      obtain ⟨pairs, each, rfl⟩ := Read.eq_ok_of_map read
      exact ⟨items, pairs, rfl, Read.mapM_eq_ok_iff.1 each, collected_ofList pairs⟩
    | _ => cases read

theorem ofText_ofPairs {pairs : List (Variable × Term Variable)}
    (wellFormed : ∀ b ∈ pairs, b.2.WellFormed) (serial : Nat) :
    ∃ r, ofText serial (Json.ofPairs (pairs.map fun b => (b.1.label, b.2.labels))).text = .ok r ∧
      r.labels = (ofList pairs).labels := by
  have readable : ∀ b ∈ pairs.map fun b => (b.1.label, b.2.labels), b.2.WellFormed :=
    List.forall_mem_map.2 fun b member => Term.wellFormed_labels.2 (wellFormed b member)
  refine ⟨_, ?_, labels_ofList_instances serial (ofList pairs).labels⟩
  rw [ofText, Read.ofText_text _ (Json.plain_ofPairs _), Read.substitution_ofPairs readable,
    labels_ofList]
  rfl

theorem contains_compose {ν : Type} [BEq ν] [PartialEquivBEq ν] (outer inner : Substitution ν)
    (v : ν) : (outer.compose inner).contains v = (inner.contains v || outer.contains v) := by
  simp only [contains, compose, Table.contains_extend, Table.contains_mapValues]

/-- The labels of the variables that are bound. -/
def boundLabels (s : Substitution Variable) : Finset Label := (s.domain.map Variable.label).toFinset

theorem mem_boundLabels {s : Substitution Variable} {v : Variable} :
    v.label ∈ s.boundLabels ↔ s.contains v = true := by
  simp [boundLabels, domain, Table.keys, contains, Table.contains, Variable.beq_iff]

theorem size_eq_card_boundLabels (s : Substitution Variable) : s.size = s.boundLabels.card := by
  have apart : (s.domain.map Variable.label).Nodup := by
    refine List.pairwise_map.2 (List.pairwise_map.2 (s.bindings.distinct.imp fun differ same => ?_))
    exact Bool.eq_false_iff.1 differ (Variable.beq_iff.2 same)
  rw [boundLabels, List.toFinset_card_of_nodup apart, List.length_map]
  exact (List.length_map _).symm

theorem boundLabels_compose (outer inner : Substitution Variable) :
    (outer.compose inner).boundLabels = inner.boundLabels ∪ outer.boundLabels := by
  ext l
  have each (s : Substitution Variable) := mem_boundLabels (s := s) (v := ⟨l, .free 0⟩)
  rw [Finset.mem_union, each, each, each, contains_compose, Bool.or_eq_true]

/-- A composition is collected from the bindings of the inner substitution, with their terms
changed, and those of the outer one that are still missing. -/
theorem collected_compose (outer inner : Substitution Variable) :
    Collected ((inner.toList.map fun b => (b.1, outer.apply b.2)) ++
      outer.toList.filter fun b => !inner.contains b.1) (outer.compose inner) := by
  rw [← toList_compose, collected_iff, ofList_toList]

/-- Pairs can be collected in one way only, and so they are, whether they are given as such or in a
text to be read; the bindings of a substitution give that substitution again. A composition has one
binding for each variable that either part binds. -/
theorem bindings_collected :
    (∀ (pairs : List (Variable × Term Variable)) (s : Substitution Variable),
      Collected pairs s ↔ s = ofList pairs) ∧
    (∀ serial text r, ofText serial text = .ok r → ∃ items pairs,
      Json.parse? text = some (.array items) ∧
      List.Forall₂ (fun j b => Read.binding j = .ok b) items pairs ∧ Collected pairs r.labels) ∧
    (∀ pairs : List (Variable × Term Variable), (∀ b ∈ pairs, b.2.WellFormed) → ∀ serial, ∃ r,
      ofText serial (Json.ofPairs (pairs.map fun b => (b.1.label, b.2.labels))).text = .ok r ∧
      r.labels = (ofList pairs).labels) ∧
    (∀ s : Substitution Variable, ofList s.toList = s) ∧
    ∀ outer inner : Substitution Variable,
      ((outer.compose inner).domain.Pairwise fun v w => (v == w) = false) ∧
      Collected ((inner.toList.map fun b => (b.1, outer.apply b.2)) ++
        outer.toList.filter fun b => !inner.contains b.1) (outer.compose inner) ∧
      (∀ v, (outer.compose inner).contains v = (inner.contains v || outer.contains v)) ∧
      (outer.compose inner).size = (inner.boundLabels ∪ outer.boundLabels).card := by
  refine ⟨fun pairs s => collected_iff, fun serial text r => collected_of_ofText,
    fun pairs wellFormed => ofText_ofPairs wellFormed, ofList_toList, fun outer inner => ?_⟩
  refine ⟨List.pairwise_map.2 (outer.compose inner).bindings.distinct,
    collected_compose outer inner, contains_compose outer inner, ?_⟩
  rw [size_eq_card_boundLabels, boundLabels_compose]

/-- A variable that comes twice, as instances of two pools: the first one is the key, the term that
came last is bound to it, and it stands before the variable that came between. -/
theorem bindings_collected_repeated :
    let x (pool : PoolId) : Variable := ⟨⟨"x", none⟩, .issued pool 0⟩
    let y : Variable := ⟨⟨"y", none⟩, .issued 0 1⟩
    let a (name : String) : Term Variable := .const ⟨name⟩
    let pairs := [(x 0, a "a"), (y, a "b"), (x 1, a "c")]
    (ofList pairs).toList = [(x 0, a "c"), (y, a "b")] ∧ Collected pairs (ofList pairs) ∧
      (∀ b ∈ pairs, b.2.WellFormed) ∧ ∃ r,
        ofText 0 (Json.ofPairs (pairs.map fun b => (b.1.label, b.2.labels))).text = .ok r ∧
        r.labels = (ofList pairs).labels ∧
        ∃ items read, List.Forall₂ (fun j b => Read.binding j = .ok b) items read ∧
          Collected read r.labels := by
  intro x y a pairs
  have wellFormed : ∀ b ∈ pairs, b.2.WellFormed := by simp [pairs, a, Term.WellFormed]
  obtain ⟨collects, fromText, pairsInText, -⟩ := bindings_collected
  obtain ⟨r, done, same⟩ := pairsInText pairs wellFormed 0
  obtain ⟨items, read, -, each, collected⟩ := fromText 0 _ r done
  exact ⟨rfl, (collects pairs _).2 rfl, wellFormed, r, done, same, items, read, each, collected⟩

end Substitution

end TermAlgebra
