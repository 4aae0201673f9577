import Mathlib.Data.List.Induction
import TermAlgebra.Proofs.SubstitutionEquality
/-!
Substitutions put together from single bindings. To compose the bindings one after another is to
apply them in that order (`apply_ofSteps`). To collect them is something else: a binding that is
composed rewrites the terms of all earlier ones, and is dropped if its variable is bound already,
where a collected one overwrites. The two agree when neither happens, that is for distinct variables
none of which occurs in the term of an earlier binding: each then joins the others at the end
(`toList_compose_single`, `toList_ofSteps`). When no variable occurs in any of the terms, this is so
in every order.
-/
namespace TermAlgebra

variable {ν : Type} [BEq ν]

/-- A variable equal to `v` occurs in the term. -/
def Term.HasVariable (t : Term ν) (v : ν) : Prop := ∃ w ∈ t.occurrences, (w == v) = true

namespace Substitution

theorem ofSteps_concat (pairs : List (ν × Term ν)) (b : ν × Term ν) :
    ofSteps (pairs ++ [b]) = (single b.1 b.2).compose (ofSteps pairs) := by
  rw [ofSteps, List.foldl_append]
  rfl

variable [PartialEquivBEq ν]

theorem apply_ofSteps (pairs : List (ν × Term ν)) (t : Term ν) :
    (ofSteps pairs).apply t = pairs.foldl (fun u b => (single b.1 b.2).apply u) t := by
  induction pairs using List.reverseRecOn with
  | nil => exact identity_apply t
  | append_singleton pairs b ih =>
    rw [ofSteps_concat, apply_compose, ih, List.foldl_append, List.foldl_cons, List.foldl_nil]

theorem get?_single (v w : ν) (t : Term ν) :
    (single v t).get? w = if v == w then some t else none :=
  Table.get?_insert Table.empty v w t

/-- A binding changes no term in which its variable does not occur. -/
theorem single_apply_of_lacks {v : ν} {r t : Term ν} (lacks : ¬ t.HasVariable v) :
    (single v r).apply t = t := by
  have others : ∀ w ∈ t.occurrences, (single v r).image w = .var w := by
    intro w occurs
    have differ : ¬ (v == w) = true := fun same => lacks ⟨w, occurs, PartialEquivBEq.symm same⟩
    rw [image, get?_single, if_neg differ, Option.getD_none]
  rw [apply_eq_bind, Term.bind_congr others, Term.bind_var]

/-- A binding that neither rewrites the others nor is dropped for one of them joins them at the
end. -/
theorem toList_compose_single {s : Substitution ν} {v : ν} {t : Term ν}
    (unbound : s.contains v = false) (lack : ∀ b ∈ s.toList, ¬ b.2.HasVariable v) :
    ((single v t).compose s).toList = s.toList ++ [(v, t)] := by
  have same : ∀ b ∈ s.toList, (b.1, (single v t).apply b.2) = b := fun b member => by
    rw [single_apply_of_lacks (lack b member)]
  have kept : (s.toList.map fun b => (b.1, (single v t).apply b.2)) = s.toList :=
    (List.map_congr_left same).trans (List.map_id' s.toList)
  have joined : (single v t).toList.filter (fun b => !s.contains b.1) = [(v, t)] := by
    show [(v, t)].filter (fun b => !s.contains b.1) = [(v, t)]
    rw [List.filter_singleton, unbound]
    rfl
  rw [toList_compose, kept, joined]

variable {pairs : List (ν × Term ν)}

theorem toList_ofSteps (distinct : pairs.Pairwise fun a b => (a.1 == b.1) = false)
    (lack : pairs.Pairwise fun a b => ¬ a.2.HasVariable b.1) : (ofSteps pairs).toList = pairs := by
  -- From the end of the list: the last binding is composed with all others, already collected.
  induction pairs using List.reverseRecOn with
  | nil => rfl
  | append_singleton pairs b ih =>
    obtain ⟨distinct, -, apart⟩ := List.pairwise_append.1 distinct
    obtain ⟨lack, -, lacks⟩ := List.pairwise_append.1 lack
    have collected := ih distinct lack
    have unbound : (ofSteps pairs).contains b.1 = false := by
      show ((ofSteps pairs).toList.any fun e => e.1 == b.1) = false
      rw [collected, List.any_eq_false]
      exact fun a member => Bool.eq_false_iff.1 (apart a member b List.mem_cons_self)
    have others : ∀ a ∈ (ofSteps pairs).toList, ¬ a.2.HasVariable b.1 := by
      rw [collected]
      exact fun a member => lacks a member b List.mem_cons_self
    rw [ofSteps_concat, toList_compose_single unbound others, collected]

/-- As long as no binding rewrites or meets an earlier one, composing is collecting. -/
theorem ofSteps_eq_ofList (distinct : pairs.Pairwise fun a b => (a.1 == b.1) = false)
    (lack : pairs.Pairwise fun a b => ¬ a.2.HasVariable b.1) : ofSteps pairs = ofList pairs := by
  apply Substitution.ext
  apply Table.ext
  exact (toList_ofSteps distinct lack).trans (Table.entries_ofList distinct).symm

/-- If no variable occurs in any of the terms, bindings can be composed in any order. -/
theorem ofSteps_beq_of_perm {pairs pairs' : List (Variable × Term Variable)}
    (reordered : pairs.Perm pairs') (distinct : pairs.Pairwise fun a b => (a.1 == b.1) = false)
    (lack : ∀ a ∈ pairs, ∀ b ∈ pairs, ¬ a.2.HasVariable b.1) :
    (ofSteps pairs == ofSteps pairs') = true := by
  have distinct' := Table.distinct_of_perm reordered distinct
  have lack' : ∀ a ∈ pairs', ∀ b ∈ pairs', ¬ a.2.HasVariable b.1 := fun a first b second =>
    lack a (reordered.symm.subset first) b (reordered.symm.subset second)
  rw [ofSteps_eq_ofList distinct (List.pairwise_of_forall_mem_list lack),
    ofSteps_eq_ofList distinct' (List.pairwise_of_forall_mem_list lack')]
  exact ofList_beq_of_perm reordered distinct

/-- A substitution that is composed of single bindings, one put after the other, does to a term
what the bindings do in turn. If their variables are distinct and none occurs in the term of an
earlier binding, it is the substitution that is collected from them, with the bindings in their
order; and if none occurs in any of the terms, the order makes no difference to equality. -/
theorem composed_in_steps :
    (∀ (pairs : List (Variable × Term Variable)) (t : Term Variable),
      (ofSteps pairs).apply t = pairs.foldl (fun u b => (single b.1 b.2).apply u) t) ∧
    ∀ pairs : List (Variable × Term Variable),
      (pairs.Pairwise fun a b => (a.1 == b.1) = false) →
      ((pairs.Pairwise fun a b => ¬ a.2.HasVariable b.1) →
        ofSteps pairs = ofList pairs ∧ (ofSteps pairs).toList = pairs) ∧
      ((∀ a ∈ pairs, ∀ b ∈ pairs, ¬ a.2.HasVariable b.1) →
        ∀ pairs', pairs.Perm pairs' → (ofSteps pairs == ofSteps pairs') = true) := by
  refine ⟨apply_ofSteps, fun pairs distinct => ⟨?collected, ?reordered⟩⟩
  case collected =>
    exact fun lack => ⟨ofSteps_eq_ofList distinct lack, toList_ofSteps distinct lack⟩
  case reordered =>
    exact fun lack pairs' reordered => ofSteps_beq_of_perm reordered distinct lack

/-- Two bindings of which the second has the first variable in its term, and two without any
variable of the other or of their own. -/
theorem composed_in_steps_pair :
    let x : Variable := ⟨⟨"x", none⟩, .free 0⟩
    let y : Variable := ⟨⟨"y", none⟩, .free 1⟩
    let g (v : Variable) : Term Variable := .app ⟨"g", 1, by decide⟩ [.var v]
    let z : Variable := ⟨⟨"z", none⟩, .free 2⟩
    let nested := [(x, g z), (y, g x)]
    let apart := [(x, g z), (y, g z)]
    (nested.Pairwise fun a b => (a.1 == b.1) = false) ∧
      (nested.Pairwise fun a b => ¬ a.2.HasVariable b.1) ∧ ofSteps nested = ofList nested ∧
      (ofSteps nested == ofSteps nested.reverse) = false ∧
      (apart.Pairwise fun a b => (a.1 == b.1) = false) ∧
      (∀ a ∈ apart, ∀ b ∈ apart, ¬ a.2.HasVariable b.1) ∧
      apart.Perm apart.reverse ∧ (ofSteps apart == ofSteps apart.reverse) = true := by
  intro x y g z nested apart
  have inside (v w : Variable) : (g v).HasVariable w ↔ (v == w) = true := by
    simp [g, Term.HasVariable, Term.occurrences_app]
  have distinct : nested.Pairwise fun a b => (a.1 == b.1) = false := List.pairwise_pair.2 rfl
  have lack : nested.Pairwise fun a b => ¬ a.2.HasVariable b.1 :=
    List.pairwise_pair.2 ((inside z y).not.2 Bool.false_ne_true)
  have distinct' : apart.Pairwise fun a b => (a.1 == b.1) = false := List.pairwise_pair.2 rfl
  have lack' : ∀ a ∈ apart, ∀ b ∈ apart, ¬ a.2.HasVariable b.1 := by
    simp [apart, inside, Variable.beq_def, x, y, z]
  obtain ⟨-, inSteps⟩ := composed_in_steps
  have reordered : apart.Perm apart.reverse := apart.reverse_perm.symm
  exact ⟨distinct, lack, ((inSteps nested distinct).1 lack).1, rfl, distinct', lack', reordered,
    (inSteps apart distinct').2 lack' _ reordered⟩

end Substitution

end TermAlgebra
