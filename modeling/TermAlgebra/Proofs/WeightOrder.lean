import TermAlgebra.Proofs.ExactWeight
import TermAlgebra.Proofs.Provenance
/-!
Comparing terms by weight goes well with contexts and substitutions, although sums are cut off. All
is shown of exact weights, where both sides change by known amounts; being cut off can turn a strict
comparison into equality but never turns one round, since whatever is added, is added to both sides
or to the greater one. Hence strict comparisons survive as long as the greater side is not cut off.
-/
namespace TermAlgebra.Weight

variable {ν : Type} (w : Weight)

/-- `t` weighs at most as much as `u`, asked as a comparison under the measure. -/
def AtMost (t u : Term ν) : Prop :=
  ((Operand.measured w.measure t).compare .lessOrEqual u).holds = true

/-- `t` weighs less than `u`, asked as a comparison under the measure. -/
def Below (t u : Term ν) : Prop := ((Operand.measured w.measure t).compare .less u).holds = true

variable {w} in
theorem atMost_iff {t u : Term ν} : w.AtMost t u ↔ w.ofTerm t ≤ w.ofTerm u := by
  show (compare (w.ofTerm t) (w.ofTerm u)).isLE = true ↔ _
  exact Std.isLE_compare

variable {w} in
theorem below_iff {t u : Term ν} : w.Below t u ↔ w.ofTerm t < w.ofTerm u := by
  show (compare (w.ofTerm t) (w.ofTerm u)).isLT = true ↔ _
  rw [Ordering.isLT_iff_eq_lt]
  exact Std.compare_eq_lt

section
variable {t u r t' : Term ν} {p : Position}

theorem ofTerm_subterm? (found : t.subterm? p = some u) : w.ofTerm u ≤ w.ofTerm t := by
  have below := w.total_subterm? found
  rw [UInt64.le_iff_toNat_le, toNat_ofTerm, toNat_ofTerm]
  omega

/-- If the old subterm is cut off then so is the whole term; otherwise both change by the same. -/
theorem ofTerm_replace?_le (found : t.subterm? p = some u) (done : t.replace? p r = some t')
    (lighter : w.ofTerm r ≤ w.ofTerm u) : w.ofTerm t' ≤ w.ofTerm t := by
  have below := w.total_subterm? found
  have changed := w.total_replace? found done
  simp only [UInt64.le_iff_toNat_le, toNat_ofTerm] at lighter ⊢
  omega

theorem ofTerm_replace?_lt (found : t.subterm? p = some u) (done : t.replace? p r = some t')
    (lighter : w.ofTerm r < w.ofTerm u) (uncut : (w.ofTerm t).toNat < greatestWeight) :
    w.ofTerm t' < w.ofTerm t := by
  have below := w.total_subterm? found
  have changed := w.total_replace? found done
  simp only [UInt64.lt_iff_toNat_lt, toNat_ofTerm] at lighter uncut ⊢
  omega

end

/-- Whatever occurs in one list at most as often as in another adds up to no more. -/
theorem sum_map_le_of_count_le {α : Type} [DecidableEq α] (f : α → Nat) {as bs : List α}
    (fewer : ∀ a ∈ as, as.count a ≤ bs.count a) : (as.map f).sum ≤ (bs.map f).sum := by
  obtain ⟨cs, reordered, kept⟩ := List.subperm_ext_iff.2 fewer
  calc (as.map f).sum = (cs.map f).sum := (reordered.map f).symm.sum_nat
    _ ≤ (bs.map f).sum := (kept.map f).sum_le_sum fun n _ => Nat.zero_le n

theorem count_label (vs : List Variable) (v : Variable) :
    (vs.map Variable.label).count v.label = vs.count v := by
  rw [List.count, List.countP_map]
  rfl

section
variable {l r : Term Variable} {s : Substitution Variable}

theorem total_image (v : Variable) : w.total (s.labels.image v.label) = w.total (s.image v) := by
  rw [s.labels_image]
  exact w.total_map Variable.label (s.image v)

theorem excess_le (fewer : ∀ v, l.occurrences.count v ≤ r.occurrences.count v) :
    w.excess s.image l.occurrences ≤ w.excess s.image r.occurrences := by
  have byLabel : ∀ vs : List Variable, w.excess s.image vs = ((vs.map Variable.label).map
      fun x => w.total (s.labels.image x) - w.perVariable.toNat).sum := fun vs => by
    simp [excess, Function.comp_def, total_image]
  rw [byLabel, byLabel]
  refine sum_map_le_of_count_le _ fun x member => ?_
  obtain ⟨v, -, rfl⟩ := List.mem_map.1 member
  rw [count_label, count_label]
  exact fewer v

/-- Every variable of the smaller side has its equal on the greater one. -/
theorem heavy_of_count (fewer : ∀ v, l.occurrences.count v ≤ r.occurrences.count v)
    (heavy : ∀ v ∈ r.occurrences, w.perVariable ≤ w.ofTerm (s.image v)) :
    ∀ v ∈ l.occurrences, w.perVariable.toNat ≤ w.total (s.image v) := by
  intro v occurs
  have counted : 0 < l.occurrences.count v := List.countP_pos_iff.2 ⟨v, occurs, BEq.rfl⟩
  obtain ⟨u, occursToo, same⟩ := List.countP_pos_iff.1 (counted.trans_le (fewer v))
  have image := heavy u occursToo
  rw [UInt64.le_iff_toNat_le, toNat_ofTerm, ← total_image, Variable.beq_iff.1 same,
    total_image] at image
  omega

/-- What both sides of a comparison become under a substitution. -/
theorem totals_apply (fewer : ∀ v, l.occurrences.count v ≤ r.occurrences.count v)
    (heavy : ∀ v ∈ r.occurrences, w.perVariable ≤ w.ofTerm (s.image v)) :
    ∃ m n, m ≤ n ∧ w.total (s.apply l) = w.total l + m ∧ w.total (s.apply r) = w.total r + n := by
  refine ⟨_, _, w.excess_le (s := s) fewer, ?_, ?_⟩
  · rw [s.apply_eq_bind]
    exact w.total_bind (w.heavy_of_count fewer heavy)
  · rw [s.apply_eq_bind]
    exact w.total_bind (w.heavy_of_count (fun v => Nat.le_refl _) heavy)

theorem ofTerm_apply_le (lighter : w.ofTerm l ≤ w.ofTerm r)
    (fewer : ∀ v, l.occurrences.count v ≤ r.occurrences.count v)
    (heavy : ∀ v ∈ r.occurrences, w.perVariable ≤ w.ofTerm (s.image v)) :
    w.ofTerm (s.apply l) ≤ w.ofTerm (s.apply r) := by
  obtain ⟨m, n, fewer, left, right⟩ := w.totals_apply fewer heavy
  simp only [UInt64.le_iff_toNat_le, toNat_ofTerm, left, right] at lighter ⊢
  omega

theorem ofTerm_apply_lt (lighter : w.ofTerm l < w.ofTerm r)
    (fewer : ∀ v, l.occurrences.count v ≤ r.occurrences.count v)
    (heavy : ∀ v ∈ r.occurrences, w.perVariable ≤ w.ofTerm (s.image v))
    (uncut : (w.ofTerm (s.apply r)).toNat < greatestWeight) :
    w.ofTerm (s.apply l) < w.ofTerm (s.apply r) := by
  obtain ⟨m, n, fewer, left, right⟩ := w.totals_apply fewer heavy
  simp only [UInt64.lt_iff_toNat_lt, toNat_ofTerm, left, right] at lighter uncut ⊢
  omega

end

/-- Weights order terms, and the order is kept by contexts and substitutions although weights are
cut off. A subterm weighs at most as much as the whole. Putting in something lighter makes a term
lighter, or leaves it cut off. A substitution that gives no variable an image lighter than a
variable keeps the order of two terms if no variable occurs more often in the lighter one. -/
theorem weight_compatible (w : Weight) :
    ((∀ t : Term Variable, w.AtMost t t) ∧
      (∀ t u v : Term Variable, w.AtMost t u → w.AtMost u v → w.AtMost t v) ∧
      (∀ t u : Term Variable, w.AtMost t u ↔ w.ofTerm t ≤ w.ofTerm u) ∧
      ∀ t u : Term Variable, w.Below t u ↔ w.ofTerm t < w.ofTerm u) ∧
    (∀ (t u : Term Variable) p, t.subtermAt p = .ok u → w.ofTerm u ≤ w.ofTerm t) ∧
    (∀ (t u r : Term Variable) p, t.subtermAt p = .ok u → w.ofTerm r ≤ w.ofTerm u →
      ∃ t', t.replaceAt p r = .ok t' ∧ w.ofTerm t' ≤ w.ofTerm t ∧
        (w.ofTerm r < w.ofTerm u → (w.ofTerm t).toNat < 2 ^ 64 - 1 → w.ofTerm t' < w.ofTerm t)) ∧
    ∀ (l r : Term Variable) (s : Substitution Variable), w.ofTerm l ≤ w.ofTerm r →
      (∀ v, l.occurrences.count v ≤ r.occurrences.count v) →
      (∀ v ∈ r.occurrences, w.perVariable ≤ w.ofTerm (s.image v)) →
      w.ofTerm (s.apply l) ≤ w.ofTerm (s.apply r) ∧
        (w.ofTerm l < w.ofTerm r → (w.ofTerm (s.apply r)).toNat < 2 ^ 64 - 1 →
          w.ofTerm (s.apply l) < w.ofTerm (s.apply r)) := by
  simp only [Term.subtermAt_eq_ok_iff, Term.replaceAt_eq_ok_iff]
  refine ⟨⟨?reflexive, ?transitive, fun t u => atMost_iff, fun t u => below_iff⟩, ?subterms,
    ?replacements, ?substitutions⟩
  case reflexive => exact fun t => atMost_iff.2 (UInt64.le_refl _)
  case transitive =>
    intro t u v first second
    exact atMost_iff.2 (UInt64.le_trans (atMost_iff.1 first) (atMost_iff.1 second))
  case subterms => exact fun t u p found => w.ofTerm_subterm? found
  case replacements =>
    intro t u r p found lighter
    obtain ⟨t', done⟩ := Term.exists_replace? (Term.hasPosition_iff.2 ⟨u, found⟩) r
    exact ⟨t', done, w.ofTerm_replace?_le found done lighter, w.ofTerm_replace?_lt found done⟩
  case substitutions =>
    intro l r s lighter fewer heavy
    exact ⟨w.ofTerm_apply_le lighter fewer heavy,
      fun strictly => w.ofTerm_apply_lt strictly fewer heavy⟩

/-- With a symbol so heavy that the greater side just stays below the limit. -/
theorem weight_compatible_at_limit :
    let w : Weight := { symbols := .ofList [("h", 18446744073709551612), ("z", 0)] }
    let x : Variable := ⟨⟨"x", none⟩, .free 0⟩
    let unary (name : String) (t : Term Variable) : Term Variable := .app ⟨name, 1, by decide⟩ [t]
    let s := Substitution.single x (unary "g" (.const ⟨"a"⟩))
    let l := unary "g" (.var x)
    let r := unary "h" (.var x)
    let z : Term Variable := .const ⟨"z"⟩
    (w.AtMost z (.var x) ∧ w.AtMost (.var x) r ∧ w.AtMost z r) ∧
      (r.subtermAt [0] = .ok (.var x) ∧ w.ofTerm (.var x : Term Variable) ≤ w.ofTerm r) ∧
      (w.ofTerm z < w.ofTerm (.var x : Term Variable) ∧ (w.ofTerm r).toNat < 2 ^ 64 - 1 ∧
        ∃ t', r.replaceAt [0] z = .ok t' ∧ w.ofTerm t' < w.ofTerm r) ∧
      w.ofTerm l < w.ofTerm r ∧ (∀ v, l.occurrences.count v ≤ r.occurrences.count v) ∧
      (∀ v ∈ r.occurrences, w.perVariable ≤ w.ofTerm (s.image v)) ∧
      (w.ofTerm (s.apply r)).toNat = 2 ^ 64 - 2 ∧ w.ofTerm (s.apply l) < w.ofTerm (s.apply r) := by
  intro w x unary s l r z
  obtain ⟨⟨-, transitive, -, -⟩, subterms, replacements, substitutions⟩ := weight_compatible w
  have found : r.subtermAt [0] = .ok (.var x) := rfl
  have zero : w.ofTerm z < w.ofTerm (.var x : Term Variable) := by decide
  have uncut : (w.ofTerm r).toNat < 2 ^ 64 - 1 := by decide
  have lighter : w.ofTerm l < w.ofTerm r := by decide
  have counts : ∀ v, l.occurrences.count v ≤ r.occurrences.count v := fun v => by
    simp [l, r, unary, Term.occurrences_app]
  have heavy : ∀ v ∈ r.occurrences, w.perVariable ≤ w.ofTerm (s.image v) := by
    rw [show r.occurrences = [x] by simp [r, unary, Term.occurrences_app]]
    exact List.forall_mem_singleton.2 (by decide)
  have limit : (w.ofTerm (s.apply r)).toNat = 2 ^ 64 - 2 := by decide
  obtain ⟨t', done, -, strictly⟩ := replacements r (.var x) z [0] found (UInt64.le_of_lt zero)
  obtain ⟨-, kept⟩ := substitutions l r s (UInt64.le_of_lt lighter) counts heavy
  exact ⟨⟨rfl, rfl, transitive z (.var x) r rfl rfl⟩, ⟨found, subterms r (.var x) [0] found⟩,
    ⟨zero, uncut, t', done, strictly zero uncut⟩, lighter, counts, heavy, limit,
    kept lighter (limit ▸ by decide)⟩

end TermAlgebra.Weight
