import Mathlib.Algebra.Order.BigOperators.Group.List
import Mathlib.Algebra.Order.Ring.Nat
import TermAlgebra.Order.Weight
import TermAlgebra.Proofs.SubtermEnumeration
import TermAlgebra.Proofs.SubstitutionPositions
/-!
The exact weight of a term: the weights of the symbols at all its positions, added up without a
bound. The weight in 64-bit arithmetic is this sum, cut off at the largest number; sums that were
cut off on the way stay cut off (`toNat_ofTerm`), so it does not show in which order they were made.
For the exact weight a replacement changes the sum by what goes out and what comes in, and a
substitution by the excess of every image over a variable.
-/
namespace TermAlgebra

/-- The greatest weight, at which all sums stop. -/
def greatestWeight : Nat := 2 ^ 64 - 1

theorem toNat_le_greatestWeight (a : UInt64) : a.toNat ≤ greatestWeight :=
  Nat.le_sub_one_of_lt a.toNat_lt

theorem toNat_saturatingAdd (a b : UInt64) :
    (saturatingAdd a b).toNat = min (a.toNat + b.toNat) greatestWeight := by
  rw [saturatingAdd]
  split
  · rename_i small
    rw [UInt64.toNat_add]
    simp only [UInt64.size, greatestWeight] at small ⊢
    omega
  · rename_i great
    show greatestWeight = _
    simp only [UInt64.size, greatestWeight] at great ⊢
    omega

namespace Weight

variable {ν μ : Type} (w : Weight)

/-- The weight of the symbol at the root of a term. -/
def ofRoot : Term ν → UInt64
  | .var _ => w.perVariable
  | .const c => w.ofName c.name
  | .app f _ => w.ofName f.name

/-- The weights of the symbols at all positions of a term together. -/
def total (t : Term ν) : Nat := (t.subterms.map fun item => (w.ofRoot item.2).toNat).sum

theorem total_eq (t : Term ν) :
    w.total t = (w.ofRoot t).toNat + (t.children.map w.total).sum := by
  have ofArguments : ((Term.childrenAt Position.root t).map fun item => w.total item.2) =
      t.children.map w.total := by
    rw [← Term.map_snd_childrenAt Position.root t, List.map_map]
    rfl
  rw [total, Term.subterms_eq, List.map_cons, List.sum_cons, List.map_flatMap, List.flatMap_def,
    List.sum_flatten, List.map_map, ← ofArguments]
  simp [total, Term.moved, Function.comp_def]

@[simp] theorem total_const (c : Constant) :
    w.total (.const c : Term ν) = (w.ofName c.name).toNat :=
  w.total_eq (.const c)

@[simp] theorem total_var (v : ν) : w.total (.var v) = w.perVariable.toNat := w.total_eq (.var v)

@[simp] theorem total_app (f : FunctionSymbol) (args : List (Term ν)) :
    w.total (.app f args) = (w.ofName f.name).toNat + (args.map w.total).sum :=
  w.total_eq (.app f args)

private theorem toNat_ofTerms {ts : List (Term ν)}
    (each : ∀ t ∈ ts, (w.ofTerm t).toNat = min (w.total t) greatestWeight) (sum : UInt64) :
    (w.ofTerms sum ts).toNat = min (sum.toNat + (ts.map w.total).sum) greatestWeight := by
  induction ts generalizing sum with
  | nil =>
    have small := toNat_le_greatestWeight sum
    simp only [ofTerms, List.map_nil, List.sum_nil]
    omega
  | cons t ts ih =>
    obtain ⟨first, others⟩ := List.forall_mem_cons.1 each
    simp only [ofTerms, ih others, toNat_saturatingAdd, first, List.map_cons, List.sum_cons]
    omega

/-- The weight is the exact weight, cut off at the greatest one. -/
theorem toNat_ofTerm (t : Term ν) : (w.ofTerm t).toNat = min (w.total t) greatestWeight := by
  induction t with
  | const c =>
    have small := toNat_le_greatestWeight (w.ofName c.name)
    simp only [ofTerm, total_const]
    omega
  | var v =>
    have small := toNat_le_greatestWeight w.perVariable
    simp only [ofTerm, total_var]
    omega
  | app f args ih => rw [ofTerm, toNat_ofTerms w ih, total_app]

/-- Equal exact weights are cut off to equal weights. -/
theorem ofTerm_congr {t : Term ν} {u : Term μ} (same : w.total t = w.total u) :
    w.ofTerm t = w.ofTerm u := by
  rw [← UInt64.toNat_inj, toNat_ofTerm, toNat_ofTerm, same]

theorem total_subterm? {t u : Term ν} {p : Position} (found : t.subterm? p = some u) :
    w.total u ≤ w.total t := by
  induction p generalizing t with
  | nil =>
    obtain rfl := Option.some.inj found
    exact Nat.le_refl _
  | cons i p ih =>
    obtain ⟨f, args, c, rfl, held, inside⟩ := Term.subterm?_cons_eq_some found
    have argument : w.total c ≤ (args.map w.total).sum :=
      List.le_sum_of_mem (List.mem_map_of_mem (List.mem_of_getElem? held))
    have below := ih inside
    rw [total_app]
    omega

private theorem sum_set {ns : List Nat} {i a b : Nat} (held : ns[i]? = some a) :
    (ns.set i b).sum + a = ns.sum + b := by
  induction ns generalizing i with
  | nil => cases held
  | cons n ns ih =>
    cases i with
    | zero =>
      obtain rfl := Option.some.inj held
      simp only [List.set_cons_zero, List.sum_cons]
      omega
    | succ i =>
      have later := ih held
      simp only [List.set_cons_succ, List.sum_cons]
      omega

theorem total_replace? {t u r t' : Term ν} {p : Position} (found : t.subterm? p = some u)
    (done : t.replace? p r = some t') : w.total t' + w.total u = w.total t + w.total r := by
  induction p generalizing t t' with
  | nil =>
    obtain rfl := Option.some.inj found
    rw [Term.replace?_nil] at done
    obtain rfl := Option.some.inj done
    exact Nat.add_comm _ _
  | cons i p ih =>
    obtain ⟨f, args, c, c', rfl, held, inside, rfl⟩ := Term.replace?_cons_eq_some done
    rw [Term.subterm?_cons, Term.children, held, Option.bind_some] at found
    have argument : (args.map w.total)[i]? = some (w.total c) := by simp [held]
    have changed := sum_set (b := w.total c') argument
    have inner := ih found inside
    simp only [total_app, List.map_set]
    omega

/-- How much the images of the variables of a term weigh beyond variables, all occurrences
together. -/
def excess (g : ν → Term μ) (vs : List ν) : Nat :=
  (vs.map fun v => w.total (g v) - w.perVariable.toNat).sum

theorem total_bind {g : ν → Term μ} {t : Term ν}
    (heavy : ∀ v ∈ t.occurrences, w.perVariable.toNat ≤ w.total (g v)) :
    w.total (t.bind g) = w.total t + w.excess g t.occurrences := by
  induction t with
  | const c => simp [Term.bind, excess]
  | var v =>
    have image := heavy v (by simp)
    simp only [Term.bind, excess, total_var, Term.occurrences_var, List.map_singleton,
      List.sum_singleton]
    omega
  | app f args ih =>
    rw [Term.occurrences_app] at heavy
    have together : ((args.map (Term.bind g)).map w.total).sum =
        (args.map w.total).sum + w.excess g (args.flatMap Term.occurrences) := by
      clear f
      induction args with
      | nil => rfl
      | cons t args ihArgs =>
        have first := ih t List.mem_cons_self fun v occurs => heavy v (by simp [occurs])
        have others := ihArgs (fun u member => ih u (List.mem_cons_of_mem t member))
          fun v occurs => heavy v (List.mem_append_right _ occurs)
        simp only [excess, List.map_cons, List.sum_cons, List.flatMap_cons, List.map_append,
          List.sum_append] at first others ⊢
        omega
    rw [Term.bind_app, total_app, total_app, together, Term.occurrences_app, Nat.add_assoc]

/-- Variables weigh the same, whichever they are. -/
theorem total_map (g : ν → μ) (t : Term ν) : w.total (t.map g) = w.total t := by
  have images : ∀ v ∈ t.occurrences, w.perVariable.toNat ≤ w.total (.var (g v)) :=
    fun v _ => Nat.le_of_eq (w.total_var (g v)).symm
  rw [Term.map, total_bind w images]
  simp [excess]

theorem total_app_perm (f : FunctionSymbol) {args args' : List (Term ν)}
    (reordered : args.Perm args') : w.total (.app f args') = w.total (.app f args) := by
  rw [total_app, total_app, (reordered.map w.total).symm.sum_nat]

theorem ofTerm_replace?_congr {t u r t' : Term ν} {p : Position} (found : t.subterm? p = some u)
    (done : t.replace? p r = some t') (same : w.total r = w.total u) :
    w.ofTerm t' = w.ofTerm t := by
  have changed := w.total_replace? found done
  exact w.ofTerm_congr (by omega)

theorem ofName_eq_one (listed : ∀ e ∈ w.symbols.entries, e.2 = 1) (unlisted : w.unlisted = 1)
    (name : String) : w.ofName name = 1 := by
  rw [ofName]
  cases held : w.symbols.get? name with
  | none => exact unlisted
  | some a =>
    obtain ⟨e, member, -, rfl⟩ := Table.exists_mem_of_get? held
    exact listed e member

/-- If every symbol weighs one then the exact weight counts the positions. -/
theorem total_eq_length_positions (one : ∀ u : Term ν, w.ofRoot u = 1) (t : Term ν) :
    w.total t = t.positions.length := by
  simp [total, one, Term.positions]

/-- The weight of a term is the sum over all its positions of what the symbol there weighs, added up
without a bound and cut off at the greatest weight once. Hence a subterm's arguments can be put in
another order without a change. With all weights one it is the number of positions, cut off. -/
theorem weight_adds_up (w : Weight) :
    (∀ t : Term Variable, (w.ofTerm t).toNat =
      min (t.subterms.map fun item => (w.ofRoot item.2).toNat).sum (2 ^ 64 - 1)) ∧
    (∀ (t : Term Variable) p f args args', t.subtermAt p = .ok (.app f args) → args.Perm args' →
      ∃ t', t.replaceAt p (.app f args') = .ok t' ∧ w.ofTerm t' = w.ofTerm t) ∧
    ((∀ e ∈ w.symbols.entries, e.2 = 1) → w.unlisted = 1 → w.perVariable = 1 →
      ∀ t : Term Variable, (w.ofTerm t).toNat = min t.positions.length (2 ^ 64 - 1)) := by
  refine ⟨w.toNat_ofTerm, ?_, ?_⟩
  · intro t p f args args' there reordered
    have found := Term.subtermAt_eq_ok_iff.1 there
    obtain ⟨t', done⟩ := Term.exists_replace? (Term.hasPosition_iff.2 ⟨_, found⟩) (.app f args')
    exact ⟨t', Term.replaceAt_eq_ok_iff.2 done,
      w.ofTerm_replace?_congr found done (w.total_app_perm f reordered)⟩
  · intro listed unlisted perVariable t
    have one : ∀ u : Term Variable, w.ofRoot u = 1 := fun u => by
      cases u with
      | const c => exact w.ofName_eq_one listed unlisted c.name
      | var v => exact perVariable
      | app f args => exact w.ofName_eq_one listed unlisted f.name
    rw [toNat_ofTerm, w.total_eq_length_positions one]
    rfl

/-- A constant of all but the greatest weight beside one that weighs nothing, in either order, below
a sum that is cut off; and the same term with all weights one. -/
theorem weight_adds_up_cut_off :
    let w : Weight :=
      { symbols := .ofList [("a", 18446744073709551614), ("z", 0)], perVariable := 3 }
    let ones : Weight := { symbols := .ofList [("a", 1)] }
    let f : FunctionSymbol := ⟨"f", 2, by decide⟩
    let a : Term Variable := .const ⟨"a"⟩
    let z : Term Variable := .const ⟨"z"⟩
    let t : Term Variable := .app f [.app f [a, z], .var ⟨⟨"x", none⟩, .free 0⟩]
    (t.subterms.map fun item => (w.ofRoot item.2).toNat).sum = 2 ^ 64 + 3 ∧
      (w.ofTerm t).toNat = 2 ^ 64 - 1 ∧
      (t.subtermAt [0] = .ok (.app f [a, z]) ∧ [a, z].Perm [z, a] ∧
        ∃ t', t.replaceAt [0] (.app f [z, a]) = .ok t' ∧ w.ofTerm t' = w.ofTerm t) ∧
      (∀ e ∈ ones.symbols.entries, e.2 = 1) ∧ ones.unlisted = 1 ∧ ones.perVariable = 1 ∧
      (ones.ofTerm t).toNat = min t.positions.length (2 ^ 64 - 1) := by
  intro w ones f a z t
  obtain ⟨sum, order, -⟩ := weight_adds_up w
  obtain ⟨-, -, positions⟩ := weight_adds_up ones
  have beyond : (t.subterms.map fun item => (w.ofRoot item.2).toNat).sum = 2 ^ 64 + 3 := by
    show w.total t = _
    simp only [t, a, z, total_app, total_const, total_var, List.map_cons, List.map_nil]
    decide
  have found : t.subtermAt [0] = .ok (.app f [a, z]) := rfl
  have reordered : [a, z].Perm [z, a] := .swap z a []
  have listed : ∀ e ∈ ones.symbols.entries, e.2 = 1 := List.forall_mem_singleton.2 rfl
  refine ⟨beyond, ?_, ⟨found, reordered, order t [0] f [a, z] [z, a] found reordered⟩, listed, rfl,
    rfl, positions listed rfl rfl t⟩
  rw [sum t, beyond]
  rfl

end Weight

end TermAlgebra
