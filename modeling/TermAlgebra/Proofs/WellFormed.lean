import TermAlgebra.Proofs.Replacement
import TermAlgebra.Proofs.SubstitutionComposition
/-!
Well-formed terms: what holds of all arguments of an application holds of each, there is at least
one, and putting variables for variables changes nothing about it. The number of arguments is
checked where a symbol is applied (`FunctionSymbol.apply_eq_ok_iff`). Taking a term apart, putting
another in and applying substitutions do not look at it, and keep it.
-/
namespace TermAlgebra.Term

variable {ν μ : Type}

theorem wellFormedAll_iff {ts : List (Term ν)} : WellFormedAll ts ↔ ∀ t ∈ ts, t.WellFormed := by
  induction ts with
  | nil => simp [WellFormedAll]
  | cons t ts ih => rw [WellFormedAll, ih, List.forall_mem_cons]

theorem wellFormed_app {f : FunctionSymbol} {args : List (Term ν)} :
    (app f args).WellFormed ↔ args.length = f.arity.toNat ∧ ∀ t ∈ args, t.WellFormed := by
  rw [WellFormed, wellFormedAll_iff]

/-- The arity of a function symbol is not zero. -/
theorem args_ne_nil {f : FunctionSymbol} {args : List (Term ν)}
    (wellFormed : (app f args).WellFormed) : args ≠ [] := by
  rintro rfl
  exact f.arity_ne_zero (UInt64.toNat_inj.1 (wellFormed_app.1 wellFormed).1.symm)

theorem wellFormed_map (g : ν → μ) {t : Term ν} : (t.map g).WellFormed ↔ t.WellFormed := by
  induction t with
  | const c => exact Iff.rfl
  | var v => exact Iff.rfl
  | app f args ih =>
    rw [map_app, wellFormed_app, wellFormed_app, List.length_map, List.forall_mem_map]
    exact and_congr_right fun _ => forall₂_congr ih

theorem wellFormed_labels {t : Term Variable} : t.labels.WellFormed ↔ t.WellFormed :=
  wellFormed_map Variable.label

section
variable {t u r t' : Term ν} {p : Position}

theorem wellFormed_subterm? (wellFormed : t.WellFormed) (found : t.subterm? p = some u) :
    u.WellFormed := by
  induction p generalizing t with
  | nil =>
    obtain rfl := Option.some.inj found
    exact wellFormed
  | cons i p ih =>
    obtain ⟨f, args, c, rfl, held, inside⟩ := subterm?_cons_eq_some found
    exact ih ((wellFormed_app.1 wellFormed).2 c (List.mem_of_getElem? held)) inside

/-- The old argument gives way to one that is well-formed too, and their number stays. -/
theorem wellFormed_replace? (wellFormed : t.WellFormed) (replacement : r.WellFormed)
    (done : t.replace? p r = some t') : t'.WellFormed := by
  induction p generalizing t t' with
  | nil =>
    rw [replace?_nil] at done
    obtain rfl := Option.some.inj done
    exact replacement
  | cons i p ih =>
    obtain ⟨f, args, u, u', rfl, held, inside, rfl⟩ := replace?_cons_eq_some done
    obtain ⟨count, each⟩ := wellFormed_app.1 wellFormed
    have changed := ih (each u (List.mem_of_getElem? held)) inside
    refine wellFormed_app.2 ⟨by rw [List.length_set, count], fun c member => ?_⟩
    rcases List.mem_or_eq_of_mem_set member with old | rfl
    · exact each c old
    · exact changed

theorem wellFormed_bind {g : ν → Term μ} (images : ∀ v, (g v).WellFormed)
    (wellFormed : t.WellFormed) : (t.bind g).WellFormed := by
  induction t with
  | const c => exact trivial
  | var v => exact images v
  | app f args ih =>
    obtain ⟨count, each⟩ := wellFormed_app.1 wellFormed
    rw [bind_app, wellFormed_app, List.length_map, List.forall_mem_map]
    exact ⟨count, fun u member => ih u member (each u member)⟩

theorem wellFormed_of_mem_children (wellFormed : t.WellFormed) (member : u ∈ t.children) :
    u.WellFormed := by
  cases t with
  | const c => cases member
  | var v => cases member
  | app f args => exact (wellFormed_app.1 wellFormed).2 u member

end

end TermAlgebra.Term

namespace TermAlgebra

/-- The one check: a symbol is applied to as many arguments as its arity, or not at all. -/
theorem FunctionSymbol.apply_eq_ok_iff {ν : Type} {f : FunctionSymbol} {args : List (Term ν)}
    {t : Term ν} : f.apply args = .ok t ↔ args.length = f.arity.toNat ∧ t = .app f args := by
  rw [FunctionSymbol.apply]
  split
  · rename_i count
    simp [count, eq_comm]
  · rename_i mismatch
    simp [mismatch]

theorem FunctionSymbol.apply_of_mismatch {ν : Type} {f : FunctionSymbol} {args : List (Term ν)}
    (mismatch : args.length ≠ f.arity.toNat) :
    f.apply args = .error (.arityMismatch f args.length) :=
  if_neg mismatch

theorem FunctionSymbol.wellFormed_apply {ν : Type} {f : FunctionSymbol} {args : List (Term ν)}
    {t : Term ν} (each : ∀ u ∈ args, u.WellFormed) (applied : f.apply args = .ok t) :
    t.WellFormed := by
  obtain ⟨count, rfl⟩ := apply_eq_ok_iff.1 applied
  exact Term.wellFormed_app.2 ⟨count, each⟩

namespace Substitution

variable {ν : Type} [BEq ν]

/-- Every term that the substitution binds a variable to is well-formed. -/
def WellFormed (s : Substitution ν) : Prop := ∀ b ∈ s.toList, b.2.WellFormed

theorem wellFormed_ofList {pairs : List (ν × Term ν)} (each : ∀ b ∈ pairs, b.2.WellFormed) :
    (ofList pairs).WellFormed := by
  intro b member
  obtain ⟨d, held, same⟩ := Table.snd_mem_ofList member
  exact same ▸ each d held

variable {s outer inner : Substitution ν}

theorem wellFormed_image (wellFormed : s.WellFormed) (v : ν) : (s.image v).WellFormed := by
  rw [image]
  cases held : s.get? v with
  | none => exact trivial
  | some t =>
    obtain ⟨b, member, -, rfl⟩ := Table.exists_mem_of_get? held
    exact wellFormed b member

theorem wellFormed_apply {t : Term ν} (wellFormed : s.WellFormed) (ofTerm : t.WellFormed) :
    (s.apply t).WellFormed := by
  rw [apply_eq_bind]
  exact Term.wellFormed_bind (wellFormed_image wellFormed) ofTerm

theorem wellFormed_compose (ofOuter : outer.WellFormed) (ofInner : inner.WellFormed) :
    (outer.compose inner).WellFormed := by
  intro b member
  rcases mem_toList_compose.1 member with ⟨d, held, rfl⟩ | ⟨held, -⟩
  · exact wellFormed_apply ofOuter (ofInner d held)
  · exact ofOuter b held

theorem wellFormed_labels {s : Substitution Variable} (wellFormed : s.WellFormed) :
    s.labels.WellFormed :=
  List.forall_mem_map.2 fun b member => Term.wellFormed_labels.2 (wellFormed b member)

end Substitution

end TermAlgebra
