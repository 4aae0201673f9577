import TermAlgebra.Proofs.Replacement
import TermAlgebra.Proofs.SubstitutionComposition
import TermAlgebra.Session.Expression
/-!
Where variables come from. No operation on terms and substitutions brings in variables: what occurs
in its result occurs in its operands. So all that an expression builds consists of variables that
stand in registers and of new ones, which belong to no pool (`Registers.Offers`).
-/
namespace TermAlgebra

namespace Term

variable {ν : Type} {t t' u r : Term ν} {p : Position} {v : ν}

theorem mem_occurrences_app {f : FunctionSymbol} {args : List (Term ν)} :
    v ∈ occurrences (.app f args) ↔ ∃ u ∈ args, v ∈ u.occurrences := by
  rw [occurrences_app, List.mem_flatMap]

theorem mem_occurrences_subterm? (found : t.subterm? p = some u) (occurs : v ∈ u.occurrences) :
    v ∈ t.occurrences := by
  induction p generalizing t with
  | nil =>
    obtain rfl := Option.some.inj found
    exact occurs
  | cons i p ih =>
    obtain ⟨f, args, c, rfl, held, inside⟩ := subterm?_cons_eq_some found
    exact mem_occurrences_app.2 ⟨c, List.mem_of_getElem? held, ih inside⟩

theorem mem_occurrences_replace? (done : t.replace? p r = some t') (occurs : v ∈ t'.occurrences) :
    v ∈ t.occurrences ∨ v ∈ r.occurrences := by
  induction p generalizing t t' with
  | nil =>
    rw [replace?_nil] at done
    obtain rfl := Option.some.inj done
    exact .inr occurs
  | cons i p ih =>
    obtain ⟨f, args, u, u', rfl, held, inside, rfl⟩ := replace?_cons_eq_some done
    obtain ⟨c, member, occursThere⟩ := mem_occurrences_app.1 occurs
    rcases List.mem_or_eq_of_mem_set member with old | rfl
    · exact .inl (mem_occurrences_app.2 ⟨c, old, occursThere⟩)
    · exact (ih inside occursThere).imp_left fun below =>
        mem_occurrences_app.2 ⟨u, List.mem_of_getElem? held, below⟩

end Term

namespace Substitution

variable {ν : Type} [BEq ν] {s outer inner : Substitution ν} {v : ν}

/-- The variables that a substitution binds and those of the terms it binds them to. -/
def vars (s : Substitution ν) : List ν := s.toList.flatMap fun b => b.1 :: b.2.occurrences

theorem mem_vars : v ∈ s.vars ↔ ∃ b ∈ s.toList, v = b.1 ∨ v ∈ b.2.occurrences := by
  simp only [vars, List.mem_flatMap, List.mem_cons]

theorem mem_vars_ofList {pairs : List (ν × Term ν)} (inside : v ∈ (ofList pairs).vars) :
    ∃ b ∈ pairs, v = b.1 ∨ v ∈ b.2.occurrences := by
  obtain ⟨b, member, here⟩ := mem_vars.1 inside
  rcases here with rfl | occurs
  · obtain ⟨d, held, same⟩ := Table.fst_mem_ofList member
    exact ⟨d, held, .inl same.symm⟩
  · obtain ⟨d, held, same⟩ := Table.snd_mem_ofList member
    exact ⟨d, held, .inr (same ▸ occurs)⟩

theorem mem_occurrences_image {w : ν} (occurs : v ∈ (s.image w).occurrences) :
    v = w ∨ v ∈ s.vars := by
  rw [image] at occurs
  cases held : s.get? w with
  | none =>
    rw [held, Option.getD_none, Term.occurrences_var] at occurs
    exact .inl (List.mem_singleton.1 occurs)
  | some t =>
    obtain ⟨b, member, -, rfl⟩ := Table.exists_mem_of_get? held
    rw [held] at occurs
    exact .inr (mem_vars.2 ⟨b, member, .inr occurs⟩)

theorem mem_occurrences_apply {t : Term ν} (occurs : v ∈ (s.apply t).occurrences) :
    v ∈ t.occurrences ∨ v ∈ s.vars := by
  rw [apply_eq_bind, Term.occurrences_bind] at occurs
  obtain ⟨w, inside, occurs⟩ := List.mem_flatMap.1 occurs
  rcases mem_occurrences_image occurs with rfl | bound
  · exact .inl inside
  · exact .inr bound

theorem mem_vars_compose (inside : v ∈ (outer.compose inner).vars) :
    v ∈ outer.vars ∨ v ∈ inner.vars := by
  obtain ⟨b, member, here⟩ := mem_vars.1 inside
  rcases mem_toList_compose.1 member with ⟨d, held, rfl⟩ | ⟨held, -⟩
  · rcases here with rfl | occurs
    · exact .inr (mem_vars.2 ⟨d, held, .inl rfl⟩)
    · exact (mem_occurrences_apply occurs).symm.imp_right fun below =>
        mem_vars.2 ⟨d, held, .inr below⟩
  · exact .inl (mem_vars.2 ⟨b, held, here⟩)

end Substitution

namespace Session

/-- All variables in what a register holds. -/
def Slot.vars : Slot → List Variable
  | pool _ => []
  | var v => [v]
  | term t => t.occurrences
  | subst s => s.vars

/-- The variable stands in a register, alone or inside a term or a substitution. -/
def Registers.Hold (registers : Registers) (v : Variable) : Prop :=
  ∃ register slot, registers.get? register = some slot ∧ v ∈ slot.vars

/-- The variables from which expressions are built: those that stand in registers, and new ones. -/
def Registers.Offers (registers : Registers) (v : Variable) : Prop :=
  v.origin.pool? = none ∨ registers.Hold v

/-- Whatever a computation gives, if it gives anything, has a property. -/
def Build.Gives {α : Type} (registers : Registers) (b : Build α) (P : α → Prop) : Prop :=
  ∀ made a made', (b.run registers).run made = .ok (a, made') → P a

namespace Build

variable {α β : Type} {registers : Registers} {P : α → Prop} {Q : β → Prop}

theorem Gives.pure {a : α} (holds : P a) : Gives registers (Pure.pure a) P := by
  intro made a' made' given
  obtain ⟨rfl, -⟩ := Prod.mk.inj (Except.ok.inj given)
  exact holds

theorem Gives.throw (e : Error) : Gives registers (throw e) P := by
  intro made a made' given
  cases given

theorem Gives.bind {b : Build α} {f : α → Build β} (first : Gives registers b P)
    (rest : ∀ a, P a → Gives registers (f a) Q) : Gives registers (b >>= f) Q := by
  intro made y made' given
  change ((b.run registers).run made >>= fun x => ((f x.1).run registers).run x.2) = _ at given
  cases built : (b.run registers).run made with
  | error e =>
    rw [built] at given
    cases given
  | ok x =>
    rw [built] at given
    exact rest x.1 (first made x.1 x.2 built) x.2 y made' given

theorem Gives.imp {b : Build α} {R : α → Prop} (gives : Gives registers b P)
    (weaker : ∀ a, P a → R a) : Gives registers b R :=
  fun made a made' given => weaker a (gives made a made' given)

theorem gives_any (b : Build α) : Gives registers b fun _ => True :=
  fun _ _ _ _ => trivial

theorem gives_ofResult (result : Except TermError α) :
    Gives registers (ofResult result) fun a => result = .ok a := by
  cases result with
  | error e => exact .throw _
  | ok a => exact .pure rfl

theorem gives_instantiate (l : Label) : Gives registers (instantiate l) registers.Offers := by
  intro made v made' given
  obtain ⟨rfl, -⟩ := Prod.mk.inj (Except.ok.inj given)
  exact .inl rfl

theorem gives_lookUp (register : String) :
    Gives registers (lookUp register) fun slot? => slot? = registers.get? register := by
  intro made slot? made' given
  obtain ⟨rfl, -⟩ := Prod.mk.inj (Except.ok.inj given)
  rfl

end Build

open Build

variable {registers : Registers}

theorem offers_of_slot {register : String} {slot : Slot}
    (held : registers.get? register = some slot) : ∀ v ∈ slot.vars, registers.Offers v :=
  fun _ inside => .inr ⟨register, slot, held, inside⟩

theorem VarExpr.gives (e : VarExpr) : Gives registers e.build registers.Offers := by
  cases e with
  | label l => exact gives_instantiate l
  | ref register =>
    refine (gives_lookUp register).bind fun slot? held => ?_
    split
    · exact .pure (offers_of_slot held.symm _ (List.mem_singleton_self _))
    · refine .pure (offers_of_slot held.symm _ ?_)
      rw [Slot.vars, Term.occurrences_var]
      exact List.mem_singleton_self _
    · exact .throw _

theorem SymbolExpr.gives (e : SymbolExpr) :
    Gives registers e.build fun x => ∀ v, x = .var v → registers.Offers v := by
  cases e with
  | const name => exact .pure fun v same => by cases same
  | func name arity => exact (gives_any _).bind fun f _ => .pure fun v same => by cases same
  | var e =>
    refine e.gives.bind fun v offered => .pure fun w same => ?_
    obtain rfl := Symbol.var.inj same
    exact offered

/-- All variables of a term are on offer. -/
def Registers.OffersAll (registers : Registers) (t : Term Variable) : Prop :=
  ∀ v ∈ t.occurrences, registers.Offers v

theorem offersAll_app {f : FunctionSymbol} {args : List (Term Variable)}
    (each : ∀ t ∈ args, registers.OffersAll t) : registers.OffersAll (.app f args) := by
  intro v occurs
  obtain ⟨t, member, inside⟩ := Term.mem_occurrences_app.1 occurs
  exact each t member v inside

theorem offersAll_of_apply {f : FunctionSymbol} {args : List (Term Variable)} {t : Term Variable}
    (each : ∀ t ∈ args, registers.OffersAll t) (applied : f.apply args = .ok t) :
    registers.OffersAll t := by
  rw [FunctionSymbol.apply] at applied
  split at applied
  · obtain rfl := Except.ok.inj applied
    exact offersAll_app each
  · cases applied

theorem offersAll_nested (f : FunctionSymbol) (times : Nat) {t : Term Variable}
    (inner : registers.OffersAll t) : registers.OffersAll (nested f times t) := by
  induction times generalizing t with
  | zero => exact inner
  | succ n ih => exact ih (offersAll_app (List.forall_mem_singleton.2 inner))

theorem offersAll_binaryTree (f : FunctionSymbol) (height : Nat) {t : Term Variable}
    (inner : registers.OffersAll t) : registers.OffersAll (binaryTree f height t) := by
  induction height generalizing t with
  | zero => exact inner
  | succ n ih =>
    exact ih (offersAll_app (List.forall_mem_cons.2 ⟨inner, List.forall_mem_singleton.2 inner⟩))

theorem offersAll_var {v : Variable} (offered : registers.Offers v) :
    registers.OffersAll (.var v) := by
  intro w occurs
  rw [Term.occurrences_var, List.mem_singleton] at occurs
  exact occurs ▸ offered

namespace TermExpr

mutual

theorem gives (e : TermExpr) : Gives registers e.build registers.OffersAll :=
  match e with
  | .const name => .pure fun v occurs => by
      rw [Term.occurrences_const] at occurs
      cases occurs
  | .label l => (gives_instantiate l).bind fun v offered => .pure (offersAll_var offered)
  | .ref register => by
      refine (gives_lookUp register).bind fun slot? held => ?_
      split
      · exact .pure (offersAll_var (offers_of_slot held.symm _ (List.mem_singleton_self _)))
      · exact .pure (offers_of_slot held.symm)
      · exact .throw _
  | .app name arity args =>
      (givesAll args).bind fun ts each => (gives_any _).bind fun f _ =>
        (gives_ofResult _).imp fun t applied => offersAll_of_apply each applied
  | .nest name times inner =>
      (gives inner).bind fun t offered => (gives_any _).bind fun f _ =>
        .pure (offersAll_nested f times offered)
  | .tree name height inner =>
      (gives inner).bind fun t offered => (gives_any _).bind fun f _ =>
        .pure (offersAll_binaryTree f height offered)
  | .wide name copies inner =>
      (gives inner).bind fun t offered => (gives_any _).bind fun f _ =>
        (gives_ofResult _).imp fun u applied => offersAll_of_apply (fun c member => by
          rw [List.eq_of_mem_replicate member]
          exact offered) applied

theorem givesAll (es : List TermExpr) :
    Gives registers (buildAll es) fun ts => ∀ t ∈ ts, registers.OffersAll t :=
  match es with
  | [] => .pure fun t member => by cases member
  | e :: rest =>
      (gives e).bind fun t offered => (givesAll rest).bind fun ts each =>
        .pure (List.forall_mem_cons.2 ⟨offered, each⟩)

end

end TermExpr

theorem gives_buildPairs (items : List (VarExpr × TermExpr)) :
    Gives registers (buildPairs items) fun pairs =>
      ∀ b ∈ pairs, registers.Offers b.1 ∧ registers.OffersAll b.2 := by
  induction items with
  | nil => exact .pure fun b member => by cases member
  | cons item rest ih =>
    refine item.1.gives.bind fun v offered => item.2.gives.bind fun t offeredAll => ?_
    exact ih.bind fun pairs each => .pure (List.forall_mem_cons.2 ⟨⟨offered, offeredAll⟩, each⟩)

theorem SubstExpr.gives (e : SubstExpr) :
    Gives registers e.build fun s => ∀ v ∈ s.vars, registers.Offers v := by
  cases e with
  | pairs items =>
    refine (gives_buildPairs items).bind fun pairs each => .pure fun v inside => ?_
    obtain ⟨b, member, here⟩ := Substitution.mem_vars_ofList inside
    rcases here with rfl | occurs
    · exact (each b member).1
    · exact (each b member).2 v occurs
  | ref register =>
    refine (gives_lookUp register).bind fun slot? held => ?_
    split
    · exact .pure (offers_of_slot held.symm)
    · exact .throw _

end Session

end TermAlgebra
