import TermAlgebra.Proofs.SubstitutionPositions
/-!
The ways of applying a substitution. At an application there is a choice: without bindings it can be
returned as it is, it can be taken out of its term and have each argument done, or it can be rebuilt
argument by argument, and the arguments leave the same choice again. `Applied` lets every
application in a term be done in any of these ways; `applied_iff` says that it makes no difference,
so variables, symbols and applications come to the same alone as inside a term.
-/
namespace TermAlgebra.Substitution

variable {ν : Type} [BEq ν]

/-- The second term is the first one with the substitution applied, in whichever way the
applications in it are gone through. -/
inductive Applied (s : Substitution ν) : Term ν → Term ν → Prop where
  | const (c : Constant) : Applied s (.const c) (.const c)
  | var (v : ν) : Applied s (.var v) (s.image v)
  /-- Nothing can change, so the application is shared. -/
  | shared (empty : s.isEmpty = true) (a : Application ν) : Applied s a.toTerm a.toTerm
  | takenOut (a : Application ν) : Applied s a.toTerm (s.applyToArgs a).toTerm
  | rebuilt (f : FunctionSymbol) {args args' : List (Term ν)} (length : args'.length = args.length)
      (each : ∀ i (bound : i < args.length) (bound' : i < args'.length),
        Applied s args[i] args'[i]) :
      Applied s (.app f args) (.app f args')

section
variable (s : Substitution ν)

theorem apply_app (f : FunctionSymbol) (args : List (Term ν)) :
    s.apply (.app f args) = .app f (args.map s.apply) := by
  rw [← applyAll_eq_map]
  exact (s.toTerm_applyToArgs ⟨f, args⟩).symm

theorem apply_of_isEmpty {s : Substitution ν} (empty : s.isEmpty = true) (t : Term ν) :
    s.apply t = t := by
  rw [apply_eq_bind, image_of_isEmpty empty, Term.bind_var]

theorem applyToArgs_of_isEmpty {s : Substitution ν} (empty : s.isEmpty = true)
    (a : Application ν) : s.applyToArgs a = a := by
  have unchanged : s.apply = id := funext (apply_of_isEmpty empty)
  rw [applyToArgs, applyAll_eq_map, unchanged, List.map_id]

/-- All ways lead to the same term. -/
theorem applied_iff {t u : Term ν} : s.Applied t u ↔ u = s.apply t := by
  constructor
  · intro applied
    induction applied with
    | const c => rfl
    | var v => rfl
    | shared empty a => exact (apply_of_isEmpty empty _).symm
    | takenOut a => exact s.toTerm_applyToArgs a
    | rebuilt f length each ih =>
      rw [apply_app]
      congr 1
      refine List.ext_getElem (by simp [length]) fun i bound' bound => ?_
      rw [List.getElem_map]
      exact ih i _ bound'
  · rintro rfl
    cases t with
    | const c => exact .const c
    | var v => exact .var v
    | app f args =>
      have outside := Applied.takenOut (s := s) ⟨f, args⟩
      rw [toTerm_applyToArgs] at outside
      exact outside

end

/-- A substitution does the same to the same thing wherever it is met. -/
structure WaysAgree (s : Substitution ν) : Prop where
  anyWay : ∀ t u, s.Applied t u ↔ u = s.apply t
  const : ∀ c, s.apply (.const c) = .const c
  var : ∀ v, s.apply (.var v) = s.image v
  app : ∀ a : Application ν, s.apply a.toTerm = (s.applyToArgs a).toTerm
  /-- At every depth a variable or an application becomes what it becomes alone. -/
  nested : ∀ t p,
    (∀ v, t.subtermAt p = .ok (.var v) → (s.apply t).subtermAt p = .ok (s.image v)) ∧
    ∀ a : Application ν, t.subtermAt p = .ok a.toTerm →
      (s.apply t).subtermAt p = .ok (s.applyToArgs a).toTerm
  /-- A symbol becomes what it becomes as a term, or fails as it does as a term. -/
  symbol : ∀ x : Symbol ν, (∀ t, x.toTerm = .ok t → s.applySymbol x = .ok (s.apply t)) ∧
    ∀ e, x.toTerm = .error e → s.applySymbol x = .error e
  func : ∀ f, s.applySymbol (.func f) = .error (.unsupportedOperand .useAsTerm f)
  /-- Without bindings a term is left as it is, and rebuilding all of it gives an equal one. -/
  withoutBindings : s.isEmpty = true → (∀ t : Term ν, s.apply t = t ∧ t.bind s.image = t) ∧
    ∀ a, s.applyToArgs a = a

/-- Every substitution, with or without bindings, can be applied in any way. -/
theorem ways_agree (s : Substitution ν) : s.WaysAgree := by
  constructor
  case anyWay => exact fun t u => s.applied_iff
  case const => exact fun c => rfl
  case var => exact fun v => rfl
  case app => exact fun a => (s.toTerm_applyToArgs a).symm
  case nested =>
    simp only [Term.subtermAt_eq_ok_iff, toTerm_applyToArgs, apply_eq_bind]
    exact fun t p => ⟨fun v found => Term.subterm?_bind s.image found,
      fun a found => Term.subterm?_bind s.image found⟩
  case symbol =>
    intro x
    refine ⟨fun t made => ?_, fun e failed => ?_⟩
    · rw [applySymbol, made]
      rfl
    · rw [applySymbol, failed]
      rfl
  case func => exact fun f => rfl
  case withoutBindings =>
    intro empty
    refine ⟨fun t => ⟨apply_of_isEmpty empty t, ?_⟩, applyToArgs_of_isEmpty empty⟩
    rw [← apply_eq_bind, apply_of_isEmpty empty]

/-- Without bindings, where an application is rebuilt whose argument is shared, and a function
symbol is no term. -/
theorem ways_agree_without_bindings :
    let x : Label := ⟨"x", none⟩
    let f : FunctionSymbol := ⟨"f", 1, by decide⟩
    let inside : Application Label := ⟨f, [.var x]⟩
    let t : Term Label := .app f [inside.toTerm]
    let s : Substitution Label := identity
    s.isEmpty = true ∧ s.Applied t t ∧ t = s.apply t ∧ t.bind s.image = t ∧
      t.subtermAt [0] = .ok inside.toTerm ∧
      (s.apply t).subtermAt [0] = .ok (s.applyToArgs inside).toTerm ∧
      (Symbol.func f : Symbol Label).toTerm = .error (.unsupportedOperand .useAsTerm f) ∧
      s.applySymbol (.func f) = .error (.unsupportedOperand .useAsTerm f) := by
  intro x f inside t s
  have agree := ways_agree s
  have mixed : s.Applied t t := by
    refine .rebuilt f rfl fun i bound _ => ?_
    obtain rfl : i = 0 := Nat.lt_one_iff.1 bound
    exact .shared rfl inside
  exact ⟨rfl, mixed, (agree.anyWay t t).1 mixed, ((agree.withoutBindings rfl).1 t).2, rfl,
    (agree.nested t [0]).2 inside rfl, rfl, (agree.symbol (.func f)).2 _ rfl⟩

end TermAlgebra.Substitution
