import TermAlgebra.Proofs.SessionSteps
/-!
The life of pools. In every session, whatever its steps are and whichever of them fail, a pool is
open as long as some register holds a handle to it; the instances it has issued, wherever they are
kept, are bound for that time and never again.
-/
namespace TermAlgebra.Session

/-- The session after some steps. A step that fails may have changed it too. -/
def after (s : Session) (steps : List Step) : Session :=
  steps.foldl (fun s step => ((perform step).run s).2) s

theorem after_append (s : Session) (steps more : List Step) :
    s.after (steps ++ more) = (s.after steps).after more :=
  List.foldl_append

/-- What comes later is answered by the session that the steps before have left. -/
theorem run_append (s : Session) (steps more : List Step) :
    s.run (steps ++ more) = s.run steps ++ (s.after steps).run more := by
  induction steps generalizing s with
  | nil => rfl
  | cons step rest ih =>
    show ((perform step).run s).1 :: ((perform step).run s).2.run (rest ++ more) = _
    rw [ih]
    rfl

/-- In one of the steps the pool of the given number has handed out the variable. -/
def IssuedIn (steps : List Step) (id : PoolId) (v : Variable) : Prop :=
  ∃ earlier step later, steps = earlier ++ step :: later ∧ Issues (start.after earlier) step id v

/-- The instances that can be met in a session: those made on their own, and those that pools have
issued. -/
def Known (steps : List Step) (v : Variable) : Prop :=
  v.origin.pool? = none ∨ ∃ id, IssuedIn steps id v

/-- Some register holds a handle to the pool. -/
def HasHandle (s : Session) (id : PoolId) : Prop :=
  ∃ register, s.registers.get? register = some (.pool id)

theorem IssuedIn.append {steps : List Step} {id : PoolId} {v : Variable}
    (issued : IssuedIn steps id v) (more : List Step) : IssuedIn (steps ++ more) id v := by
  obtain ⟨earlier, step, later, rfl, issues⟩ := issued
  exact ⟨earlier, step, later ++ more, by rw [List.append_assoc, List.cons_append], issues⟩

theorem Known.append {steps : List Step} {v : Variable} (known : Known steps v)
    (more : List Step) : Known (steps ++ more) v :=
  known.imp_right fun ⟨id, issued⟩ => ⟨id, issued.append more⟩

theorem sound_start (K : Variable → Prop) : start.Sound K where
  pools _ _ found := by cases found
  positive _ _ found := by cases found
  counted _ := rfl
  known := by
    rintro v ⟨register, slot, found, -⟩
    cases found

theorem changes_step {steps : List Step} (sound : (start.after steps).Sound (Known steps))
    (step : Step) : Changes (Known (steps ++ [step])) (start.after steps)
      (start.after (steps ++ [step])) := by
  have issued : ∀ id v, Issues (start.after steps) step id v → Known (steps ++ [step]) v :=
    fun id v issues => .inr ⟨id, steps, step, [], rfl, issues⟩
  rw [after_append]
  exact (does_perform step (fun v => .inl) issued (sound.mono fun v known => known.append _)).1

/-- Every session is sound, and the variables in its registers are instances known in it. -/
theorem sound_after (steps : List Step) : (start.after steps).Sound (Known steps) := by
  -- The steps already made are kept in the claim, since an instance may come from any of them.
  suffices ∀ earlier, (start.after earlier).Sound (Known earlier) →
      (start.after (earlier ++ steps)).Sound (Known (earlier ++ steps)) from
    this [] (sound_start _)
  induction steps with
  | nil =>
    intro earlier sound
    rw [List.append_nil]
    exact sound
  | cons step rest ih =>
    intro earlier sound
    rw [List.append_cons]
    exact ih _ ((changes_step sound step).sound (sound.mono fun v known => known.append _))

theorem later_after (steps more : List Step) :
    (start.after steps).Later (start.after (steps ++ more)) := by
  induction more generalizing steps with
  | nil =>
    rw [List.append_nil]
    exact .refl _
  | cons step rest ih =>
    rw [List.append_cons]
    exact (changes_step (sound_after steps) step).later.trans (ih (steps ++ [step]))

variable {steps : List Step} {id : PoolId} {v : Variable}

theorem IssuedIn.origin (issued : IssuedIn steps id v) : v.origin.pool? = some id := by
  obtain ⟨earlier, step, later, -, issues⟩ := issued
  exact issues.origin (sound_after earlier).pools

/-- A pool that has issued an instance has been opened. -/
theorem IssuedIn.opened (issued : IssuedIn steps id v) :
    id < (start.after steps).pools.opened := by
  obtain ⟨earlier, step, later, rfl, issues⟩ := issued
  exact Nat.lt_of_lt_of_le (issues.opened (sound_after earlier).pools)
    (later_after earlier (step :: later)).1

theorem poolOf?_of_issued (issued : IssuedIn steps id v) (r : Registry) :
    r.poolOf? v = r.find? id := by
  rw [Registry.poolOf?, issued.origin, Option.bind_some]

/-- An instance is known to have come from a pool exactly when the pool has issued it. -/
theorem Known.origin_iff (known : Known steps v) :
    v.origin.pool? = some id ↔ IssuedIn steps id v := by
  refine ⟨fun own => ?_, IssuedIn.origin⟩
  rcases known with free | ⟨other, issued⟩
  · cases free.symm.trans own
  · obtain rfl := Option.some.inj (issued.origin.symm.trans own)
    exact issued

/-- What is so of pools and their instances in a session that has made some steps. -/
structure LifeCycle (steps : List Step) (s : Session) : Prop where
  /-- The session is the one that answers what comes next. -/
  answers : ∀ more, start.run (steps ++ more) = start.run steps ++ s.run more
  /-- All instances in registers, in terms and substitutions too, are known. -/
  kept : ∀ v, s.registers.Hold v → Known steps v
  issuer : ∀ id id' v, IssuedIn steps id v → IssuedIn steps id' v → id = id'
  /-- Only handles in registers keep a pool open, and each of them counts. -/
  open_iff : ∀ id, (s.pools.find? id).isSome = true ↔ s.HasHandle id
  counted : ∀ id o, s.pools.pools.get? id = some o → o.handles = s.holders id
  bound_iff : ∀ v, Known steps v →
    (s.pools.isBound v = true ↔ ∃ id, IssuedIn steps id v ∧ s.HasHandle id)
  /-- A fresh variable for an instance is drawn from the pool that issued it and from no other. -/
  draws : ∀ id v, IssuedIn steps id v → ∀ p, s.pools.find? id = some p →
    s.pools.poolOf? v = some p ∧
    (s.pools.fresh v).1 = (p.getFresh v.label.name).1 ∧
    ∀ other, (s.pools.fresh v).2.find? other =
      if other = id then some (p.getFresh v.label.name).2 else s.pools.find? other
  /-- Every handle gives the same answer. -/
  issued_iff : ∀ register id, s.registers.get? register = some (.pool id) →
    ∃ p, s.pool? register = some p ∧
      ∀ v, Known steps v → (p.hasIssued v = true ↔ IssuedIn steps id v)
  /-- When no register holds a handle any more, that is the end of it. -/
  ended : ∀ id v, IssuedIn steps id v → ¬ s.HasHandle id → ∀ more,
    ¬ (s.after more).HasHandle id ∧ (s.after more).pools.isBound v = false ∧
    (s.after more).pools.fresh v = (.error (.notPoolBound v.label.text), (s.after more).pools) ∧
    (s.after more).pools.freshOfTerm (.var v) =
      (.error (.notPoolBound v.label.text), (s.after more).pools) ∧
    (s.after more).pools.freshOfSymbol (.var v) =
      (.error (.notPoolBound v.label.text), (s.after more).pools)

/-- Pools live as long as their handles, in every session. -/
theorem pool_life_cycle (steps : List Step) : LifeCycle steps (start.after steps) := by
  have sound := sound_after steps
  constructor
  case answers => exact run_append start steps
  case kept => exact sound.known
  case issuer =>
    intro id id' v issued issued'
    exact Option.some.inj (issued.origin.symm.trans issued'.origin)
  case open_iff => exact sound.isOpen_iff
  case counted =>
    intro id o held
    rw [← sound.counted, Registry.handles, held]
    rfl
  case bound_iff =>
    intro v known
    rw [Registry.isBound]
    constructor
    · intro bound
      obtain ⟨p, found⟩ := Option.isSome_iff_exists.1 bound
      obtain ⟨id, own, found⟩ := Option.bind_eq_some_iff.1 found
      refine ⟨id, known.origin_iff.1 own, (sound.isOpen_iff id).1 ?_⟩
      rw [found, Option.isSome_some]
    · rintro ⟨id, issued, handle⟩
      rw [poolOf?_of_issued issued]
      exact (sound.isOpen_iff id).2 handle
  case draws =>
    intro id v issued p found
    have bound : (start.after steps).pools.poolOf? v = some p := by
      rw [poolOf?_of_issued issued, found]
    obtain ⟨rfl, -, -⟩ := sound.pools id p found
    refine ⟨bound, by rw [Registry.fresh_of_bound bound], fun other => ?_⟩
    rw [Registry.find?_fresh bound found]
    simp only [eq_comm]
  case issued_iff =>
    intro register id held
    obtain ⟨p, found⟩ := Option.isSome_iff_exists.1 ((sound.isOpen_iff id).2 ⟨register, held⟩)
    refine ⟨p, by rw [pool?, held]; exact found, fun v known => ?_⟩
    rw [← known.origin_iff, Pool.hasIssued, (sound.pools id p found).1, beq_iff_eq]
  case ended =>
    intro id v issued none more
    rw [← after_append]
    have closed : (start.after steps).pools.find? id = .none := by
      rw [← Option.not_isSome_iff_eq_none, sound.isOpen_iff id]
      exact none
    have gone := (later_after steps more).2 id issued.opened closed
    have unbound : (start.after (steps ++ more)).pools.poolOf? v = .none := by
      rw [poolOf?_of_issued issued, gone]
    refine ⟨fun handle => ?_, ?_, Registry.fresh_of_unbound unbound,
      Registry.fresh_of_unbound unbound, Registry.fresh_of_unbound unbound⟩
    · have opened := ((sound_after (steps ++ more)).isOpen_iff id).2 handle
      rw [gone] at opened
      cases opened
    · rw [Registry.isBound, unbound]
      rfl

/-- A handle that was got from an issued instance keeps the pool open after the first handle was
dropped; the instance in a term does not. -/
theorem pool_life_cycle_two_handles :
    let x : Variable := ⟨⟨"x", none⟩, .issued 0 0⟩
    let steps : List Step := [.openPool none (some "p"), .get "p" "x" (some "x"),
      .poolOf (.ref "x") (some "q"), .drop "p", .term (.app "f" none [.ref "x"]) (some "t"),
      .freshOfVar (.ref "x") (some "y")]
    let last : Step := .drop "q"
    LifeCycle steps (start.after steps) ∧ IssuedIn steps 0 x ∧ (start.after steps).HasHandle 0 ∧
    (start.after steps).pools.isBound x = true ∧ ¬ (start.after (steps ++ [last])).HasHandle 0 ∧
    ∀ more, ((start.after (steps ++ [last])).after more).pools.isBound x = false := by
  intro x steps last
  have cycle := pool_life_cycle steps
  have cycle' := pool_life_cycle (steps ++ [last])
  have issued : IssuedIn steps 0 x :=
    ⟨[.openPool none (some "p")], .get "p" "x" (some "x"), _, rfl, .get (p := .create 0 {}) rfl⟩
  have handle : (start.after steps).HasHandle 0 := ⟨"q", rfl⟩
  have closed : ((start.after (steps ++ [last])).pools.find? 0).isSome = false := by decide
  have none : ¬ (start.after (steps ++ [last])).HasHandle 0 := fun held =>
    Bool.eq_false_iff.1 closed ((cycle'.open_iff 0).2 held)
  exact ⟨cycle, issued, handle, (cycle.bound_iff x (.inr ⟨0, issued⟩)).2 ⟨0, issued, handle⟩, none,
    fun more => (cycle'.ended 0 x (issued.append [last]) none more).2.1⟩

end TermAlgebra.Session
