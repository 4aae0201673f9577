import TermAlgebra.Proofs.FreshIndices
import TermAlgebra.Proofs.HandleCounts
import TermAlgebra.Proofs.VariableSet
/-!
The steps of sessions. `Issues` says which variables pools hand out in a step, and
`does_perform` that every step is made up of the changes a session can undergo, in which only
variables come to stand in registers that stood there before, were handed out in the step or belong
to no pool. It is proved along the parts of which steps are put together, with one rule for each
(`Act.Does`).
-/
namespace TermAlgebra

namespace Pool

variable {p : Pool} {name : String} {v : Variable}

theorem mention_continues (p : Pool) (name : String) : p.Continues (p.mention name).2 :=
  (p.mention_spec name).1

theorem getIndexed_continues (p : Pool) (name : String) (index : UInt64) :
    p.Continues (p.getIndexed name index).2 :=
  (p.getIndexed_effect name index false nofun).continues

theorem getFresh_continues (p : Pool) (name : String) : p.Continues (p.getFresh name).2 :=
  (p.getFresh_effect name).continues

theorem drawIndices_continues (p : Pool) (name : String) (count : Nat) :
    p.Continues (p.drawIndices name count).2 := by
  induction count generalizing p with
  | zero => exact .refl p
  | succ n ih => exact (p.getFresh_continues name).trans (ih _)

theorem origin_get (kept : p.CanonicalKept) (name : String) :
    (p.get name).1.origin.pool? = some p.id := by
  obtain ⟨continues, held, -⟩ := p.mention_spec name
  rw [← continues.id]
  exact (continues.canonical kept name _ held).2

theorem origin_getIndexed (p : Pool) (name : String) (index : UInt64) :
    (p.getIndexed name index).1.origin.pool? = some p.id := by
  obtain ⟨serial, drawn⟩ := p.getIndexed_fst name index
  rw [drawn]
  rfl

theorem origin_getFresh (drawn : (p.getFresh name).1 = .ok v) : v.origin.pool? = some p.id := by
  cases next : (p.counter name).next with
  | none =>
    rw [getFresh_of_exhausted next] at drawn
    cases drawn
  | some index =>
    obtain ⟨serial, given⟩ := getFresh_fst_of_next next
    rw [given] at drawn
    obtain rfl := Except.ok.inj drawn
    rfl

/-- Fresh variables of a name are drawn from a pool several times, and `v` is one of them. -/
inductive Draws : Pool → String → Nat → Variable → Prop where
  | here {p : Pool} {name : String} {count : Nat} {v : Variable}
      (drawn : (p.getFresh name).1 = .ok v) : Draws p name (count + 1) v
  | later {p : Pool} {name : String} {count : Nat} {v : Variable}
      (rest : Draws (p.getFresh name).2 name count v) : Draws p name (count + 1) v

theorem Draws.origin {count : Nat} (draws : p.Draws name count v) :
    v.origin.pool? = some p.id := by
  induction draws with
  | here drawn => exact origin_getFresh drawn
  | later rest ih => rw [ih, (getFresh_continues _ _).id]

end Pool

namespace Registry

variable {r : Registry} {v : Variable}

/-- Fresh variables are drawn for some variables, one after another, and `w` is one of them, drawn
from the pool of the given number. -/
inductive Draws : Registry → List Variable → PoolId → Variable → Prop where
  | here {r : Registry} {v w : Variable} {vs : List Variable} {p : Pool}
      (bound : r.poolOf? v = some p) (drawn : (p.getFresh v.label.name).1 = .ok w) :
      Draws r (v :: vs) p.id w
  | later {r : Registry} {u v w : Variable} {vs : List Variable} {id : PoolId}
      (drawn : (r.fresh v).1 = .ok u) (rest : Draws (r.fresh v).2 vs id w) : Draws r (v :: vs) id w

theorem Draws.origin {vs : List Variable} {id : PoolId} {w : Variable} (draws : r.Draws vs id w) :
    w.origin.pool? = some id := by
  induction draws with
  | here bound drawn => exact Pool.origin_getFresh drawn
  | later drawn rest ih => exact ih

theorem find?_of_poolOf? (sound : r.Sound) {p : Pool} (bound : r.poolOf? v = some p) :
    r.find? p.id = some p := by
  obtain ⟨id, -, found⟩ := Option.bind_eq_some_iff.1 bound
  rw [(sound id p found).1, found]

theorem fresh_continues (sound : r.Sound) (v : Variable) : r.Continues (r.fresh v).2 := by
  cases bound : r.poolOf? v with
  | none =>
    rw [fresh_of_unbound bound]
    exact .refl r
  | some p =>
    rw [fresh_of_bound bound]
    exact .update (find?_of_poolOf? sound bound) (p.getFresh_continues v.label.name)

theorem draws_of_fresh {w : Variable} (drawn : (r.fresh v).1 = .ok w) : ∃ id, r.Draws [v] id w := by
  cases bound : r.poolOf? v with
  | none =>
    rw [fresh_of_unbound bound] at drawn
    cases drawn
  | some p =>
    rw [fresh_of_bound bound] at drawn
    exact ⟨p.id, .here bound drawn⟩

theorem freshOfTerm_continues (sound : r.Sound) (t : Term Variable) :
    r.Continues (r.freshOfTerm t).2 := by
  cases t with
  | var v => exact fresh_continues sound v
  | const c => exact .refl r
  | app f args => exact .refl r

theorem draws_of_freshOfTerm {t : Term Variable} {w : Variable}
    (drawn : (r.freshOfTerm t).1 = .ok w) : ∃ v id, t = .var v ∧ r.Draws [v] id w := by
  cases t with
  | var v =>
    obtain ⟨id, draws⟩ := draws_of_fresh drawn
    exact ⟨v, id, rfl, draws⟩
  | const c => cases drawn
  | app f args => cases drawn

theorem freshOfSymbol_continues (sound : r.Sound) (x : Symbol Variable) :
    r.Continues (r.freshOfSymbol x).2 := by
  cases x with
  | var v => exact fresh_continues sound v
  | const c => exact .refl r
  | func f => exact .refl r

theorem draws_of_freshOfSymbol {x : Symbol Variable} {w : Variable}
    (drawn : (r.freshOfSymbol x).1 = .ok w) : ∃ v id, x = .var v ∧ r.Draws [v] id w := by
  cases x with
  | var v =>
    obtain ⟨id, draws⟩ := draws_of_fresh drawn
    exact ⟨v, id, rfl, draws⟩
  | const c => cases drawn
  | func f => cases drawn

theorem Draws.cons {vs : List Variable} {id : PoolId} {w : Variable} (draws : r.Draws [v] id w) :
    r.Draws (v :: vs) id w := by
  cases draws with
  | here bound drawn => exact .here bound drawn
  | later drawn rest => cases rest

/-- A pool that a variable is drawn from is open. -/
theorem Draws.opened {vs : List Variable} {id : PoolId} {w : Variable} (draws : r.Draws vs id w)
    (sound : r.Sound) : id < r.opened := by
  induction draws with
  | here bound drawn => exact (sound _ _ (find?_of_poolOf? sound bound)).2.1
  | @later r u v w vs id drawn rest ih =>
    have continues := fresh_continues sound v
    exact continues.opened ▸ ih (continues.sound sound)

theorem freshAll_continues (sound : r.Sound) (vs : List Variable) :
    r.Continues (r.freshAll vs).2 := by
  induction vs generalizing r with
  | nil => exact .refl r
  | cons v vs ih =>
    have first := fresh_continues sound v
    rw [freshAll]
    split
    · rename_i e q drawn
      rw [drawn] at first
      exact first
    · rename_i w q drawn
      rw [drawn] at first
      exact first.trans (ih (first.sound sound))

theorem draws_of_freshAll {vs ws : List Variable} (drawn : (r.freshAll vs).1 = .ok ws) :
    ∀ w ∈ ws, ∃ id, r.Draws vs id w := by
  induction vs generalizing r ws with
  | nil =>
    obtain rfl := Except.ok.inj drawn
    exact fun w member => by cases member
  | cons v vs ih =>
    rw [freshAll] at drawn
    split at drawn
    · cases drawn
    · rename_i u q first
      cases rest : (q.freshAll vs).1 with
      | error e =>
        simp only [rest] at drawn
        cases drawn
      | ok us =>
        simp only [rest] at drawn
        obtain rfl := Except.ok.inj drawn
        have first' : (r.fresh v).1 = .ok u := by rw [first]
        intro w member
        rcases List.mem_cons.1 member with rfl | later
        · obtain ⟨id, draws⟩ := draws_of_fresh first'
          exact ⟨id, draws.cons⟩
        · obtain ⟨id, draws⟩ := ih rest w later
          exact ⟨id, .later first' (by rw [first]; exact draws)⟩

end Registry

namespace Session

/-- The open pool to which a register holds a handle. -/
def pool? (s : Session) (register : String) : Option Pool :=
  match s.registers.get? register with
  | some (.pool id) => s.pools.find? id
  | some (.var _) | some (.term _) | some (.subst _) | none => none

/-- What an expression builds. -/
def built {α : Type} (s : Session) (b : Build α) : Except Error α :=
  ((b.run s.registers).run s.made).map (·.1)

/-- In a step, the pool of the given number hands out the variable. -/
inductive Issues (s : Session) : Step → PoolId → Variable → Prop where
  | get {pool name : String} {into : Option String} {p : Pool} (handle : s.pool? pool = some p) :
      Issues s (.get pool name into) p.id (p.get name).1
  | getIndexed {pool name : String} {index : UInt64} {into : Option String} {p : Pool}
      (handle : s.pool? pool = some p) :
      Issues s (.getIndexed pool name index into) p.id (p.getIndexed name index).1
  | getFresh {pool name : String} {into : Option String} {p : Pool} {v : Variable}
      (handle : s.pool? pool = some p) (drawn : (p.getFresh name).1 = .ok v) :
      Issues s (.getFresh pool name into) p.id v
  | freshOfPool {pool : String} {into : Option String} {p : Pool} {v : Variable}
      (handle : s.pool? pool = some p) (drawn : p.getAnonymous.1 = .ok v) :
      Issues s (.freshOfPool pool into) p.id v
  | draw {pool name : String} {count : Nat} {p : Pool} {v : Variable}
      (handle : s.pool? pool = some p) (draws : p.Draws name count v) :
      Issues s (.draw pool name count) p.id v
  | freshOfVar {e : VarExpr} {into : Option String} {v w : Variable} {id : PoolId}
      (given : s.built e.build = .ok v) (draws : s.pools.Draws [v] id w) :
      Issues s (.freshOfVar e into) id w
  | freshOfTerm {e : TermExpr} {into : Option String} {v w : Variable} {id : PoolId}
      (given : s.built e.build = .ok (.var v)) (draws : s.pools.Draws [v] id w) :
      Issues s (.freshOfTerm e into) id w
  | freshOfSymbol {e : SymbolExpr} {into : Option String} {v w : Variable} {id : PoolId}
      (given : s.built e.build = .ok (.var v)) (draws : s.pools.Draws [v] id w) :
      Issues s (.freshOfSymbol e into) id w
  | renameApart {e : TermExpr} {into : Option String} {t : Term Variable} {w : Variable}
      {id : PoolId} (given : s.built e.build = .ok t) (draws : s.pools.Draws t.variableSet id w) :
      Issues s (.renameApart e into) id w

variable {s : Session} {K : Variable → Prop}

theorem find?_of_pool? (sound : s.pools.Sound) {register : String} {p : Pool}
    (handle : s.pool? register = some p) : s.pools.find? p.id = some p := by
  unfold pool? at handle
  split at handle
  · rename_i id held
    rw [(sound id p handle).1, handle]
  all_goals cases handle

/-- A variable that a step issues comes from the pool that is said to issue it. -/
theorem Issues.origin (sound : s.pools.Sound) {step : Step} {id : PoolId} {v : Variable}
    (issues : Issues s step id v) : v.origin.pool? = some id := by
  cases issues with
  | @get pool name into p handle =>
    exact Pool.origin_get (sound p.id p (find?_of_pool? sound handle)).2.2 name
  | getIndexed handle => exact Pool.origin_getIndexed _ _ _
  | getFresh handle drawn => exact Pool.origin_getFresh drawn
  | freshOfPool handle drawn => exact Pool.origin_getFresh drawn
  | draw handle draws => exact draws.origin
  | freshOfVar given draws => exact draws.origin
  | freshOfTerm given draws => exact draws.origin
  | freshOfSymbol given draws => exact draws.origin
  | renameApart given draws => exact draws.origin

theorem Issues.opened (sound : s.pools.Sound) {step : Step} {id : PoolId} {v : Variable}
    (issues : Issues s step id v) : id < s.pools.opened := by
  have opened : ∀ {register p}, s.pool? register = some p → p.id < s.pools.opened :=
    fun handle => (sound _ _ (find?_of_pool? sound handle)).2.1
  cases issues with
  | get handle => exact opened handle
  | getIndexed handle => exact opened handle
  | getFresh handle drawn => exact opened handle
  | freshOfPool handle drawn => exact opened handle
  | draw handle draws => exact opened handle
  | freshOfVar given draws => exact draws.opened sound
  | freshOfTerm given draws => exact draws.opened sound
  | freshOfSymbol given draws => exact draws.opened sound
  | renameApart given draws => exact draws.opened sound

/-! ## Parts of steps -/

namespace Act

variable {α β : Type}

/-- From a sound session a computation changes it as sessions can change, and what it gives, if it
gives anything, fits the session it leaves. -/
def Does (K : Variable → Prop) (m : Act α) (s : Session) (P : α → Session → Prop) : Prop :=
  s.Sound K → Changes K s (m.run s).2 ∧ ∀ a, (m.run s).1 = .ok a → P a (m.run s).2

theorem run_bind (m : Act α) (f : α → Act β) (s : Session) :
    (m >>= f).run s = match m.run s with
      | (.ok a, s') => (f a).run s'
      | (.error e, s') => (.error e, s') := by
  change (match m.run s with | (a, s') => ExceptT.bindCont f a s') = _
  rcases m.run s with ⟨_ | a, s'⟩ <;> rfl

variable {P : α → Session → Prop} {Q : β → Session → Prop}

theorem Does.pure {a : α} (fits : P a s) : Does K (Pure.pure a) s P := fun _ =>
  ⟨.refl, fun b given => by
    obtain rfl := Except.ok.inj given
    exact fits⟩

theorem Does.throw (e : Error) : Does K (throw e : Act α) s P :=
  fun _ => ⟨.refl, fun a given => by cases given⟩

theorem Does.bind {m : Act α} {f : α → Act β} (first : Does K m s P)
    (rest : ∀ a s', P a s' → Does K (f a) s' Q) : Does K (m >>= f) s Q := by
  intro sound
  obtain ⟨changes, fits⟩ := first sound
  rw [run_bind]
  generalize m.run s = outcome at changes fits
  obtain ⟨_ | a, s'⟩ := outcome
  · exact ⟨changes, fun b given => by cases given⟩
  · obtain ⟨more, fits'⟩ := rest a s' (fits a rfl) (changes.sound sound)
    exact ⟨changes.trans more, fits'⟩

/-- What is done with the result at the end may be left out of account. -/
theorem Does.done {m : Act α} {f : α → β} (does : Does K m s P) :
    Does K (m >>= fun a => Pure.pure (f a)) s fun _ _ => True :=
  does.bind fun _ _ _ => .pure trivial

theorem Does.imp {m : Act α} {R : α → Session → Prop} (does : Does K m s P)
    (weaker : ∀ a s', P a s' → R a s') : Does K m s R := fun sound =>
  ⟨(does sound).1, fun a given => weaker a _ ((does sound).2 a given)⟩

/-- The soundness of the session is at hand for what it does. -/
theorem Does.of_sound {m : Act α} (does : s.Sound K → Does K m s P) : Does K m s P :=
  fun sound => does sound sound

theorem does_get : Does K get s fun a s' => a = s ∧ s' = s := fun _ =>
  ⟨.refl, fun a given => by
    obtain rfl := Except.ok.inj given
    exact ⟨rfl, rfl⟩⟩

theorem does_set {s' : Session} (change : Change K s s') :
    Does K (set s' : Act PUnit) s fun _ s₂ => s₂ = s' :=
  fun _ => ⟨.single change, fun _ _ => rfl⟩

theorem does_ofResult (result : Except TermError α) :
    Does K (ofResult result) s fun a s' => result = .ok a ∧ s' = s := by
  cases result with
  | error e => exact .throw _
  | ok a => exact .pure ⟨rfl, rfl⟩

theorem does_ofRead (read : Read α) : Does K (ofRead read) s fun _ s' => s' = s := by
  cases read with
  | error e => exact .throw _
  | ok a => exact .pure rfl

/-- What is built fits the expression, and only the number of instances changes. -/
theorem does_build {b : Build α} {R : α → Prop} (gives : b.Gives s.registers R) :
    Does K (build b) s fun a s' => R a ∧ s.built b = .ok a ∧
      s'.registers = s.registers ∧ s'.pools = s.pools := by
  refine does_get.bind ?_
  rintro _ s ⟨rfl, rfl⟩
  cases given : (b.run s.registers).run s.made with
  | error e => exact .throw e
  | ok result =>
    obtain ⟨a, made⟩ := result
    refine (does_set (.makes made)).bind ?_
    rintro _ _ rfl
    refine .pure ⟨gives s.made a made given, ?_, rfl, rfl⟩
    rw [built, given]
    rfl

/-- Asking for the pool behind a register changes nothing. -/
theorem does_pool (register : String) : Does K (pool register) s fun p s' =>
    s' = s ∧ s.pool? register = some p ∧ s.pools.find? p.id = some p := by
  refine .of_sound fun sound => does_get.bind ?_
  rintro _ s ⟨rfl, rfl⟩
  have handle : ∀ p, s.pool? register = some p → s.pools.find? p.id = some p :=
    fun p => find?_of_pool? sound.pools
  unfold pool? at handle ⊢
  split
  · rename_i id held
    split
    · rename_i p found
      simp only [held, found] at handle ⊢
      exact .pure ⟨rfl, rfl, handle p rfl⟩
    · exact .throw _
  · exact .throw _

theorem does_update {p q : Pool} (found : s.pools.find? p.id = some p) (continues : p.Continues q) :
    Does K (update q) s fun _ _ => True :=
  fun _ => ⟨.single (.asks (.update found continues)), fun _ _ => trivial⟩

theorem does_withPools {f : Registry → Except TermError α × Registry}
    (continues : s.pools.Continues (f s.pools).2) :
    Does K (withPools f) s fun a _ => (f s.pools).1 = .ok a := by
  refine does_get.bind ?_
  rintro _ s ⟨rfl, rfl⟩
  refine (does_set (.asks continues)).bind ?_
  rintro _ _ rfl
  exact (does_ofResult _).imp fun _ _ ⟨given, _⟩ => given

theorem does_keep (into : Option String) {slot : Slot} (plain : ∀ id, slot ≠ .pool id)
    (known : ∀ v ∈ slot.vars, K v) : Does K (keep into slot) s fun _ _ => True := by
  cases into with
  | none => exact .pure trivial
  | some register => exact fun _ => ⟨.single (.keeps register plain known), fun _ _ => trivial⟩

theorem does_keepHandle (into : Option String) {id : PoolId} {p : Pool}
    (found : s.pools.find? id = some p) : Does K (keepHandle into id) s fun _ _ => True := by
  cases into with
  | none => exact .pure trivial
  | some register => exact fun _ => ⟨.single (.shares register found), fun _ _ => trivial⟩

theorem does_view (v : Variable) : Does K (view v) s fun _ s' => s' = s := by
  refine does_get.bind ?_
  rintro _ s ⟨rfl, rfl⟩
  exact .pure rfl

theorem does_views (vs : List Variable) : Does K (vs.mapM view) s fun _ s' => s' = s := by
  induction vs generalizing s with
  | nil => exact .pure rfl
  | cons v vs ih =>
    rw [List.mapM_cons]
    refine (does_view v).bind ?_
    rintro _ s rfl
    refine ih.bind ?_
    rintro _ s rfl
    exact .pure rfl

theorem does_answerVar {v : Variable} (known : K v) (into : Option String) :
    Does K (answerVar v into) s fun _ _ => True := by
  refine (does_view v).bind ?_
  rintro _ s rfl
  have kept : Does K (keep into (.var v)) s fun _ _ => True :=
    does_keep into (fun _ => nofun) fun w inside => List.mem_singleton.1 inside ▸ known
  exact kept.done

/-- A pool hands out a variable and goes on. -/
theorem does_handOut {p q : Pool} {v : Variable} (found : s.pools.find? p.id = some p)
    (continues : p.Continues q) (known : K v) (into : Option String) :
    Does K (do
      update q
      answerVar v into) s fun _ _ => True :=
  (does_update found continues).bind fun _ _ _ => does_answerVar known into

/-- A pool goes on from a draw, and hands out a variable if the draw has given one. -/
theorem does_drawOne {p q : Pool} {drawn : Except TermError Variable}
    (found : s.pools.find? p.id = some p) (continues : p.Continues q)
    (known : ∀ v, drawn = .ok v → K v) (into : Option String) :
    Does K (do
      update q
      answerVar (← ofResult drawn) into) s fun _ _ => True := by
  refine (does_update found continues).bind fun _ _ _ => (does_ofResult drawn).bind ?_
  rintro v _ ⟨given, -⟩
  exact does_answerVar (known v given) into

theorem does_answerTerm {t : Term Variable} (known : ∀ v ∈ t.occurrences, K v)
    (into : Option String) : Does K (answerTerm t into) s fun _ _ => True := by
  have kept : Does K (keep into (.term t)) s fun _ _ => True :=
    does_keep into (fun _ => nofun) known
  exact kept.done

theorem does_answerSubst {σ : Substitution Variable} (known : ∀ v ∈ σ.vars, K v)
    (into : Option String) : Does K (answerSubst σ into) s fun _ _ => True := by
  have kept : Does K (keep into (.subst σ)) s fun _ _ => True :=
    does_keep into (fun _ => nofun) known
  exact kept.done

theorem does_symbol (e : SymbolExpr) : Does K (build e.build) s fun x s' =>
    s.built e.build = .ok x ∧ s'.pools = s.pools :=
  (does_build e.gives).imp fun _ _ ⟨_, given, _, pools⟩ => ⟨given, pools⟩

section
variable (free : ∀ v, v.origin.pool? = none → K v)
include free

theorem known_of_offers (sound : s.Sound K) {v : Variable} (offered : s.registers.Offers v) : K v :=
  offered.elim (free v) (sound.known v)

theorem does_var (e : VarExpr) : Does K (build e.build) s fun v s' =>
    K v ∧ s.built e.build = .ok v ∧ s'.pools = s.pools :=
  .of_sound fun sound => (does_build e.gives).imp fun _ _ ⟨offered, given, _, pools⟩ =>
    ⟨known_of_offers free sound offered, given, pools⟩

theorem does_term (e : TermExpr) : Does K (build e.build) s fun t s' =>
    (∀ v ∈ t.occurrences, K v) ∧ s.built e.build = .ok t ∧ s'.pools = s.pools :=
  .of_sound fun sound => (does_build e.gives).imp fun _ _ ⟨offered, given, _, pools⟩ =>
    ⟨fun v occurs => known_of_offers free sound (offered v occurs), given, pools⟩

theorem does_subst (e : SubstExpr) : Does K (build e.build) s fun σ _ => ∀ v ∈ σ.vars, K v :=
  .of_sound fun sound => (does_build e.gives).imp fun _ _ ⟨offered, _⟩ v inside =>
    known_of_offers free sound (offered v inside)

end

end Act

/-! ## Steps -/

open Act

/-- What renaming puts into a term are variables of that term and variables drawn for them. -/
theorem known_of_renameApart {r : Registry} {t : Term Variable} {σ : Substitution Variable}
    (known : ∀ v ∈ t.occurrences, K v) (issued : ∀ id w, r.Draws t.variableSet id w → K w)
    (renamed : (r.renameApart t).1 = .ok σ) : ∀ v ∈ σ.vars, K v := by
  intro v inside
  rw [Registry.renameApart] at renamed
  cases drawn : (r.freshAll t.variableSet).1 with
  | error e =>
    simp only [drawn] at renamed
    cases renamed
  | ok ws =>
    simp only [drawn] at renamed
    obtain rfl := Except.ok.inj renamed
    obtain ⟨b, member, here⟩ := Substitution.mem_vars_ofList inside
    obtain ⟨old, new⟩ := List.of_mem_zip member
    rcases here with rfl | occurs
    · exact known _ ((Term.variableSet_sublist t).mem old)
    · obtain ⟨w, given, same⟩ := List.mem_map.1 new
      rw [← same, Term.occurrences_var, List.mem_singleton] at occurs
      obtain ⟨id, draws⟩ := Registry.draws_of_freshAll drawn w given
      exact occurs ▸ issued id w draws

/-- A configuration is given or read first; a pool is opened only when there is one. -/
theorem does_openPool {m : Act Pool.Config} {opening : Pool.Config → Session → Session}
    (reads : Does K m s fun _ s' => s' = s)
    (opens : ∀ config, Change K s (opening config s)) :
    Does K (do
      let config ← m
      let s ← get
      set (opening config s)
      pure (.config config)) s fun (_ : Answer) _ => True := by
  refine reads.bind ?_
  rintro config s rfl
  refine does_get.bind ?_
  rintro _ s ⟨rfl, rfl⟩
  exact (does_set (opens config)).done

/-- Every step is made up of changes that sessions can undergo, as long as variables of no pool and
those that the step issues are of the kind that registers may hold. -/
theorem does_perform (step : Step) (free : ∀ v, v.origin.pool? = none → K v)
    (issued : ∀ id v, Issues s step id v → K v) : Does K (perform step) s fun _ _ => True := by
  cases step with
  | openPool config into =>
    cases config with
    | none =>
      cases into with
      | none => exact does_openPool (.pure rfl) fun config => .opensUnkept config
      | some register => exact does_openPool (.pure rfl) fun config => .opens register config
    | some j =>
      cases into with
      | none => exact does_openPool (does_ofRead _) fun config => .opensUnkept config
      | some register => exact does_openPool (does_ofRead _) fun config => .opens register config
  | handle pool into =>
    refine (does_pool pool).bind ?_
    rintro p s ⟨rfl, -, found⟩
    exact (does_keepHandle into found).done
  | drop register =>
    refine does_get.bind ?_
    rintro _ s ⟨rfl, rfl⟩
    exact (does_set (.drops register)).done
  | get pool name into =>
    refine (does_pool pool).bind ?_
    rintro p s ⟨rfl, handle, found⟩
    exact does_handOut found (p.mention_continues name) (issued _ _ (.get handle)) into
  | getIndexed pool name index into =>
    refine (does_pool pool).bind ?_
    rintro p s ⟨rfl, handle, found⟩
    exact does_handOut found (p.getIndexed_continues name index) (issued _ _ (.getIndexed handle))
      into
  | getFresh pool name into =>
    refine (does_pool pool).bind ?_
    rintro p s ⟨rfl, handle, found⟩
    exact does_drawOne found (p.getFresh_continues name)
      (fun v drawn => issued _ _ (.getFresh handle drawn)) into
  | nextIndex pool name =>
    refine (does_pool pool).bind ?_
    rintro p s ⟨rfl, -, found⟩
    exact (does_update found (p.mention_continues name)).done
  | issuedBy pool v =>
    exact (does_pool pool).bind fun _ _ _ => (does_var free v).done
  | describePool pool => exact (does_pool pool).done
  | describeVar v => exact (does_var free v).done
  | freshOfPool pool into =>
    refine (does_pool pool).bind ?_
    rintro p s ⟨rfl, handle, found⟩
    exact does_drawOne found (p.getFresh_continues p.config.anonymousName)
      (fun v drawn => issued _ _ (.freshOfPool handle drawn)) into
  | freshOfVar e into =>
    refine (does_var free e).bind ?_
    rintro v s' ⟨-, given, pools⟩
    refine .of_sound fun sound' => ?_
    refine (does_withPools (Registry.fresh_continues sound'.pools v)).bind fun w _ drawn => ?_
    -- Building has left the pools alone, so this is a draw that the step issues from `s`.
    rw [pools] at drawn
    obtain ⟨id, draws⟩ := Registry.draws_of_fresh drawn
    exact does_answerVar (issued _ _ (.freshOfVar given draws)) into
  | freshOfTerm e into =>
    refine (does_term free e).bind ?_
    rintro t s' ⟨-, given, pools⟩
    refine .of_sound fun sound' => ?_
    refine (does_withPools (Registry.freshOfTerm_continues sound'.pools t)).bind fun w _ drawn => ?_
    rw [pools] at drawn
    obtain ⟨v, id, rfl, draws⟩ := Registry.draws_of_freshOfTerm drawn
    exact does_answerVar (issued _ _ (.freshOfTerm given draws)) into
  | freshOfSymbol e into =>
    refine (does_symbol e).bind ?_
    rintro x s' ⟨given, pools⟩
    refine .of_sound fun sound' => ?_
    refine (does_withPools (Registry.freshOfSymbol_continues sound'.pools x)).bind
      fun w _ drawn => ?_
    rw [pools] at drawn
    obtain ⟨v, id, rfl, draws⟩ := Registry.draws_of_freshOfSymbol drawn
    exact does_answerVar (issued _ _ (.freshOfSymbol given draws)) into
  | draw pool name count =>
    refine (does_pool pool).bind ?_
    rintro p s ⟨rfl, -, found⟩
    exact (does_update found (p.drawIndices_continues name count)).done
  | var e into =>
    refine (does_var free e).bind ?_
    rintro v _ ⟨known, -⟩
    exact does_answerVar known into
  | poolOf e into =>
    refine (does_var free e).bind fun v s' _ => ?_
    refine .of_sound fun sound' => does_get.bind ?_
    rintro _ s' ⟨rfl, rfl⟩
    split
    · exact .pure trivial
    · rename_i p bound
      exact (does_keepHandle into (Registry.find?_of_poolOf? sound'.pools bound)).done
  | same a b =>
    exact (does_var free a).bind fun _ _ _ => (does_var free b).done
  | compare a b =>
    exact (does_var free a).bind fun _ _ _ => (does_var free b).done
  | reread e into =>
    refine (does_var free e).bind fun v _ _ => ?_
    refine (does_ofRead _).bind ?_
    rintro l s' rfl
    refine .of_sound fun sound' => ?_
    refine (does_build (Build.gives_instantiate l)).bind ?_
    rintro w _ ⟨offered, -⟩
    exact does_answerVar (known_of_offers free sound' offered) into
  | term e into =>
    refine (does_term free e).bind ?_
    rintro t _ ⟨known, -⟩
    exact does_answerTerm known into
  | subterm e position into =>
    refine (does_term free e).bind ?_
    rintro t _ ⟨known, -⟩
    refine (does_ofResult _).bind ?_
    rintro u _ ⟨found, -⟩
    exact does_answerTerm (fun v occurs => known v
      (Term.mem_occurrences_subterm? (Term.subtermAt_eq_ok_iff.1 found) occurs)) into
  | replace e position replacement into =>
    refine (does_term free e).bind ?_
    rintro t _ ⟨known, -⟩
    refine (does_term free replacement).bind ?_
    rintro r _ ⟨known', -⟩
    refine (does_ofResult _).bind ?_
    rintro u _ ⟨done, -⟩
    exact does_answerTerm (fun v occurs =>
      (Term.mem_occurrences_replace? (Term.replaceAt_eq_ok_iff.1 done) occurs).elim (known v)
        (known' v)) into
  | subst e into => exact (does_subst free e).bind fun σ _ known => does_answerSubst known into
  | apply e t into =>
    refine (does_subst free e).bind fun σ _ known => ?_
    refine (does_term free t).bind ?_
    rintro t _ ⟨known', -⟩
    exact does_answerTerm (fun v occurs =>
      (Substitution.mem_occurrences_apply occurs).elim (known' v) (known v)) into
  | compose outer inner into =>
    refine (does_subst free outer).bind fun σ _ known => ?_
    refine (does_subst free inner).bind fun τ _ known' => ?_
    exact does_answerSubst (fun v inside =>
      (Substitution.mem_vars_compose inside).elim (known v) (known' v)) into
  | occurrences e =>
    exact (does_term free e).bind fun t _ _ => (does_views _).done
  | domain e =>
    exact (does_subst free e).bind fun σ _ _ => (does_views _).done
  | renameApart e into =>
    refine (does_term free e).bind ?_
    rintro t s' ⟨known, given, pools⟩
    refine .of_sound fun sound' => ?_
    have continues := Registry.freshAll_continues sound'.pools t.variableSet
    refine (does_withPools continues).bind fun σ s₂ renamed => ?_
    rw [pools] at renamed
    have drawn := known_of_renameApart known
      (fun id w draws => issued id w (.renameApart given draws)) renamed
    have kept : Does K (keep into (.term (σ.apply t))) s₂ fun _ _ => True :=
      does_keep into (fun _ => nofun) fun v occurs =>
        (Substitution.mem_occurrences_apply occurs).elim (known v) (drawn v)
    exact kept.done

end Session

end TermAlgebra
