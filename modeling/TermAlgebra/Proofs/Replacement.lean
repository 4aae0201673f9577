import TermAlgebra.Proofs.SubtermLookup
/-!
Replacing a subterm, against looking subterms up. Below the root a replacement is one inside a
single argument (`replace?_cons_eq_some`). By induction along the path it succeeds where there is
something to replace, and what is then found at another position depends on how that one lies to the
place of the replacement: at or below it, apart from it, or above it (`Replaced`).
-/
namespace TermAlgebra.Term

variable {ν : Type}

theorem replace?_nil (t r : Term ν) : t.replace? [] r = some r := by
  cases t <;> rfl

theorem replace?_app_cons (f : FunctionSymbol) (args : List (Term ν)) (i : Nat) (p : Position)
    (r : Term ν) :
    (app f args).replace? (i :: p) r =
      args[i]?.bind fun u => (u.replace? p r).map fun u' => app f (args.set i u') := by
  rw [replace?]
  cases args[i]? <;> rfl

/-- A replacement below the root leaves an application of the same symbol, in which one argument has
changed. -/
theorem replace?_cons_eq_some {t r t' : Term ν} {i : Nat} {p : Position}
    (done : t.replace? (i :: p) r = some t') :
    ∃ f args u u', t = app f args ∧ args[i]? = some u ∧ u.replace? p r = some u' ∧
      t' = app f (args.set i u') := by
  cases t with
  | const c => cases done
  | var v => cases done
  | app f args =>
    rw [replace?_app_cons, Option.bind_eq_some_iff] at done
    obtain ⟨u, held, done⟩ := done
    obtain ⟨u', inside, rfl⟩ := Option.map_eq_some_iff.1 done
    exact ⟨f, args, u, u', rfl, held, inside, rfl⟩

/-- There is something to replace exactly where there is something to find. -/
theorem isSome_replace? (t : Term ν) (p : Position) (r : Term ν) :
    (t.replace? p r).isSome = (t.subterm? p).isSome := by
  induction p generalizing t with
  | nil => rw [replace?_nil, subterm?, Option.isSome_some, Option.isSome_some]
  | cons i p ih =>
    cases t with
    | const c => rfl
    | var v => rfl
    | app f args =>
      rw [replace?_app_cons, subterm?_cons, children]
      cases args[i]? with
      | none => rfl
      | some u => rw [Option.bind_some, Option.bind_some, Option.isSome_map, ih]

theorem replace?_eq_none_iff {t r : Term ν} {p : Position} :
    t.replace? p r = none ↔ t.subterm? p = none := by
  rw [← Option.isNone_iff_eq_none, ← Option.isNone_iff_eq_none, ← Option.not_isSome,
    isSome_replace?, Option.not_isSome]

theorem exists_replace? {t : Term ν} {p : Position} (valid : t.hasPosition p = true)
    (r : Term ν) : ∃ t', t.replace? p r = some t' := by
  rw [← Option.isSome_iff_exists, isSome_replace?]
  exact valid

/-- A replacement at a path in two parts is one at the second part, inside the subterm at the
first. -/
theorem replace?_append (t : Term ν) (p q : Position) (r : Term ν) :
    t.replace? (p ++ q) r =
      (t.subterm? p).bind fun u => (u.replace? q r).bind fun u' => t.replace? p u' := by
  induction p generalizing t with
  | nil =>
    simp only [List.nil_append, subterm?, replace?_nil, Option.bind_some, Option.bind_fun_some]
  | cons i p ih =>
    cases t with
    | const c => rfl
    | var v => rfl
    | app f args =>
      rw [List.cons_append, replace?_app_cons, subterm?_cons, children]
      cases held : args[i]? with
      | none => rfl
      | some c =>
        simp only [Option.bind_some, ih, replace?_app_cons, held]
        cases c.subterm? p with
        | none => rfl
        | some u =>
          simp only [Option.bind_some]
          cases u.replace? q r <;> rfl

section
variable {t r t' : Term ν} {p q s : Position}

theorem subterm?_replaced_below (done : t.replace? p r = some t') :
    t'.subterm? (p ++ s) = r.subterm? s := by
  induction p generalizing t t' with
  | nil =>
    rw [replace?_nil] at done
    obtain rfl := Option.some.inj done
    rfl
  | cons i p ih =>
    obtain ⟨f, args, u, u', rfl, held, inside, rfl⟩ := replace?_cons_eq_some done
    have inRange := (List.getElem?_eq_some_iff.1 held).1
    rw [List.cons_append, subterm?_cons, children, List.getElem?_set_self inRange, Option.bind_some]
    exact ih inside

theorem subterm?_replaced_apart (done : t.replace? p r = some t') (notBelow : ¬ p <+: q)
    (notAbove : ¬ q <+: p) : t'.subterm? q = t.subterm? q := by
  induction p generalizing t t' q with
  | nil => exact absurd List.nil_prefix notBelow
  | cons i p ih =>
    cases q with
    | nil => exact absurd List.nil_prefix notAbove
    | cons j q =>
      obtain ⟨f, args, u, u', rfl, held, inside, rfl⟩ := replace?_cons_eq_some done
      rw [subterm?_cons, subterm?_cons, children, children]
      by_cases same : i = j
      · subst same
        have inRange := (List.getElem?_eq_some_iff.1 held).1
        rw [List.getElem?_set_self inRange, held, Option.bind_some, Option.bind_some]
        refine ih inside (fun above => notBelow ?_) (fun below => notAbove ?_)
        · exact List.cons_prefix_cons.2 ⟨rfl, above⟩
        · exact List.cons_prefix_cons.2 ⟨rfl, below⟩
      · rw [List.getElem?_set_ne same]

theorem subterm?_replaced_above (done : t.replace? (q ++ s) r = some t') :
    ∃ u u', t.subterm? q = some u ∧ u.replace? s r = some u' ∧ t'.subterm? q = some u' := by
  rw [replace?_append, Option.bind_eq_some_iff] at done
  obtain ⟨u, found, done⟩ := done
  obtain ⟨u', inside, done⟩ := Option.bind_eq_some_iff.1 done
  have there := subterm?_replaced_below (s := []) done
  rw [List.append_nil] at there
  exact ⟨u, u', found, inside, there⟩

end

theorem replaceAt_eq_ok_iff {t r t' : Term ν} {p : Position} :
    t.replaceAt p r = .ok t' ↔ t.replace? p r = some t' := by
  rw [replaceAt]
  cases t.replace? p r <;> simp

theorem replaceAt_eq_error_iff {t r : Term ν} {p : Position} {e : TermError} :
    t.replaceAt p r = .error e ↔ t.replace? p r = none ∧ e = .invalidPosition p := by
  rw [replaceAt]
  cases t.replace? p r <;> simp [eq_comm]

/-- What can be found in `t'`, which is `t` with `r` put in at `p`: `r` at and below `p`, the old
subterms apart from it, and above it the old ones with `r` put in, which are applications as
before. -/
structure Replaced (t : Term ν) (p : Position) (r t' : Term ν) : Prop where
  below : ∀ s v, t'.subtermAt (p ++ s) = .ok v ↔ r.subtermAt s = .ok v
  apart : ∀ q, p.isAbove q = false → q.isAbove p = false → t'.subtermAt q = t.subtermAt q
  above : ∀ q s, p = q ++ s → s ≠ [] → ∃ u u', t.subtermAt q = .ok u ∧
    u.replaceAt s r = .ok u' ∧ t'.subtermAt q = .ok u' ∧
    ∃ f, u.root? = some f ∧ u'.root? = some f

theorem replaced_of_replace? {t r t' : Term ν} {p : Position} (done : t.replace? p r = some t') :
    Replaced t p r t' := by
  constructor
  case below =>
    intro s v
    rw [subtermAt_eq_ok_iff, subtermAt_eq_ok_iff, subterm?_replaced_below done]
  case apart =>
    intro q notBelow notAbove
    have away := subterm?_replaced_apart done
      (fun above => Bool.eq_false_iff.1 notBelow (List.isPrefixOf_iff_prefix.2 above))
      (fun below => Bool.eq_false_iff.1 notAbove (List.isPrefixOf_iff_prefix.2 below))
    rw [subtermAt, subtermAt, away]
  case above =>
    rintro q s rfl further
    obtain ⟨u, u', found, inside, there⟩ := subterm?_replaced_above done
    refine ⟨u, u', subtermAt_eq_ok_iff.2 found, replaceAt_eq_ok_iff.2 inside,
      subtermAt_eq_ok_iff.2 there, ?_⟩
    obtain ⟨i, s, rfl⟩ := List.exists_cons_of_ne_nil further
    obtain ⟨f, args, c, c', rfl, -, -, rfl⟩ := replace?_cons_eq_some inside
    exact ⟨f, rfl, rfl⟩

/-- A replacement succeeds exactly where a subterm can be found, and otherwise fails as the search
does, with the whole position. Where it succeeds, `Replaced` says what is found at every
position. -/
theorem replaceAt_frame (t : Term ν) (p : Position) (r : Term ν) :
    ((∃ t', t.replaceAt p r = .ok t') ↔ ∃ u, t.subtermAt p = .ok u) ∧
    (∀ e, t.replaceAt p r = .error e ↔ t.subtermAt p = .error e) ∧
    (∀ e, t.replaceAt p r = .error e → e = .invalidPosition p) ∧
    ∀ t', t.replaceAt p r = .ok t' → Replaced t p r t' := by
  have together := isSome_replace? t p r
  have sameFailure : t.replace? p r = none ↔ t.subterm? p = none := by
    rw [← Option.isNone_iff_eq_none, ← Option.isNone_iff_eq_none, ← Option.not_isSome, together,
      Option.not_isSome]
  refine ⟨?_, ?_, ?_, ?_⟩
  · simp only [replaceAt_eq_ok_iff, subtermAt_eq_ok_iff]
    rw [← Option.isSome_iff_exists, together, Option.isSome_iff_exists]
  · intro e
    rw [replaceAt_eq_error_iff, subtermAt_eq_error_iff, sameFailure]
  · exact fun e failed => (replaceAt_eq_error_iff.1 failed).2
  · exact fun t' done => replaced_of_replace? (replaceAt_eq_ok_iff.1 done)

/-- Below one of two equal arguments. -/
theorem replaceAt_frame_twins :
    let g (x : Term Label) : Term Label := .app ⟨"g", 1, by decide⟩ [x]
    let f (x y : Term Label) : Term Label := .app ⟨"f", 2, by decide⟩ [x, y]
    let a : Term Label := .const ⟨"a"⟩
    let t' := f (g (g a)) (g a)
    (f (g a) (g a)).replaceAt [0, 0] (g a) = .ok t' ∧ Replaced (f (g a) (g a)) [0, 0] (g a) t' := by
  intro g f a t'
  have done : (f (g a) (g a)).replaceAt [0, 0] (g a) = .ok t' := rfl
  exact ⟨done, (replaceAt_frame _ _ _).2.2.2 t' done⟩

end TermAlgebra.Term
