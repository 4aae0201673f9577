import TermAlgebra.Proofs.Replacement
/-!
Replacements one after another. What a second one does depends on how its place lies to that of the
first: at the same place it takes over, below it it acts inside what was put in, above it it wipes
the first out, and apart from it the order does not matter. Two replacements apart meet in one
argument until their paths part, and then stand in different arguments (`replace?_comm`).
-/
namespace TermAlgebra.Term

variable {ν : Type} {t r s u t' : Term ν} {p q : Position}

theorem replace?_self (found : t.subterm? p = some u) : t.replace? p u = some t := by
  induction p generalizing t with
  | nil =>
    obtain rfl := Option.some.inj found
    exact replace?_nil t t
  | cons i p ih =>
    obtain ⟨f, args, c, rfl, held, inside⟩ := subterm?_cons_eq_some found
    obtain ⟨inRange, rfl⟩ := List.getElem?_eq_some_iff.1 held
    simp [replace?_app_cons, inRange, ih inside]

/-- What the first of two replacements at one place put in is gone. -/
theorem replace?_replaced (done : t.replace? p r = some t') :
    t'.replace? p s = t.replace? p s := by
  induction p generalizing t t' with
  | nil => rw [replace?_nil, replace?_nil]
  | cons i p ih =>
    obtain ⟨f, args, u, u', rfl, held, inside, rfl⟩ := replace?_cons_eq_some done
    obtain ⟨inRange, rfl⟩ := List.getElem?_eq_some_iff.1 held
    simp [replace?_app_cons, inRange, ih inside]

/-- Below the first place the second replacement is one inside what was put in. -/
theorem replace?_replaced_below (done : t.replace? p r = some t') :
    t'.replace? (p ++ q) s = (r.replace? q s).bind fun r' => t.replace? p r' := by
  have there := subterm?_replaced_below (s := []) done
  rw [List.append_nil, subterm?] at there
  simp [replace?_append, there, replace?_replaced done]

theorem replace?_replaced_above (done : t.replace? (p ++ q) s = some t') :
    t'.replace? p r = t.replace? p r := by
  rw [replace?_append, Option.bind_eq_some_iff] at done
  obtain ⟨u, -, done⟩ := done
  obtain ⟨u', -, done⟩ := Option.bind_eq_some_iff.1 done
  exact replace?_replaced done

/-- Two replacements that both succeed can be done in either order, each after the other. -/
theorem replace?_comm {t₁ t₂ : Term ν} (notAbove : ¬ p <+: q) (notBelow : ¬ q <+: p)
    (first : t.replace? p r = some t₁) (second : t.replace? q s = some t₂) :
    t₁.replace? q s = t₂.replace? p r := by
  induction p generalizing t t₁ t₂ q with
  | nil => exact absurd List.nil_prefix notAbove
  | cons i p ih =>
    cases q with
    | nil => exact absurd List.nil_prefix notBelow
    | cons j q =>
      obtain ⟨f, args, u, u', rfl, held, inside, rfl⟩ := replace?_cons_eq_some first
      obtain ⟨g, args', v, v', same, held', inside', rfl⟩ := replace?_cons_eq_some second
      obtain ⟨rfl, rfl⟩ := app.inj same
      obtain ⟨inRange, -⟩ := List.getElem?_eq_some_iff.1 held
      obtain ⟨inRange', -⟩ := List.getElem?_eq_some_iff.1 held'
      by_cases here : i = j
      · subst here
        obtain rfl := Option.some.inj (held.symm.trans held')
        have meet := ih (fun above => notAbove (List.cons_prefix_cons.2 ⟨rfl, above⟩))
          (fun below => notBelow (List.cons_prefix_cons.2 ⟨rfl, below⟩)) inside inside'
        simp [replace?_app_cons, inRange, meet]
      · have away : j ≠ i := fun same => here same.symm
        simp [replace?_app_cons, here, away, held, held', inside, inside',
          List.set_comm _ _ here]

/-- A replacement elsewhere changes nothing about whether there is something to replace. -/
theorem replace?_eq_none_apart (notAbove : ¬ p <+: q) (notBelow : ¬ q <+: p)
    (done : t.replace? p r = some t') : t'.replace? q s = none ↔ t.replace? q s = none := by
  rw [replace?_eq_none_iff, replace?_eq_none_iff, subterm?_replaced_apart done notAbove notBelow]

/-- The term after an edit. One that fails leaves it as it was. -/
def edited (t : Term ν) (p : Position) (r : Term ν) : Term ν := (t.replace? p r).getD t

/-- Every edit finds the term as the one before it left it. -/
theorem edit_cons (t : Term ν) (p : Position) (r : Term ν) (rest : List (Position × Term ν)) :
    t.edit ((p, r) :: rest) = t.replaceAt p r :: (t.edited p r).edit rest := by
  rw [edit, edited, replaceAt]
  cases t.replace? p r <;> rfl

theorem edit_pair (t : Term ν) (p : Position) (r : Term ν) (q : Position) (s : Term ν) :
    t.edit [(p, r), (q, s)] = [t.replaceAt p r, (t.edited p r).replaceAt q s] := by
  rw [edit_cons, edit_cons, edit]

theorem replaceAt_edited_eq_error_iff (notAbove : ¬ p <+: q) (notBelow : ¬ q <+: p)
    (e : TermError) : (t.edited p r).replaceAt q s = .error e ↔ t.replaceAt q s = .error e := by
  rw [edited]
  cases done : t.replace? p r with
  | none => rfl
  | some t' =>
    rw [Option.getD_some, replaceAt_eq_error_iff, replaceAt_eq_error_iff,
      replace?_eq_none_apart notAbove notBelow done]

/-- An edit that fails does so before and after the other, and then there is only the other; if both
succeed they can be done in either order. -/
theorem edited_comm (notAbove : ¬ p <+: q) (notBelow : ¬ q <+: p) :
    (t.edited p r).edited q s = (t.edited q s).edited p r := by
  cases first : t.replace? p r with
  | none =>
    cases second : t.replace? q s with
    | none => simp [edited, first, second]
    | some t₂ =>
      have still := (replace?_eq_none_apart notBelow notAbove second).2 first
      simp [edited, first, second, still]
  | some t₁ =>
    cases second : t.replace? q s with
    | none =>
      have still := (replace?_eq_none_apart notAbove notBelow first).2 second
      simp [edited, first, second, still]
    | some t₂ =>
      have swapped := replace?_comm notAbove notBelow first second
      cases both : t₁.replace? q s with
      | none =>
        have missing := (replace?_eq_none_apart notAbove notBelow first).1 both
        exact absurd (missing.symm.trans second) (by simp)
      | some t₁₂ => simp [edited, first, second, both, ← swapped]

/-- How replacements at `p` and at `q`, or at `p` and below it at `p ++ q`, interact: putting in
what is there changes nothing, the second one at a place takes over, one below acts inside the term
that was put in, one above wipes it out, and edits apart from each other commute. -/
theorem replacements_interact (t r s : Term ν) (p q : Position) :
    (∀ u, t.subtermAt p = .ok u → t.replaceAt p u = .ok t) ∧
    ((t.replaceAt p r).bind fun t' => t'.replaceAt p s) = t.replaceAt p s ∧
    (t.hasPosition p = true → ∃ t', t.replaceAt p r = .ok t' ∧
      ((∃ t'', t'.replaceAt (p ++ q) s = .ok t'') ↔ ∃ r', r.replaceAt q s = .ok r') ∧
      ∀ r', r.replaceAt q s = .ok r' →
        ∃ t'', t'.replaceAt (p ++ q) s = .ok t'' ∧ t.replaceAt p r' = .ok t'') ∧
    (t.hasPosition (p ++ q) = true → ∃ t' t'', t.replaceAt (p ++ q) s = .ok t' ∧
      t'.replaceAt p r = .ok t'' ∧ t.replaceAt p r = .ok t'') ∧
    (p.isAbove q = false → q.isAbove p = false → ∃ a b a' b',
      t.edit [(p, r), (q, s)] = [a, b] ∧ t.edit [(q, s), (p, r)] = [b', a'] ∧
      (∀ e, a = .error e ↔ a' = .error e) ∧ (∀ e, a = .error e → e = .invalidPosition p) ∧
      (∀ e, b = .error e ↔ b' = .error e) ∧ (∀ e, b = .error e → e = .invalidPosition q) ∧
      (t.edited p r).edited q s = (t.edited q s).edited p r) := by
  simp only [replaceAt_eq_ok_iff, subtermAt_eq_ok_iff]
  refine ⟨fun u found => replace?_self found, ?samePlace, ?below, ?above, ?apart⟩
  case samePlace =>
    cases done : t.replace? p r with
    | none =>
      have failed := replace?_eq_none_iff (r := s).2 (replace?_eq_none_iff.1 done)
      simp [replaceAt, done, failed, Except.bind]
    | some t' => simp [replaceAt, done, replace?_replaced done, Except.bind]
  case below =>
    intro valid
    obtain ⟨t', done⟩ := exists_replace? valid r
    have inside := replace?_replaced_below (q := q) (s := s) done
    have succeeds : ∀ r', r.replace? q s = some r' →
        ∃ t'', t'.replace? (p ++ q) s = some t'' ∧ t.replace? p r' = some t'' := by
      intro r' changed
      obtain ⟨t'', final⟩ := exists_replace? valid r'
      exact ⟨t'', by rw [inside, changed, Option.bind_some, final], final⟩
    refine ⟨t', done, ⟨?_, ?_⟩, succeeds⟩
    · rintro ⟨t'', final⟩
      rw [inside, Option.bind_eq_some_iff] at final
      obtain ⟨r', changed, -⟩ := final
      exact ⟨r', changed⟩
    · rintro ⟨r', changed⟩
      obtain ⟨t'', final, -⟩ := succeeds r' changed
      exact ⟨t'', final⟩
  case above =>
    intro valid
    obtain ⟨t', done⟩ := exists_replace? valid s
    have wiped := replace?_replaced_above (r := r) done
    obtain ⟨u, found⟩ := hasPosition_iff.1 valid
    rw [subterm?_append, Option.bind_eq_some_iff] at found
    obtain ⟨v, there, -⟩ := found
    obtain ⟨t'', final⟩ := exists_replace? (hasPosition_iff.2 ⟨v, there⟩) r
    exact ⟨t', t'', done, wiped.trans final, final⟩
  case apart =>
    simp only [Position.isAbove_eq_false_iff]
    intro notAbove notBelow
    refine ⟨_, _, _, _, edit_pair t p r q s, edit_pair t q s p r, ?_, ?_, ?_, ?_, ?_⟩
    · exact fun e => (replaceAt_edited_eq_error_iff notBelow notAbove e).symm
    · exact fun e failed => (replaceAt_eq_error_iff.1 failed).2
    · exact fun e => replaceAt_edited_eq_error_iff notAbove notBelow e
    · exact fun e failed => (replaceAt_eq_error_iff.1 failed).2
    · exact edited_comm notAbove notBelow

/-- At the two arguments of `f(f(a, b), c)`, of which the first has a second argument as well. -/
theorem replacements_interact_siblings :
    let f (x y : Term Label) : Term Label := .app ⟨"f", 2, by decide⟩ [x, y]
    let a : Term Label := .const ⟨"a"⟩
    let b : Term Label := .const ⟨"b"⟩
    let t := f (f a b) a
    t.subtermAt [0] = .ok (f a b) ∧ t.replaceAt [0] (f a b) = .ok t ∧
      t.hasPosition [0] = true ∧ (f b b).replaceAt [1] a = .ok (f b a) ∧
      (∃ t' t'', t.replaceAt [0] (f b b) = .ok t' ∧ t'.replaceAt [0, 1] a = .ok t'' ∧
        t.replaceAt [0] (f b a) = .ok t'') ∧
      t.hasPosition [0, 1] = true ∧
      (∃ t' t'', t.replaceAt [0, 1] a = .ok t' ∧ t'.replaceAt [0] (f b b) = .ok t'' ∧
        t.replaceAt [0] (f b b) = .ok t'') ∧
      Position.isAbove [0] [1] = false ∧ Position.isAbove [1] [0] = false ∧
      (t.edited [0] (f b b)).edited [1] a = (t.edited [1] a).edited [0] (f b b) := by
  intro f a b t
  obtain ⟨itself, -, below, above, apart⟩ := replacements_interact t (f b b) a [0] [1]
  have found : t.subtermAt [0] = .ok (f a b) := rfl
  have inner : (f b b).replaceAt [1] a = .ok (f b a) := rfl
  obtain ⟨t', done, -, inside⟩ := below rfl
  obtain ⟨t'', final⟩ := inside (f b a) inner
  obtain ⟨u', u'', wiped⟩ := above rfl
  obtain ⟨-, -, -, -, -, -, -, -, -, -, same⟩ := apart rfl rfl
  exact ⟨found, itself (f a b) found, rfl, inner, ⟨t', t'', done, final⟩, rfl, ⟨u', u'', wiped⟩,
    rfl, rfl, same⟩

end TermAlgebra.Term
