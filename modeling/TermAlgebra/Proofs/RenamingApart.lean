import Mathlib.Data.List.Forall2
import TermAlgebra.Proofs.FreshIndices
import TermAlgebra.Proofs.Renaming
import TermAlgebra.Proofs.VariableSet
/-!
Renaming a term apart. Drawing a fresh variable for each of several variables is a run of calls, so
what is drawn is new against the history before it and against itself (`freshAll_draws`). Put for
the variables of a term, the variables drawn make a renaming, and all else follows from what a
renaming does to a term (`DrawnApart.renamedApart`).
-/
namespace TermAlgebra

/-- `w` is what drawing for `v` from a pool gives. -/
structure DrawnFor (id : PoolId) (v w : Variable) : Prop where
  name : w.label.name = v.label.name
  indexed : w.label.index.isSome = true
  own : w.origin.pool? = some id

/-- `ws` are fresh variables for `vs`, apart from each other and from all that a pool has
`issued`. -/
structure DrawnApart (id : PoolId) (issued vs ws : List Variable) : Prop where
  each : List.Forall₂ (DrawnFor id) vs ws
  unused : ∀ w ∈ ws, ∀ u ∈ issued, u.label ≠ w.label
  distinct : ws.Pairwise fun a b => a.label ≠ b.label

namespace History

/-- One draw for a variable of an open pool: nothing happens for want of an index, or the history
goes on by the call and a new label is handed out. -/
theorem fresh_draws {calls : List Call} {id : PoolId} {p : Pool} {v : Variable}
    (found : (of calls).pools.find? id = some p) (own : v.origin.pool? = some id) :
    (of calls).pools.fresh v = (.error (.indexExhausted v.label.name), (of calls).pools) ∨
    ∃ w q, (of calls).pools.fresh v = (.ok w, (of (calls ++ [.freshOfVar v])).pools) ∧
      (of (calls ++ [.freshOfVar v])).pools.find? id = some q ∧
      (of (calls ++ [.freshOfVar v])).issued id = (of calls).issued id ++ [w] ∧
      DrawnFor id v w ∧ ∀ u ∈ (of calls).issued id, u.label ≠ w.label := by
  have held := accounted calls
  obtain ⟨rfl, -, -⟩ := held.sound id p found
  have drawn := Registry.fresh_of_find? found own
  cases next : (p.counter v.label.name).next with
  | none =>
    refine .inl ?_
    rw [drawn, Pool.getFresh_of_exhausted next, Registry.update_of_find? found]
  | some i =>
    obtain ⟨serial, given⟩ := Pool.getFresh_fst_of_next next
    have continues := (p.getFresh_effect v.label.name).continues
    have latest : of (calls ++ [.freshOfVar v]) = ⟨(of calls).events ++
        [⟨.freshOfVar v, .var ⟨⟨v.label.name, some i⟩, .issued p.id serial⟩⟩],
        (of calls).pools.update (p.getFresh v.label.name).2⟩ := by
      rw [of_append_singleton, History.next, Registry.perform, drawn, given]
      rfl
    refine .inr ⟨⟨⟨v.label.name, some i⟩, .issued p.id serial⟩, (p.getFresh v.label.name).2,
      ?_, ?_, ?_, ⟨rfl, rfl, rfl⟩, ?_⟩
    · rw [drawn, given, latest]
    · rw [latest]
      have same : (of calls).pools.find? (p.getFresh v.label.name).2.id = some p := by
        rw [continues.id, found]
      show ((of calls).pools.update _).find? p.id = _
      rw [Registry.find?_update same, if_pos continues.id]
    · rw [latest, issued_append _ _ (of calls).pools]
      simp [Event.issued?, Reply.var?, Option.filter, Origin.pool?]
    · intro u member same
      have earlier : i ∈ (of calls).taken p.id v.label.name := by
        have sameName : u.label.name = v.label.name := by rw [same]
        have sameIndex : u.label.index = some i := by rw [same]
        exact sameName ▸ taken_of_issued member sameIndex
      have := held.lt_next found next earlier
      exact absurd this (UInt64.lt_irrefl i)

/-- Drawing for several variables of an open pool is a run of calls, which ends for want of an index
or gives variables apart from all that the pool had issued. -/
theorem freshAll_draws (vs : List Variable) {calls : List Call} {id : PoolId} {p : Pool}
    (found : (of calls).pools.find? id = some p) (own : ∀ v ∈ vs, v.origin.pool? = some id) :
    (∃ name r, (of calls).pools.freshAll vs = (.error (.indexExhausted name), r)) ∨
    ∃ ws, (of calls).pools.freshAll vs = (.ok ws, (of (calls ++ vs.map .freshOfVar)).pools) ∧
      (of (calls ++ vs.map .freshOfVar)).issued id = (of calls).issued id ++ ws ∧
      DrawnApart id ((of calls).issued id) vs ws := by
  induction vs generalizing calls p with
  | nil =>
    refine .inr ⟨[], ?_, ?_, .nil, (fun w member => by cases member), .nil⟩
    · rw [Registry.freshAll, List.map_nil, List.append_nil]
    · rw [List.map_nil, List.append_nil, List.append_nil]
  | cons v vs ih =>
    rcases fresh_draws found (own v List.mem_cons_self) with failed | ⟨w, q, drawn, rest⟩
    · exact .inl ⟨v.label.name, (of calls).pools, by rw [Registry.freshAll, failed]⟩
    obtain ⟨open', issuedNow, fits, unused⟩ := rest
    rcases ih open' fun u member => own u (List.mem_cons_of_mem v member) with
      ⟨name, r, failed⟩ | ⟨ws, drawnRest, issuedLater, apart⟩
    · refine .inl ⟨name, r, ?_⟩
      simp only [Registry.freshAll, drawn, failed]
      rfl
    · rw [List.append_assoc, List.singleton_append] at drawnRest issuedLater
      rw [issuedNow] at issuedLater apart
      refine .inr ⟨w :: ws, ?_, ?_, .cons fits apart.each, ?_, ?_⟩
      · simp only [Registry.freshAll, drawn, drawnRest, List.map_cons]
        rfl
      · rw [List.map_cons, issuedLater, List.append_assoc, List.singleton_append]
      · intro x member u before
        rcases List.mem_cons.1 member with rfl | member
        · exact unused u before
        · exact apart.unused x member u (List.mem_append_left _ before)
      · refine List.pairwise_cons.2 ⟨fun x member => ?_, apart.distinct⟩
        exact apart.unused x member w (List.mem_append_right _ List.mem_cons_self)

end History

/-- What renaming makes of a term of a pool that had `issued` some variables before, and has issued
the variables `drawn` for it. -/
structure RenamedApart (id : PoolId) (issued drawn : List Variable) (t : Term Variable)
    (s : Substitution Variable) : Prop where
  bindings : s.toList = t.variableSet.zip (drawn.map .var)
  domain : s.domain = t.variableSet
  positions : (s.apply t).positions = t.positions
  size : (s.apply t).size = t.size
  depth : (s.apply t).depth = t.depth
  constants : ∀ p c, t.subterm? p = some (.const c) → (s.apply t).subterm? p = some (.const c)
  functions : ∀ p f args, t.subterm? p = some (.app f args) →
    (s.apply t).subterm? p = some (.app f (args.map s.apply))
  vars : ∀ p v, t.subterm? p = some (.var v) →
    ∃ w ∈ drawn, s.image v = .var w ∧ (s.apply t).subterm? p = some (.var w) ∧ DrawnFor id v w
  injective : ∀ v ∈ t.occurrences, ∀ w ∈ t.occurrences,
    (s.image v == s.image w) = true → (v == w) = true
  unused : ∀ w ∈ (s.apply t).occurrences, w ∈ drawn ∧ ∀ u ∈ issued, (u == w) = false
  undone : (s.inverse.apply (s.apply t) == t) = true

/-- The calls that draw a fresh variable for each variable of a term. -/
def Term.draws (t : Term Variable) : List Call := t.variableSet.map .freshOfVar

namespace DrawnApart

variable {id : PoolId} {issued drawn : List Variable} {t : Term Variable}
  {s : Substitution Variable}

theorem toList_ofList (apart : DrawnApart id issued t.variableSet drawn)
    (made : s = .ofList (t.variableSet.zip (drawn.map .var))) :
    s.toList = t.variableSet.zip (drawn.map .var) ∧ s.domain = t.variableSet := by
  have keys : (t.variableSet.zip (drawn.map Term.var)).map Prod.fst = t.variableSet := by
    rw [List.map_fst_zip]
    rw [List.length_map, apart.each.length_eq]
  have distinct := t.pairwise_variableSet
  rw [← keys, List.pairwise_map] at distinct
  have bindings : s.toList = t.variableSet.zip (drawn.map .var) := by
    rw [made]
    exact Table.entries_ofList distinct
  refine ⟨bindings, ?_⟩
  show s.toList.map Prod.fst = t.variableSet
  rw [bindings, keys]

theorem isRenaming (apart : DrawnApart id issued t.variableSet drawn)
    (made : s = .ofList (t.variableSet.zip (drawn.map .var))) : s.IsRenaming := by
  have bindings := (apart.toList_ofList made).1
  refine Substitution.isRenaming_ofList apart.each.length_eq.symm bindings ?_
  refine apart.distinct.imp fun differ => ?_
  exact Bool.eq_false_iff.2 fun same => differ (Variable.beq_iff.1 same)

/-- The variable put for an occurrence is the one drawn for its representative. -/
theorem rename_of_occurs (apart : DrawnApart id issued t.variableSet drawn)
    (made : s = .ofList (t.variableSet.zip (drawn.map .var))) {v : Variable}
    (occurs : v ∈ t.occurrences) :
    s.contains v = true ∧ s.rename v ∈ drawn ∧ DrawnFor id v (s.rename v) := by
  obtain ⟨bindings, domain⟩ := apart.toList_ofList made
  obtain ⟨first, member, same⟩ := Term.exists_mem_variableSet occurs
  rw [← domain] at member
  obtain ⟨b, (held : b ∈ s.toList), rfl⟩ := List.mem_map.1 member
  have bound : s.contains v = true := List.any_eq_true.2 ⟨b, held, same⟩
  have image := Substitution.image_of_mem held same
  rw [bindings, List.zip_map_right] at held
  obtain ⟨⟨first, w⟩, paired, rfl⟩ := List.mem_map.1 held
  obtain rfl : s.rename v = w :=
    Term.var.inj (((apart.isRenaming made).image v).symm.trans image)
  have fits := List.forall₂_zip apart.each paired
  have sameName : first.label.name = v.label.name := congrArg Label.name (Variable.beq_iff.1 same)
  exact ⟨bound, (List.of_mem_zip paired).2, fits.name.trans sameName, fits.indexed, fits.own⟩

theorem renamedApart (apart : DrawnApart id issued t.variableSet drawn)
    (made : s = .ofList (t.variableSet.zip (drawn.map .var))) :
    RenamedApart id issued drawn t s := by
  obtain ⟨bindings, domain⟩ := apart.toList_ofList made
  have renames := apart.isRenaming made
  have moved := renames.apply_eq_map t
  constructor
  case bindings => exact bindings
  case domain => exact domain
  case positions => rw [moved, Term.positions_map]
  case size => rw [moved, Term.size_map]
  case depth => rw [moved, Term.depth_map]
  case constants =>
    intro p c there
    rw [moved, Term.subterm?_map, there]
    rfl
  case functions =>
    intro p f args there
    have each : args.map s.apply = args.map (Term.map s.rename) :=
      List.map_congr_left fun u _ => renames.apply_eq_map u
    rw [moved, Term.subterm?_map, there, each, Option.map_some, Term.map_app]
  case vars =>
    intro p v there
    have occurs := Term.mem_occurrences_of_subterm? there
    obtain ⟨-, member, fits⟩ := apart.rename_of_occurs made occurs
    refine ⟨s.rename v, member, renames.image v, ?_, fits⟩
    rw [moved, Term.subterm?_map, there]
    rfl
  case injective =>
    intro v occursV w occursW same
    have boundV := (apart.rename_of_occurs made occursV).1
    have boundW := (apart.rename_of_occurs made occursW).1
    rw [renames.image, renames.image] at same
    exact renames.injective boundV boundW same
  case unused =>
    intro w occurs
    rw [moved, Term.occurrences_map] at occurs
    obtain ⟨v, before, rfl⟩ := List.mem_map.1 occurs
    obtain ⟨-, member, -⟩ := apart.rename_of_occurs made before
    refine ⟨member, fun u issued => Bool.eq_false_iff.2 fun same => ?_⟩
    exact apart.unused _ member u issued (Variable.beq_iff.1 same)
  case undone => exact renames.inverse_apply fun v occurs => (apart.rename_of_occurs made occurs).1

end DrawnApart

namespace History

/-- Renaming a term of an open pool is a run of calls, one for each variable of the term. Unless one
of them finds no index, what comes of them renames the term apart from all that was issued. -/
theorem renameApart_draws {calls : List Call} {id : PoolId} {p : Pool} {t : Term Variable}
    (found : (of calls).pools.find? id = some p)
    (own : ∀ v ∈ t.occurrences, v ∈ (of calls).issued id) :
    (∃ name, ((of calls).pools.renameApart t).1 = .error (.indexExhausted name)) ∨
    ∃ s drawn, (of calls).pools.renameApart t = (.ok s, (of (calls ++ t.draws)).pools) ∧
      (of (calls ++ t.draws)).issued id = (of calls).issued id ++ drawn ∧
      RenamedApart id ((of calls).issued id) drawn t s := by
  have fromPool : ∀ v ∈ t.variableSet, v.origin.pool? = some id := fun v member =>
    origin_of_issued (own v ((Term.variableSet_sublist t).mem member))
  rcases freshAll_draws t.variableSet found fromPool with ⟨name, r, failed⟩ | ⟨ws, drawn, rest⟩
  · refine .inl ⟨name, ?_⟩
    rw [Registry.renameApart, failed]
    rfl
  · obtain ⟨issuedLater, apart⟩ := rest
    refine .inr ⟨.ofList (t.variableSet.zip (ws.map .var)), ws, ?_, issuedLater, ?_⟩
    · rw [Registry.renameApart, drawn]
      rfl
    · exact apart.renamedApart rfl

end History

/-- In every state that calls on pools can reach, renaming a term of an open pool apart does what it
should, unless a name has run out of indices: the term keeps its shape, its variables become fresh
ones of the same names, equal only where they were, and the inverse mapping undoes it. No fresh
variable was ever issued before, to an earlier renaming in particular. -/
theorem renaming_apart (calls : List Call) (id : PoolId) (p : Pool) (t : Term Variable)
    (found : (History.of calls).pools.find? id = some p)
    (own : ∀ v ∈ t.occurrences, v ∈ (History.of calls).issued id)
    (enough : ∀ name,
      ((History.of calls).pools.renameApart t).1 ≠ .error (.indexExhausted name)) :
    ∃ s drawn,
      (History.of calls).pools.renameApart t = (.ok s, (History.of (calls ++ t.draws)).pools) ∧
      (History.of (calls ++ t.draws)).issued id = (History.of calls).issued id ++ drawn ∧
      RenamedApart id ((History.of calls).issued id) drawn t s ∧
      ∀ before u more q r, calls = before ++ Term.draws u ++ more →
        (History.of before).pools.find? id = some q →
        (∀ v ∈ u.occurrences, v ∈ (History.of before).issued id) →
        ((History.of before).pools.renameApart u).1 = .ok r →
        ∀ w ∈ (r.apply u).occurrences, ∀ v ∈ (s.apply t).occurrences, (w == v) = false := by
  rcases History.renameApart_draws found own with ⟨name, failed⟩ | ⟨s, drawn, ok, issued, apart⟩
  · exact absurd failed (enough name)
  refine ⟨s, drawn, ok, issued, apart, ?_⟩
  intro before u more q r same found' own' ok' w occursW v occursV
  rcases History.renameApart_draws found' own' with ⟨name, failed⟩ | ⟨r', drawn', made, rest⟩
  · cases failed.symm.trans ok'
  obtain ⟨issued', apart'⟩ := rest
  obtain rfl : r' = r := by
    rw [made] at ok'
    exact Except.ok.inj ok'
  have earlier : w ∈ (History.of (before ++ u.draws)).issued id := by
    rw [issued']
    exact List.mem_append_right _ (apart'.unused w occursW).1
  have still := History.issued_mono more earlier
  rw [← History.of_append, ← same] at still
  exact (apart.unused v occursV).2 w still

/-- A plain and an indexed variable of one name draw from one counter, in the order of their first
occurrences. -/
theorem renaming_apart_one_name :
    let calls : List Call := [.openPool {}, .get 0 "x", .getIndexed 0 "x" 1]
    let x : Variable := ⟨⟨"x", none⟩, .issued 0 0⟩
    let y : Variable := ⟨⟨"x", some 1⟩, .issued 0 1⟩
    let t : Term Variable := .app ⟨"f", 3, by decide⟩
      [.var y, .app ⟨"g", 2, by decide⟩ [.const ⟨"a"⟩, .var x], .var y]
    ∃ s drawn, RenamedApart 0 ((History.of calls).issued 0) drawn t s ∧
      drawn.map (·.label) = [⟨"x", some 2⟩, ⟨"x", some 3⟩] := by
  intro calls x y t
  have opened : ((History.of calls).pools.find? 0).isSome = true := by decide
  obtain ⟨p, found⟩ := Option.isSome_iff_exists.1 opened
  have occurrences : t.occurrences = [y, x, y] := by simp [t, Term.occurrences_app]
  have variableSet : t.variableSet = [y, x] := by
    rw [Term.variableSet, occurrences]
    rfl
  have issuedBefore : (History.of calls).issued 0 = [x, y] := rfl
  have own : ∀ v ∈ t.occurrences, v ∈ (History.of calls).issued 0 := by
    rw [occurrences, issuedBefore]
    simp
  have succeeds : ((History.of calls).pools.renameApart t).1.isOk = true := by
    rw [Registry.renameApart, variableSet]
    decide
  have enough : ∀ name,
      ((History.of calls).pools.renameApart t).1 ≠ .error (.indexExhausted name) := by
    intro name failed
    rw [failed] at succeeds
    cases succeeds
  obtain ⟨s, drawn, -, issued, apart, -⟩ := renaming_apart calls 0 p t found own enough
  have after : ((History.of (calls ++ t.draws)).issued 0).map (·.label) =
      [⟨"x", none⟩, ⟨"x", some 1⟩, ⟨"x", some 2⟩, ⟨"x", some 3⟩] := by
    rw [Term.draws, variableSet]
    decide
  rw [issued, issuedBefore, List.map_append] at after
  exact ⟨s, drawn, apart, List.append_cancel_left after⟩

end TermAlgebra
