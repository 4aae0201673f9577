import TermAlgebra.Proofs.FreshIndices
import TermAlgebra.Proofs.Renaming
import TermAlgebra.Proofs.SubstitutionPositions
/-!
Where the instances in a result come from. Equality of variables does not see which pool an instance
came from, so the laws here are about the very instances: what stands at a place of a result is what
stands at some place of an input, and the place is told (`Substitution.Source`,
`Term.ReplacementSource`, `Substitution.CompositeSource`). No instance is made up and none is
swapped for an equal one; a fresh variable for one of the result is therefore drawn from the pool of
the instance that was put in.
-/
namespace TermAlgebra

section
variable {ν μ : Type}

/-- At the position there is a variable, and it is this one, equal ones aside. -/
def Term.Shows (t : Term ν) (p : Position) (v : ν) : Prop := t.subtermAt p = .ok (.var v)

theorem Term.shows_iff {t : Term ν} {p : Position} {v : ν} :
    t.Shows p v ↔ t.subterm? p = some (.var v) :=
  subtermAt_eq_ok_iff

theorem Term.var_shows_iff {v w : ν} {p : Position} :
    (Term.var v).Shows p w ↔ p = [] ∧ w = v := by
  rw [shows_iff]
  cases p with
  | nil => simp [subterm?, eq_comm]
  | cons i p => simp [subterm?_cons, children]

/-- A place of a term shows one variable at most. -/
theorem Term.Shows.unique {t : Term ν} {p : Position} {v w : ν} (first : t.Shows p v)
    (second : t.Shows p w) : v = w :=
  Term.var.inj (Except.ok.inj (first.symm.trans second))

/-- A variable in a term whose variables were replaced stands at or below the place of an old one,
where it stands in what was put for that one. -/
theorem Term.bind_shows_iff (g : ν → Term μ) {t : Term ν} {p : Position} {w : μ} :
    (t.bind g).Shows p w ↔ ∃ q s v, p = q ++ s ∧ t.Shows q v ∧ (g v).Shows s w := by
  simp only [shows_iff]
  constructor
  · intro found
    rcases subterm?_of_bind g found with ⟨u, old⟩ | below
    · have here := (subterm?_bind g old).symm.trans found
      cases u with
      | const c => cases here
      | var v => exact ⟨p, [], v, (List.append_nil p).symm, old, Option.some.inj here ▸ rfl⟩
      | app f args => cases here
    · exact below
  · rintro ⟨q, s, v, rfl, old, below⟩
    exact (subterm?_bind_below g old s).trans below

end

/-- Where instances may come from: at the position of a result there stands what the term has at
another position. -/
abbrev InstanceSource := Position → Term Variable → Position → Prop

/-- The calls that ask for a fresh variable through a given one, alone or as a term or a symbol. -/
inductive Call.AsksThrough (v : Variable) : Call → Prop where
  | var : AsksThrough v (.freshOfVar v)
  | term : AsksThrough v (.freshOfTerm (.var v))
  | symbol : AsksThrough v (.freshOfSymbol (.var v))

/-- Asking through `w` is asking the pool from which `v` came, by the name, and no other pool; it
fails when there is none or it is closed. -/
structure Registry.DrawsFrom (r : Registry) (v w : Variable) : Prop where
  draws : ∀ id p, v.origin.pool? = some id → r.find? id = some p → ∀ c, Call.AsksThrough w c →
    r.perform c = r.perform (.getFresh id w.label.name)
  others : ∀ id, v.origin.pool? ≠ some id → ∀ c, Call.AsksThrough w c →
    (r.perform c).2.find? id = r.find? id
  fails : r.poolOf? v = none → ∀ c, Call.AsksThrough w c →
    r.perform c = (.failed (.notPoolBound w.label.text), r)

/-- However it is asked through a variable, the request is one for a fresh variable for it. -/
theorem Registry.perform_of_asksThrough (r : Registry) {v : Variable} {c : Call}
    (asks : Call.AsksThrough v c) : r.perform c = (.ofDrawn (r.fresh v).1, (r.fresh v).2) := by
  cases asks <;> rfl

theorem Call.AsksThrough.asksFresh {p : Pool} {v : Variable} {c : Call}
    (asks : Call.AsksThrough v c) (own : v.origin.pool? = some p.id) :
    AsksFresh p v.label.name c := by
  cases asks with
  | var => exact .byVar v own
  | term => exact .byTerm v own
  | symbol => exact .bySymbol v own

/-- Every variable draws from its own pool, at every moment of every history. -/
theorem Registry.drawsFrom_self (calls : List Call) (v : Variable) :
    (History.of calls).pools.DrawsFrom v v := by
  have sound := (History.accounted calls).sound
  generalize (History.of calls).pools = r at sound
  constructor
  case draws =>
    intro id p own found c asks
    obtain ⟨rfl, -, -⟩ := sound id p found
    rw [perform_of_asksFresh found (asks.asksFresh own), perform_of_asksFresh found (.byName _)]
  case others =>
    intro id other c asks
    rw [perform_of_asksThrough r asks]
    cases bound : r.poolOf? v with
    | none => rw [fresh_of_unbound bound]
    | some p =>
      obtain ⟨id', own, found⟩ := Option.bind_eq_some_iff.1 bound
      obtain ⟨rfl, -, -⟩ := sound id' p found
      have apart : p.id ≠ id := fun same => other (own.trans (congrArg some same))
      rw [find?_fresh bound found, if_neg apart]
  case fails =>
    intro unbound c asks
    rw [perform_of_asksThrough r asks, fresh_of_unbound unbound]
    rfl

/-! ## Results with sources -/

/-- The instances in a term are those of their sources, no more and no less, and whenever a fresh
variable is asked for through one of them, it comes from the pool of the instance that is its
source. -/
structure Term.Carries (t : Term Variable) (source : InstanceSource) : Prop where
  shows_iff : ∀ p w, t.Shows p w ↔ ∃ u q, source p u q ∧ u.Shows q w
  draws : ∀ calls p w, t.Shows p w → ∃ u q v, source p u q ∧ u.Shows q v ∧
    w.sameInstance v = true ∧ (History.of calls).pools.DrawsFrom v w

theorem Term.carries_of_shows_iff {t : Term Variable} {source : InstanceSource}
    (shows : ∀ p w, t.Shows p w ↔ ∃ u q, source p u q ∧ u.Shows q w) : t.Carries source := by
  refine ⟨shows, fun calls p w here => ?_⟩
  obtain ⟨u, q, taken, there⟩ := (shows p w).1 here
  exact ⟨u, q, w, taken, there, Variable.sameInstance_iff.2 rfl, Registry.drawsFrom_self calls w⟩

namespace Substitution

/-- Where the instances come from when the substitution is applied to the term: those of variables
that are not bound are the term's own, and below the place of a bound variable there are those of
the term that is bound to an equal one. -/
inductive Source (s : Substitution Variable) (t : Term Variable) : InstanceSource where
  | kept {p : Position} {v : Variable} (here : t.Shows p v) (free : s.contains v = false) :
      Source s t p t p
  | image {p : Position} {v : Variable} {b : Variable × Term Variable} (here : t.Shows p v)
      (member : b ∈ s.toList) (same : (b.1 == v) = true) (q : Position) :
      Source s t (p ++ q) b.2 q

theorem apply_carries (s : Substitution Variable) (t : Term Variable) :
    (s.apply t).Carries (s.Source t) := by
  refine Term.carries_of_shows_iff fun p w => ?_
  rw [apply_eq_bind, Term.bind_shows_iff]
  constructor
  · rintro ⟨q, r, v, rfl, here, below⟩
    cases bound : s.contains v with
    | false =>
      rw [image_of_not_contains bound, Term.var_shows_iff] at below
      obtain ⟨rfl, rfl⟩ := below
      rw [List.append_nil]
      exact ⟨t, q, .kept here bound, here⟩
    | true =>
      obtain ⟨b, member, same⟩ := exists_mem_of_contains bound
      rw [image_of_mem member same] at below
      exact ⟨b.2, r, .image here member same r, below⟩
  · rintro ⟨u, q, taken, there⟩
    cases taken with
    | kept here free =>
      obtain rfl := here.unique there
      refine ⟨p, [], _, (List.append_nil p).symm, here, ?_⟩
      rw [image_of_not_contains free]
      exact Term.var_shows_iff.2 ⟨rfl, rfl⟩
    | image here member same =>
      refine ⟨_, q, _, rfl, here, ?_⟩
      rw [image_of_mem member same]
      exact there

end Substitution

/-- Where the instances come from when a term is put in at the position: outside it they are the old
term's, at and below it the new one's. -/
inductive Term.ReplacementSource (t : Term Variable) (p : Position) (r : Term Variable) :
    InstanceSource where
  | outside {q : Position} (outside : p.isAbove q = false) : ReplacementSource t p r q t q
  | inside (q : Position) : ReplacementSource t p r (p ++ q) r q

/-- Where an application stands, no variable does. -/
theorem Term.not_shows_of_root? {t u : Term Variable} {p : Position} {f : FunctionSymbol}
    {v : Variable} (found : t.subtermAt p = .ok u) (root : u.root? = some f) : ¬ t.Shows p v := by
  intro here
  obtain rfl := Except.ok.inj (found.symm.trans here)
  cases root

namespace Term

variable {t r t' : Term Variable} {p q : Position} {w : Variable}

theorem Replaced.shows_outside (replaced : Replaced t p r t') (outside : p.isAbove q = false) :
    t'.Shows q w ↔ t.Shows q w := by
  cases above : q.isAbove p with
  | false => rw [Shows, replaced.apart q outside above, Shows]
  | true =>
    obtain ⟨s, rfl⟩ := Position.isAbove_iff.1 above
    have further : s ≠ [] := by
      rintro rfl
      rw [List.append_nil] at outside above
      exact absurd (outside.symm.trans above) Bool.false_ne_true
    obtain ⟨u, u', found, -, found', f, root, root'⟩ := replaced.above q s rfl further
    exact iff_of_false (not_shows_of_root? found' root') (not_shows_of_root? found root)

theorem replaceAt_carries (done : t.replaceAt p r = .ok t') :
    t'.Carries (t.ReplacementSource p r) := by
  have replaced := replaced_of_replace? (replaceAt_eq_ok_iff.1 done)
  refine carries_of_shows_iff fun q w => ⟨fun here => ?_, ?_⟩
  · cases inside : p.isAbove q with
    | false => exact ⟨t, q, .outside inside, (replaced.shows_outside inside).1 here⟩
    | true =>
      obtain ⟨s, rfl⟩ := Position.isAbove_iff.1 inside
      exact ⟨r, s, .inside s, (replaced.below s _).1 here⟩
  · rintro ⟨u, s, taken, there⟩
    cases taken with
    | outside outside => exact (replaced.shows_outside outside).2 there
    | inside => exact (replaced.below s _).2 there

end Term

namespace Substitution

/-- Where the instances in the term of a key of a composition come from: the inner substitution's
bindings are looked up first and changed as by applying the outer one, and a term that only the
outer one has stays as it is. -/
inductive CompositeSource (outer inner : Substitution Variable) (key : Variable) :
    InstanceSource where
  | inner {a : Variable × Term Variable} {p : Position} {u : Term Variable} {q : Position}
      (member : a ∈ inner.toList) (same : (a.1 == key) = true) (taken : outer.Source a.2 p u q) :
      CompositeSource outer inner key p u q
  | outer {b : Variable × Term Variable} (free : inner.contains key = false)
      (member : b ∈ outer.toList) (same : (b.1 == key) = true) (p : Position) :
      CompositeSource outer inner key p b.2 p

/-- The keys of a composition are the inner substitution's instances, and the outer one's where the
inner one binds no equal variable; the instances in its terms have their sources too. -/
structure Composite (outer inner c : Substitution Variable) : Prop where
  keys : ∀ v, v ∈ c.domain ↔
    v ∈ inner.domain ∨ inner.contains v = false ∧ v ∈ outer.domain
  terms : ∀ b ∈ c.toList, b.2.Carries (outer.CompositeSource inner b.1)
  draws : ∀ calls, ∀ w ∈ c.domain, ∃ v,
    (v ∈ inner.domain ∨ inner.contains w = false ∧ v ∈ outer.domain) ∧
    w.sameInstance v = true ∧ (History.of calls).pools.DrawsFrom v w

section
variable {outer inner : Substitution Variable}

theorem mem_domain_compose {v : Variable} :
    v ∈ (outer.compose inner).domain ↔
      v ∈ inner.domain ∨ inner.contains v = false ∧ v ∈ outer.domain := by
  show v ∈ (outer.compose inner).toList.map (·.1) ↔
    v ∈ inner.toList.map (·.1) ∨ inner.contains v = false ∧ v ∈ outer.toList.map (·.1)
  simp only [List.mem_map, mem_toList_compose]
  constructor
  · rintro ⟨b, ⟨a, member, rfl⟩ | ⟨member, free⟩, rfl⟩
    · exact .inl ⟨a, member, rfl⟩
    · exact .inr ⟨free, b, member, rfl⟩
  · rintro (⟨a, member, rfl⟩ | ⟨free, b, member, rfl⟩)
    · exact ⟨(a.1, outer.apply a.2), .inl ⟨a, member, rfl⟩, rfl⟩
    · exact ⟨b, .inr ⟨member, free⟩, rfl⟩

theorem carries_of_mem_compose {b : Variable × Term Variable}
    (member : b ∈ (outer.compose inner).toList) :
    b.2.Carries (outer.CompositeSource inner b.1) := by
  refine Term.carries_of_shows_iff fun p w => ?_
  rcases mem_toList_compose.1 member with ⟨a, held, rfl⟩ | ⟨held, free⟩
  · -- The binding of an equal key of the inner substitution is this very one.
    rw [(outer.apply_carries a.2).shows_iff]
    constructor
    · rintro ⟨u, q, taken, there⟩
      exact ⟨u, q, .inner held BEq.rfl taken, there⟩
    · rintro ⟨u, q, taken, there⟩
      cases taken with
      | inner held' same taken =>
        obtain rfl := Table.eq_of_mem held' held same
        exact ⟨u, q, taken, there⟩
      | outer free => exact absurd (contains_of_mem held BEq.rfl) (Bool.eq_false_iff.1 free)
  · constructor
    · exact fun here => ⟨b.2, p, .outer free held BEq.rfl p, here⟩
    · rintro ⟨u, q, taken, there⟩
      cases taken with
      | inner held' same => exact absurd (contains_of_mem held' same) (Bool.eq_false_iff.1 free)
      | outer free held' same =>
        obtain rfl := Table.eq_of_mem held' held same
        exact there

theorem composite_compose (outer inner : Substitution Variable) :
    Composite outer inner (outer.compose inner) where
  keys _ := mem_domain_compose
  terms _ := carries_of_mem_compose
  draws calls w member := ⟨w, mem_domain_compose.1 member, Variable.sameInstance_iff.2 rfl,
    Registry.drawsFrom_self calls w⟩

end

end Substitution

/-- Applying a substitution, to a term or to an application alone, putting a term in, and composing
substitutions all carry the instances of their inputs over. -/
theorem instances_carried :
    (∀ (s : Substitution Variable) (t : Term Variable), (s.apply t).Carries (s.Source t)) ∧
    (∀ (s : Substitution Variable) (a : Application Variable),
      (s.applyToArgs a).toTerm.Carries (s.Source a.toTerm)) ∧
    (∀ (t : Term Variable) (p : Position) (r t' : Term Variable), t.replaceAt p r = .ok t' →
      t'.Carries (t.ReplacementSource p r)) ∧
    ∀ outer inner : Substitution Variable,
      Substitution.Composite outer inner (outer.compose inner) := by
  refine ⟨Substitution.apply_carries, fun s a => ?_, fun t p r t' => Term.replaceAt_carries,
    Substitution.composite_compose⟩
  rw [Substitution.toTerm_applyToArgs]
  exact s.apply_carries a.toTerm

/-- Equal variables of two pools. The image of one brings in the instance of the other pool, which
stands where the first one stood, and a composition keeps the inner key. -/
theorem instances_carried_two_pools :
    let x (pool : PoolId) : Variable := ⟨⟨"x", none⟩, .issued pool 0⟩
    let g (v : Variable) : Term Variable := .app ⟨"g", 1, by decide⟩ [.var v]
    let t : Term Variable := .app ⟨"f", 2, by decide⟩ [.var (x 1), .const ⟨"a"⟩]
    let s : Substitution Variable := .single (x 0) (g (x 0))
    let inner : Substitution Variable := .single (x 1) (.const ⟨"a"⟩)
    let calls : List Call := [.openPool {}, .openPool {}, .get 0 "x", .get 1 "x"]
    (t.Shows [0] (x 1) ∧ (s.apply t).Shows [0, 0] (x 0) ∧
      ∃ u q v, s.Source t [0, 0] u q ∧ u.Shows q v ∧ (x 0).sameInstance v = true ∧
        (History.of calls).pools.DrawsFrom v (x 0)) ∧
    (∃ t', t.replaceAt [1] (g (x 0)) = .ok t' ∧ t'.Carries (t.ReplacementSource [1] (g (x 0)))) ∧
    (s.compose inner).domain = [x 1] ∧ ∃ v,
      (v ∈ inner.domain ∨ inner.contains (x 1) = false ∧ v ∈ s.domain) ∧
      (x 1).sameInstance v = true ∧ (History.of calls).pools.DrawsFrom v (x 1) := by
  intro x g t s inner calls
  obtain ⟨applied, -, putIn, composed⟩ := instances_carried
  have below : (s.apply t).Shows [0, 0] (x 0) := rfl
  have keys : (s.compose inner).domain = [x 1] := rfl
  have key : x 1 ∈ (s.compose inner).domain := keys ▸ List.mem_singleton_self (x 1)
  exact ⟨⟨rfl, below, (applied s t).draws calls [0, 0] (x 0) below⟩,
    ⟨_, rfl, putIn t [1] (g (x 0)) _ rfl⟩, keys, (composed s inner).draws calls (x 1) key⟩

end TermAlgebra
