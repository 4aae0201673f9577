import TermAlgebra.Proofs.PoolHistory
/-!
The fresh indices of a name. At every moment of every history the next index of a name lies just
above all that its pool has issued or reserved for it, and not below the pool's first index; there
is none exactly when the last index is gone. Every way of asking for a fresh variable gets that
index, or fails and changes nothing.
-/
namespace TermAlgebra

/-- The calls that ask a pool for a fresh variable of a name: by the name, without a name, or
through a variable that the pool has issued, alone or as a term or a symbol. -/
inductive AsksFresh (p : Pool) : String → Call → Prop where
  | byName (name : String) : AsksFresh p name (.getFresh p.id name)
  | byPool : AsksFresh p p.config.anonymousName (.freshOfPool p.id)
  | byVar (v : Variable) (own : v.origin.pool? = some p.id) :
      AsksFresh p v.label.name (.freshOfVar v)
  | byTerm (v : Variable) (own : v.origin.pool? = some p.id) :
      AsksFresh p v.label.name (.freshOfTerm (.var v))
  | bySymbol (v : Variable) (own : v.origin.pool? = some p.id) :
      AsksFresh p v.label.name (.freshOfSymbol (.var v))

namespace Registry

variable {r : Registry} {p : Pool}

theorem ask_of_find? {id : PoolId} (found : r.find? id = some p) (f : Pool → Reply × Pool) :
    r.ask id f = ((f p).1, r.update (f p).2) := by
  rw [ask, found]

theorem fresh_of_find? {v : Variable} (found : r.find? p.id = some p)
    (own : v.origin.pool? = some p.id) :
    r.fresh v = ((p.getFresh v.label.name).1, r.update (p.getFresh v.label.name).2) := by
  have bound : r.poolOf? v = some p := by rw [poolOf?, own, Option.bind_some, found]
  rw [Registry.fresh, bound]

/-- Whichever way it is made, a request for a fresh variable is answered by the pool's draw. -/
theorem perform_of_asksFresh {name : String} {c : Call} (found : r.find? p.id = some p)
    (asks : AsksFresh p name c) :
    r.perform c = (.ofDrawn (p.getFresh name).1, r.update (p.getFresh name).2) := by
  cases asks with
  | byName name => rw [perform, ask_of_find? found]
  | byPool =>
    rw [perform, ask_of_find? found]
    rfl
  | byVar v own =>
    rw [perform, fresh_of_find? found own]
  | byTerm v own =>
    have drawn : r.freshOfTerm (.var v) = r.fresh v := rfl
    rw [perform, drawn, fresh_of_find? found own]
  | bySymbol v own =>
    have drawn : r.freshOfSymbol (.var v) = r.fresh v := rfl
    rw [perform, drawn, fresh_of_find? found own]

end Registry

namespace Pool

theorem getIndexed_fst (p : Pool) (name : String) (index : UInt64) :
    ∃ serial, (p.getIndexed name index).1 = ⟨⟨name, some index⟩, .issued p.id serial⟩ :=
  ⟨_, by
    rw [← (p.reserve_spec name index).1.id]
    rfl⟩

theorem getFresh_fst_of_next {p : Pool} {name : String} {index : UInt64}
    (next : (p.counter name).next = some index) :
    ∃ serial, (p.getFresh name).1 = .ok ⟨⟨name, some index⟩, .issued p.id serial⟩ := by
  obtain ⟨serial, drawn⟩ := (p.mention name).2.getIndexed_fst name index
  rw [(p.mention_spec name).1.id] at drawn
  refine ⟨serial, ?_⟩
  rw [getFresh_of_next next, drawn]

end Pool

/-- What is so of the indices of a name at a moment when its pool is open, and `next` is the answer
to the question for the next index. -/
structure IndexLaw (h : History) (id : PoolId) (p : Pool) (name : String) (next : Option UInt64) :
    Prop where
  /-- The configuration is the one with which the pool was opened. -/
  configured : ⟨.openPool p.config, .handle id⟩ ∈ h.events
  answer : (h.pools.perform (.nextIndex id name)).1 = .index next
  none_iff : next = none ↔ lastIndex ∈ h.taken id name
  least : ∀ i, next = some i →
    i.toNat = max p.config.firstIndex.toNat (Counter.above (h.taken id name))
  unused : ∀ i, next = some i → ∀ j ∈ h.taken id name, j < i
  /-- Reserving an index is handing out a variable that bears it. -/
  reserves : ∀ i, ∃ serial, (h.pools.perform (.getIndexed id name i)).1 =
    .var ⟨⟨name, some i⟩, .issued id serial⟩
  draws : ∀ i, next = some i → ∀ c, AsksFresh p name c → ∃ serial,
    (h.pools.perform c).1 = .var ⟨⟨name, some i⟩, .issued id serial⟩
  fails : next = none → ∀ c, AsksFresh p name c →
    h.pools.perform c = (.failed (.indexExhausted name), h.pools)
  rising : (h.drawn id name).Pairwise (· < ·)
  stays : next = none → ∀ (more : List Call) (q : Pool),
    (more.foldl History.next h).pools.find? id = some q →
      ((more.foldl History.next h).pools.perform (.nextIndex id name)).1 = .index none

theorem Registry.nextIndex_reply {r : Registry} {id : PoolId} {p : Pool}
    (found : r.find? id = some p) (name : String) :
    (r.perform (.nextIndex id name)).1 = .index (p.counter name).next := by
  rw [perform, ask_of_find? found]
  exact congrArg Reply.index (p.nextIndex_fst name)

/-- After every history of calls on any pools, from any clients and through any handles and
variables, every name of every open pool obeys the law of indices. -/
theorem index_law (calls : List Call) (id : PoolId) (p : Pool)
    (found : (History.of calls).pools.find? id = some p) (name : String) :
    ∃ next, IndexLaw (History.of calls) id p name next := by
  have held := History.accounted calls
  obtain ⟨rfl, -, -⟩ := held.sound id p found
  have exhausted := held.exhausted_iff found name
  refine ⟨(p.counter name).next, ?_⟩
  constructor
  case configured => exact held.opening p.id p found
  case answer => exact Registry.nextIndex_reply found name
  case none_iff => exact exhausted
  case least =>
    intro i next
    rw [← Counter.bound_of_next next]
    exact held.bound found name
  case unused =>
    intro i next j member
    exact held.lt_next found next member
  case reserves =>
    intro i
    obtain ⟨serial, drawn⟩ := p.getIndexed_fst name i
    refine ⟨serial, ?_⟩
    rw [Registry.perform, Registry.ask_of_find? found]
    exact congrArg Reply.var drawn
  case draws =>
    intro i next c asks
    obtain ⟨serial, drawn⟩ := Pool.getFresh_fst_of_next next
    rw [Registry.perform_of_asksFresh found asks, drawn]
    exact ⟨serial, rfl⟩
  case fails =>
    intro none c asks
    rw [Registry.perform_of_asksFresh found asks, Pool.getFresh_of_exhausted none,
      Registry.update_of_find? found]
    rfl
  case rising => exact held.rising p.id name
  case stays =>
    intro none more q found'
    have last := History.taken_mono more (exhausted.1 none)
    rw [← History.of_append] at found' last ⊢
    rw [Registry.nextIndex_reply found', ((History.accounted _).exhausted_iff found' name).2 last]

/-- The law where a name runs out: the last index but one is reserved, the last one is drawn through
a variable, and a smaller one is reserved after that. -/
theorem index_law_exhausted :
    let x : Variable := ⟨⟨"x", none⟩, .issued 0 0⟩
    let h := History.of [.openPool {}, .get 0 "x", .getIndexed 0 "x" 18446744073709551614,
      .freshOfVar x, .freshOfTerm (.var x), .getIndexed 0 "x" 5]
    ∃ p, h.pools.find? 0 = some p ∧ h.drawn 0 "x" = [lastIndex] ∧ IndexLaw h 0 p "x" none := by
  intro x h
  have opened : (h.pools.find? 0).isSome = true := by decide
  obtain ⟨p, found⟩ := Option.isSome_iff_exists.1 opened
  obtain ⟨next, law⟩ := index_law _ 0 p found "x"
  have exhausted : next = none := law.none_iff.2 (by decide)
  exact ⟨p, found, by decide, exhausted ▸ law⟩

end TermAlgebra
