import TermAlgebra.Proofs.PoolCalls
/-!
Histories of calls on open pools, in the order in which the calls take a pool's lock: whose calls
they are and through which handle or variable they come makes no difference to a pool, so every
interleaving of clients is such a history. `accounted` says that after any history the counter of a
name is what the indices handed out for that name have made of it, and that the fresh ones among
them have come in rising order.
-/
namespace TermAlgebra

/-- A call with its reply. -/
structure Event where
  call : Call
  reply : Reply

/-- The events so far, the latest last, and the pools as they are now. -/
structure History where
  events : List Event
  pools : Registry

namespace History

/-- Nothing has happened. -/
def start : History := ⟨[], .empty⟩

/-- One more call. -/
def next (h : History) (c : Call) : History :=
  ⟨h.events ++ [⟨c, (h.pools.perform c).1⟩], (h.pools.perform c).2⟩

/-- The history that some calls make, one after another. -/
def of (calls : List Call) : History := calls.foldl next start

theorem of_append_singleton (calls : List Call) (c : Call) :
    of (calls ++ [c]) = (of calls).next c := by
  rw [of, of, List.foldl_append, List.foldl_cons, List.foldl_nil]

theorem of_append (calls more : List Call) : of (calls ++ more) = more.foldl next (of calls) :=
  List.foldl_append

/-- What has happened stays in the history. -/
theorem events_isPrefix (h : History) (more : List Call) :
    h.events <+: (more.foldl next h).events := by
  induction more generalizing h with
  | nil => exact List.prefix_rfl
  | cons c rest ih =>
    have oneMore : h.events <+: (h.next c).events := List.prefix_append _ _
    exact oneMore.trans (ih (h.next c))

/-- Induction over histories by their latest call. -/
theorem of_induction {motive : History → Prop} (atStart : motive start)
    (step : ∀ h c, motive h → motive (h.next c)) (calls : List Call) : motive (of calls) := by
  suffices ∀ h, motive h → motive (calls.foldl next h) from this start atStart
  induction calls with
  | nil => exact fun h held => held
  | cons c rest ih => exact fun h held => ih (h.next c) (step h c held)

end History

/-- The variable of a pool that an event hands out. -/
def Event.issued? (id : PoolId) (e : Event) : Option Variable :=
  e.reply.var?.filter fun v => v.origin.pool? == some id

/-- The index of a name that an event hands out. -/
def Event.index? (id : PoolId) (name : String) (e : Event) : Option UInt64 :=
  (e.issued? id).bind fun v => if v.label.name = name then v.label.index else none

/-- The index of a name that an event draws as a fresh one. -/
def Event.drawn? (id : PoolId) (name : String) (e : Event) : Option UInt64 :=
  if e.call.isFresh then e.index? id name else none

namespace History

/-- The variables that a pool has handed out, in order. -/
def issued (h : History) (id : PoolId) : List Variable := h.events.filterMap (Event.issued? id)

/-- The indices of a name that a pool has issued or reserved, in order. An index is reserved by the
very call that hands out the variable bearing it. -/
def taken (h : History) (id : PoolId) (name : String) : List UInt64 :=
  h.events.filterMap (Event.index? id name)

/-- The indices among them that were handed out as fresh ones. -/
def drawn (h : History) (id : PoolId) (name : String) : List UInt64 :=
  h.events.filterMap (Event.drawn? id name)

end History

/-! ## What a history makes of the counters -/

namespace Counter

/-- One more than the largest of some indices, or zero if there are none. -/
def above (indices : List UInt64) : Nat := indices.foldr (fun i n => max (i.toNat + 1) n) 0

theorem lt_above {i : UInt64} {indices : List UInt64} (member : i ∈ indices) :
    i.toNat < above indices := by
  induction indices with
  | nil => cases member
  | cons j rest ih =>
    simp only [above, List.foldr_cons]
    rcases List.mem_cons.1 member with rfl | member
    · omega
    · have := ih member
      simp only [above] at this
      omega

theorem above_eq_size_iff (indices : List UInt64) :
    above indices = UInt64.size ↔ lastIndex ∈ indices := by
  have lastBound : lastIndex.toNat + 1 = UInt64.size := by decide
  constructor
  · induction indices with
    | nil => exact fun reached => absurd reached (by decide)
    | cons j rest ih =>
      intro reached
      simp only [above, List.foldr_cons] at reached ih
      by_cases here : j.toNat + 1 = UInt64.size
      · have isLast : j = lastIndex := UInt64.toNat_inj.1 (by omega)
        exact isLast ▸ List.mem_cons_self
      · have := j.toNat_lt_size
        exact List.mem_cons_of_mem _ (ih (by omega))
  · intro member
    have below := lt_above member
    have atMost : above indices ≤ UInt64.size := by
      clear member below
      induction indices with
      | nil => exact Nat.zero_le _
      | cons j rest ih =>
        have := j.toNat_lt_size
        simp only [above, List.foldr_cons] at ih ⊢
        omega
    omega

theorem bound_foldl_reserve (indices : List UInt64) (c : Counter) :
    (indices.foldl reserve c).bound = max c.bound (above indices) := by
  induction indices generalizing c with
  | nil => exact (Nat.max_eq_left (Nat.zero_le _)).symm
  | cons i rest ih =>
    rw [List.foldl_cons, ih, bound_reserve]
    simp only [above, List.foldr_cons]
    omega

theorem bound_of_next {c : Counter} {i : UInt64} (next : c.next = some i) : c.bound = i.toNat := by
  rw [bound, next]

theorem next_eq_none_iff (c : Counter) : c.next = none ↔ c.bound = UInt64.size := by
  unfold bound
  cases next : c.next with
  | none => simp
  | some i =>
    have := i.toNat_lt_size
    simp only [reduceCtorEq, false_iff]
    omega

end Counter

namespace Event

theorem index?_of_silent {id : PoolId} {name : String} {e : Event} (silent : e.reply.var? = none) :
    e.index? id name = none := by
  simp [index?, issued?, silent]

theorem index?_of_plain {id : PoolId} {name : String} {e : Event}
    (plain : ∀ v, e.reply.var? = some v → v.label.index = none) : e.index? id name = none := by
  cases given : e.reply.var? with
  | none => exact index?_of_silent given
  | some v =>
    by_cases own : v.origin.pool? = some id
    · simp [index?, issued?, given, own, plain v given]
    · simp [index?, issued?, given, own]

theorem index?_of_takes {id pool : PoolId} {name other : String} {c : Call} {i : UInt64}
    {serial : Nat} :
    index? id name ⟨c, .var ⟨⟨other, some i⟩, .issued pool serial⟩⟩ =
      if pool = id ∧ other = name then some i else none := by
  by_cases own : pool = id <;> by_cases same : other = name <;>
    simp [index?, issued?, Reply.var?, Option.filter, Origin.pool?, own, same]

end Event

namespace History

theorem filterMap_snoc {α : Type} (f : Event → Option α) (events : List Event) (e : Event) :
    (events ++ [e]).filterMap f = events.filterMap f ++ (f e).toList := by
  rw [List.filterMap_append]
  cases given : f e with
  | none => rw [List.filterMap_cons_none given, List.filterMap_nil, Option.toList_none]
  | some a => rw [List.filterMap_cons_some given, List.filterMap_nil, Option.toList_some]

theorem issued_append (events : List Event) (e : Event) (before after : Registry) (id : PoolId) :
    issued ⟨events ++ [e], after⟩ id = issued ⟨events, before⟩ id ++ (e.issued? id).toList :=
  filterMap_snoc _ events e

theorem taken_append (events : List Event) (e : Event) (before after : Registry) (id : PoolId)
    (name : String) : taken ⟨events ++ [e], after⟩ id name =
      taken ⟨events, before⟩ id name ++ (e.index? id name).toList :=
  filterMap_snoc _ events e

theorem drawn_append (events : List Event) (e : Event) (before after : Registry) (id : PoolId)
    (name : String) : drawn ⟨events ++ [e], after⟩ id name =
      drawn ⟨events, before⟩ id name ++ (e.drawn? id name).toList :=
  filterMap_snoc _ events e

/-- The index on a variable that was handed out is taken. -/
theorem taken_of_issued {h : History} {id : PoolId} {v : Variable} {i : UInt64}
    (member : v ∈ h.issued id) (indexed : v.label.index = some i) :
    i ∈ h.taken id v.label.name := by
  obtain ⟨e, happened, given⟩ := List.mem_filterMap.1 member
  refine List.mem_filterMap.2 ⟨e, happened, ?_⟩
  rw [Event.index?, given, Option.bind_some, if_pos rfl, indexed]

theorem origin_of_issued {h : History} {id : PoolId} {v : Variable} (member : v ∈ h.issued id) :
    v.origin.pool? = some id := by
  obtain ⟨e, -, given⟩ := List.mem_filterMap.1 member
  have own := (Option.filter_eq_some_iff.1 given).2
  exact eq_of_beq own

/-- Variables that were handed out stay handed out. -/
theorem issued_mono {h : History} (more : List Call) {id : PoolId} {v : Variable}
    (member : v ∈ h.issued id) : v ∈ (more.foldl next h).issued id :=
  ((h.events_isPrefix more).filterMap _).mem member

/-- Indices that were handed out stay handed out. -/
theorem taken_mono {h : History} (more : List Call) {id : PoolId} {name : String} {i : UInt64}
    (member : i ∈ h.taken id name) : i ∈ (more.foldl next h).taken id name :=
  ((h.events_isPrefix more).filterMap _).mem member

theorem taken_of_drawn {h : History} {id : PoolId} {name : String} {i : UInt64}
    (member : i ∈ h.drawn id name) : i ∈ h.taken id name := by
  obtain ⟨e, happened, given⟩ := List.mem_filterMap.1 member
  refine List.mem_filterMap.2 ⟨e, happened, ?_⟩
  unfold Event.drawn? at given
  split at given
  · exact given
  · cases given

/-- Every open pool was opened in the history with the configuration it has, and counts what the
history shows it to have handed out; fresh indices have come in rising order. -/
structure Accounted (h : History) : Prop where
  sound : h.pools.Sound
  unopened : ∀ id, h.pools.opened ≤ id → ∀ name, h.taken id name = []
  opening : ∀ id p, h.pools.find? id = some p → ⟨.openPool p.config, .handle id⟩ ∈ h.events
  counters : ∀ id p, h.pools.find? id = some p → ∀ name,
    p.counter name = (h.taken id name).foldl Counter.reserve (.startingAt p.config.firstIndex)
  rising : ∀ id name, (h.drawn id name).Pairwise (· < ·)

/-- The counter of an open pool, against all that the history shows. -/
theorem Accounted.bound {h : History} (held : h.Accounted) {id : PoolId} {p : Pool}
    (found : h.pools.find? id = some p) (name : String) :
    (p.counter name).bound = max p.config.firstIndex.toNat (Counter.above (h.taken id name)) := by
  rw [held.counters id p found name, Counter.bound_foldl_reserve]
  rfl

theorem Accounted.exhausted_iff {h : History} (held : h.Accounted) {id : PoolId} {p : Pool}
    (found : h.pools.find? id = some p) (name : String) :
    (p.counter name).next = none ↔ lastIndex ∈ h.taken id name := by
  have firstBelow := p.config.firstIndex.toNat_lt_size
  rw [Counter.next_eq_none_iff, held.bound found name, ← Counter.above_eq_size_iff]
  constructor
  · intro reached
    omega
  · intro reached
    omega

/-- The next index lies above every index taken so far. -/
theorem Accounted.lt_next {h : History} (held : h.Accounted) {id : PoolId} {p : Pool}
    (found : h.pools.find? id = some p) {name : String} {i j : UInt64}
    (next : (p.counter name).next = some i) (member : j ∈ h.taken id name) : j < i := by
  have below := Counter.lt_above member
  have bound := held.bound found name
  rw [Counter.bound_of_next next] at bound
  exact UInt64.lt_iff_toNat_lt.2 (by omega)

/-- An event that hands out no index leaves the account of every index as it was. -/
private theorem account_of_none {h : History} {e : Event} (q : Registry)
    (none : ∀ id name, e.index? id name = none) :
    (∀ id name, taken ⟨h.events ++ [e], q⟩ id name = h.taken id name) ∧
    ∀ id name, drawn ⟨h.events ++ [e], q⟩ id name = h.drawn id name := by
  refine ⟨fun id name => ?_, fun id name => ?_⟩
  · rw [taken_append h.events e h.pools, none]
    exact List.append_nil _
  · have drawNone : e.drawn? id name = .none := by
      unfold Event.drawn?
      rw [none]
      exact ite_self _
    rw [drawn_append h.events e h.pools, drawNone]
    exact List.append_nil _

theorem Accounted.opens {h : History} (held : h.Accounted) (config : Pool.Config) :
    Accounted ⟨h.events ++ [⟨.openPool config, .handle h.pools.opened⟩],
      (h.pools.openPool config).2⟩ := by
  have latest : (⟨.openPool config, .handle h.pools.opened⟩ : Event) ∈
      h.events ++ [⟨.openPool config, .handle h.pools.opened⟩] := by simp
  obtain ⟨taken, drawn⟩ := account_of_none (h := h)
    (e := ⟨.openPool config, .handle h.pools.opened⟩) (h.pools.openPool config).2
    fun _ _ => Event.index?_of_silent rfl
  constructor
  case sound =>
    intro id p found
    rw [Registry.find?_openPool] at found
    split at found
    · rename_i new
      obtain rfl := Option.some.inj found
      refine ⟨rfl, Nat.lt_succ_of_le (Nat.le_of_eq new), fun name state known => ?_⟩
      cases known
    · obtain ⟨own, below, kept⟩ := held.sound id p found
      exact ⟨own, Nat.lt_succ_of_lt below, kept⟩
  case unopened =>
    intro id late name
    rw [taken]
    exact held.unopened id (Nat.le_of_succ_le late) name
  case opening =>
    intro id p found
    rw [Registry.find?_openPool] at found
    split at found
    · rename_i new
      obtain rfl := Option.some.inj found
      exact new ▸ latest
    · exact List.mem_append_left _ (held.opening id p found)
  case counters =>
    intro id p found name
    rw [Registry.find?_openPool] at found
    rw [taken]
    split at found
    · rename_i new
      obtain rfl := Option.some.inj found
      rw [held.unopened id (Nat.le_of_eq new.symm)]
      rfl
    · exact held.counters id p found name
  case rising =>
    intro id name
    rw [drawn]
    exact held.rising id name

theorem Accounted.handles {h : History} (held : h.Accounted) {c : Call} {reply : Reply}
    {q : Registry} (silent : reply.var? = none) (opened : q.opened = h.pools.opened)
    (pools : ∀ id, q.find? id = h.pools.find? id ∨ q.find? id = none) :
    Accounted ⟨h.events ++ [⟨c, reply⟩], q⟩ := by
  obtain ⟨taken, drawn⟩ := account_of_none (h := h) (e := ⟨c, reply⟩) q
    fun _ _ => Event.index?_of_silent silent
  have before : ∀ {id p}, q.find? id = some p → h.pools.find? id = some p := by
    intro id p found
    rcases pools id with same | closed
    · exact same ▸ found
    · rw [closed] at found
      cases found
  constructor
  case sound =>
    intro id p found
    obtain ⟨own, below, kept⟩ := held.sound id p (before found)
    exact ⟨own, opened ▸ below, kept⟩
  case unopened =>
    intro id late name
    rw [taken]
    exact held.unopened id (opened ▸ late) name
  case opening =>
    intro id p found
    exact List.mem_append_left _ (held.opening id p (before found))
  case counters =>
    intro id p found name
    rw [taken]
    exact held.counters id p (before found) name
  case rising =>
    intro id name
    rw [drawn]
    exact held.rising id name

/-- What a pool's continuation under the same number leaves of the account: all but the counters. -/
private theorem sound_update {h : History} (held : h.Accounted) {p q : Pool}
    (found : h.pools.find? p.id = some p) (continues : p.Continues q) :
    (∀ id, (h.pools.update q).find? id = if p.id = id then some q else h.pools.find? id) ∧
    (h.pools.update q).Sound ∧
    ∀ id p', (h.pools.update q).find? id = some p' →
      ⟨.openPool p'.config, .handle id⟩ ∈ h.events := by
  have lookup : ∀ id, (h.pools.update q).find? id =
      if p.id = id then some q else h.pools.find? id := by
    rw [← continues.id] at found ⊢
    exact Registry.find?_update found
  obtain ⟨-, below, kept⟩ := held.sound p.id p found
  refine ⟨lookup, fun id p' found' => ?_, fun id p' found' => ?_⟩
  · rw [Registry.opened_update]
    rw [lookup] at found'
    split at found'
    · rename_i same
      obtain rfl := Option.some.inj found'
      exact ⟨continues.id.trans same, same ▸ below, continues.canonical kept⟩
    · exact held.sound id p' found'
  · rw [lookup] at found'
    split at found'
    · rename_i same
      obtain rfl := Option.some.inj found'
      rw [continues.config, ← same]
      exact held.opening p.id p found
    · exact held.opening id p' found'

/-- An index that a reply hands out is taken of its own pool and name, and of no others. -/
private theorem taken_of_takes {h : History} (c : Call) (pool : PoolId) (name : String)
    (index : UInt64) (serial : Nat) (q : Registry) (id : PoolId) (other : String) :
    taken ⟨h.events ++ [⟨c, .var ⟨⟨name, some index⟩, .issued pool serial⟩⟩], q⟩ id other =
      if pool = id ∧ name = other then h.taken id other ++ [index] else h.taken id other := by
  rw [taken_append h.events _ h.pools, Event.index?_of_takes]
  by_cases here : pool = id ∧ name = other
  · rw [if_pos here, if_pos here]
    rfl
  · rw [if_neg here, if_neg here]
    exact List.append_nil _

private theorem drawn_of_takes {h : History} (c : Call) (pool : PoolId) (name : String)
    (index : UInt64) (serial : Nat) (q : Registry) (id : PoolId) (other : String) :
    drawn ⟨h.events ++ [⟨c, .var ⟨⟨name, some index⟩, .issued pool serial⟩⟩], q⟩ id other =
      if c.isFresh = true ∧ pool = id ∧ name = other then h.drawn id other ++ [index]
      else h.drawn id other := by
  rw [drawn_append h.events _ h.pools, Event.drawn?, Event.index?_of_takes]
  by_cases fresh : c.isFresh = true
  · by_cases here : pool = id ∧ name = other
    · rw [if_pos fresh, if_pos here, if_pos ⟨fresh, here⟩]
      rfl
    · rw [if_pos fresh, if_neg here, if_neg fun all => here all.2]
      exact List.append_nil _
  · rw [if_neg fresh, if_neg fun all => fresh all.1]
    exact List.append_nil _

theorem Accounted.quiet {h : History} (held : h.Accounted) {c : Call} {p q : Pool} {reply : Reply}
    (found : h.pools.find? p.id = some p) (continues : p.Continues q)
    (plain : ∀ v, reply.var? = some v → v.label.index = none)
    (counters : ∀ name, q.counter name = p.counter name) :
    Accounted ⟨h.events ++ [⟨c, reply⟩], h.pools.update q⟩ := by
  obtain ⟨lookup, sound, opening⟩ := sound_update held found continues
  obtain ⟨taken, drawn⟩ := account_of_none (h := h) (e := ⟨c, reply⟩) (h.pools.update q)
    fun _ _ => Event.index?_of_plain plain
  constructor
  case sound => exact sound
  case unopened =>
    intro id late name
    rw [taken]
    exact held.unopened id (Registry.opened_update q ▸ late) name
  case opening =>
    intro id p' found'
    exact List.mem_append_left _ (opening id p' found')
  case counters =>
    intro id p' found' name
    rw [taken]
    rw [lookup] at found'
    split at found'
    · rename_i same
      obtain rfl := Option.some.inj found'
      rw [counters, continues.config, ← same]
      exact held.counters p.id p found name
    · exact held.counters id p' found' name
  case rising =>
    intro id name
    rw [drawn]
    exact held.rising id name

theorem Accounted.takes {h : History} (held : h.Accounted) {c : Call} {p q : Pool}
    (found : h.pools.find? p.id = some p) (continues : p.Continues q) {name : String}
    {index : UInt64} (serial : Nat)
    (lowest : c.isFresh = true → (p.counter name).next = some index)
    (counters : ∀ other, q.counter other =
      if other = name then (p.counter name).reserve index else p.counter other) :
    Accounted ⟨h.events ++ [⟨c, .var ⟨⟨name, some index⟩, .issued p.id serial⟩⟩],
      h.pools.update q⟩ := by
  obtain ⟨lookup, sound, opening⟩ := sound_update held found continues
  obtain ⟨-, below, -⟩ := held.sound p.id p found
  constructor
  case sound => exact sound
  case unopened =>
    intro id late other
    rw [Registry.opened_update] at late
    have elsewhere : ¬(p.id = id ∧ name = other) := fun ⟨same, _⟩ =>
      absurd late (Nat.not_le.2 (same ▸ below))
    rw [taken_of_takes, if_neg elsewhere]
    exact held.unopened id late other
  case opening =>
    intro id p' found'
    exact List.mem_append_left _ (opening id p' found')
  case counters =>
    intro id p' found' other
    rw [taken_of_takes]
    rw [lookup] at found'
    split at found'
    · rename_i same
      obtain rfl := Option.some.inj found'
      subst same
      rw [counters, continues.config]
      by_cases here : name = other
      · subst here
        rw [if_pos rfl, if_pos ⟨rfl, rfl⟩, held.counters p.id p found name, List.foldl_append]
        rfl
      · rw [if_neg (Ne.symm here), if_neg fun both => here both.2]
        exact held.counters p.id p found other
    · rename_i elsewhere
      rw [if_neg fun both => elsewhere both.1]
      exact held.counters id p' found' other
  case rising =>
    intro id other
    rw [drawn_of_takes]
    split
    · rename_i here
      obtain ⟨fresh, rfl, rfl⟩ := here
      refine List.pairwise_append.2 ⟨held.rising p.id name, List.pairwise_singleton _ _, ?_⟩
      intro i member j same
      obtain rfl := List.mem_singleton.1 same
      exact held.lt_next found (lowest fresh) (taken_of_drawn member)
    · exact held.rising id other

theorem Accounted.next {h : History} (held : h.Accounted) (c : Call) : (h.next c).Accounted := by
  have effect := Registry.perform_effect held.sound c
  unfold History.next
  generalize h.pools.perform c = answer at effect
  obtain ⟨reply, pools⟩ := answer
  cases effect with
  | opens config call =>
    subst call
    exact held.opens config
  | handles silent opened pools => exact held.handles silent opened pools
  | asks found effect =>
    cases effect with
    | quiet continues plain counters => exact held.quiet found continues plain counters
    | takes continues name index serial lowest counters =>
      exact held.takes found continues serial lowest counters

theorem Accounted.start : Accounted start where
  sound _ _ found := by cases found
  unopened _ _ _ := rfl
  opening _ _ found := by cases found
  counters _ _ found := by cases found
  rising _ _ := .nil

/-- Every history is accounted for. -/
theorem accounted (calls : List Call) : (of calls).Accounted :=
  of_induction Accounted.start (fun _ c held => held.next c) calls

end History

end TermAlgebra
