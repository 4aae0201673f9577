import TermAlgebra.Proofs.PoolQuestions
/-!
The instances that a pool hands out. They are numbered on, so that a new one has a number that no
earlier one has, and the canonical variable of a name, once made, stays the same one (`Passes`).
`answer_hands` says which of the two each answer hands out. Over a history this makes two variables
the same instance only if both are the canonical one of the same name (`History.Instances`), however
many others were made in between and whatever has become of the counter.
-/
namespace TermAlgebra

/-- The call asks the pool for a variable with this label. Which index a fresh one gets is not in
the call. -/
inductive Call.Wants (p : Pool) : Call → Label → Prop where
  | canonical (name : String) : Wants p (.get p.id name) ⟨name, none⟩
  | indexed (name : String) (index : UInt64) :
      Wants p (.getIndexed p.id name index) ⟨name, some index⟩
  | fresh {name : String} {c : Call} (asks : AsksFresh p name c) (index : UInt64) :
      Wants p c ⟨name, some index⟩

namespace Pool

/-- The canonical variable of a name, if the pool has made it yet. -/
def canonical? (p : Pool) (name : String) : Option Variable :=
  (p.names.get? name).map (·.canonical)

/-- Canonical variables are the pool's own, each with a number that was given out, and no two have
the same one. -/
structure Numbered (p : Pool) : Prop where
  own : ∀ name v, p.canonical? name = some v →
    ∃ serial, serial < p.issued ∧ v = ⟨⟨name, none⟩, .issued p.id serial⟩
  distinct : ∀ name name' v v', p.canonical? name = some v → p.canonical? name' = some v' →
    v.origin = v'.origin → name = name'

/-- `q` is `p` at a later time, as far as instances go: the canonical variables stay, and those that
were made in the meantime have new numbers. -/
structure Passes (p q : Pool) : Prop where
  id : q.id = p.id
  issued : p.issued ≤ q.issued
  kept : ∀ name v, p.canonical? name = some v → q.canonical? name = some v
  made : ∀ name v, q.canonical? name = some v → p.canonical? name = some v ∨
    ∃ serial, p.issued ≤ serial ∧ v.origin = .issued p.id serial
  numbered : p.Numbered → q.Numbered

theorem Passes.refl (p : Pool) : p.Passes p :=
  ⟨rfl, Nat.le_refl _, fun _ _ held => held, fun _ _ held => .inl held, fun numbered => numbered⟩

theorem Passes.trans {p q r : Pool} (first : p.Passes q) (second : q.Passes r) : p.Passes r where
  id := second.id.trans first.id
  issued := Nat.le_trans first.issued second.issued
  kept name v held := second.kept name v (first.kept name v held)
  made name v held := by
    rcases second.made name v held with before | ⟨serial, new, own⟩
    · exact first.made name v before
    · exact .inr ⟨serial, Nat.le_trans first.issued new, first.id ▸ own⟩
  numbered := second.numbered ∘ first.numbered

/-- Instances may be made and counters changed as long as the canonical variables are left alone. -/
theorem Passes.of_canonical? {p q : Pool} (id : q.id = p.id) (issued : p.issued ≤ q.issued)
    (same : ∀ name, q.canonical? name = p.canonical? name) : p.Passes q where
  id := id
  issued := issued
  kept name v held := (same name).trans held
  made name v held := .inl ((same name).symm.trans held)
  numbered numbered := by
    constructor
    · intro name v held
      obtain ⟨serial, given, own⟩ := numbered.own name v ((same name).symm.trans held)
      exact ⟨serial, Nat.lt_of_lt_of_le given issued, id ▸ own⟩
    · intro name name' v v' held held'
      exact numbered.distinct name name' v v' ((same name).symm.trans held)
        ((same name').symm.trans held')

theorem canonical?_insert (p : Pool) (name other : String) (state : NameState) (issued : Nat) :
    canonical? ⟨p.id, p.config, p.names.insert name state, issued⟩ other =
      if name = other then some state.canonical else p.canonical? other := by
  by_cases same : name = other <;> simp [canonical?, Table.get?_insert, same]

/-- The number that comes next is on no canonical variable. -/
theorem Numbered.ne_next {p : Pool} (numbered : p.Numbered) {name : String} {v : Variable}
    (held : p.canonical? name = some v) : v.origin ≠ .issued p.id p.issued := by
  obtain ⟨serial, given, rfl⟩ := numbered.own name v held
  intro same
  exact Nat.ne_of_lt given (Origin.issued.inj same).2

section Insert
variable {p : Pool} {name : String} {state : NameState}
  (made : state.canonical = ⟨⟨name, none⟩, .issued p.id p.issued⟩)
include made

/-- A canonical variable that is made for a name gets the next number. -/
theorem Numbered.insert (numbered : p.Numbered) :
    Numbered ⟨p.id, p.config, p.names.insert name state, p.issued + 1⟩ := by
  have apart {other : String} {v : Variable} (held : p.canonical? other = some v) :
      v.origin ≠ state.canonical.origin := made ▸ numbered.ne_next held
  constructor
  case own =>
    intro other v held
    rw [canonical?_insert] at held
    split at held
    · rename_i same
      obtain rfl := Option.some.inj held
      exact ⟨p.issued, Nat.lt_succ_self _, by rw [made, same]⟩
    · obtain ⟨serial, given, own⟩ := numbered.own other v held
      exact ⟨serial, Nat.lt_succ_of_lt given, own⟩
  case distinct =>
    intro first second v v' held held' same
    rw [canonical?_insert] at held held'
    split at held
    · rename_i here
      obtain rfl := Option.some.inj held
      split at held'
      · rename_i here'
        exact here.symm.trans here'
      · exact absurd same.symm (apart held')
    · split at held'
      · obtain rfl := Option.some.inj held'
        exact absurd same (apart held)
      · exact numbered.distinct first second v v' held held' same

theorem passes_insert (unknown : p.canonical? name = none) :
    p.Passes ⟨p.id, p.config, p.names.insert name state, p.issued + 1⟩ where
  id := rfl
  issued := Nat.le_succ _
  kept other v held := by
    rw [canonical?_insert]
    split
    · rename_i same
      cases unknown.symm.trans (same ▸ held)
    · exact held
  made other v held := by
    rw [canonical?_insert] at held
    split at held
    · obtain rfl := Option.some.inj held
      exact .inr ⟨p.issued, Nat.le_refl _, by rw [made]⟩
    · exact .inl held
  numbered numbered := numbered.insert made

end Insert

/-- After a mention the pool knows the canonical variable of the name. -/
theorem mention_passes (p : Pool) (name : String) :
    p.Passes (p.mention name).2 ∧
      (p.mention name).2.canonical? name = some (p.mention name).1.canonical := by
  unfold mention
  cases known : p.names.get? name with
  | some state => exact ⟨.refl p, by rw [canonical?, known]; rfl⟩
  | none =>
    have unknown : p.canonical? name = none := by rw [canonical?, known]; rfl
    exact ⟨passes_insert rfl unknown, (canonical?_insert ..).trans (if_pos rfl)⟩

theorem reserve_passes (p : Pool) (name : String) (index : UInt64) :
    p.Passes (p.reserve name index) := by
  obtain ⟨passes, held⟩ := p.mention_passes name
  refine passes.trans (.of_canonical? rfl (Nat.le_refl _) fun other => ?_)
  refine (canonical?_insert _ name other _ _).trans ?_
  split
  · rename_i same
    exact same ▸ held.symm
  · rfl

/-! ## What an answer hands out -/

/-- What becomes of a pool by a call, and what the call hands out: nothing, or the canonical
variable of the name that was asked for, or an instance that was not there before. -/
inductive Hands (p : Pool) (c : Call) : Reply → Pool → Prop where
  | nothing {reply : Reply} {q : Pool} (passes : p.Passes q) (silent : reply.var? = none) :
      Hands p c reply q
  | canonical {q : Pool} {v : Variable} (name : String) (call : c = .get p.id name)
      (passes : p.Passes q) (held : q.canonical? name = some v) : Hands p c (.var v) q
  | new {q : Pool} {label : Label} {serial : Nat} (notGet : ∀ id name, c ≠ .get id name)
      (wants : c.Wants p label) (passes : p.Passes q) (unused : p.issued ≤ serial)
      (given : serial < q.issued)
      (apart : p.Numbered → ∀ name w, q.canonical? name = some w → w.origin ≠ .issued p.id serial) :
      Hands p c (.var ⟨label, .issued p.id serial⟩) q

/-- A new instance gets the next number after whatever else the call made. -/
theorem getIndexed_hands {p q : Pool} {c : Call} {name : String} {index : UInt64}
    (passes : p.Passes q) (notGet : ∀ id name, c ≠ .get id name)
    (wants : c.Wants p ⟨name, some index⟩) :
    p.Hands c (.var (q.getIndexed name index).1) (q.getIndexed name index).2 := by
  have reserved := passes.trans (q.reserve_passes name index)
  have issued : (q.reserve name index).Passes (q.getIndexed name index).2 :=
    .of_canonical? rfl (Nat.le_succ _) fun _ => rfl
  have own : (q.getIndexed name index).1 =
      ⟨⟨name, some index⟩, .issued p.id (q.reserve name index).issued⟩ := by
    rw [← reserved.id]
    rfl
  rw [own]
  refine .new notGet wants (reserved.trans issued) reserved.issued (Nat.lt_succ_self _) ?_
  intro numbered other w held
  exact reserved.id ▸ (reserved.numbered numbered).ne_next held

theorem answer_hands {p : Pool} {c : Call} {question : Question} (puts : c.Puts p question) :
    p.Hands c (p.answer question).1 (p.answer question).2 := by
  cases puts with
  | get name =>
    obtain ⟨passes, held⟩ := p.mention_passes name
    exact .canonical name rfl passes held
  | getIndexed name index =>
    exact getIndexed_hands (.refl p) (fun _ _ same => by cases same) (.indexed name index)
  | @getFresh name c asks =>
    have notGet : ∀ id name, c ≠ .get id name := by
      rintro id name rfl
      cases asks
    rw [answer]
    cases next : (p.counter name).next with
    | none =>
      rw [getFresh_of_exhausted next]
      exact .nothing (.refl p) rfl
    | some index =>
      rw [getFresh_of_next next]
      exact getIndexed_hands (p.mention_passes name).1 notGet (.fresh asks index)
  | nextIndex name => exact .nothing (p.mention_passes name).1 rfl
  | issuedBy v => exact .nothing (.refl p) rfl

theorem Hands.passes {p q : Pool} {c : Call} {reply : Reply} (hands : p.Hands c reply q) :
    p.Passes q := by
  cases hands with
  | nothing passes => exact passes
  | canonical name call passes => exact passes
  | new notGet wants passes => exact passes

end Pool

/-! ## Instances in a history -/

/-- The variable was handed out for this call, as far as an open pool can tell: it is the canonical
one of the name that was asked for, or it has a number that was given out, but to no canonical
variable. -/
inductive Pool.Knows (p : Pool) : Call → Variable → Prop where
  | canonical {name : String} {v : Variable} (held : p.canonical? name = some v) :
      Knows p (.get p.id name) v
  | own {c : Call} {v : Variable} {serial : Nat} (notGet : ∀ id name, c ≠ .get id name)
      (given : serial < p.issued) (own : v.origin = .issued p.id serial)
      (apart : ∀ name w, p.canonical? name = some w → w.origin ≠ v.origin) : Knows p c v

namespace Pool

theorem Knows.passes {p q : Pool} {c : Call} {v : Variable} (knows : p.Knows c v)
    (passes : p.Passes q) : q.Knows c v := by
  cases knows with
  | canonical held =>
    rw [← passes.id]
    exact .canonical (passes.kept _ v held)
  | @own _ _ serial notGet given own apart =>
    refine .own notGet (Nat.lt_of_lt_of_le given passes.issued) (passes.id ▸ own) ?_
    intro name w held
    rcases passes.made name w held with before | ⟨later, unused, origin⟩
    · exact apart name w before
    · rw [own, origin]
      intro same
      exact Nat.not_lt.2 unused ((Origin.issued.inj same).2 ▸ given)

theorem Knows.serial {p : Pool} {c : Call} {v : Variable} (numbered : p.Numbered)
    (knows : p.Knows c v) : ∃ serial, serial < p.issued ∧ v.origin = .issued p.id serial := by
  cases knows with
  | canonical held =>
    obtain ⟨serial, given, rfl⟩ := numbered.own _ v held
    exact ⟨serial, given, rfl⟩
  | own notGet given own apart => exact ⟨_, given, own⟩

/-- What is handed out is known from then on. -/
theorem Hands.knows {p q : Pool} {c : Call} {v : Variable} (numbered : p.Numbered)
    (hands : p.Hands c (.var v) q) : q.Knows c v := by
  cases hands with
  | nothing passes silent => cases silent
  | canonical name call passes held =>
    subst call
    rw [← passes.id]
    exact .canonical held
  | new notGet wants passes unused given apart =>
    exact .own notGet given (by rw [passes.id]) (apart numbered)

theorem Hands.wants {p q : Pool} {c : Call} {v : Variable} (numbered : p.Numbered)
    (hands : p.Hands c (.var v) q) : v.origin.pool? = some p.id ∧ c.Wants p v.label := by
  cases hands with
  | nothing passes silent => cases silent
  | canonical name call passes held =>
    subst call
    obtain ⟨serial, -, rfl⟩ := (passes.numbered numbered).own name v held
    exact ⟨congrArg some passes.id, .canonical name⟩
  | new notGet wants => exact ⟨rfl, wants⟩

/-- What is handed out is an instance that is known already just if it is the canonical variable of
a name and was handed out as that before. -/
theorem Hands.discern {p q : Pool} {c c' : Call} {v v' : Variable} (numbered : p.Numbered)
    (knows : p.Knows c v) (hands : p.Hands c' (.var v') q) :
    v.sameInstance v' = true ↔ ∃ id name, c = .get id name ∧ c' = .get id name := by
  rw [Variable.sameInstance_iff]
  cases hands with
  | nothing passes silent => cases silent
  | canonical name call passes held =>
    cases knows.passes passes with
    | @canonical earlier _ known =>
      constructor
      · intro same
        obtain rfl := (passes.numbered numbered).distinct _ _ v v' known held same
        exact ⟨p.id, earlier, congrArg (Call.get · earlier) passes.id, call⟩
      · rintro ⟨id, other, first, second⟩
        obtain ⟨-, rfl⟩ := Call.get.inj first
        obtain ⟨-, rfl⟩ := Call.get.inj (call.symm.trans second)
        obtain rfl := Option.some.inj (known.symm.trans held)
        rfl
    | own notGet given own apart =>
      constructor
      · exact fun same => absurd same.symm (apart name v' held)
      · rintro ⟨id, other, first, -⟩
        exact absurd first (notGet id other)
  | new notGet wants passes unused =>
    -- What is known already has a number below the count, and the new number is not below it.
    obtain ⟨serial, given, own⟩ := knows.serial numbered
    constructor
    · intro same
      have number := (Origin.issued.inj (own.symm.trans same)).2
      exact absurd unused (Nat.not_le.2 (number ▸ given))
    · rintro ⟨id, name, -, second⟩
      exact absurd second (notGet id name)

theorem numbered_create (id : PoolId) (config : Config) : (create id config).Numbered where
  own _ _ held := by cases held
  distinct _ _ _ _ held := by cases held

end Pool

/-- A pool is asked for its canonical variables by its number. -/
theorem Call.Wants.get {p : Pool} {id : PoolId} {name : String} {label : Label}
    (wants : (Call.get id name).Wants p label) : id = p.id := by
  cases wants with
  | canonical => rfl
  | fresh asks => cases asks

namespace Registry

variable {r : Registry} {c : Call} {answer : Reply × Registry}

/-- An open pool has come out of what it was before the call, or it has just been opened. -/
theorem Outcome.later (outcome : r.Outcome c answer) {id : PoolId} {q : Pool}
    (found : answer.2.find? id = some q) :
    (∃ p, r.find? id = some p ∧ p.Passes q) ∨ id = r.opened ∧ ∃ config, q = .create id config := by
  cases outcome with
  | opens config call =>
    rw [find?_openPool] at found
    split at found
    · rename_i new
      exact .inr ⟨new, config, (Option.some.inj found).symm⟩
    · exact .inl ⟨q, found, .refl q⟩
  | handles silent opened pools =>
    rcases pools id with same | closed
    · exact .inl ⟨q, same ▸ found, .refl q⟩
    · cases closed.symm.trans found
  | @asks p question held puts =>
    have passes := (Pool.answer_hands puts).passes
    have recorded : r.find? (p.answer question).2.id = some p := passes.id ▸ held
    rw [find?_update recorded, passes.id] at found
    split at found
    · rename_i same
      obtain rfl := Option.some.inj found
      exact .inl ⟨p, same ▸ held, passes⟩
    · exact .inl ⟨q, found, .refl q⟩

/-- A variable is handed out by an open pool. -/
theorem Outcome.hands (outcome : r.Outcome c answer) {v : Variable} (given : answer.1 = .var v) :
    ∃ p q, r.find? p.id = some p ∧ answer.2.find? p.id = some q ∧ p.Hands c (.var v) q := by
  cases outcome with
  | opens config call => cases given
  | handles silent opened pools =>
    obtain rfl : _ = Reply.var v := given
    cases silent
  | @asks p question held puts =>
    have hands := Pool.answer_hands puts
    have recorded : r.find? (p.answer question).2.id = some p := hands.passes.id ▸ held
    refine ⟨p, (p.answer question).2, held, ?_, given ▸ hands⟩
    rw [find?_update recorded, if_pos hands.passes.id]

end Registry

/-- The variables that two events hand out, if they do, are one instance just if both were asked for
as the canonical variable of one name of one pool. -/
def Event.Discern (e e' : Event) : Prop :=
  ∀ v v', e.reply = .var v → e'.reply = .var v' →
    (v.sameInstance v' = true ↔ ∃ id name, e.call = .get id name ∧ e'.call = .get id name)

/-- The pool has handed out the variable for the event's call: it was opened in the history, with
the number to which the variable refers, and the label is the one that was asked for. As long as it
is open, it knows the variable. -/
structure History.HandedOut (h : History) (e : Event) (v : Variable) (p : Pool) : Prop where
  opening : ⟨.openPool p.config, .handle p.id⟩ ∈ h.events
  opened : p.id < h.pools.opened
  origin : v.origin.pool? = some p.id
  wants : e.call.Wants p v.label
  known : ∀ q, h.pools.find? p.id = some q → q.Knows e.call v

namespace History

/-- What the pools of a history know of the variables that they have handed out. -/
structure Instances (h : History) : Prop where
  numbered : ∀ id p, h.pools.find? id = some p → p.Numbered
  handedOut : ∀ e ∈ h.events, ∀ v, e.reply = .var v → ∃ p, h.HandedOut e v p
  discerned : h.events.Pairwise Event.Discern

variable {h : History}

/-- A variable stays known while calls are made. -/
theorem HandedOut.next {e : Event} {v : Variable} {p : Pool} (out : h.HandedOut e v p)
    (sound : h.pools.Sound) (c : Call) : (h.next c).HandedOut e v p where
  opening := List.mem_append_left _ out.opening
  opened := Nat.lt_of_lt_of_le out.opened (Registry.opened_perform sound c)
  origin := out.origin
  wants := out.wants
  known q found := by
    rcases (Registry.perform_outcome sound c).later found with ⟨before, held, passes⟩ | ⟨new, -⟩
    · exact (out.known before held).passes passes
    · exact absurd new (Nat.ne_of_lt out.opened)

/-- What a call hands out is known after it. -/
theorem handedOut_latest (accounted : h.Accounted) (c : Call) {p q : Pool} {v : Variable}
    (numbered : p.Numbered) (held : h.pools.find? p.id = some p)
    (held' : (h.next c).pools.find? p.id = some q) (hands : p.Hands c (.var v) q) :
    (h.next c).HandedOut ⟨c, (h.pools.perform c).1⟩ v p where
  opening := List.mem_append_left _ (accounted.opening p.id p held)
  opened := Nat.lt_of_lt_of_le (accounted.sound p.id p held).2.1
    (Registry.opened_perform accounted.sound c)
  origin := (hands.wants numbered).1
  wants := (hands.wants numbered).2
  known q' found := by
    obtain rfl := Option.some.inj (held'.symm.trans found)
    exact hands.knows numbered

/-- Pools that differ hand out instances that differ, and of other calls. -/
theorem HandedOut.discern_of_ne {e e' : Event} {v v' : Variable} {p p' : Pool}
    (out : h.HandedOut e v p) (out' : h.HandedOut e' v' p') (apart : p.id ≠ p'.id) :
    v.sameInstance v' = true ↔ ∃ id name, e.call = .get id name ∧ e'.call = .get id name := by
  rw [Variable.sameInstance_iff]
  constructor
  · intro same
    have pools := out.origin.symm.trans ((congrArg Origin.pool? same).trans out'.origin)
    exact absurd (Option.some.inj pools) apart
  · rintro ⟨id, name, first, second⟩
    have own := Call.Wants.get (first ▸ out.wants)
    have own' := Call.Wants.get (second ▸ out'.wants)
    exact absurd (own.symm.trans own') apart

theorem Instances.next (held : h.Instances) (accounted : h.Accounted) (c : Call) :
    (h.next c).Instances := by
  have outcome := Registry.perform_outcome accounted.sound c
  -- What the latest event hands out, with the pool that hands it out before and after the call.
  have latest : ∀ v, (h.pools.perform c).1 = .var v → ∃ p q, p.Hands c (.var v) q ∧
      p.Numbered ∧ h.pools.find? p.id = some p ∧
      (h.next c).HandedOut ⟨c, (h.pools.perform c).1⟩ v p := by
    intro v given
    obtain ⟨p, q, found, found', hands⟩ := outcome.hands given
    have numbered := held.numbered p.id p found
    exact ⟨p, q, hands, numbered, found, handedOut_latest accounted c numbered found found' hands⟩
  constructor
  case numbered =>
    intro id q found
    rcases outcome.later found with ⟨p, before, passes⟩ | ⟨-, config, rfl⟩
    · exact passes.numbered (held.numbered id p before)
    · exact Pool.numbered_create id config
  case handedOut =>
    intro e happened v given
    rcases List.mem_append.1 happened with earlier | last
    · obtain ⟨p, out⟩ := held.handedOut e earlier v given
      exact ⟨p, out.next accounted.sound c⟩
    · obtain rfl := List.mem_singleton.1 last
      obtain ⟨p, -, -, -, -, out⟩ := latest v given
      exact ⟨p, out⟩
  case discerned =>
    refine List.pairwise_append.2 ⟨held.discerned, List.pairwise_singleton _ _, ?_⟩
    intro e earlier e' last v v' given given'
    obtain rfl := List.mem_singleton.1 last
    obtain ⟨p, out⟩ := held.handedOut e earlier v given
    obtain ⟨p', q', hands, numbered, found, out'⟩ := latest v' given'
    -- Within a pool it matters what the pool knew before the call; two pools share no instance.
    by_cases same : p.id = p'.id
    · exact hands.discern numbered (out.known p' (same ▸ found))
    · exact (out.next accounted.sound c).discern_of_ne out' same

theorem Instances.start : Instances start where
  numbered _ _ found := by cases found
  handedOut _ happened := by cases happened
  discerned := .nil

theorem instances (calls : List Call) : (of calls).Instances := by
  refine (of_induction (motive := fun h => h.Accounted ∧ h.Instances) ?_ ?_ calls).2
  · exact ⟨.start, .start⟩
  · exact fun h c ⟨accounted, held⟩ => ⟨accounted.next c, held.next accounted c⟩

end History

/-- What is so of the variables that have been handed out, at a moment of a history. -/
structure InstanceDiscipline (h : History) : Prop where
  discerned : h.events.Pairwise Event.Discern
  /-- An open pool has a canonical variable of every name, and it is what was handed out for that
  name before. -/
  canonical : ∀ id p, h.pools.find? id = some p → ∀ name, ∃ v,
    (h.pools.perform (.get id name)).1 = .var v ∧
    ∀ e ∈ h.events, e.call = .get id name → ∀ w, e.reply = .var w → w = v
  indexed : ∀ id p, h.pools.find? id = some p → ∀ name index, ∃ v,
    (h.pools.perform (.getIndexed id name index)).1 = .var v
  /-- Every variable has the label that was asked for and refers to the pool that was asked, which
  it leads to while that is open. -/
  refers : ∀ e ∈ h.events, ∀ v, e.reply = .var v → ∃ p : Pool,
    ⟨.openPool p.config, .handle p.id⟩ ∈ h.events ∧ e.call.Wants p v.label ∧
    v.origin.pool? = some p.id ∧
    ∀ q, h.pools.find? p.id = some q → h.pools.poolOf? v = some q ∧
      (h.pools.perform (.handleOf v)).1 = .handle p.id ∧
      (h.pools.perform (.issuedBy p.id v)).1 = .flag true

/-- What was handed out as the canonical variable of a name is still that. -/
theorem Pool.Knows.canonical_of_get {p : Pool} {id : PoolId} {name : String} {v : Variable}
    (knows : p.Knows (.get id name) v) : p.canonical? name = some v := by
  cases knows with
  | canonical held => exact held
  | own notGet => exact absurd rfl (notGet id name)

/-- After every history of calls on any pools, from any clients and through any handles and
variables, the discipline of instances is kept. -/
theorem instances_disciplined (calls : List Call) : InstanceDiscipline (History.of calls) := by
  have accounted := History.accounted calls
  have held := History.instances calls
  constructor
  case discerned => exact held.discerned
  case canonical =>
    intro id p found name
    refine ⟨(p.get name).1, by rw [Registry.perform, Registry.ask_of_find? found], ?_⟩
    intro e happened asked w given
    obtain ⟨p', out⟩ := held.handedOut e happened w given
    obtain rfl : id = p'.id := Call.Wants.get (asked ▸ out.wants)
    have known := (asked ▸ out.known p found).canonical_of_get
    obtain ⟨passes, mentioned⟩ := p.mention_passes name
    exact Option.some.inj ((passes.kept name w known).symm.trans mentioned)
  case indexed =>
    intro id p found name index
    exact ⟨(p.getIndexed name index).1, by rw [Registry.perform, Registry.ask_of_find? found]⟩
  case refers =>
    intro e happened v given
    obtain ⟨p, out⟩ := held.handedOut e happened v given
    refine ⟨p, out.opening, out.wants, out.origin, fun q found => ?_⟩
    have bound : (History.of calls).pools.poolOf? v = some q := by
      rw [Registry.poolOf?, out.origin, Option.bind_some, found]
    obtain ⟨own, -, -⟩ := accounted.sound p.id q found
    refine ⟨bound, ?_, ?_⟩
    · rw [Registry.perform, bound, Option.map_some, own]
      rfl
    · rw [Registry.perform, Registry.ask_of_find? found, Pool.hasIssued, out.origin, own, BEq.rfl]

/-- The canonical variable of a name is made when the next index is asked for. It is handed out
before and after the indices of the name have run out, and another one by another pool. Between the
two come instances that are equal to each other, but not the same. -/
theorem instances_disciplined_exhausted :
    let h := History.of [.openPool {}, .openPool {}, .nextIndex 0 "x", .get 0 "x",
      .getIndexed 0 "x" lastIndex, .getIndexed 0 "x" lastIndex, .getFresh 0 "x", .get 1 "x",
      .get 0 "x"]
    let given := h.events.filterMap (·.reply.var?)
    given.map (·.label.index) = [none, some lastIndex, some lastIndex, none, none] ∧
      given.map (·.origin) =
        [.issued 0 0, .issued 0 1, .issued 0 2, .issued 1 0, .issued 0 0] ∧
      InstanceDiscipline h :=
  ⟨by decide, by decide, instances_disciplined _⟩

end TermAlgebra
