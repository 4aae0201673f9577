import TermAlgebra.Pool.Registry
/-!
Calls on open pools, and what they can do. `Pool.Effect` says once what a call can do to a pool: it
leaves every counter alone, or it takes one index of one name and hands out a variable that bears
it. `Registry.Effect` says the same of all the pools together, with the opening of pools and the
passing about of handles; `perform_effect` says that every call has one of these effects.
-/
namespace TermAlgebra

/-- What a client can ask for. A pool is named by the number that its handles carry. -/
inductive Call where
  | openPool (config : Pool.Config)
  | cloneHandle (pool : PoolId)
  | dropHandle (pool : PoolId)
  /-- A handle to the pool that issued a variable. -/
  | handleOf (v : Variable)
  | get (pool : PoolId) (name : String)
  | getIndexed (pool : PoolId) (name : String) (index : UInt64)
  | getFresh (pool : PoolId) (name : String)
  | nextIndex (pool : PoolId) (name : String)
  | issuedBy (pool : PoolId) (v : Variable)
  | freshOfPool (pool : PoolId)
  | freshOfVar (v : Variable)
  | freshOfTerm (t : Term Variable)
  | freshOfSymbol (x : Symbol Variable)

/-- Whether a call asks for a fresh variable. -/
def Call.isFresh : Call → Bool
  | getFresh .. | freshOfPool _ | freshOfVar _ | freshOfTerm _ | freshOfSymbol _ => true
  | openPool _ | cloneHandle _ | dropHandle _ | handleOf _ | get .. | getIndexed .. | nextIndex .. |
    issuedBy .. => false

/-- What a client is told. -/
inductive Reply where
  | handle (pool : PoolId)
  | var (v : Variable)
  | index (i : Option UInt64)
  | flag (b : Bool)
  | failed (e : TermError)
  | done
  /-- There is no handle through which the call could be made. -/
  | noHandle

/-- The reply to a request for a fresh variable. -/
def Reply.ofDrawn : Except TermError Variable → Reply
  | .ok v => .var v
  | .error e => .failed e

/-- The variable that a reply hands out. -/
def Reply.var? : Reply → Option Variable
  | var v => some v
  | handle _ | index _ | flag _ | failed _ | done | noHandle => none

namespace Registry

/-- Puts a question to an open pool and records what becomes of the pool. -/
def ask (r : Registry) (id : PoolId) (f : Pool → Reply × Pool) : Reply × Registry :=
  match r.find? id with
  | none => (.noHandle, r)
  | some p =>
    let (reply, p) := f p
    (reply, r.update p)

/-- A handle to an open pool. -/
def giveHandle (r : Registry) (id : Option PoolId) : Reply × Registry :=
  match id with
  | none => (.noHandle, r)
  | some id => (.handle id, r.retain id)

/-- Answers a call. -/
def perform (r : Registry) : Call → Reply × Registry
  | .openPool config =>
    let (id, r) := r.openPool config
    (.handle id, r)
  | .cloneHandle id => r.giveHandle ((r.find? id).map (·.id))
  | .dropHandle id => (.done, r.release id)
  | .handleOf v => r.giveHandle ((r.poolOf? v).map (·.id))
  | .get id name => r.ask id fun p =>
    let (v, p) := p.get name
    (.var v, p)
  | .getIndexed id name index => r.ask id fun p =>
    let (v, p) := p.getIndexed name index
    (.var v, p)
  | .getFresh id name => r.ask id fun p =>
    let (drawn, p) := p.getFresh name
    (.ofDrawn drawn, p)
  | .nextIndex id name => r.ask id fun p =>
    let (next, p) := p.nextIndex name
    (.index next, p)
  | .issuedBy id v => r.ask id fun p => (.flag (p.hasIssued v), p)
  | .freshOfPool id => r.ask id fun p =>
    let (drawn, p) := p.getAnonymous
    (.ofDrawn drawn, p)
  | .freshOfVar v =>
    let (drawn, r) := r.fresh v
    (.ofDrawn drawn, r)
  | .freshOfTerm t =>
    let (drawn, r) := r.freshOfTerm t
    (.ofDrawn drawn, r)
  | .freshOfSymbol x =>
    let (drawn, r) := r.freshOfSymbol x
    (.ofDrawn drawn, r)

end Registry

/-! ## What a call can do to a pool -/

namespace Pool

/-- The counter of a name, as it runs or as it would start. -/
def counter (p : Pool) (name : String) : Counter :=
  ((p.names.get? name).map (·.counter)).getD (.startingAt p.config.firstIndex)

/-- The canonical variable of each name is plain, bears that name and is the pool's own. -/
def CanonicalKept (p : Pool) : Prop :=
  ∀ name state, p.names.get? name = some state →
    state.canonical.label = ⟨name, none⟩ ∧ state.canonical.origin.pool? = some p.id

/-- `q` is `p` at a later time: number and configuration stay, and canonical variables with them. -/
structure Continues (p q : Pool) : Prop where
  id : q.id = p.id
  config : q.config = p.config
  canonical : p.CanonicalKept → q.CanonicalKept

theorem Continues.refl (p : Pool) : p.Continues p := ⟨rfl, rfl, fun kept => kept⟩

theorem Continues.trans {p q r : Pool} (first : p.Continues q) (second : q.Continues r) :
    p.Continues r :=
  ⟨second.id.trans first.id, second.config.trans first.config, second.canonical ∘ first.canonical⟩

/-- What a call can do to a pool. If it is a request for a fresh variable, the index it takes is the
next one of the counter. -/
inductive Effect (p : Pool) (isFresh : Bool) : Reply → Pool → Prop where
  | quiet {reply : Reply} {q : Pool} (continues : p.Continues q)
      (plain : ∀ v, reply.var? = some v → v.label.index = none)
      (counters : ∀ name, q.counter name = p.counter name) : Effect p isFresh reply q
  | takes {q : Pool} (continues : p.Continues q) (name : String) (index : UInt64) (serial : Nat)
      (lowest : isFresh = true → (p.counter name).next = some index)
      (counters : ∀ other, q.counter other =
        if other = name then (p.counter name).reserve index else p.counter other) :
      Effect p isFresh (.var ⟨⟨name, some index⟩, .issued p.id serial⟩) q

theorem Effect.continues {p q : Pool} {isFresh : Bool} {reply : Reply}
    (effect : p.Effect isFresh reply q) : p.Continues q := by
  cases effect with
  | quiet continues plain counters => exact continues
  | takes continues name index serial lowest counters => exact continues

theorem mention_spec (p : Pool) (name : String) :
    p.Continues (p.mention name).2 ∧
    (p.mention name).2.names.get? name = some (p.mention name).1 ∧
    (∀ other, (p.mention name).2.counter other = p.counter other) := by
  unfold mention
  cases known : p.names.get? name with
  | some state => exact ⟨.refl p, known, fun _ => rfl⟩
  | none =>
    refine ⟨⟨rfl, rfl, fun kept other state held => ?_⟩, ?_, fun other => ?_⟩
    · rw [issue, Table.get?_insert] at held
      by_cases same : name = other
      · subst same
        simp only [BEq.rfl, if_true, Option.some.injEq] at held
        subst held
        exact ⟨rfl, rfl⟩
      · simp only [beq_iff_eq, same, if_false] at held
        exact kept other state held
    · simp [issue, Table.get?_insert]
    · by_cases same : name = other
      · subst same
        simp [counter, issue, Table.get?_insert, known]
      · simp [counter, issue, Table.get?_insert, same]

/-- The counter that a pool remembers of a name it was just asked for. -/
theorem mention_counter (p : Pool) (name : String) :
    (p.mention name).1.counter = p.counter name := by
  obtain ⟨-, held, counters⟩ := p.mention_spec name
  rw [← counters name, counter, held]
  rfl

theorem reserve_spec (p : Pool) (name : String) (index : UInt64) :
    p.Continues (p.reserve name index) ∧
    ∀ other, (p.reserve name index).counter other =
      if other = name then (p.counter name).reserve index else p.counter other := by
  obtain ⟨continues, held, counters⟩ := p.mention_spec name
  refine ⟨continues.trans ⟨rfl, rfl, fun kept other state found => ?_⟩, fun other => ?_⟩
  · simp only [reserve, Table.get?_insert, beq_iff_eq] at found
    split at found
    · rename_i same
      subst same
      obtain rfl := Option.some.inj found
      have canonical := kept name _ held
      exact canonical
    · exact kept other state found
  · by_cases same : other = name
    · subst same
      simp [reserve, counter, Table.get?_insert, mention_counter]
    · rw [if_neg same, ← counters other]
      simp [reserve, counter, Table.get?_insert, Ne.symm same]

theorem get_effect (p : Pool) (isFresh : Bool) (kept : p.CanonicalKept) (name : String) :
    p.Effect isFresh (.var (p.get name).1) (p.get name).2 := by
  obtain ⟨continues, held, counters⟩ := p.mention_spec name
  refine .quiet continues (fun v given => ?_) counters
  obtain rfl := Option.some.inj given
  have canonical := (continues.canonical kept name _ held).1
  show (p.mention name).1.canonical.label.index = none
  rw [canonical]

theorem nextIndex_effect (p : Pool) (isFresh : Bool) (name : String) :
    p.Effect isFresh (.index (p.nextIndex name).1) (p.nextIndex name).2 := by
  obtain ⟨continues, -, counters⟩ := p.mention_spec name
  exact .quiet continues (fun v given => by cases given) counters

theorem nextIndex_fst (p : Pool) (name : String) : (p.nextIndex name).1 = (p.counter name).next :=
  congrArg Counter.next (p.mention_counter name)

/-- Taking an index of a name hands out a variable of that name and index. -/
theorem getIndexed_effect (p : Pool) (name : String) (index : UInt64) (isFresh : Bool)
    (lowest : isFresh = true → (p.counter name).next = some index) :
    p.Effect isFresh (.var (p.getIndexed name index).1) (p.getIndexed name index).2 := by
  obtain ⟨continues, counters⟩ := p.reserve_spec name index
  have own : (p.getIndexed name index).1 =
      ⟨⟨name, some index⟩, .issued p.id (p.reserve name index).issued⟩ := by
    rw [← continues.id]
    rfl
  rw [own]
  have further : p.Continues (p.getIndexed name index).2 :=
    ⟨continues.id, continues.config, continues.canonical⟩
  exact .takes further name index _ lowest counters

/-- What was mentioned before a call makes no difference to what the call does. -/
theorem Effect.of_mention {p q r : Pool} {isFresh : Bool} {reply : Reply}
    (continues : p.Continues q) (same : ∀ name, q.counter name = p.counter name)
    (effect : q.Effect isFresh reply r) : p.Effect isFresh reply r := by
  cases effect with
  | quiet further plain counters =>
    exact .quiet (continues.trans further) plain fun name => (counters name).trans (same name)
  | takes further name index serial lowest counters =>
    rw [continues.id]
    refine .takes (continues.trans further) name index serial (same name ▸ lowest) fun other => ?_
    rw [counters, same, same]

/-- A fresh variable bears the next index of its name. -/
theorem getFresh_of_next {p : Pool} {name : String} {index : UInt64}
    (next : (p.counter name).next = some index) :
    p.getFresh name = (.ok ((p.mention name).2.getIndexed name index).1,
      ((p.mention name).2.getIndexed name index).2) := by
  have drawn : p.nextIndex name = (some index, (p.mention name).2) :=
    Prod.ext ((p.nextIndex_fst name).trans next) rfl
  rw [getFresh, drawn]

/-- A name without a next index has been mentioned before, so that failing leaves the very pool. -/
theorem getFresh_of_exhausted {p : Pool} {name : String}
    (exhausted : (p.counter name).next = none) :
    p.getFresh name = (.error (.indexExhausted name), p) := by
  have mentioned : (p.mention name).2 = p := by
    unfold mention
    cases known : p.names.get? name with
    | some state => rfl
    | none => simp [counter, known, Counter.startingAt] at exhausted
  have drawn : p.nextIndex name = (none, p) :=
    Prod.ext ((p.nextIndex_fst name).trans exhausted) mentioned
  rw [getFresh, drawn]

theorem getFresh_effect (p : Pool) (name : String) :
    p.Effect true (.ofDrawn (p.getFresh name).1) (p.getFresh name).2 := by
  cases next : (p.counter name).next with
  | none =>
    rw [getFresh_of_exhausted next]
    exact .quiet (.refl p) (fun v given => by cases given) fun _ => rfl
  | some index =>
    obtain ⟨continues, -, counters⟩ := p.mention_spec name
    rw [getFresh_of_next next]
    refine .of_mention continues counters (getIndexed_effect _ name index true fun _ => ?_)
    rw [counters, next]

end Pool

/-! ## What a call can do to the pools together -/

namespace Registry

variable {r : Registry}

/-- Open pools are filed under their own numbers, all given out already, and have kept their
canonical variables. -/
def Sound (r : Registry) : Prop :=
  ∀ id p, r.find? id = some p → p.id = id ∧ id < r.opened ∧ p.CanonicalKept

theorem find?_update {p q : Pool} (found : r.find? p.id = some q) (id : PoolId) :
    (r.update p).find? id = if p.id = id then some p else r.find? id := by
  obtain ⟨o, held, -⟩ := Option.map_eq_some_iff.1 found
  by_cases same : p.id = id
  · subst same
    simp [update, held, find?, Table.get?_insert]
  · simp [update, held, find?, Table.get?_insert, same]

theorem opened_update (p : Pool) : (r.update p).opened = r.opened := by
  unfold update
  split <;> rfl

/-- Recording a pool as it is already recorded changes nothing. -/
theorem update_of_find? {p : Pool} (found : r.find? p.id = some p) : r.update p = r := by
  obtain ⟨o, held, own⟩ := Option.map_eq_some_iff.1 found
  have same : ({ o with pool := p } : OpenPool) = o := by rw [← own]
  simp only [update, held, same]
  rw [Table.insert_of_get? held]

theorem opened_retain (id : PoolId) : (r.retain id).opened = r.opened := by
  unfold retain
  split <;> rfl

theorem opened_release (id : PoolId) : (r.release id).opened = r.opened := by
  unfold release
  split
  · split <;> rfl
  · rfl

theorem find?_retain (id other : PoolId) : (r.retain id).find? other = r.find? other := by
  unfold retain
  split
  · rename_i o held
    by_cases same : id = other
    · subst same
      simp [find?, Table.get?_insert, held]
    · simp [find?, Table.get?_insert, same]
  · rfl

/-- Releasing a handle closes the pool or leaves it as it is, and leaves the others alone. -/
theorem find?_release (id other : PoolId) :
    (r.release id).find? other = r.find? other ∨ (r.release id).find? other = none := by
  unfold release
  split
  · rename_i o held
    by_cases same : id = other
    · subst same
      split
      · exact .inr (by simp [find?, Table.get?_erase])
      · exact .inl (by simp [find?, Table.get?_insert, held])
    · split
      · exact .inl (by simp [find?, Table.get?_erase, same])
      · exact .inl (by simp [find?, Table.get?_insert, same])
  · exact .inl rfl

theorem find?_openPool (config : Pool.Config) (id : PoolId) :
    (r.openPool config).2.find? id =
      if id = r.opened then some (.create id config) else r.find? id := by
  by_cases same : r.opened = id
  · subst same
    simp [openPool, find?, Table.get?_insert]
  · simp [openPool, find?, Table.get?_insert, same, Ne.symm same]

/-- What a call can do to the pools. -/
inductive Effect (r : Registry) (c : Call) : Reply → Registry → Prop where
  | opens (config : Pool.Config) (call : c = .openPool config) :
      Effect r c (.handle r.opened) (r.openPool config).2
  | handles {reply : Reply} {q : Registry} (silent : reply.var? = none)
      (opened : q.opened = r.opened)
      (pools : ∀ id, q.find? id = r.find? id ∨ q.find? id = none) : Effect r c reply q
  | asks {p q : Pool} {reply : Reply} (found : r.find? p.id = some p)
      (effect : p.Effect c.isFresh reply q) : Effect r c reply (r.update q)

theorem Effect.nothing {c : Call} {reply : Reply} (silent : reply.var? = none) :
    Effect r c reply r :=
  .handles silent rfl fun _ => .inl rfl

theorem giveHandle_effect (c : Call) (id : Option PoolId) :
    r.Effect c (r.giveHandle id).1 (r.giveHandle id).2 := by
  cases id with
  | none => exact .nothing rfl
  | some id => exact .handles rfl (opened_retain id) fun other => .inl (find?_retain id other)

theorem ask_effect (sound : r.Sound) (c : Call) (id : PoolId) {f : Pool → Reply × Pool}
    (effect : ∀ p : Pool, p.CanonicalKept → p.Effect c.isFresh (f p).1 (f p).2) :
    r.Effect c (r.ask id f).1 (r.ask id f).2 := by
  unfold ask
  cases found : r.find? id with
  | none => exact .nothing rfl
  | some p =>
    obtain ⟨own, -, kept⟩ := sound id p found
    subst own
    exact .asks found (effect p kept)

/-- Drawing for a bound variable is drawing from its pool. -/
theorem fresh_of_bound {v : Variable} {p : Pool} (bound : r.poolOf? v = some p) :
    r.fresh v = ((p.getFresh v.label.name).1, r.update (p.getFresh v.label.name).2) := by
  rw [Registry.fresh, bound]

/-- A draw changes the pool of the instance and no other. -/
theorem find?_fresh {v : Variable} {p : Pool} (bound : r.poolOf? v = some p)
    (found : r.find? p.id = some p) (id : PoolId) :
    (r.fresh v).2.find? id =
      if p.id = id then some (p.getFresh v.label.name).2 else r.find? id := by
  have continues := (p.getFresh_effect v.label.name).continues
  rw [fresh_of_bound bound, find?_update (continues.id ▸ found), continues.id]

theorem fresh_of_unbound {v : Variable} (unbound : r.poolOf? v = none) :
    r.fresh v = (.error (.notPoolBound v.label.text), r) := by
  rw [Registry.fresh, unbound]

theorem fresh_effect (sound : r.Sound) {c : Call} (fresh : c.isFresh = true) (v : Variable) :
    r.Effect c (.ofDrawn (r.fresh v).1) (r.fresh v).2 := by
  unfold Registry.fresh
  cases bound : r.poolOf? v with
  | none => exact .nothing rfl
  | some p =>
    obtain ⟨id, -, found⟩ := Option.bind_eq_some_iff.1 bound
    obtain ⟨own, -, -⟩ := sound id p found
    subst own
    exact .asks found (fresh ▸ p.getFresh_effect v.label.name)

/-- Every call has one of these effects. -/
theorem perform_effect (sound : r.Sound) (c : Call) :
    r.Effect c (r.perform c).1 (r.perform c).2 := by
  cases c with
  | openPool config => exact .opens config rfl
  | cloneHandle id => exact giveHandle_effect _ _
  | dropHandle id => exact .handles rfl (opened_release id) (find?_release id)
  | handleOf v => exact giveHandle_effect _ _
  | get id name => exact ask_effect sound _ id fun p kept => p.get_effect _ kept name
  | getIndexed id name index =>
    exact ask_effect sound _ id fun p _ => p.getIndexed_effect name index _ fun fresh => by
      cases fresh
  | getFresh id name => exact ask_effect sound _ id fun p _ => p.getFresh_effect name
  | nextIndex id name => exact ask_effect sound _ id fun p _ => p.nextIndex_effect _ name
  | issuedBy id v =>
    exact ask_effect sound _ id fun p _ =>
      .quiet (.refl p) (fun v given => by cases given) fun _ => rfl
  | freshOfPool id =>
    exact ask_effect sound _ id fun p _ => p.getFresh_effect p.config.anonymousName
  | freshOfVar v => exact fresh_effect sound rfl v
  | freshOfTerm t =>
    cases t with
    | var v => exact fresh_effect sound rfl v
    | const c => exact .nothing rfl
    | app f args => exact .nothing rfl
  | freshOfSymbol x =>
    cases x with
    | var v => exact fresh_effect sound rfl v
    | const c => exact .nothing rfl
    | func f => exact .nothing rfl

/-- A pool that is open after a call was open before it, or was opened by it. -/
theorem open_before {id : PoolId} {q : Pool} (sound : r.Sound) (c : Call)
    (found : (r.perform c).2.find? id = some q) : (∃ p, r.find? id = some p) ∨
      ∃ config, c = .openPool config ∧ id = r.opened ∧ q = .create id config := by
  have effect := perform_effect sound c
  generalize r.perform c = answer at effect found
  obtain ⟨reply, pools⟩ := answer
  cases effect with
  | opens config call =>
    change (r.openPool config).2.find? id = some q at found
    rw [find?_openPool] at found
    split at found
    · rename_i new
      exact .inr ⟨config, call, new, (Option.some.inj found).symm⟩
    · exact .inl ⟨q, found⟩
  | handles silent opened pools =>
    rcases pools id with same | closed
    · exact .inl ⟨q, same ▸ found⟩
    · rw [closed] at found
      cases found
  | @asks p p' reply held effect =>
    have recorded : r.find? p'.id = some p := effect.continues.id ▸ held
    change (r.update p').find? id = some q at found
    rw [find?_update recorded] at found
    split at found
    · rename_i same
      exact .inl ⟨p, same ▸ recorded⟩
    · exact .inl ⟨q, found⟩

theorem opened_perform (sound : r.Sound) (c : Call) : r.opened ≤ (r.perform c).2.opened := by
  have effect := perform_effect sound c
  generalize r.perform c = answer at effect
  obtain ⟨reply, pools⟩ := answer
  cases effect with
  | opens config call => exact Nat.le_succ _
  | handles silent opened pools => exact Nat.le_of_eq opened.symm
  | asks held effect => exact Nat.le_of_eq (opened_update _).symm

end Registry

end TermAlgebra
