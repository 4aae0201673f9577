import TermAlgebra.Proofs.FreshIndices
/-!
What the calls of a history ask of counters. Only a few calls ask anything of the counter of a name
in a pool, and the counter answers them from what it was asked before and from nothing else:
`perform_dealt` says so of every call at once, and `Counter.Talk` of requests one after another.
-/
namespace TermAlgebra

/-- What can be asked of the counter of a name. -/
inductive Request where
  | fresh
  | reserve (index : UInt64)
  /-- The next index is asked for but not taken. -/
  | next
deriving DecidableEq

/-- What is answered. Of a variable that is handed out this is the label. -/
inductive Answer where
  | var (label : Label)
  | index (i : Option UInt64)
  | failed (e : TermError)
deriving DecidableEq

/-- A request with its answer. -/
structure Answered where
  request : Request
  answer : Answer
deriving DecidableEq

/-- The name and the request with which a call comes to a pool that was opened with a configuration.
All other calls ask nothing of a counter of that pool. -/
def Call.asks? (id : PoolId) (config : Pool.Config) : Call → Option (String × Request)
  | getFresh pool name => if pool = id then some (name, .fresh) else none
  | getIndexed pool name index => if pool = id then some (name, .reserve index) else none
  | nextIndex pool name => if pool = id then some (name, .next) else none
  | freshOfPool pool => if pool = id then some (config.anonymousName, .fresh) else none
  | freshOfVar v | freshOfTerm (.var v) | freshOfSymbol (.var v) =>
    if v.origin.pool? = some id then some (v.label.name, .fresh) else none
  | freshOfTerm (.const _) | freshOfTerm (.app ..) => none
  | freshOfSymbol (.const _) | freshOfSymbol (.func _) => none
  | openPool _ | cloneHandle _ | dropHandle _ | handleOf _ | get .. | issuedBy .. => none

/-- The request that a call makes of the counter of one name. -/
def Call.request? (id : PoolId) (config : Pool.Config) (name : String) (c : Call) :
    Option Request :=
  (c.asks? id config).bind fun a => if a.1 = name then some a.2 else none

/-- The answer in a reply. There is none where no pool has answered. -/
def Reply.answer? : Reply → Option Answer
  | var v => some (.var v.label)
  | index i => some (.index i)
  | failed (.notPoolBound _) => none
  | failed e => some (.failed e)
  | handle _ | flag _ | done | noHandle => none

def Event.answered? (id : PoolId) (config : Pool.Config) (name : String) (e : Event) :
    Option Answered :=
  (e.call.request? id config name).bind fun request => e.reply.answer?.map fun a => ⟨request, a⟩

namespace Counter

/-- The answer that the counter of a name gives, and the counter afterwards. -/
def serve (name : String) (c : Counter) : Request → Answer × Counter
  | .fresh =>
    match c.next with
    | none => (.failed (.indexExhausted name), c)
    | some i => (.var ⟨name, some i⟩, c.reserve i)
  | .reserve i => (.var ⟨name, some i⟩, c.reserve i)
  | .next => (.index c.next, c)

/-- A counter has answered some requests, one after another, and become another counter. -/
inductive Talk (name : String) : Counter → List Answered → Counter → Prop where
  | nil (c : Counter) : Talk name c [] c
  | cons {c d : Counter} {answered : List Answered} (request : Request)
      (rest : Talk name (c.serve name request).2 answered d) :
      Talk name c (⟨request, (c.serve name request).1⟩ :: answered) d

theorem Talk.append {name : String} {c d e : Counter} {first second : List Answered}
    (talk : Talk name c first d) (more : Talk name d second e) :
    Talk name c (first ++ second) e := by
  induction talk with
  | nil => exact more
  | cons request rest ih => exact .cons request (ih more)

/-- The requests decide the answers. -/
theorem Talk.unique {name : String} {c d e : Counter} {first second : List Answered}
    (talk : Talk name c first d) (other : Talk name c second e)
    (asked : first.map (·.request) = second.map (·.request)) : first = second ∧ d = e := by
  induction talk generalizing second with
  | nil =>
    cases other with
    | nil => exact ⟨rfl, rfl⟩
    | cons request rest => cases asked
  | cons request rest ih =>
    cases other with
    | nil => cases asked
    | cons request' rest' =>
      obtain ⟨same, others⟩ := List.cons.inj asked
      change request = request' at same
      subst same
      obtain ⟨rfl, rfl⟩ := ih rest' others
      exact ⟨rfl, rfl⟩

end Counter

/-- A request that has taken no index: it only asked for the next one, or it failed. -/
def Answered.Idle (a : Answered) : Prop := a.request = .next ∨ ∃ e, a.answer = .failed e

/-- `Pruned all kept`: some idle requests among `all` are passed over, the others are `kept`. -/
inductive Pruned : List Answered → List Answered → Prop where
  | nil : Pruned [] []
  | keep {all kept : List Answered} (a : Answered) (rest : Pruned all kept) :
      Pruned (a :: all) (a :: kept)
  | pass {all kept : List Answered} {a : Answered} (idle : a.Idle) (rest : Pruned all kept) :
      Pruned (a :: all) kept

namespace Counter

theorem serve_of_idle {name : String} {c : Counter} {request : Request}
    (idle : Answered.Idle ⟨request, (c.serve name request).1⟩) : (c.serve name request).2 = c := by
  rcases idle with asksNext | ⟨e, failed⟩
  · change request = .next at asksNext
    rw [asksNext]
    rfl
  · cases request with
    | fresh =>
      cases next : c.next with
      | none => rw [serve, next]
      | some i =>
        rw [serve, next] at failed
        cases failed
    | reserve i => cases failed
    | next => rfl

/-- Idle requests make no difference to the counter, so those that are kept could have been all. -/
theorem Talk.pruned {name : String} {c d : Counter} {all kept : List Answered}
    (talk : Talk name c all d) (pruned : Pruned all kept) : Talk name c kept d := by
  induction talk generalizing kept with
  | nil =>
    cases pruned with
    | nil => exact .nil _
  | cons request rest ih =>
    cases pruned with
    | keep _ pruned => exact .cons request (ih pruned)
    | pass idle pruned =>
      rw [serve_of_idle idle] at ih
      exact ih pruned

end Counter

/-! ## What a call can do to a counter -/

namespace Pool

/-- What becomes of an open pool by a call that asks something of one counter, or of none. -/
inductive Dealt (p : Pool) : Option (String × Request) → Reply → Pool → Prop where
  | serves {reply : Reply} {q : Pool} (continues : p.Continues q) (name : String)
      (request : Request) (answer : reply.answer? = some ((p.counter name).serve name request).1)
      (counters : ∀ other, q.counter other =
        if other = name then ((p.counter name).serve name request).2 else p.counter other) :
      Dealt p (some (name, request)) reply q
  | quiet {reply : Reply} {q : Pool} (continues : p.Continues q)
      (counters : ∀ name, q.counter name = p.counter name) : Dealt p none reply q

variable {p q : Pool} {reply : Reply}

theorem Dealt.continues {asked : Option (String × Request)} (dealt : p.Dealt asked reply q) :
    p.Continues q := by
  cases dealt with
  | serves continues name request answer counters => exact continues
  | quiet continues counters => exact continues

theorem get_dealt (p : Pool) (name : String) :
    p.Dealt none (.var (p.get name).1) (p.get name).2 := by
  obtain ⟨continues, -, counters⟩ := p.mention_spec name
  exact .quiet continues counters

theorem nextIndex_dealt (p : Pool) (name : String) :
    p.Dealt (some (name, .next)) (.index (p.nextIndex name).1) (p.nextIndex name).2 := by
  obtain ⟨continues, -, counters⟩ := p.mention_spec name
  refine .serves continues name .next ?_ fun other => ?_
  · rw [nextIndex_fst]
    rfl
  · refine (counters other).trans ?_
    split
    · rename_i same
      rw [same]
      rfl
    · rfl

theorem getIndexed_dealt (p : Pool) (name : String) (index : UInt64) :
    p.Dealt (some (name, .reserve index)) (.var (p.getIndexed name index).1)
      (p.getIndexed name index).2 := by
  obtain ⟨continues, counters⟩ := p.reserve_spec name index
  have further : p.Continues (p.getIndexed name index).2 :=
    ⟨continues.id, continues.config, continues.canonical⟩
  exact .serves further name (.reserve index) rfl counters

theorem getFresh_dealt (p : Pool) (name : String) :
    p.Dealt (some (name, .fresh)) (.ofDrawn (p.getFresh name).1) (p.getFresh name).2 := by
  cases next : (p.counter name).next with
  | none =>
    rw [getFresh_of_exhausted next]
    refine .serves (.refl p) name .fresh ?_ fun other => ?_
    · rw [Counter.serve, next]
      rfl
    · rw [Counter.serve, next]
      split
      · rename_i same
        rw [same]
      · rfl
  | some index =>
    obtain ⟨continues, -, mentioned⟩ := p.mention_spec name
    obtain ⟨further, counters⟩ := (p.mention name).2.reserve_spec name index
    have issued : p.Continues ((p.mention name).2.getIndexed name index).2 :=
      continues.trans ⟨further.id, further.config, further.canonical⟩
    rw [getFresh_of_next next]
    refine .serves issued name .fresh ?_ fun other => ?_
    · rw [Counter.serve, next]
      rfl
    · rw [Counter.serve, next]
      refine (counters other).trans ?_
      rw [mentioned, mentioned]

theorem getAnonymous_dealt (p : Pool) :
    p.Dealt (some (p.config.anonymousName, .fresh)) (.ofDrawn p.getAnonymous.1) p.getAnonymous.2 :=
  p.getFresh_dealt p.config.anonymousName

end Pool

namespace Registry

variable {r : Registry} {id : PoolId} {p q : Pool}

/-- Giving out a handle leaves the pools as they are. -/
theorem find?_giveHandle (given : Option PoolId) (id : PoolId) :
    (r.giveHandle given).2.find? id = r.find? id := by
  cases given with
  | none => rfl
  | some pool => exact find?_retain pool id

theorem ask_of_closed {f : Pool → Reply × Pool} (closed : r.find? id = none) :
    r.ask id f = (.noHandle, r) := by
  rw [ask, closed]

/-- A question to a pool comes to that pool and no other. -/
theorem ask_dealt (sound : r.Sound) {pool : PoolId} {f : Pool → Reply × Pool}
    (asked : Pool.Config → Option (String × Request))
    (deals : ∀ p : Pool, p.Dealt (asked p.config) (f p).1 (f p).2) (found : r.find? id = some p)
    (found' : (r.ask pool f).2.find? id = some q) :
    p.Dealt (if pool = id then asked p.config else none) (r.ask pool f).1 q := by
  cases held : r.find? pool with
  | none =>
    have elsewhere : pool ≠ id := fun same => by
      rw [same, found] at held
      cases held
    rw [ask_of_closed held] at found' ⊢
    obtain rfl := Option.some.inj (found.symm.trans found')
    rw [if_neg elsewhere]
    exact .quiet (.refl p) fun _ => rfl
  | some p' =>
    obtain ⟨own, -, -⟩ := sound pool p' held
    have own' : (f p').2.id = pool := (deals p').continues.id.trans own
    have recorded : r.find? (f p').2.id = some p' := own' ▸ held
    rw [ask_of_find? held, find?_update recorded, own'] at found'
    rw [ask_of_find? held]
    split at found'
    · rename_i same
      subst same
      obtain rfl := Option.some.inj (held.symm.trans found)
      obtain rfl := Option.some.inj found'
      rw [if_pos rfl]
      exact deals p'
    · rename_i elsewhere
      obtain rfl := Option.some.inj (found.symm.trans found')
      rw [if_neg elsewhere]
      exact .quiet (.refl p) fun _ => rfl

/-- A variable goes with its request to the pool that issued it. -/
theorem fresh_eq_ask {v : Variable} {pool : PoolId} (own : v.origin.pool? = some pool)
    (found : r.find? pool = some p) :
    (Reply.ofDrawn (r.fresh v).1, (r.fresh v).2) = r.ask pool fun p =>
      (.ofDrawn (p.getFresh v.label.name).1, (p.getFresh v.label.name).2) := by
  have bound : r.poolOf? v = some p := by rw [poolOf?, own, Option.bind_some, found]
  rw [ask_of_find? found, fresh_of_bound bound]

theorem fresh_dealt (sound : r.Sound) (v : Variable) (found : r.find? id = some p)
    (found' : (r.fresh v).2.find? id = some q) :
    p.Dealt (if v.origin.pool? = some id then some (v.label.name, .fresh) else none)
      (.ofDrawn (r.fresh v).1) q := by
  cases bound : r.poolOf? v with
  | none =>
    have elsewhere : v.origin.pool? ≠ some id := fun own => by
      rw [poolOf?, own, Option.bind_some, found] at bound
      cases bound
    rw [fresh_of_unbound bound] at found' ⊢
    obtain rfl := Option.some.inj (found.symm.trans found')
    rw [if_neg elsewhere]
    exact .quiet (.refl p) fun _ => rfl
  | some p' =>
    obtain ⟨pool, own, held⟩ := Option.bind_eq_some_iff.1 bound
    have asked := fresh_eq_ask own held
    have reply := congrArg Prod.fst asked
    have pools := congrArg Prod.snd asked
    change Reply.ofDrawn (r.fresh v).1 = _ at reply
    change (r.fresh v).2 = _ at pools
    rw [pools] at found'
    have dealt := ask_dealt sound (fun _ => some (v.label.name, .fresh))
      (fun p => p.getFresh_dealt v.label.name) found found'
    rw [reply, own]
    simpa only [Option.some.injEq] using dealt

/-- Every call deals with a pool that is open before and after it by what it asks of that pool. -/
theorem perform_dealt (sound : r.Sound) (c : Call) (found : r.find? id = some p)
    (found' : (r.perform c).2.find? id = some q) :
    p.Dealt (c.asks? id p.config) (r.perform c).1 q := by
  have unmoved : ∀ {reply : Reply}, r.find? id = some q → p.Dealt none reply q := fun same => by
    obtain rfl := Option.some.inj (found.symm.trans same)
    exact .quiet (.refl p) fun _ => rfl
  cases c with
  | openPool config =>
    refine unmoved ?_
    rw [perform, find?_openPool] at found'
    split at found'
    · rename_i new
      exact absurd (sound id p found).2.1 (Nat.not_lt.2 (Nat.le_of_eq new.symm))
    · exact found'
  | cloneHandle pool =>
    refine unmoved ?_
    rw [perform, find?_giveHandle] at found'
    exact found'
  | dropHandle pool =>
    refine unmoved ?_
    rcases find?_release (r := r) pool id with same | closed
    · exact same ▸ found'
    · cases closed.symm.trans found'
  | handleOf v =>
    refine unmoved ?_
    rw [perform, find?_giveHandle] at found'
    exact found'
  | get pool name =>
    have dealt := ask_dealt sound (fun _ => none) (fun p => p.get_dealt name) found found'
    rw [ite_self] at dealt
    exact dealt
  | getIndexed pool name index =>
    exact ask_dealt sound (fun _ => some (name, .reserve index))
      (fun p => p.getIndexed_dealt name index) found found'
  | getFresh pool name =>
    exact ask_dealt sound (fun _ => some (name, .fresh)) (fun p => p.getFresh_dealt name)
      found found'
  | nextIndex pool name =>
    exact ask_dealt sound (fun _ => some (name, .next)) (fun p => p.nextIndex_dealt name)
      found found'
  | issuedBy pool v =>
    have dealt := ask_dealt sound (fun _ => none)
      (fun p => .quiet (.refl p) fun _ => rfl) found found'
    rw [ite_self] at dealt
    exact dealt
  | freshOfPool pool =>
    exact ask_dealt sound (fun config => some (config.anonymousName, .fresh))
      (fun p => p.getAnonymous_dealt) found found'
  | freshOfVar v => exact fresh_dealt sound v found found'
  | freshOfTerm t =>
    cases t with
    | var v => exact fresh_dealt sound v found found'
    | const c => exact unmoved found'
    | app f args => exact unmoved found'
  | freshOfSymbol x =>
    cases x with
    | var v => exact fresh_dealt sound v found found'
    | const c => exact unmoved found'
    | func f => exact unmoved found'

/-- A pool that is not open answers nothing. -/
theorem answer?_of_closed {c : Call} {config : Pool.Config} {asked : String × Request}
    (closed : r.find? id = none) (asks : c.asks? id config = some asked) :
    (r.perform c).1.answer? = none := by
  have nothing : ∀ {pool : PoolId} {f : Pool → Reply × Pool} {a : String × Request},
      (if pool = id then some a else none) = some asked → (r.ask pool f).1.answer? = none := by
    intro pool f a asks
    split at asks
    · rename_i same
      rw [same, ask_of_closed closed]
      rfl
    · cases asks
  have unbound : ∀ {v : Variable} {a : String × Request},
      (if v.origin.pool? = some id then some a else none) = some asked →
      (Reply.ofDrawn (r.fresh v).1).answer? = none := by
    intro v a asks
    split at asks
    · rename_i own
      rw [fresh_of_unbound (by rw [poolOf?, own, Option.bind_some, closed])]
      rfl
    · cases asks
  cases c with
  | openPool config => cases asks
  | cloneHandle pool => cases asks
  | dropHandle pool => cases asks
  | handleOf v => cases asks
  | get pool name => cases asks
  | issuedBy pool v => cases asks
  | getIndexed pool name index => exact nothing asks
  | getFresh pool name => exact nothing asks
  | nextIndex pool name => exact nothing asks
  | freshOfPool pool => exact nothing asks
  | freshOfVar v => exact unbound asks
  | freshOfTerm t =>
    cases t with
    | var v => exact unbound asks
    | const c => cases asks
    | app f args => cases asks
  | freshOfSymbol x =>
    cases x with
    | var v => exact unbound asks
    | const c => cases asks
    | func f => cases asks

end Registry

/-- A call that deals with a pool carries on what was said with the counter of a name by its
request, if it has one. -/
theorem Pool.Dealt.talk {p q : Pool} {id : PoolId} {c : Call} {reply : Reply}
    (dealt : p.Dealt (c.asks? id p.config) reply q) (name : String) :
    Counter.Talk name (p.counter name)
      ((⟨c, reply⟩ : Event).answered? id p.config name).toList (q.counter name) ∧
    ((⟨c, reply⟩ : Event).answered? id p.config name).toList.map (·.request) =
      (c.request? id p.config name).toList := by
  rw [Event.answered?, Call.request?]
  generalize c.asks? id p.config = asked at dealt
  cases dealt with
  | serves continues other request answer counters =>
    by_cases same : other = name
    · subst same
      rw [Option.bind_some, if_pos rfl, Option.bind_some, answer, counters, if_pos rfl]
      exact ⟨.cons request (.nil _), rfl⟩
    · rw [Option.bind_some, if_neg same, counters, if_neg (Ne.symm same)]
      exact ⟨.nil _, rfl⟩
  | quiet continues counters =>
    rw [counters]
    exact ⟨.nil _, rfl⟩

end TermAlgebra
