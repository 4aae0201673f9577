import TermAlgebra.Proofs.CounterRequests
/-!
The independence of counters. Two histories in which a pool was asked the same for a name were given
the same answers, whatever else happened in them (`counters_independent`); and requests that took no
index can be left out or put in anywhere.
-/
namespace TermAlgebra

namespace History

/-- A call with the reply that it gets at this moment. -/
def eventOf (h : History) (c : Call) : Event := ⟨c, (h.pools.perform c).1⟩

def IsOpen (h : History) (id : PoolId) : Prop := (h.pools.find? id).isSome = true

/-- What a pool was asked for a name, and answered, in order. -/
def answered (h : History) (id : PoolId) (config : Pool.Config) (name : String) :
    List Answered :=
  h.events.filterMap (Event.answered? id config name)

variable {h : History} {id : PoolId} {p q : Pool}

theorem answered_next (h : History) (c : Call) (id : PoolId) (config : Pool.Config)
    (name : String) : (h.next c).answered id config name = h.answered id config name ++
      ((h.eventOf c).answered? id config name).toList :=
  filterMap_snoc _ h.events _

theorem talk_eventOf {c : Call} (held : h.Accounted) (found : h.pools.find? id = some p)
    (found' : (h.next c).pools.find? id = some q) (name : String) :
    Counter.Talk name (p.counter name) ((h.eventOf c).answered? id p.config name).toList
      (q.counter name) ∧
    ((h.eventOf c).answered? id p.config name).toList.map (·.request) =
      (c.request? id p.config name).toList :=
  (Registry.perform_dealt held.sound c found found').talk name

theorem answered?_of_closed (closed : h.pools.find? id = none) (c : Call) (config : Pool.Config)
    (name : String) : (h.eventOf c).answered? id config name = none := by
  rw [Option.eq_none_iff_forall_ne_some]
  intro a own
  obtain ⟨request, asks, given⟩ := Option.bind_eq_some_iff.1 own
  obtain ⟨asked, asks, -⟩ := Option.bind_eq_some_iff.1 asks
  obtain ⟨answer, replied, -⟩ := Option.map_eq_some_iff.1 given
  cases (Registry.answer?_of_closed closed asks).symm.trans replied

/-- Numbers of pools are given out once, so a pool that is open later was open all the time. -/
theorem open_of_later (held : h.Accounted) (later : List Call) (given : id < h.pools.opened)
    (found : (later.foldl next h).pools.find? id = some q) :
    ∃ p, h.pools.find? id = some p := by
  induction later generalizing h with
  | nil => exact ⟨q, found⟩
  | cons c rest ih =>
    have given' : id < (h.next c).pools.opened :=
      Nat.lt_of_lt_of_le given (Registry.opened_perform held.sound c)
    obtain ⟨p, found'⟩ := ih (held.next c) given' found
    rcases Registry.open_before held.sound c found' with before | ⟨config, -, new, -⟩
    · exact before
    · exact absurd given (Nat.not_lt.2 (Nat.le_of_eq new.symm))

/-- What is said with a counter while its pool is open: every request is answered, by the counter
as the earlier ones have left it. -/
theorem talk_foldl (held : h.Accounted) (later : List Call) (found : h.pools.find? id = some p)
    (found' : (later.foldl next h).pools.find? id = some q) (name : String) :
    q.config = p.config ∧ ∃ answered,
      (later.foldl next h).answered id p.config name = h.answered id p.config name ++ answered ∧
      Counter.Talk name (p.counter name) answered (q.counter name) ∧
      answered.map (·.request) = later.filterMap (Call.request? id p.config name) := by
  induction later generalizing h p with
  | nil =>
    obtain rfl := Option.some.inj (found.symm.trans found')
    exact ⟨rfl, [], (List.append_nil _).symm, .nil _, rfl⟩
  | cons c rest ih =>
    have given : id < (h.next c).pools.opened :=
      Nat.lt_of_lt_of_le (held.sound id p found).2.1 (Registry.opened_perform held.sound c)
    obtain ⟨p', between⟩ := open_of_later (held.next c) rest given found'
    have config := (Registry.perform_dealt held.sound c found between).continues.config
    obtain ⟨config', answered, grown, talk, asked⟩ := ih (held.next c) between found'
    obtain ⟨first, own⟩ := talk_eventOf held found between name
    rw [config] at config' grown asked
    refine ⟨config', _, ?_, first.append talk, ?_⟩
    · rw [List.foldl_cons, grown, answered_next, List.append_assoc]
    · rw [List.map_append, own, asked]
      cases request : c.request? id p.config name with
      | none => rw [List.filterMap_cons_none request]; rfl
      | some request' => rw [List.filterMap_cons_some request]; rfl

/-- The counters of the open pools come from what their pools have been asked. -/
structure Conversed (h : History) : Prop where
  unopened : ∀ id, h.pools.opened ≤ id → ∀ config name, h.answered id config name = []
  talk : ∀ id p, h.pools.find? id = some p → ∀ name,
    Counter.Talk name (.startingAt p.config.firstIndex) (h.answered id p.config name)
      (p.counter name)

theorem Conversed.next (held : h.Accounted) (conversed : h.Conversed) (c : Call) :
    (h.next c).Conversed := by
  constructor
  case unopened =>
    intro id late config name
    have late' := Nat.le_trans (Registry.opened_perform held.sound c) late
    have closed : h.pools.find? id = none := by
      cases found : h.pools.find? id with
      | none => rfl
      | some p => exact absurd (held.sound id p found).2.1 (Nat.not_lt.2 late')
    rw [answered_next, conversed.unopened id late' config name, answered?_of_closed closed]
    rfl
  case talk =>
    intro id q found name
    rw [answered_next]
    rcases Registry.open_before held.sound c found with ⟨p, before⟩ | ⟨config, rfl, new, rfl⟩
    · rw [(Registry.perform_dealt held.sound c before found).continues.config]
      exact (conversed.talk id p before name).append (talk_eventOf held before found name).1
    · rw [conversed.unopened id (Nat.le_of_eq new.symm)]
      exact .nil _

theorem conversed (calls : List Call) : (of calls).Conversed := by
  have both : (of calls).Accounted ∧ (of calls).Conversed := by
    refine of_induction (motive := fun h => h.Accounted ∧ h.Conversed) ?_ ?_ calls
    · exact ⟨.start, ⟨fun _ _ _ _ => rfl, fun _ _ found => by cases found⟩⟩
    · exact fun h c held => ⟨held.1.next c, held.2.next held.1 c⟩
  exact both.2

end History

/-- Calls that take no index of a name from a pool where they stand: those that ask nothing of its
counter, those that ask for its next index, and those that fail. -/
inductive TakesNothing (r : Registry) (id : PoolId) (config : Pool.Config) (name : String)
    (c : Call) : Prop where
  | elsewhere (silent : c.request? id config name = none)
  | asksNext (asks : c.request? id config name = some .next)
  | fails (e : TermError) (failed : (r.perform c).1 = .failed e)

theorem TakesNothing.idle {h : History} {id : PoolId} {config : Pool.Config} {name : String}
    {c : Call} (takesNothing : TakesNothing h.pools id config name c) {a : Answered}
    (own : (h.eventOf c).answered? id config name = some a) : a.Idle := by
  obtain ⟨request, asks, given⟩ := Option.bind_eq_some_iff.1 own
  obtain ⟨answer, replied, rfl⟩ := Option.map_eq_some_iff.1 given
  cases takesNothing with
  | elsewhere silent => cases silent.symm.trans asks
  | asksNext asks' => exact .inl (Option.some.inj (asks.symm.trans asks'))
  | fails e failed =>
    change (h.pools.perform c).1.answer? = some answer at replied
    rw [failed] at replied
    cases e with
    | notPoolBound text => cases replied
    | _ => exact .inr ⟨_, (Option.some.inj replied).symm⟩

/-- What is so of a pool that is open after some calls and of a pool, opened with the same
configuration, that is open after others, for one name. -/
structure Independent (cs ds : List Call) (a b : PoolId) (config : Pool.Config) (name : String) :
    Prop where
  /-- While the pool is open every request is answered. -/
  complete : ∀ earlier later, cs = earlier ++ later → (History.of earlier).IsOpen a →
    ∃ answered,
      (History.of cs).answered a config name =
        (History.of earlier).answered a config name ++ answered ∧
      answered.map (·.request) = later.filterMap (Call.request? a config name)
  /-- The same requests get the same answers, whatever else happens. -/
  answers : ∀ all all', Pruned ((History.of cs).answered a config name) all →
    Pruned ((History.of ds).answered b config name) all' →
    all.map (·.request) = all'.map (·.request) → all = all'
  /-- After the same requests the next index is the same. -/
  next : ∀ all all', Pruned ((History.of cs).answered a config name) all →
    Pruned ((History.of ds).answered b config name) all' →
    all.map (·.request) = all'.map (·.request) →
    ((History.of cs).pools.perform (.nextIndex a name)).1 =
      ((History.of ds).pools.perform (.nextIndex b name)).1
  /-- A call that takes no index may be put in anywhere. All others get the answers they got. -/
  undisturbed : ∀ earlier c later, cs = earlier ++ later →
    (History.of earlier).IsOpen a → (History.of (earlier ++ c :: later)).IsOpen a →
    TakesNothing (History.of earlier).pools a config name c → ∃ answered,
      (History.of cs).answered a config name =
        (History.of earlier).answered a config name ++ answered ∧
      (History.of (earlier ++ c :: later)).answered a config name =
        (History.of earlier).answered a config name ++
          (((History.of earlier).eventOf c).answered? a config name).toList ++ answered ∧
      ((History.of (earlier ++ c :: later)).pools.perform (.nextIndex a name)).1 =
        ((History.of cs).pools.perform (.nextIndex a name)).1

namespace History

variable {id : PoolId} {p q p' : Pool} {name : String}

theorem nextIndex_eq_of_counter {h k : History} {a b : PoolId} (found : h.pools.find? a = some p)
    (found' : k.pools.find? b = some q) (same : q.counter name = p.counter name) :
    (h.pools.perform (.nextIndex a name)).1 = (k.pools.perform (.nextIndex b name)).1 := by
  rw [Registry.nextIndex_reply found, Registry.nextIndex_reply found', same]

/-- A call that takes no index leaves the counter as it is. -/
theorem counter_of_takesNothing {h : History} {c : Call} (held : h.Accounted)
    (found : h.pools.find? id = some p) (found' : (h.next c).pools.find? id = some q)
    (takesNothing : TakesNothing h.pools id p.config name c) : q.counter name = p.counter name := by
  obtain ⟨talk, -⟩ := talk_eventOf held found found' name
  have passed : Pruned ((h.eventOf c).answered? id p.config name).toList [] := by
    cases own : (h.eventOf c).answered? id p.config name with
    | none => exact .nil
    | some a => exact .pass (takesNothing.idle own) .nil
  exact ((talk.pruned passed).unique (.nil _) rfl).2

/-- Putting in a call that takes no index changes no other answer. -/
theorem talk_insert (earlier : List Call) (c : Call) (later : List Call)
    (before : (of earlier).pools.find? id = some p)
    (found : (of (earlier ++ later)).pools.find? id = some q)
    (found' : (of (earlier ++ c :: later)).pools.find? id = some p')
    (takesNothing : TakesNothing (of earlier).pools id p.config name c) :
    p'.counter name = q.counter name ∧ ∃ answered,
      (of (earlier ++ later)).answered id p.config name =
        (of earlier).answered id p.config name ++ answered ∧
      (of (earlier ++ c :: later)).answered id p.config name =
        (of earlier).answered id p.config name ++
          (((of earlier).eventOf c).answered? id p.config name).toList ++ answered := by
  have held := accounted earlier
  rw [of_append] at found found' ⊢
  rw [List.foldl_cons] at found'
  have given : id < ((of earlier).next c).pools.opened :=
    Nat.lt_of_lt_of_le (held.sound id p before).2.1 (Registry.opened_perform held.sound c)
  obtain ⟨p₁, between⟩ := open_of_later (held.next c) later given found'
  have unmoved := counter_of_takesNothing held before between takesNothing
  have config := (Registry.perform_dealt held.sound c before between).continues.config
  obtain ⟨-, answered, grown, talk, asked⟩ := talk_foldl held later before found name
  obtain ⟨-, answered', grown', talk', asked'⟩ :=
    talk_foldl (held.next c) later between found' name
  rw [config] at grown' asked'
  rw [unmoved] at talk'
  obtain ⟨rfl, same⟩ := talk.unique talk' (asked.trans asked'.symm)
  refine ⟨same.symm, answered, grown, ?_⟩
  rw [of_append, List.foldl_cons, grown', answered_next]

end History

/-- What the counter of a name in one pool answers depends on nothing but what was asked of it. -/
theorem counters_independent {cs ds : List Call} {a b : PoolId} {p q : Pool}
    (found : (History.of cs).pools.find? a = some p)
    (found' : (History.of ds).pools.find? b = some q) (config : q.config = p.config)
    (name : String) : Independent cs ds a b p.config name := by
  have talk := (History.conversed cs).talk a p found name
  have talk' := (History.conversed ds).talk b q found' name
  rw [config] at talk'
  constructor
  case complete =>
    rintro earlier later rfl before
    obtain ⟨p₁, opened⟩ := Option.isSome_iff_exists.1 before
    rw [History.of_append] at found ⊢
    obtain ⟨same, answered, grown, -, asked⟩ :=
      History.talk_foldl (History.accounted earlier) later opened found name
    rw [← same] at grown asked
    exact ⟨answered, grown, asked⟩
  case answers =>
    intro all all' pruned pruned' asked
    exact ((talk.pruned pruned).unique (talk'.pruned pruned') asked).1
  case next =>
    intro all all' pruned pruned' asked
    obtain ⟨-, same⟩ := (talk.pruned pruned).unique (talk'.pruned pruned') asked
    exact History.nextIndex_eq_of_counter found found' same.symm
  case undisturbed =>
    rintro earlier c later rfl before after takesNothing
    obtain ⟨p₁, opened⟩ := Option.isSome_iff_exists.1 before
    obtain ⟨p₂, inserted⟩ := Option.isSome_iff_exists.1 after
    have same : p.config = p₁.config := by
      rw [History.of_append] at found
      exact (History.talk_foldl (History.accounted earlier) later opened found name).1
    rw [same] at takesNothing ⊢
    obtain ⟨unmoved, answered, grown, grown'⟩ :=
      History.talk_insert earlier c later opened found inserted takesNothing
    exact ⟨answered, grown, grown', History.nextIndex_eq_of_counter inserted found unmoved.symm⟩

/-- Two histories of a pool. In the second one another pool, with a counter for the same name, was
opened before it, and calls that take no index stand in between. -/
theorem counters_independent_interleaved :
    let cs : List Call := [.openPool {}, .getFresh 0 "x", .getIndexed 0 "x" 5, .freshOfPool 0,
      .freshOfVar ⟨⟨"x", none⟩, .issued 0 0⟩]
    let ds : List Call := [.openPool ⟨9, "x"⟩, .openPool {}, .get 1 "x", .freshOfPool 0,
      .getFresh 1 "x", .getFresh 0 "x", .freshOfVar ⟨⟨"x", none⟩, .free 0⟩, .nextIndex 1 "y",
      .getIndexed 1 "x" 5, .cloneHandle 1, .dropHandle 0, .dropHandle 1, .getFresh 1 "x"]
    ∃ p q, (History.of cs).pools.find? 0 = some p ∧ (History.of ds).pools.find? 1 = some q ∧
      Independent cs ds 0 1 p.config "x" ∧ (History.of ds).answered 1 p.config "x" =
        [⟨.fresh, .var ⟨"x", some 1⟩⟩, ⟨.reserve 5, .var ⟨"x", some 5⟩⟩,
          ⟨.fresh, .var ⟨"x", some 6⟩⟩] := by
  intro cs ds
  have opened : ((History.of cs).pools.find? 0).map (·.config) = some {} := by decide
  have opened' : ((History.of ds).pools.find? 1).map (·.config) = some {} := by decide
  obtain ⟨p, found, config⟩ := Option.map_eq_some_iff.1 opened
  obtain ⟨q, found', config'⟩ := Option.map_eq_some_iff.1 opened'
  have independent := counters_independent found found' (config'.trans config.symm) "x"
  refine ⟨p, q, found, found', independent, ?_⟩
  rw [config]
  decide

end TermAlgebra
