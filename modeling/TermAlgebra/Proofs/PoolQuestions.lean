import TermAlgebra.Proofs.FreshIndices
/-!
All calls in one go. There are many ways to call upon a pool, but only five questions that a pool
answers. A call opens a pool, or is about handles at most, or puts one of the questions to an open
pool and records what becomes of that pool (`perform_outcome`).
-/
namespace TermAlgebra

/-- What can be asked of an open pool. -/
inductive Question where
  | get (name : String)
  | getIndexed (name : String) (index : UInt64)
  | getFresh (name : String)
  | nextIndex (name : String)
  | issuedBy (v : Variable)

/-- The call puts the question to the pool. -/
inductive Call.Puts (p : Pool) : Call → Question → Prop where
  | get (name : String) : Puts p (.get p.id name) (.get name)
  | getIndexed (name : String) (index : UInt64) :
      Puts p (.getIndexed p.id name index) (.getIndexed name index)
  | getFresh {name : String} {c : Call} (asks : AsksFresh p name c) : Puts p c (.getFresh name)
  | nextIndex (name : String) : Puts p (.nextIndex p.id name) (.nextIndex name)
  | issuedBy (v : Variable) : Puts p (.issuedBy p.id v) (.issuedBy v)

/-- The pool's answer to a question, and the pool afterwards. -/
def Pool.answer (p : Pool) : Question → Reply × Pool
  | .get name => (.var (p.get name).1, (p.get name).2)
  | .getIndexed name index => (.var (p.getIndexed name index).1, (p.getIndexed name index).2)
  | .getFresh name => (.ofDrawn (p.getFresh name).1, (p.getFresh name).2)
  | .nextIndex name => (.index (p.nextIndex name).1, (p.nextIndex name).2)
  | .issuedBy v => (.flag (p.hasIssued v), p)

namespace Registry

variable {r : Registry}

/-- What a call does to the pools. -/
inductive Outcome (r : Registry) (c : Call) : Reply × Registry → Prop where
  | opens (config : Pool.Config) (call : c = .openPool config) :
      Outcome r c (.handle r.opened, (r.openPool config).2)
  | handles {reply : Reply} {q : Registry} (silent : reply.var? = none)
      (opened : q.opened = r.opened)
      (pools : ∀ id, q.find? id = r.find? id ∨ q.find? id = none) : Outcome r c (reply, q)
  | asks {p : Pool} {question : Question} (found : r.find? p.id = some p)
      (puts : c.Puts p question) :
      Outcome r c ((p.answer question).1, r.update (p.answer question).2)

theorem Outcome.nothing {c : Call} {reply : Reply} (silent : reply.var? = none) :
    r.Outcome c (reply, r) :=
  .handles silent rfl fun _ => .inl rfl

theorem giveHandle_outcome (c : Call) (id : Option PoolId) : r.Outcome c (r.giveHandle id) := by
  cases id with
  | none => exact .nothing rfl
  | some id => exact .handles rfl (opened_retain id) fun other => .inl (find?_retain id other)

theorem ask_outcome (sound : r.Sound) {c : Call} {id : PoolId} {f : Pool → Reply × Pool}
    (question : Pool → Question) (puts : ∀ p : Pool, p.id = id → c.Puts p (question p))
    (answered : ∀ p, f p = p.answer (question p)) : r.Outcome c (r.ask id f) := by
  rw [ask]
  cases found : r.find? id with
  | none => exact .nothing rfl
  | some p =>
    obtain ⟨own, -, -⟩ := sound id p found
    show r.Outcome c ((f p).1, r.update (f p).2)
    rw [answered]
    exact .asks (own.symm ▸ found) (puts p own)

theorem fresh_outcome (sound : r.Sound) {c : Call} {v : Variable}
    (asks : ∀ p : Pool, v.origin.pool? = some p.id → AsksFresh p v.label.name c) :
    r.Outcome c (.ofDrawn (r.fresh v).1, (r.fresh v).2) := by
  cases bound : r.poolOf? v with
  | none =>
    rw [fresh_of_unbound bound]
    exact .nothing rfl
  | some p =>
    rw [fresh_of_bound bound]
    obtain ⟨id, issuer, found⟩ := Option.bind_eq_some_iff.1 bound
    obtain ⟨rfl, -, -⟩ := sound id p found
    exact .asks found (.getFresh (asks p issuer))

/-- Every call has one of these outcomes. -/
theorem perform_outcome (sound : r.Sound) (c : Call) : r.Outcome c (r.perform c) := by
  cases c with
  | openPool config => exact .opens config rfl
  | cloneHandle id => exact giveHandle_outcome _ _
  | dropHandle id => exact .handles rfl (opened_release id) (find?_release id)
  | handleOf v => exact giveHandle_outcome _ _
  | get id name =>
    exact ask_outcome sound (fun _ => .get name) (fun _ own => own ▸ .get name) fun _ => rfl
  | getIndexed id name index =>
    exact ask_outcome sound (fun _ => .getIndexed name index)
      (fun _ own => own ▸ .getIndexed name index) fun _ => rfl
  | getFresh id name =>
    exact ask_outcome sound (fun _ => .getFresh name)
      (fun _ own => own ▸ .getFresh (.byName name)) fun _ => rfl
  | nextIndex id name =>
    exact ask_outcome sound (fun _ => .nextIndex name) (fun _ own => own ▸ .nextIndex name)
      fun _ => rfl
  | issuedBy id v =>
    exact ask_outcome sound (fun _ => .issuedBy v) (fun _ own => own ▸ .issuedBy v) fun _ => rfl
  | freshOfPool id =>
    exact ask_outcome sound (fun p => .getFresh p.config.anonymousName)
      (fun _ own => own ▸ .getFresh .byPool) fun _ => rfl
  | freshOfVar v => exact fresh_outcome sound fun p own => .byVar v own
  | freshOfTerm t =>
    cases t with
    | var v => exact fresh_outcome sound fun p own => .byTerm v own
    | const c => exact .nothing rfl
    | app f args => exact .nothing rfl
  | freshOfSymbol x =>
    cases x with
    | var v => exact fresh_outcome sound fun p own => .bySymbol v own
    | const c => exact .nothing rfl
    | func f => exact .nothing rfl

end Registry

end TermAlgebra
