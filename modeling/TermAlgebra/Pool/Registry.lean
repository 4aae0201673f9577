import TermAlgebra.Pool.Basic
import TermAlgebra.Term.Occurrence
/-!
The pools that are open. A pool is open while at least one handle to it is held; releasing the last
handle closes it for good, since numbers of pools are never given out twice. Variables know the
number of the pool that issued them, but do not hold it open, so a variable is bound only as long
as its pool is found here.
-/
namespace TermAlgebra

/-- An open pool and how many handles to it are held. -/
structure OpenPool where
  pool : Pool
  handles : Nat

/-- All open pools, and how many pools have been opened so far. -/
structure Registry where
  pools : Table PoolId OpenPool
  opened : Nat

namespace Registry

def empty : Registry := ⟨.empty, 0⟩

def openPool (r : Registry) (config : Pool.Config) : PoolId × Registry :=
  (r.opened, ⟨r.pools.insert r.opened ⟨.create r.opened config, 1⟩, r.opened + 1⟩)

/-- Gives out one more handle to an open pool. -/
def retain (r : Registry) (id : PoolId) : Registry :=
  match r.pools.get? id with
  | some o => { r with pools := r.pools.insert id { o with handles := o.handles + 1 } }
  | none => r

/-- Takes back a handle. The pool closes when that was the last one. -/
def release (r : Registry) (id : PoolId) : Registry :=
  match r.pools.get? id with
  | some o =>
    if o.handles ≤ 1 then { r with pools := r.pools.erase id }
    else { r with pools := r.pools.insert id { o with handles := o.handles - 1 } }
  | none => r

def find? (r : Registry) (id : PoolId) : Option Pool := (r.pools.get? id).map (·.pool)

/-- Records what has become of an open pool. -/
def update (r : Registry) (p : Pool) : Registry :=
  match r.pools.get? p.id with
  | some o => { r with pools := r.pools.insert p.id { o with pool := p } }
  | none => r

def poolOf? (r : Registry) (v : Variable) : Option Pool := v.origin.pool?.bind r.find?

def isBound (r : Registry) (v : Variable) : Bool := (r.poolOf? v).isSome

/-- A fresh variable of the same name, from the pool that issued the instance. -/
def fresh (r : Registry) (v : Variable) : Except TermError Variable × Registry :=
  match r.poolOf? v with
  | none => (.error (.notPoolBound v.label.text), r)
  | some p =>
    let (drawn, p) := p.getFresh v.label.name
    (drawn, r.update p)

/-- A fresh variable for a term that is just a variable. -/
def freshOfTerm (r : Registry) (t : Term Variable) : Except TermError Variable × Registry :=
  match t.asVariable? with
  | some v => r.fresh v
  | none => (.error (.notPoolBound t.labels.text), r)

/-- A fresh variable for a symbol that is a variable. -/
def freshOfSymbol (r : Registry) (x : Symbol Variable) : Except TermError Variable × Registry :=
  match x with
  | .var v => r.fresh v
  | .const _ | .func _ => (.error (.notPoolBound x.labels.text), r)

/-- A fresh variable for each of several variables, in order. The first failure ends it; what was
drawn before it stays drawn. -/
def freshAll (r : Registry) : List Variable → Except TermError (List Variable) × Registry
  | [] => (.ok [], r)
  | v :: vs =>
    match r.fresh v with
    | (.error e, r) => (.error e, r)
    | (.ok w, r) =>
      let (ws, r) := freshAll r vs
      (ws.map (w :: ·), r)

/-- The substitution that puts a fresh variable for every variable of a term. -/
def renameApart (r : Registry) (t : Term Variable) :
    Except TermError (Substitution Variable) × Registry :=
  let (ws, r) := r.freshAll t.variableSet
  (ws.map fun ws => .ofList (t.variableSet.zip (ws.map .var)), r)

end Registry

end TermAlgebra
