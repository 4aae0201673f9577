import TermAlgebra.Pool.Counter
import TermAlgebra.Variable
/-!
Pools: sources of variables. A pool keeps one canonical plain variable and one counter for each
name it has been asked for, and numbers the instances it issues. Every operation gives its answer
together with the pool afterwards.
-/
namespace TermAlgebra

namespace Pool

/-- What a pool is opened with. -/
structure Config where
  firstIndex : UInt64 := 1
  /-- The name of fresh variables that are asked for without a name. -/
  anonymousName : String := ""
deriving DecidableEq, Inhabited

/-- What a pool remembers of a name. -/
structure NameState where
  canonical : Variable
  counter : Counter

end Pool

structure Pool where
  id : PoolId
  config : Pool.Config
  /-- Every name the pool has been asked for. -/
  names : Table String Pool.NameState
  /-- How many instances the pool has made. -/
  issued : Nat

namespace Pool

def create (id : PoolId) (config : Config) : Pool := ⟨id, config, .empty, 0⟩

def issue (p : Pool) (label : Label) : Variable × Pool :=
  (⟨label, .issued p.id p.issued⟩, { p with issued := p.issued + 1 })

/-- What the pool remembers of a name. At the first mention it makes the canonical variable and
starts the counter. -/
def mention (p : Pool) (name : String) : NameState × Pool :=
  match p.names.get? name with
  | some state => (state, p)
  | none =>
    let (canonical, p) := p.issue ⟨name, none⟩
    let state : NameState := ⟨canonical, .startingAt p.config.firstIndex⟩
    (state, { p with names := p.names.insert name state })

/-- Takes an index of a name out of use. -/
def reserve (p : Pool) (name : String) (index : UInt64) : Pool :=
  let (state, p) := p.mention name
  let state := { state with counter := state.counter.reserve index }
  { p with names := p.names.insert name state }

/-- The canonical plain variable of a name, the same instance every time. -/
def get (p : Pool) (name : String) : Variable × Pool :=
  let (state, p) := p.mention name
  (state.canonical, p)

/-- A new instance with the given index, which is no longer handed out as a fresh one. -/
def getIndexed (p : Pool) (name : String) (index : UInt64) : Variable × Pool :=
  (p.reserve name index).issue ⟨name, some index⟩

/-- The index that the next fresh variable of the name will have; none when all are used up. -/
def nextIndex (p : Pool) (name : String) : Option UInt64 × Pool :=
  let (state, p) := p.mention name
  (state.counter.next, p)

/-- A new instance whose index the pool has neither issued nor reserved for that name. -/
def getFresh (p : Pool) (name : String) : Except TermError Variable × Pool :=
  match p.nextIndex name with
  | (none, p) => (.error (.indexExhausted name), p)
  | (some index, p) =>
    let (v, p) := p.getIndexed name index
    (.ok v, p)

def getAnonymous (p : Pool) : Except TermError Variable × Pool := p.getFresh p.config.anonymousName

/-- The indices of `count` fresh variables of a name, none for each request that fails. -/
def drawIndices (p : Pool) (name : String) : Nat → List (Option UInt64) × Pool
  | 0 => ([], p)
  | count + 1 =>
    let (drawn, p) := p.getFresh name
    let (rest, p) := drawIndices p name count
    (drawn.toOption.bind (·.label.index) :: rest, p)

def hasIssued (p : Pool) (v : Variable) : Bool := v.origin.pool? == some p.id

end Pool

end TermAlgebra
