import TermAlgebra.Description
import TermAlgebra.Exchange.Text
import TermAlgebra.Order.Sort
import TermAlgebra.Session.Expression
/-!
Sessions: steps that open and use pools and keep their results in registers. A register that holds
a handle keeps its pool open; writing over it or dropping it gives the handle back. A step writes a
register only when it succeeds, and after its answer has been taken.
-/
namespace TermAlgebra

/-- What a session keeps between steps. -/
structure Session where
  registers : Session.Registers
  pools : Registry
  /-- How many instances the session has made outside pools. -/
  made : Nat

namespace Session

def start : Session := ⟨.empty, .empty, 0⟩

def releaseSlot (pools : Registry) : Option Slot → Registry
  | some (.pool id) => pools.release id
  | _ => pools

/-- Writes a register. A handle that was there is given back. -/
def put (s : Session) (register : String) (slot : Slot) : Session :=
  { s with
    registers := s.registers.insert register slot
    pools := releaseSlot s.pools (s.registers.get? register) }

/-- Empties a register. A handle that was there is given back. -/
def drop (s : Session) (register : String) : Session :=
  { s with
    registers := s.registers.erase register
    pools := releaseSlot s.pools (s.registers.get? register) }

/-- One step of a session. Where `into` is given it names the register for the result. -/
inductive Step where
  /-- Opens a pool; the configuration is given in the exchange form. -/
  | openPool (config : Option Json) (into : Option String)
  /-- A second handle to a pool. -/
  | handle (pool : String) (into : Option String)
  | drop (register : String)
  | get (pool name : String) (into : Option String)
  | getIndexed (pool name : String) (index : UInt64) (into : Option String)
  | getFresh (pool name : String) (into : Option String)
  | nextIndex (pool name : String)
  | issuedBy (pool : String) (v : VarExpr)
  | describePool (pool : String)
  | describeVar (v : VarExpr)
  | freshOfPool (pool : String) (into : Option String)
  | freshOfVar (v : VarExpr) (into : Option String)
  | freshOfTerm (t : TermExpr) (into : Option String)
  | freshOfSymbol (x : SymbolExpr) (into : Option String)
  /-- Draws several fresh variables of a name, whoever asks for which. -/
  | draw (pool name : String) (count : Nat)
  | var (v : VarExpr) (into : Option String)
  /-- A new handle to the pool that issued a variable. -/
  | poolOf (v : VarExpr) (into : Option String)
  | same (a b : VarExpr)
  | compare (a b : VarExpr)
  /-- Writes a variable in the exchange form and reads it back. -/
  | reread (v : VarExpr) (into : Option String)
  | term (t : TermExpr) (into : Option String)
  | subterm (t : TermExpr) (position : Position) (into : Option String)
  | replace (t : TermExpr) (position : Position) (replacement : TermExpr) (into : Option String)
  | subst (s : SubstExpr) (into : Option String)
  | apply (s : SubstExpr) (t : TermExpr) (into : Option String)
  | compose (outer inner : SubstExpr) (into : Option String)
  | occurrences (t : TermExpr)
  | domain (s : SubstExpr)
  | renameApart (t : TermExpr) (into : Option String)

/-- A variable as an answer shows it. -/
structure VarView where
  text : String
  index : Option UInt64
  bound : Bool

/-- What a step answers. -/
inductive Answer where
  | config (c : Pool.Config)
  | flag (b : Bool)
  | index (i : Option UInt64)
  | indices (is : List (Option UInt64))
  | var (v : VarView)
  | vars (vs : List VarView)
  | text (s : String)
  | texts (ss : List String)
  | order (equal : Bool) (o : Ordering)

/-! ## Acting on a session -/

/-- A computation that changes a session and may fail; what it changed before stays changed. -/
abbrev Act (α : Type) := ExceptT Error (StateM Session) α

namespace Act

def ofResult {α : Type} : Except TermError α → Act α
  | .ok a => pure a
  | .error e => throw (.failed e)

def ofRead {α : Type} : Read α → Act α
  | .ok a => pure a
  | .error e => throw (.unreadable e)

def build {α : Type} (b : Build α) : Act α := do
  let s ← get
  match (b.run s.registers).run s.made with
  | .ok (a, made) =>
    set { s with made }
    pure a
  | .error e => throw e

/-- The open pool to which a register holds a handle. -/
def pool (register : String) : Act Pool := do
  let s ← get
  match s.registers.get? register with
  | some (.pool id) =>
    match s.pools.find? id with
    | some p => pure p
    | none => throw (.badReference register)
  | _ => throw (.badReference register)

def update (p : Pool) : Act Unit := modify fun s => { s with pools := s.pools.update p }

/-- Keeps an answer together with the registry as it is afterwards. -/
def withPools {α : Type} (f : Registry → Except TermError α × Registry) : Act α := do
  let s ← get
  let (result, pools) := f s.pools
  set { s with pools }
  ofResult result

/-- Writes a register if one is named. -/
def keep (into : Option String) (slot : Slot) : Act Unit :=
  match into with
  | some register => modify fun s => s.put register slot
  | none => pure ()

/-- Keeps a new handle to an open pool if a register is named for it. -/
def keepHandle (into : Option String) (id : PoolId) : Act Unit :=
  match into with
  | some register =>
    modify fun s => { s with pools := s.pools.retain id }.put register (.pool id)
  | none => pure ()

/-- A variable as it is to be shown now. -/
def view (v : Variable) : Act VarView := do
  let s ← get
  pure ⟨v.label.text, v.label.index, s.pools.isBound v⟩

/-- Shows a variable and then keeps it. -/
def answerVar (v : Variable) (into : Option String) : Act Answer := do
  let shown ← view v
  keep into (.var v)
  pure (.var shown)

/-- Shows a term and keeps it. -/
def answerTerm (t : Term Variable) (into : Option String) : Act Answer := do
  keep into (.term t)
  pure (.text t.labels.text)

/-- Shows a substitution and keeps it. -/
def answerSubst (s : Substitution Variable) (into : Option String) : Act Answer := do
  keep into (.subst s)
  pure (.text s.labels.text)

end Act

open Act

def perform : Step → Act Answer
  | .openPool config into => do
    let config ← match config with
      | some j => ofRead (Read.poolConfig j)
      | none => pure {}
    let s ← get
    let (id, pools) := s.pools.openPool config
    match into with
    | some register => set ({ s with pools }.put register (.pool id))
    | none => set { s with pools := pools.release id }
    pure (.config config)
  | .handle pool into => do
    let p ← Act.pool pool
    keepHandle into p.id
    pure (.flag true)
  | .drop register => do
    let s ← get
    set (s.drop register)
    pure (.flag (s.registers.contains register))
  | .get pool name into => do
    let (v, p) := (← Act.pool pool).get name
    update p
    answerVar v into
  | .getIndexed pool name index into => do
    let (v, p) := (← Act.pool pool).getIndexed name index
    update p
    answerVar v into
  | .getFresh pool name into => do
    let (drawn, p) := (← Act.pool pool).getFresh name
    update p
    answerVar (← ofResult drawn) into
  | .nextIndex pool name => do
    let (next, p) := (← Act.pool pool).nextIndex name
    update p
    pure (.index next)
  | .issuedBy pool v => do
    let p ← Act.pool pool
    let v ← build v.build
    pure (.flag (p.hasIssued v))
  | .describePool pool => do
    pure (.text (← Act.pool pool).description)
  | .describeVar v => do
    let v ← build v.build
    pure (.text v.label.description)
  | .freshOfPool pool into => do
    let (drawn, p) := (← Act.pool pool).getAnonymous
    update p
    answerVar (← ofResult drawn) into
  | .freshOfVar v into => do
    let v ← build v.build
    answerVar (← withPools fun pools => pools.fresh v) into
  | .freshOfTerm t into => do
    let t ← build t.build
    answerVar (← withPools fun pools => pools.freshOfTerm t) into
  | .freshOfSymbol x into => do
    let x ← build x.build
    answerVar (← withPools fun pools => pools.freshOfSymbol x) into
  | .draw pool name count => do
    let (drawn, p) := (← Act.pool pool).drawIndices name count
    update p
    pure (.indices (ascending drawn))
  | .var v into => do
    answerVar (← build v.build) into
  | .poolOf v into => do
    let v ← build v.build
    match (← get).pools.poolOf? v with
    | none => pure (.flag false)
    | some p =>
      keepHandle into p.id
      pure (.flag true)
  | .same a b => do
    let a ← build a.build
    let b ← build b.build
    pure (.flag (a.sameInstance b))
  | .compare a b => do
    let a ← build a.build
    let b ← build b.build
    pure (.order (a == b) (Ord.compare a b))
  | .reread v into => do
    let v ← build v.build
    let written := v.label.toJson.text
    let l ← ofRead (Read.ofText Read.label written)
    answerVar (← build (Build.instantiate l)) into
  | .term t into => do
    answerTerm (← build t.build) into
  | .subterm t position into => do
    let t ← build t.build
    answerTerm (← ofResult (t.subtermAt position)) into
  | .replace t position replacement into => do
    let t ← build t.build
    let r ← build replacement.build
    answerTerm (← ofResult (t.replaceAt position r)) into
  | .subst s into => do
    answerSubst (← build s.build) into
  | .apply s t into => do
    let s ← build s.build
    let t ← build t.build
    answerTerm (s.apply t) into
  | .compose outer inner into => do
    let outer ← build outer.build
    let inner ← build inner.build
    answerSubst (outer.compose inner) into
  | .occurrences t => do
    let t ← build t.build
    pure (.vars (← t.occurrences.mapM view))
  | .domain s => do
    let s ← build s.build
    pure (.vars (← s.domain.mapM view))
  | .renameApart t into => do
    let t ← build t.build
    let s ← withPools fun pools => pools.renameApart t
    let renamed := s.apply t
    keep into (.term renamed)
    pure (.texts [s.labels.text, renamed.labels.text])

/-- The answers to a list of steps, each given by the session as the steps before it left it. -/
def run (s : Session) : List Step → List (Except Error Answer)
  | [] => []
  | step :: rest =>
    let (answer, s) := (perform step).run s
    answer :: run s rest

end Session

end TermAlgebra
