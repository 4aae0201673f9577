import TermAlgebra.Exchange.Read
import TermAlgebra.Table
/-!
Expressions from which a session builds variables, symbols, terms and substitutions. An expression
may refer to a register that holds a value built before; everything else it mentions is made anew.
Parts are built from left to right, and the first failure is the one reported.
-/
namespace TermAlgebra.Session

inductive Slot where
  /-- A handle to a pool. -/
  | pool (id : PoolId)
  | var (v : Variable)
  | term (t : Term Variable)
  | subst (s : Substitution Variable)

abbrev Registers := Table String Slot

/-- Why a step of a session fails. -/
inductive Error where
  /-- The register named does not hold what is wanted there. -/
  | badReference (register : String)
  /-- A value given in the exchange form could not be read. -/
  | unreadable (error : ReadError)
  /-- The operation itself failed. -/
  | failed (error : TermError)
deriving DecidableEq

/-- A variable: a label for a new instance, or a register that holds one. -/
inductive VarExpr where
  | label (l : Label)
  | ref (register : String)

inductive SymbolExpr where
  | const (name : String)
  | func (name : String) (arity : UInt64)
  | var (v : VarExpr)

inductive TermExpr where
  | const (name : String)
  | label (l : Label)
  | ref (register : String)
  /-- A function symbol of the given arity, or of as many arguments as there are. -/
  | app (name : String) (arity : Option UInt64) (args : List TermExpr)
  /-- A term wrapped several times in a symbol of one argument. -/
  | nest (name : String) (times : Nat) (inner : TermExpr)
  /-- A complete binary tree with the term at its leaves. -/
  | tree (name : String) (height : Nat) (inner : TermExpr)
  /-- A symbol with so many copies of the term as arguments. -/
  | wide (name : String) (copies : Nat) (inner : TermExpr)

/-- A substitution: its pairs, or a register that holds one. -/
inductive SubstExpr where
  | pairs (items : List (VarExpr × TermExpr))
  | ref (register : String)

/-- A computation that reads registers and numbers the instances it makes. -/
abbrev Build (α : Type) := ReaderT Registers (StateT Nat (Except Error)) α

namespace Build

def ofResult {α : Type} : Except TermError α → Build α
  | .ok a => pure a
  | .error e => throw (.failed e)

/-- A new instance with the given label. -/
def instantiate (l : Label) : Build Variable := do
  let serial ← get
  set (serial + 1)
  pure ⟨l, .free serial⟩

def lookUp (register : String) : Build (Option Slot) := do
  pure ((← read).get? register)

def symbol (name : String) (arity : UInt64) : Build FunctionSymbol :=
  ofResult (FunctionSymbol.declare name arity)

end Build

open Build

/-- Builds a variable. A register that holds a term will do if the term is just a variable. -/
def VarExpr.build : VarExpr → Build Variable
  | label l => instantiate l
  | ref register => do
    match ← lookUp register with
    | some (.var v) => pure v
    | some (.term (.var v)) => pure v
    | _ => throw (.badReference register)

def SymbolExpr.build : SymbolExpr → Build (Symbol Variable)
  | const name => pure (.const ⟨name⟩)
  | func name arity => .func <$> symbol name arity
  | var v => .var <$> v.build

/-- A term wrapped several times in a symbol of one argument. -/
def nested (f : FunctionSymbol) : Nat → Term Variable → Term Variable
  | 0, t => t
  | n + 1, t => nested f n (.app f [t])

/-- A complete binary tree with the term at its leaves. -/
def binaryTree (f : FunctionSymbol) : Nat → Term Variable → Term Variable
  | 0, t => t
  | n + 1, t => binaryTree f n (.app f [t, t])

namespace TermExpr

mutual

/-- Builds a term: first its arguments, then its symbol. -/
def build : TermExpr → Build (Term Variable)
  | const name => pure (.const ⟨name⟩)
  | label l => .var <$> instantiate l
  | ref register => do
    match ← lookUp register with
    | some (.var v) => pure (.var v)
    | some (.term t) => pure t
    | _ => throw (.badReference register)
  | app name arity args => do
    let ts ← buildAll args
    let f ← symbol name (arity.getD (.ofNat ts.length))
    ofResult (f.apply ts)
  | nest name times inner => do
    let t ← build inner
    let f ← symbol name 1
    pure (nested f times t)
  | tree name height inner => do
    let t ← build inner
    let f ← symbol name 2
    pure (binaryTree f height t)
  | wide name copies inner => do
    let t ← build inner
    let f ← symbol name (.ofNat copies)
    ofResult (f.apply (List.replicate copies t))

def buildAll : List TermExpr → Build (List (Term Variable))
  | [] => pure []
  | e :: rest => do
    let t ← build e
    let ts ← buildAll rest
    pure (t :: ts)

end

end TermExpr

/-- Builds the pairs of a substitution, each variable before its term. -/
def buildPairs : List (VarExpr × TermExpr) → Build (List (Variable × Term Variable))
  | [] => pure []
  | (v, t) :: rest => do
    let v ← v.build
    let t ← t.build
    let pairs ← buildPairs rest
    pure ((v, t) :: pairs)

def SubstExpr.build : SubstExpr → Build (Substitution Variable)
  | pairs items => .ofList <$> buildPairs items
  | ref register => do
    match ← lookUp register with
    | some (.subst s) => pure s
    | _ => throw (.badReference register)

/-- What a computation gives when there are no registers. -/
def Build.alone {α : Type} (b : Build α) : Except Error α := (b.run .empty).run' 0

end TermAlgebra.Session
