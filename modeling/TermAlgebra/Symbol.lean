/-!
The symbols that terms are made of. A constant stands alone, a function symbol takes a fixed
positive number of arguments, and a variable is known by its label: a name with or without an
index. Each kind has one text and one order.
-/
namespace TermAlgebra

/-- A symbol that is a term by itself. -/
structure Constant where
  name : String
deriving DecidableEq, Inhabited

def Constant.text (c : Constant) : String := c.name

instance : Ord Constant := ⟨compareOn Constant.name⟩

/-- A symbol that makes a term out of exactly `arity` arguments, at least one. -/
structure FunctionSymbol where
  name : String
  arity : UInt64
  arity_ne_zero : arity ≠ 0
deriving DecidableEq

/-- The symbol `name` of the given arity; there is none of arity zero. -/
def FunctionSymbol.ofArity? (name : String) (arity : UInt64) : Option FunctionSymbol :=
  if h : arity = 0 then none else some ⟨name, arity, h⟩

/-- A function symbol is written with its arity, as in `f.2`. -/
def FunctionSymbol.text (f : FunctionSymbol) : String :=
  f.name ++ "." ++ f.arity.toNat.repr

instance : Ord FunctionSymbol :=
  ⟨compareLex (compareOn FunctionSymbol.name) (compareOn FunctionSymbol.arity)⟩

/-- What tells variables apart: a plain variable has no index, and an indexed variable of the same
name is another one. -/
structure Label where
  name : String
  index : Option UInt64 := none
deriving DecidableEq, Inhabited

/-- A variable is written with a question mark, and its index after a number sign. -/
def Label.text (l : Label) : String :=
  match l.index with
  | none => "?" ++ l.name
  | some i => "?" ++ l.name ++ "#" ++ i.toNat.repr

/-- Labels are ordered by name; of one name the plain label comes first, then rising indices. -/
instance : Ord Label := ⟨compareLex (compareOn Label.name) (compareOn Label.index)⟩

inductive Symbol (ν : Type) where
  | const (c : Constant)
  | func (f : FunctionSymbol)
  | var (v : ν)
deriving DecidableEq

namespace Symbol

variable {ν μ : Type}

/-- The symbol with its variable replaced by `g` of it. -/
def map (g : ν → μ) : Symbol ν → Symbol μ
  | const c => const c
  | func f => func f
  | var v => var (g v)

/-- The name, without arity, question mark or index. -/
def name : Symbol Label → String
  | const c => c.name
  | func f => f.name
  | var l => l.name

/-- How many arguments the symbol takes: none unless it is a function symbol. -/
def arity : Symbol ν → UInt64
  | func f => f.arity
  | const _ | var _ => 0

def text : Symbol Label → String
  | const c => c.text
  | func f => f.text
  | var l => l.text

end Symbol

end TermAlgebra
