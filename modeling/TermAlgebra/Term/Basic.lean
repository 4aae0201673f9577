import TermAlgebra.Error
/-!
First-order terms over variables of any type `ν`. The tree itself is plain data; `WellFormed` says
that every application has as many arguments as its symbol asks for, and `FunctionSymbol.apply`
is the checked way to build one. Replacing every variable by a term is `bind`.

Sizes, depths and numbers of arguments are natural numbers, without a greatest one: a term with
parts in common can have more positions than a machine word counts. Arities are words, as they are
part of a symbol and are written down with it.
-/
namespace TermAlgebra

/-- A constant, a variable, or a function symbol applied to a list of terms. -/
inductive Term (ν : Type) where
  | const (c : Constant)
  | var (v : ν)
  | app (f : FunctionSymbol) (args : List (Term ν))
deriving Inhabited

namespace Term

variable {ν μ : Type}

/-- Induction over terms, with the claim at hand for every argument of an application. -/
@[induction_eliminator, elab_as_elim]
theorem induct {motive : Term ν → Prop} (const : ∀ c, motive (.const c))
    (var : ∀ v, motive (.var v))
    (app : ∀ f args, (∀ t ∈ args, motive t) → motive (.app f args)) : ∀ t, motive t
  | .const c => const c
  | .var v => var v
  | .app f args => app f args fun t _ => induct const var app t

/-- The function symbol at the root of an application. -/
def root? : Term ν → Option FunctionSymbol
  | app f _ => some f
  | const _ | var _ => none

/-- The arguments at the root; constants and variables have none. -/
def children : Term ν → List (Term ν)
  | app _ args => args
  | const _ | var _ => []

/-- The variable, for a term that is just a variable. -/
def asVariable? : Term ν → Option ν
  | var v => some v
  | const _ | app .. => none

mutual

/-- How many positions the term has. -/
def size : Term ν → Nat
  | const _ | var _ => 1
  | app _ args => 1 + sizeAll args

/-- The sizes of several terms together. -/
def sizeAll : List (Term ν) → Nat
  | [] => 0
  | t :: rest => size t + sizeAll rest

end

mutual

/-- The length of the longest position; zero for a constant or a variable. -/
def depth : Term ν → Nat
  | const _ | var _ => 0
  | app _ args => 1 + depthAll args

/-- The greatest depth of several terms, zero if there are none. -/
def depthAll : List (Term ν) → Nat
  | [] => 0
  | t :: rest => max (depth t) (depthAll rest)

end

mutual

/-- Every application in the term has as many arguments as its symbol's arity. -/
def WellFormed : Term ν → Prop
  | const _ | var _ => True
  | app f args => args.length = f.arity.toNat ∧ WellFormedAll args

def WellFormedAll : List (Term ν) → Prop
  | [] => True
  | t :: rest => WellFormed t ∧ WellFormedAll rest

end

mutual

/-- The term with every variable `v` replaced by the term `g v`. -/
def bind (g : ν → Term μ) : Term ν → Term μ
  | const c => const c
  | var v => g v
  | app f args => app f (bindAll g args)

def bindAll (g : ν → Term μ) : List (Term ν) → List (Term μ)
  | [] => []
  | t :: rest => bind g t :: bindAll g rest

end

/-- The term with every variable `v` replaced by the variable `g v`. -/
def map (g : ν → μ) (t : Term ν) : Term μ := t.bind fun v => var (g v)

mutual

/-- Equality of terms, with their variables compared by `==`. -/
def beq [BEq ν] : Term ν → Term ν → Bool
  | const c, const d => c == d
  | var v, var w => v == w
  | app f ts, app g us => f == g && beqAll ts us
  | _, _ => false

def beqAll [BEq ν] : List (Term ν) → List (Term ν) → Bool
  | [], [] => true
  | t :: ts, u :: us => beq t u && beqAll ts us
  | _, _ => false

end

instance [BEq ν] : BEq (Term ν) := ⟨beq⟩

mutual

/-- An application is written as its symbol's name and its arguments in parentheses. The arity is
not written: it is the number of arguments. -/
def text : Term Label → String
  | const c => c.text
  | var l => l.text
  | app f args => f.name ++ "(" ++ String.intercalate ", " (texts args) ++ ")"

/-- The texts of several terms. -/
def texts : List (Term Label) → List String
  | [] => []
  | t :: rest => text t :: texts rest

end

end Term

/-- A function symbol with its arguments, outside a term. -/
structure Application (ν : Type) where
  symbol : FunctionSymbol
  args : List (Term ν)

def Application.toTerm {ν : Type} (a : Application ν) : Term ν := .app a.symbol a.args

def Term.asApplication? {ν : Type} : Term ν → Option (Application ν)
  | .app f args => some ⟨f, args⟩
  | .const _ | .var _ => none

variable {ν : Type}

/-- Applies a symbol to arguments, whose number must be the symbol's arity. -/
def FunctionSymbol.apply (f : FunctionSymbol) (args : List (Term ν)) : Except TermError (Term ν) :=
  if args.length = f.arity.toNat then .ok (.app f args) else .error (.arityMismatch f args.length)

/-- The term made of one symbol; a function symbol needs arguments. -/
def Symbol.toTerm : Symbol ν → Except TermError (Term ν)
  | const c => .ok (.const c)
  | var v => .ok (.var v)
  | func f => .error (.unsupportedOperand .useAsTerm f)

end TermAlgebra
