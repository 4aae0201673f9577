import TermAlgebra.Table
import TermAlgebra.Term.Basic
/-!
Substitutions: finite tables of bindings from variables to terms. A variable without a binding
stands for itself. Bindings keep the order in which their variables were first bound, which shows
in the text, but equality does not look at it.
-/
namespace TermAlgebra

/-- A finite table of bindings. Variables that are equal under `==` share one binding. -/
@[ext]
structure Substitution (ν : Type) [BEq ν] where
  bindings : Table ν (Term ν)

namespace Substitution

variable {ν : Type} [BEq ν]

def identity : Substitution ν := ⟨.empty⟩

instance : Inhabited (Substitution ν) := ⟨identity⟩

def single (v : ν) (t : Term ν) : Substitution ν := ⟨Table.empty.insert v t⟩

/-- The pairs collected one by one: a variable keeps the place and the instance of its first pair
and is bound to the term of its last. -/
def ofList (pairs : List (ν × Term ν)) : Substitution ν := ⟨.ofList pairs⟩

/-- The bindings in the order in which their variables were first bound. -/
def toList (s : Substitution ν) : List (ν × Term ν) := s.bindings.entries

def get? (s : Substitution ν) (v : ν) : Option (Term ν) := s.bindings.get? v

def contains (s : Substitution ν) (v : ν) : Bool := s.bindings.contains v

def domain (s : Substitution ν) : List ν := s.bindings.keys

def size (s : Substitution ν) : Nat := s.bindings.size

def isEmpty (s : Substitution ν) : Bool := s.bindings.isEmpty

/-- Two substitutions are equal when they bind the same variables to equal terms, in any order. -/
instance : BEq (Substitution ν) := ⟨fun s r => s.bindings.sameBindings r.bindings⟩

/-- What a variable stands for: the term bound to it, or else the very variable. -/
def image (s : Substitution ν) (v : ν) : Term ν := (s.get? v).getD (.var v)

mutual

/-- The term with every variable replaced by what it stands for. Without bindings nothing in an
application can change, and the application itself is the answer. -/
def apply (s : Substitution ν) : Term ν → Term ν
  | .const c => .const c
  | .var v => s.image v
  | .app f args => if s.isEmpty then .app f args else .app f (applyAll s args)

/-- Each of several terms with every variable replaced by what it stands for. -/
def applyAll (s : Substitution ν) : List (Term ν) → List (Term ν)
  | [] => []
  | t :: rest => apply s t :: applyAll s rest

end

/-- Applies the substitution to an application outside a term: always to each argument, bindings or
not. -/
def applyToArgs (s : Substitution ν) (a : Application ν) : Application ν :=
  ⟨a.symbol, s.applyAll a.args⟩

/-- Applies the substitution to a symbol used as a term. -/
def applySymbol (s : Substitution ν) (x : Symbol ν) : Except TermError (Term ν) :=
  x.toTerm.map s.apply

/-- The substitution that applies `inner` first and `outer` after it: the bindings of `inner` with
`outer` applied to their terms, then the bindings of `outer` for variables that `inner` does not
bind, as they are. -/
def compose (outer inner : Substitution ν) : Substitution ν :=
  ⟨(inner.bindings.mapValues outer.apply).extend outer.bindings⟩

/-- Starts from no bindings and puts each pair, as a substitution of its own, after what has been
composed so far. -/
def ofSteps (pairs : List (ν × Term ν)) : Substitution ν :=
  pairs.foldl (fun s pair => (single pair.1 pair.2).compose s) identity

/-- The compositions of longer and longer beginnings of a list, bracketed to the left. -/
def composeLeft : List (Substitution ν) → List (Substitution ν)
  | [] => []
  | s :: rest => s :: go s rest
where
  /-- The compositions of `acc` with longer and longer beginnings of a list. -/
  go (acc : Substitution ν) : List (Substitution ν) → List (Substitution ν)
    | [] => []
    | s :: rest => acc.compose s :: go (acc.compose s) rest

/-- The composition of a whole list, bracketed to the right. -/
def composeRight : List (Substitution ν) → Substitution ν
  | [] => identity
  | [s] => s
  | s :: r :: rest => s.compose (composeRight (r :: rest))

/-- The term after all substitutions of a list were applied to it, the last one first. -/
def applyInTurn (ss : List (Substitution ν)) (t : Term ν) : Term ν :=
  ss.foldr (fun s u => s.apply u) t

end Substitution

/-- A substitution is written as its bindings in braces, each with an arrow. -/
def Substitution.text (s : Substitution Label) : String :=
  "\x7b" ++ String.intercalate ", " (s.toList.map fun b => b.1.text ++ " -> " ++ b.2.text) ++ "\x7d"

end TermAlgebra
