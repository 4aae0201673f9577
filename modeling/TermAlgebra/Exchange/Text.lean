import TermAlgebra.Exchange.Read
import TermAlgebra.Json.Parser
import TermAlgebra.Variable
/-!
Values read from a text in the exchange form. Reading gives labels where the value has variables; as
a value of its own it has a new instance for every label in it. These are made outside all pools and
numbered from left to right, going on from a given number.
-/
namespace TermAlgebra

/-- What a text stands for, read as `read` says. A text that is no JSON has no layout at all. -/
def Read.ofText {α : Type} (read : Json → Read α) (text : String) : Read α :=
  (Json.parse? text).elim (.error .layout) read

namespace Term

mutual

/-- The term with a new instance for every occurrence of a label, and the number after the last. -/
def instances (serial : Nat) : Term Label → Term Variable × Nat
  | const c => (const c, serial)
  | var l => (var ⟨l, .free serial⟩, serial + 1)
  | app f args =>
    let (args, next) := instancesAll serial args
    (app f args, next)

def instancesAll (serial : Nat) : List (Term Label) → List (Term Variable) × Nat
  | [] => ([], serial)
  | t :: rest =>
    let (t, next) := instances serial t
    let (rest, next) := instancesAll next rest
    (t :: rest, next)

end

end Term

/-- Bindings with new instances, each variable numbered before its term. -/
def Substitution.instances (serial : Nat) :
    List (Label × Term Label) → List (Variable × Term Variable)
  | [] => []
  | (l, t) :: rest =>
    let (t, next) := t.instances (serial + 1)
    (⟨l, .free serial⟩, t) :: instances next rest

def Variable.ofText (serial : Nat) (text : String) : Read Variable :=
  (Read.ofText Read.label text).map fun l => ⟨l, .free serial⟩

def Term.ofText (serial : Nat) (text : String) : Read (Term Variable) :=
  (Read.ofText Read.term text).map fun t => (t.instances serial).1

/-- An application on its own, given as a term. -/
def Application.ofText (serial : Nat) (text : String) : Read (Term Variable) :=
  (Read.ofText Read.application text).map fun t => (t.instances serial).1

def Substitution.ofText (serial : Nat) (text : String) : Read (Substitution Variable) :=
  (Read.ofText Read.substitution text).map fun s => .ofList (instances serial s.toList)

end TermAlgebra
