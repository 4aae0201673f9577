import TermAlgebra.Substitution
/-!
Variables as individual instances. Every instance has a label and an origin, and no two instances
have the same origin. Comparing, looking up and writing variables goes by the label alone; the
origin says whether two values are one instance and which pool an instance came from. `labels`
forgets the origins of everything in a term or a substitution.
-/
namespace TermAlgebra

/-- Pools are numbered in the order of their opening. -/
abbrev PoolId := Nat

/-- Where an instance came from, and its number there. -/
inductive Origin where
  /-- Made on its own, outside every pool. -/
  | free (serial : Nat)
  /-- Issued by a pool. -/
  | issued (pool : PoolId) (serial : Nat)
deriving DecidableEq, Inhabited

def Origin.pool? : Origin → Option PoolId
  | free _ => none
  | issued pool _ => some pool

structure Variable where
  label : Label
  origin : Origin
deriving Inhabited

namespace Variable

/-- Variables are equal when their labels are. -/
instance : BEq Variable := ⟨fun v w => v.label == w.label⟩

theorem beq_def (v w : Variable) : (v == w) = (v.label == w.label) := rfl

theorem beq_iff {v w : Variable} : (v == w) = true ↔ v.label = w.label := by
  rw [beq_def]; exact beq_iff_eq

instance : EquivBEq Variable where
  rfl := beq_iff.2 rfl
  symm h := beq_iff.2 (beq_iff.1 h).symm
  trans h k := beq_iff.2 ((beq_iff.1 h).trans (beq_iff.1 k))

instance : Ord Variable := ⟨compareOn Variable.label⟩

/-- Something that takes in the parts of a key one after another, whatever it makes of them. -/
structure Hasher (σ : Type) where
  name : σ → String → σ
  index : σ → Option UInt64 → σ

/-- The state of a hasher after a variable: it takes in the name and then the index. -/
def hashInto {σ : Type} (h : Hasher σ) (state : σ) (v : Variable) : σ :=
  h.index (h.name state v.label.name) v.label.index

/-- Whether two values are one and the same instance. -/
def sameInstance (v w : Variable) : Bool := v.origin == w.origin

theorem sameInstance_iff {v w : Variable} : v.sameInstance w = true ↔ v.origin = w.origin :=
  beq_iff_eq

end Variable

/-- The symbol with only the label left of a variable. -/
def Symbol.labels (x : Symbol Variable) : Symbol Label := x.map Variable.label

def Term.labels (t : Term Variable) : Term Label := t.map Variable.label

/-- The substitution with only the labels left of its variables. Labels differ as their variables
do, so no two bindings meet. -/
def Substitution.labels (s : Substitution Variable) : Substitution Label :=
  ⟨⟨s.bindings.entries.map fun b => (b.1.label, b.2.labels),
    List.pairwise_map.2 s.bindings.distinct⟩⟩

/-- Symbols are compared as their kinds are, variables by their labels. -/
instance : BEq (Symbol Variable) := ⟨fun x y => x.labels == y.labels⟩

end TermAlgebra
