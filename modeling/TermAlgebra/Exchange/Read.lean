import TermAlgebra.Exchange.Write
/-!
Reading values back from the exchange form. A record may be given as an object, whose unknown fields
are ignored, or as an array of its fields in their fixed order. Fields of an object are visited in
ascending order of their names and items of an array from the front, and the first failure met is
the one reported. A missing field or a surplus item counts after the fields that are there, and
arities are checked last. What is read has labels for variables: it belongs to no pool.
-/
namespace TermAlgebra

/-- Why a value could not be read. -/
inductive ReadError where
  /-- The value does not have the form of what was to be read. -/
  | layout
  /-- The value has the right form, but what it describes cannot be built. -/
  | rejected (error : TermError)
deriving DecidableEq

/-- The report of a rejected value is that of the error; a wrong layout has none. -/
def ReadError.message : ReadError → String
  | layout => ""
  | rejected error => error.message

abbrev Read (α : Type) := Except ReadError α

namespace Read

/-- A step of building whose error rejects what was read. -/
def build {α : Type} (result : Except TermError α) : Read α := result.mapError .rejected

def string : Json → Read String
  | .string s => .ok s
  | _ => .error .layout

/-- An integer from zero to the largest of 64 bits. -/
def word : Json → Read UInt64
  | .integer (.ofNat n) => if n < UInt64.size then .ok (.ofNat n) else .error .layout
  | _ => .error .layout

/-- A number of 64 bits, or null for none. -/
def word? : Json → Read (Option UInt64)
  | .null => .ok none
  | j => (word j).map some

/-- A value that must be there. -/
def required {α : Type} : Option α → Read α
  | some a => .ok a
  | none => .error .layout

/-- The reading of a value that may be absent. -/
def optional {α : Type} : Option (Read α) → Read (Option α)
  | some (.ok a) => .ok (some a)
  | some (.error e) => .error e
  | none => .ok none

/-- What a value has in the places of a record's two fields. -/
structure Parts where
  first : Option Json
  second : Option Json
  /-- Whether the second field is visited before the first. -/
  secondFirst : Bool := false
  /-- Whether more is there than the record has fields. -/
  surplus : Bool := false

/-- The first two items of an array. -/
def Parts.ofItems (items : List Json) : Parts where
  first := items[0]?
  second := items[1]?
  surplus := 2 < items.length

/-- The fields of an object with the given names. -/
def Parts.ofFields (first second : String) (fields : List (String × Json)) : Parts where
  first := fields.lookup first
  second := fields.lookup second
  secondFirst := decide (second < first)

/-- What a value has in the places of the fields with the given names, if it is laid out as a
record. -/
def parts (first second : String) : Json → Read Parts
  | .array items => .ok (.ofItems items)
  | .object fields => .ok (.ofFields first second fields)
  | _ => .error .layout

/-- Both fields, given the reading of each, in the order in which they are visited. -/
def Parts.collect {α β : Type} (p : Parts) (a : Option (Read α)) (b : Option (Read β)) :
    Read (Option α × Option β) := do
  let both ←
    if p.secondFirst then do
      let b ← optional b
      let a ← optional a
      pure (a, b)
    else do
      let a ← optional a
      let b ← optional b
      pure (a, b)
  if p.surplus then .error .layout else .ok both

def constant : Json → Read Constant
  | .array [name] => (string name).map .mk
  | .object fields => do
    let name ← required (fields.lookup "name")
    (string name).map .mk
  | _ => .error .layout

/-- A function symbol: its name and its arity, which must not be zero. -/
def functionSymbol (j : Json) : Read FunctionSymbol := do
  let p ← parts "name" "arity" j
  let (name, arity) ← p.collect (p.first.map string) (p.second.map word)
  let name ← required name
  let arity ← required arity
  build (FunctionSymbol.declare name arity)

/-- A label: its name and its index, which may be null or missing. -/
def label (j : Json) : Read Label := do
  let p ← parts "name" "index" j
  let (name, index) ← p.collect (p.first.map string) (p.second.map word?)
  let name ← required name
  .ok ⟨name, index.join⟩

theorem sizeOf_lookup {k : String} {j : Json} {fields : List (String × Json)}
    (h : fields.lookup k = some j) : sizeOf j < sizeOf (Json.object fields) := by
  induction fields with
  | nil => simp at h
  | cons field rest ih =>
    obtain ⟨k', j'⟩ := field
    rw [List.lookup_cons] at h
    by_cases same : k == k'
    · simp only [same, Option.some.injEq] at h
      subst h
      simp only [Json.object.sizeOf_spec, List.cons.sizeOf_spec, Prod.mk.sizeOf_spec]
      omega
    · simp only [same] at h
      have := ih h
      simp only [Json.object.sizeOf_spec, List.cons.sizeOf_spec] at this ⊢
      omega

theorem sizeOf_second {first second : String} {j part : Json} {p : Parts}
    (h : parts first second j = .ok p) (k : p.second = some part) : sizeOf part < sizeOf j := by
  cases j with
  | array items =>
    simp only [parts, Except.ok.injEq] at h
    subst h
    have := List.sizeOf_lt_of_mem (List.mem_of_getElem? k)
    simp only [Json.array.sizeOf_spec]
    omega
  | object fields =>
    simp only [parts, Except.ok.injEq] at h
    subst h
    exact sizeOf_lookup k
  | _ => simp [parts] at h

mutual

/-- A term: an object with one field, named for the kind of term. -/
def term (j : Json) : Read (Term Label) :=
  match j with
  | .object [(kind, body)] =>
    if kind = "Constant" then (constant body).map .const
    else if kind = "Variable" then (label body).map .var
    else if kind = "Application" then application body
    else .error .layout
  | _ => .error .layout
termination_by sizeOf j
decreasing_by
  simp only [Json.object.sizeOf_spec, List.cons.sizeOf_spec, Prod.mk.sizeOf_spec]
  omega

/-- An application: its symbol and its arguments, as many as the symbol's arity. -/
def application (j : Json) : Read (Term Label) :=
  match _ : parts "root" "children" j with
  | .error e => .error e
  | .ok p => do
    let args := match _ : p.second with
      | some part => some (children part)
      | none => none
    let (f, args) ← p.collect (p.first.map functionSymbol) args
    let f ← required f
    let args ← required args
    build (f.apply args)
termination_by sizeOf j
decreasing_by exact sizeOf_second ‹_› ‹_›

/-- The arguments of an application: an array of terms. -/
def children (j : Json) : Read (List (Term Label)) :=
  match j with
  | .array items => terms items
  | _ => .error .layout
termination_by sizeOf j
decreasing_by
  simp only [Json.array.sizeOf_spec]
  omega

/-- Terms read one by one from the front. -/
def terms (items : List Json) : Read (List (Term Label)) :=
  match items with
  | [] => .ok []
  | j :: rest => do
    let t ← term j
    let ts ← terms rest
    .ok (t :: ts)
termination_by sizeOf items
decreasing_by all_goals simp only [List.cons.sizeOf_spec]; omega

end

/-- A position: an array of indices. -/
def position : Json → Read Position
  | .array items => items.mapM fun j => (word j).map UInt64.toNat
  | _ => .error .layout

/-- A binding: an array of a variable and a term. -/
def binding : Json → Read (Label × Term Label)
  | .array items => do
    let p := Parts.ofItems items
    let (l, t) ← p.collect (p.first.map label) (p.second.map term)
    let l ← required l
    let t ← required t
    .ok (l, t)
  | _ => .error .layout

/-- A substitution: an array of bindings, collected in order. -/
def substitution : Json → Read (Substitution Label)
  | .array items => (items.mapM binding).map .ofList
  | _ => .error .layout

/-- A pool's configuration; what is missing takes its default. -/
def poolConfig (j : Json) : Read Pool.Config := do
  let p ← parts "first_index" "anonymous_name" j
  let (firstIndex, anonymousName) ← p.collect (p.first.map word) (p.second.map string)
  let defaults : Pool.Config := {}
  .ok ⟨firstIndex.getD defaults.firstIndex, anonymousName.getD defaults.anonymousName⟩

end Read

end TermAlgebra
