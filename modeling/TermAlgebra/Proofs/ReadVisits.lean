import Mathlib.Data.List.Sort
import TermAlgebra.Proofs.Layout
/-!
What readers visit, and in which order. A value has parts that are read before anything is made of
it: the fields of a record, in an order that depends on its layout (`Json.inFields`), or the items
of a list. A reader comes to each part after the parts of that part (`Form.visited`). A value can be
at fault on its own account, whatever is at fault in its parts: by its layout, or, once everything
in it has been read, by an arity (`Form.fault?`).
-/
namespace TermAlgebra

/-- The kinds of values that a reader meets, those included that have no parts. -/
inductive Form where
  | string
  | word
  /-- A number, or null for none. -/
  | index
  | kind (k : Kind)

/-- A field of a record. -/
structure Field where
  name : String
  form : Form
  /-- Whether a record without the field is refused. -/
  needed : Bool

namespace Form

abbrev Value : Form → Type
  | string => String
  | word => UInt64
  | index => Option UInt64
  | kind k => k.Value

def read : (form : Form) → Json → Read form.Value
  | string => Read.string
  | word => Read.word
  | index => Read.word?
  | kind k => k.read

/-- The fields of a record, in the order in which they stand in an array. -/
def fields : Form → List Field
  | kind .constant => [⟨"name", string, true⟩]
  | kind .functionSymbol => [⟨"name", string, true⟩, ⟨"arity", word, true⟩]
  | kind .label => [⟨"name", string, true⟩, ⟨"index", index, false⟩]
  | kind .application => [⟨"root", kind .functionSymbol, true⟩, ⟨"children", kind .children, true⟩]
  | kind .binding => [⟨"variable", kind .label, true⟩, ⟨"term", kind .term, true⟩]
  | string | word | index | kind .term | kind .children | kind .substitution => []

/-- What a term of the given kind holds. -/
def ofTermKind? (name : String) : Option Form :=
  if name = "Constant" then some (kind .constant)
  else if name = "Variable" then some (kind .label)
  else if name = "Application" then some (kind .application)
  else none

end Form

def Json.isWord : Json → Bool
  | .integer (.ofNat n) => decide (n < UInt64.size)
  | _ => false

/-- What a value has in some fields, in the order in which they are visited: in an array the order
of the fields, in an object the ascending order of their names. -/
def Json.inFields (j : Json) (fields : List Field) : List (Form × Json) :=
  match j with
  | .array items => (fields.map (·.form)).zip items
  | .object given => (fields.insertionSort (·.name ≤ ·.name)).filterMap fun field =>
      (given.lookup field.name).map (field.form, ·)
  | _ => []

/-- Whether a value is laid out as a record of some fields: those that it needs are there, and an
array has no more items than there are fields. -/
def Json.fits (j : Json) (fields : List Field) : Bool :=
  match j with
  | .array items =>
    decide (items.length ≤ fields.length) && (fields.drop items.length).all (!·.needed)
  | .object given => fields.all fun field => !field.needed || (given.lookup field.name).isSome
  | _ => false

namespace Form

/-- The parts that are read of a value, in the order in which they are visited. A record in an array
that ends too soon, or an object that lacks a field, has fewer. -/
def parts (form : Form) (j : Json) : List (Form × Json) :=
  match form with
  | string | word | index => []
  | kind .constant | kind .functionSymbol | kind .label | kind .application =>
    j.inFields form.fields
  | kind .binding =>
    match j with
    | .array _ => j.inFields form.fields
    | _ => []
  | kind .term =>
    match j with
    | .object [(name, body)] => (ofTermKind? name).toList.map (·, body)
    | _ => []
  | kind .children =>
    match j with
    | .array items => items.map (kind .term, ·)
    | _ => []
  | kind .substitution =>
    match j with
    | .array items => items.map (kind .binding, ·)
    | _ => []

/-- Whether the layout of a value is accepted, whatever there is in its parts. -/
def accepts (form : Form) (j : Json) : Bool :=
  match form with
  | string => (j matches .string _)
  | word => j.isWord
  | index => (j matches .null) || j.isWord
  | kind .constant | kind .functionSymbol | kind .label | kind .application => j.fits form.fields
  | kind .binding =>
    match j with
    | .array _ => j.fits form.fields
    | _ => false
  | kind .term =>
    match j with
    | .object [(name, _)] => (ofTermKind? name).isSome
    | _ => false
  | kind .children | kind .substitution => (j matches .array _)

/-- What a record has in the field of the given name. -/
def field? (form : Form) (j : Json) (name : String) : Option Json :=
  match j with
  | .array items => items[form.fields.findIdx (·.name == name)]?
  | j => j.field? name

/-- What the check of arities finds at fault, once everything has been read. -/
def arityFault? (form : Form) (j : Json) : Option ReadError :=
  match form with
  | kind .functionSymbol =>
    match (form.field? j "name").map Read.string, (form.field? j "arity").map Read.word with
    | some (.ok name), some (.ok arity) =>
      if arity = 0 then some (.rejected (.invalidArity name)) else none
    | _, _ => none
  | kind .application =>
    match (form.field? j "root").map Read.functionSymbol,
      (form.field? j "children").map Read.children with
    | some (.ok f), some (.ok args) =>
      if args.length = f.arity.toNat then none
      else some (.rejected (.arityMismatch f args.length))
    | _, _ => none
  | _ => none

/-- What is at fault with a value itself, and not with a part of it. -/
def fault? (form : Form) (j : Json) : Option ReadError :=
  if form.accepts j then form.arityFault? j else some .layout

/-- The layout of the value is accepted, and everything in it is read. -/
def ReadInParts (form : Form) (j : Json) : Prop :=
  form.accepts j = true ∧ ∀ n ∈ form.parts j, ∃ v, n.1.read n.2 = .ok v

/-- Only an object with one field has a part that could be a term. -/
theorem parts_of_not_field {j : Json} (noKind : ∀ name body, j ≠ .object [(name, body)]) :
    (kind .term).parts j = [] := by
  unfold parts
  split <;> simp_all

theorem sizeOf_lt_of_mem_inFields {j : Json} {fields : List Field} {n : Form × Json}
    (member : n ∈ j.inFields fields) : sizeOf n.2 < sizeOf j := by
  cases j with
  | array items =>
    have smaller := List.sizeOf_lt_of_mem (List.of_mem_zip member).2
    simp only [Json.array.sizeOf_spec]
    omega
  | object given =>
    obtain ⟨field, -, held⟩ := List.mem_filterMap.1 member
    obtain ⟨part, there, rfl⟩ := Option.map_eq_some_iff.1 held
    exact Read.sizeOf_lookup there
  | _ => cases member

theorem sizeOf_lt_of_mem_map {items : List Json} {form : Form} {n : Form × Json}
    (member : n ∈ items.map (form, ·)) : sizeOf n.2 < sizeOf (Json.array items) := by
  obtain ⟨j, there, rfl⟩ := List.mem_map.1 member
  have smaller := List.sizeOf_lt_of_mem there
  simp only [Json.array.sizeOf_spec]
  omega

/-- What is read of a value is part of it. -/
theorem sizeOf_lt_of_mem_parts {form : Form} {j : Json} {n : Form × Json}
    (member : n ∈ form.parts j) : sizeOf n.2 < sizeOf j := by
  cases form with
  | string | word | index => cases member
  | kind k =>
    cases k with
    | constant | functionSymbol | label | application => exact sizeOf_lt_of_mem_inFields member
    | binding =>
      cases j with
      | array items => exact sizeOf_lt_of_mem_inFields member
      | _ => cases member
    | children | substitution =>
      cases j with
      | array items => exact sizeOf_lt_of_mem_map member
      | _ => cases member
    | term =>
      by_cases single : ∃ name body, j = .object [(name, body)]
      · obtain ⟨name, body, rfl⟩ := single
        obtain ⟨inner, -, rfl⟩ := List.mem_map.1 member
        simp only [Json.object.sizeOf_spec, List.cons.sizeOf_spec, Prod.mk.sizeOf_spec]
        omega
      · rw [parts_of_not_field (by simpa using single)] at member
        cases member

/-- Everything that is read of a value, in the order in which the readers come to an end with it:
each part comes after the parts of that part, and the value itself last. -/
def visited (form : Form) (j : Json) : List (Form × Json) :=
  ((form.parts j).attach.flatMap fun ⟨n, _⟩ => visited n.1 n.2) ++ [(form, j)]
termination_by sizeOf j
decreasing_by exact sizeOf_lt_of_mem_parts ‹_›

theorem visited_eq (form : Form) (j : Json) :
    form.visited j = ((form.parts j).flatMap fun n => n.1.visited n.2) ++ [(form, j)] := by
  rw [visited, List.flatMap_subtype fun _ _ => rfl, List.unattach_attach]

end Form

end TermAlgebra
