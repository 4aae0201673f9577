import TermAlgebra.Term.Basic
/-!
Subterms and the positions where they stand: looking one up, replacing one, and listing all of
them. The list is made by a walk that keeps the subterms still to be visited in a queue whose head
comes next, so that a term is listed before its arguments and these from left to right.
-/
namespace TermAlgebra.Term

variable {ν : Type}

/-- The subterm at a position, if the term has that position. -/
def subterm? : Term ν → Position → Option (Term ν)
  | t, [] => some t
  | t, i :: p =>
    match t.children[i]? with
    | some u => subterm? u p
    | none => none

def hasPosition (t : Term ν) (p : Position) : Bool := (t.subterm? p).isSome

/-- The subterm at a position. The error names the whole position, however far the path led. -/
def subtermAt (t : Term ν) (p : Position) : Except TermError (Term ν) :=
  match t.subterm? p with
  | some u => .ok u
  | none => .error (.invalidPosition p)

/-- The term with its subterm at a position replaced by `r`, if it has that position. -/
def replace? (t : Term ν) (p : Position) (r : Term ν) : Option (Term ν) :=
  match t, p with
  | _, [] => some r
  | app f args, i :: p =>
    match args[i]? with
    | some u => (replace? u p r).map fun u' => app f (args.set i u')
    | none => none
  | const _, _ :: _ | var _, _ :: _ => none

/-- The term with its subterm at a position replaced by `r`. The error names the whole position. -/
def replaceAt (t : Term ν) (p : Position) (r : Term ν) : Except TermError (Term ν) :=
  match t.replace? p r with
  | some t' => .ok t'
  | none => .error (.invalidPosition p)

/-- What each of several replacements gives, one after another. One that fails leaves the term as
it was for the next. -/
def edit (t : Term ν) : List (Position × Term ν) → List (Except TermError (Term ν))
  | [] => []
  | (p, r) :: rest =>
    match t.replaceAt p r with
    | .ok t' => .ok t' :: edit t' rest
    | .error e => .error e :: edit t rest

/-- The arguments of `t`, which stands at `p`, with the positions where they stand. -/
def childrenAt (p : Position) (t : Term ν) : List (Position × Term ν) :=
  t.children.mapIdx fun i u => (Position.child p i, u)

/-- A walk through subterms: those still to be visited, with their positions, the next one first. -/
structure Walk (ν : Type) where
  pending : List (Position × Term ν)

namespace Walk

def start (t : Term ν) : Walk ν := ⟨[(Position.root, t)]⟩

/-- The next subterm, and the walk after it: the arguments come before all else that is pending. -/
def next? : Walk ν → Option ((Position × Term ν) × Walk ν)
  | ⟨[]⟩ => none
  | ⟨(p, t) :: rest⟩ => some ((p, t), ⟨childrenAt p t ++ rest⟩)

/-- How many subterms the walk has still to list. -/
def remaining (w : Walk ν) : Nat := sizeAll (w.pending.map (·.2))

end Walk

theorem sizeAll_append (ts us : List (Term ν)) : sizeAll (ts ++ us) = sizeAll ts + sizeAll us := by
  induction ts with
  | nil => simp [sizeAll]
  | cons t ts ih => simp [sizeAll, ih, Nat.add_assoc]

theorem size_eq (t : Term ν) : t.size = 1 + sizeAll t.children := by
  cases t <;> simp [size, children, sizeAll]

theorem map_snd_childrenAt (p : Position) (t : Term ν) :
    (childrenAt p t).map (·.2) = t.children := by
  simp [childrenAt, List.mapIdx_eq_zipIdx_map, Function.comp_def]

/-- Each step of a walk lists one subterm and leaves one fewer to be listed. -/
theorem Walk.remaining_next {w w' : Walk ν} {item : Position × Term ν}
    (h : w.next? = some (item, w')) : w'.remaining + 1 = w.remaining := by
  obtain ⟨_ | ⟨⟨p, t⟩, rest⟩⟩ := w
  · simp [next?] at h
  · simp only [next?, Option.some.injEq, Prod.mk.injEq] at h
    obtain ⟨-, rfl⟩ := h
    simp only [remaining, List.map_append, map_snd_childrenAt, sizeAll_append, List.map_cons,
      sizeAll, size_eq t]
    omega

/-- Everything a walk has still to list, in order. -/
def Walk.toList (w : Walk ν) : List (Position × Term ν) :=
  match _ : w.next? with
  | none => []
  | some (item, w') => item :: w'.toList
termination_by w.remaining
decreasing_by exact Nat.lt_of_succ_le (Nat.le_of_eq (remaining_next ‹_›))

/-- Every subterm with its position, each term before its arguments. -/
def subterms (t : Term ν) : List (Position × Term ν) := (Walk.start t).toList

/-- Every position of the term, in the order of `subterms`. -/
def positions (t : Term ν) : List Position := t.subterms.map (·.1)

end TermAlgebra.Term
