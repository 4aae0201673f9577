import TermAlgebra.Substitution
import TermAlgebra.Term.Subterm
/-!
Variable occurrences from left to right. A scan keeps frames of what is still to be read, the
innermost first, and turns over the first of them: a variable is reported, a constant is passed
over, an application puts a frame with its arguments before everything else, and a frame that has
been read through is dropped. Asked for the next variable, it turns until there is one to report.
`turns_turn` says that this comes to an end.
-/
namespace TermAlgebra

variable {ν : Type}

namespace Term

/-- Something that a scan reads through before it goes on with the rest. -/
inductive Frame (ν : Type) where
  /-- A variable on its own. -/
  | single (v : ν)
  /-- The variables that a substitution binds. -/
  | keys (vs : List ν)
  /-- Terms next to each other. -/
  | terms (ts : List (Term ν))

/-- A scan for variables: the frames still to be read, the innermost first. -/
structure Scan (ν : Type) where
  pending : List (Frame ν)

namespace Scan

def start (ts : List (Term ν)) : Scan ν := ⟨[.terms ts]⟩

/-- One turn over the first frame: the variable that it reports, if it reports one, and the scan
after it. There is none when everything has been read. -/
def turn : Scan ν → Option (Option ν × Scan ν)
  | ⟨[]⟩ => none
  | ⟨.single v :: outer⟩ => some (some v, ⟨outer⟩)
  | ⟨.keys (v :: vs) :: outer⟩ => some (some v, ⟨.keys vs :: outer⟩)
  | ⟨.keys [] :: outer⟩ => some (none, ⟨outer⟩)
  | ⟨.terms (var v :: ts) :: outer⟩ => some (some v, ⟨.terms ts :: outer⟩)
  | ⟨.terms (const _ :: ts) :: outer⟩ => some (none, ⟨.terms ts :: outer⟩)
  | ⟨.terms (app _ args :: ts) :: outer⟩ => some (none, ⟨.terms args :: .terms ts :: outer⟩)
  | ⟨.terms [] :: outer⟩ => some (none, ⟨outer⟩)

end Scan

/-- A bound on the turns that reading a frame takes: two for each subterm, one for a variable
outside a term, and one at the end. -/
def Frame.turns : Frame ν → Nat
  | single _ => 1
  | keys vs => 1 + vs.length
  | terms ts => 1 + 2 * sizeAll ts

namespace Scan

/-- A bound on the turns that are left. -/
def turns (s : Scan ν) : Nat := s.pending.foldr (fun frame left => frame.turns + left) 0

/-- Every turn takes one off the bound at least, also when it puts a frame with arguments on top. -/
theorem turns_turn {s s' : Scan ν} {reported : Option ν} (turned : s.turn = some (reported, s')) :
    s'.turns < s.turns := by
  unfold turn at turned
  split at turned <;> cases turned
  all_goals
    simp only [turns, List.foldr_cons, Frame.turns, sizeAll, size, List.length_cons]
    omega

/-- The next variable, and the scan after it: as many turns as it takes until one is reported. -/
def next? (s : Scan ν) : Option (ν × Scan ν) :=
  match _ : s.turn with
  | none => none
  | some (some v, s') => some (v, s')
  | some (none, s') => s'.next?
termination_by s.turns
decreasing_by exact turns_turn ‹_›

theorem turns_next? {s s' : Scan ν} {v : ν} (taken : s.next? = some (v, s')) :
    s'.turns < s.turns := by
  induction s using next?.induct with
  | case1 s ended =>
    rw [next?, ended] at taken
    cases taken
  | case2 s w rest turned =>
    rw [next?, turned] at taken
    cases taken
    exact turns_turn turned
  | case3 s rest turned ih =>
    rw [next?, turned] at taken
    exact Nat.lt_trans (ih taken) (turns_turn turned)

/-- Everything a scan has still to report, in order. -/
def toList (s : Scan ν) : List ν :=
  match _ : s.next? with
  | none => []
  | some (v, s') => v :: s'.toList
termination_by s.turns
decreasing_by exact turns_next? ‹_›

section
variable (outer : List (Frame ν)) (ts : List (Term ν))

theorem toList_of_ended {s : Scan ν} (finished : s.turn = none) : s.toList = [] := by
  rw [toList, next?, finished]

theorem toList_of_silent {s s' : Scan ν} (turned : s.turn = some (none, s')) :
    s.toList = s'.toList := by
  rw [toList, toList, next?, turned]

theorem toList_of_reported {s s' : Scan ν} {v : ν} (turned : s.turn = some (some v, s')) :
    s.toList = v :: s'.toList := by
  rw [toList, next?, turned]

@[simp] theorem toList_nil : (⟨[]⟩ : Scan ν).toList = [] := toList_of_ended rfl

@[simp] theorem toList_single (v : ν) : toList ⟨.single v :: outer⟩ = v :: toList ⟨outer⟩ :=
  toList_of_reported rfl

@[simp] theorem toList_keys (vs : List ν) :
    toList ⟨.keys vs :: outer⟩ = vs ++ toList ⟨outer⟩ := by
  induction vs with
  | nil => exact toList_of_silent rfl
  | cons v vs ih => rw [List.cons_append, ← ih, toList_of_reported rfl]

@[simp] theorem toList_terms_nil : toList ⟨.terms [] :: outer⟩ = toList ⟨outer⟩ :=
  toList_of_silent rfl

@[simp] theorem toList_terms_const (c : Constant) :
    toList ⟨.terms (const c :: ts) :: outer⟩ = toList ⟨.terms ts :: outer⟩ :=
  toList_of_silent rfl

@[simp] theorem toList_terms_var (v : ν) :
    toList ⟨.terms (var v :: ts) :: outer⟩ = v :: toList ⟨.terms ts :: outer⟩ :=
  toList_of_reported rfl

/-- The arguments of an application come before what stands next to it. -/
@[simp] theorem toList_terms_app (f : FunctionSymbol) (args : List (Term ν)) :
    toList ⟨.terms (app f args :: ts) :: outer⟩ = toList ⟨.terms args :: .terms ts :: outer⟩ :=
  toList_of_silent rfl

end

end Scan

/-- Every occurrence of a variable, from left to right. -/
def occurrences (t : Term ν) : List ν := (Scan.start [t]).toList

/-- The variables of the term in the order of their first occurrences. Of equal variables the first
one met stands for all. -/
def variableSet [BEq ν] (t : Term ν) : List ν := t.occurrences.eraseDups

end Term

/-- The occurrences in the arguments of an application, from left to right. -/
def Application.occurrences (a : Application ν) : List ν := (Term.Scan.start a.args).toList

def Application.variableSet [BEq ν] (a : Application ν) : List ν := a.occurrences.eraseDups

/-- The occurrences of variables in a symbol used as a term; a function symbol is not a term. -/
def Symbol.occurrences : Symbol ν → Except TermError (List ν)
  | const _ => .ok (Term.Scan.mk []).toList
  | var v => .ok (Term.Scan.mk [.single v]).toList
  | func f => .error (.unsupportedOperand .listVariables f)

/-- The variables of a substitution are those that it binds, whatever occurs in its terms. -/
def Substitution.occurrences [BEq ν] (s : Substitution ν) : List ν :=
  (Term.Scan.mk [.keys s.domain]).toList

def Substitution.variableSet [BEq ν] (s : Substitution ν) : List ν := s.occurrences.eraseDups

end TermAlgebra
