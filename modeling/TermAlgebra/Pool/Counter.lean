/-!
The counter that a pool keeps for each name: the next index never issued or reserved, until the
last 64-bit index is gone. `bound_reserve` says what reserving does, through the number of indices
that lie below the counter.
-/
namespace TermAlgebra

def lastIndex : UInt64 := 18446744073709551615

/-- The next index to hand out, or none once the last index has been issued or reserved. -/
structure Counter where
  next : Option UInt64
deriving DecidableEq, Inhabited

namespace Counter

def startingAt (first : UInt64) : Counter := ⟨some first⟩

def after (i : UInt64) : Option UInt64 := if i = lastIndex then none else some (i + 1)

/-- Takes an index out of use. An index at or above the next one moves the counter past it; a
smaller one changes nothing, and a counter that has run out stays so. -/
def reserve (c : Counter) (i : UInt64) : Counter :=
  match c.next with
  | none => c
  | some n => if i < n then c else ⟨after i⟩

/-- All indices that can still be handed out are at or above this number. -/
def bound (c : Counter) : Nat :=
  match c.next with
  | none => UInt64.size
  | some n => n.toNat

theorem bound_after (i : UInt64) : bound ⟨after i⟩ = i.toNat + 1 := by
  by_cases h : i = lastIndex
  · subst h; decide
  · have small : i.toNat < UInt64.size - 1 := by
      have bounded := i.toNat_lt_size
      have notLast : i.toNat ≠ UInt64.size - 1 :=
        fun e => h (UInt64.toNat_inj.1 (e.trans (by decide)))
      omega
    simp only [after, h, if_false, bound, UInt64.toNat_add]
    exact Nat.mod_eq_of_lt (Nat.add_lt_of_lt_sub small)

/-- Reserving an index raises the bound just above that index, and never lowers it. -/
theorem bound_reserve (c : Counter) (i : UInt64) :
    (c.reserve i).bound = max c.bound (i.toNat + 1) := by
  have small := i.toNat_lt_size
  obtain ⟨_ | n⟩ := c
  · simp only [reserve, bound]; omega
  · by_cases less : i < n
    · have := UInt64.lt_iff_toNat_lt.1 less
      simp only [reserve, less, if_true, bound]; omega
    · have := mt UInt64.lt_iff_toNat_lt.2 less
      simp only [reserve, less, if_false, bound_after]
      simp only [bound]; omega

end Counter

end TermAlgebra
