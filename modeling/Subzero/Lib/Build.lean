import Mathlib.Algebra.BigOperators.Group.List.Basic
import Mathlib.Data.UInt

/-! Unsigned arithmetic as it is compiled: an overflow panics in a build that checks for
it, and wraps in one that does not. -/
namespace Subzero

inductive Build where
  | checked
  | wrapping
  deriving DecidableEq

namespace Build

def add8 (build : Build) (a b : UInt8) : Option UInt8 :=
  match build with
  | .checked => if a.toNat + b.toNat < 2 ^ 8 then some (a + b) else none
  | .wrapping => some (a + b)

def add64 (build : Build) (a b : UInt64) : Option UInt64 :=
  match build with
  | .checked => if a.toNat + b.toNat < 2 ^ 64 then some (a + b) else none
  | .wrapping => some (a + b)

/-- A running sum. -/
def sum64 (build : Build) : List UInt64 → UInt64 → Option UInt64
  | [], total => some total
  | a :: rest, total => (build.add64 total a).bind (build.sum64 rest)

variable {build : Build}

theorem add8_eq {a b c : UInt8} (added : build.add8 a b = some c) : c = a + b := by
  cases build with
  | checked =>
    simp only [add8] at added
    split at added
    · exact (Option.some.inj added).symm
    · contradiction
  | wrapping => exact (Option.some.inj added).symm

theorem add8_fits {a b : UInt8} (fits : a.toNat + b.toNat < 2 ^ 8) :
    build.add8 a b = some (a + b) := by
  cases build with
  | checked => simp only [add8, if_pos fits]
  | wrapping => rfl

theorem add64_fits {a b : UInt64} (fits : a.toNat + b.toNat < 2 ^ 64) :
    build.add64 a b = some (a + b) := by
  cases build with
  | checked => simp only [add64, if_pos fits]
  | wrapping => rfl

/-- A sum that fits is exact in every build. -/
theorem sum64_fits {summands : List UInt64} {total : UInt64}
    (fits : total.toNat + (summands.map UInt64.toNat).sum < 2 ^ 64) :
    ∃ sum, build.sum64 summands total = some sum ∧
      sum.toNat = total.toNat + (summands.map UInt64.toNat).sum := by
  induction summands generalizing total with
  | nil => exact ⟨total, rfl, rfl⟩
  | cons a rest ih =>
    rw [List.map_cons, List.sum_cons] at fits ⊢
    have first : total.toNat + a.toNat < 2 ^ 64 := by omega
    have moved : (total + a).toNat = total.toNat + a.toNat := by
      rw [UInt64.toNat_add, Nat.mod_eq_of_lt first]
    have later : (total + a).toNat + (rest.map UInt64.toNat).sum < 2 ^ 64 := by omega
    obtain ⟨sum, found, same⟩ := ih later
    refine ⟨sum, ?_, by omega⟩
    rw [sum64, add64_fits first, Option.bind_some, found]

/-- Where overflow is checked for, a sum that is returned fits. -/
theorem sum64_checked {summands : List UInt64} {total sum : UInt64}
    (summed : checked.sum64 summands total = some sum) :
    total.toNat + (summands.map UInt64.toNat).sum < 2 ^ 64 := by
  induction summands generalizing total with
  | nil => exact total.toNat_lt
  | cons a rest ih =>
    obtain ⟨next, added, later⟩ := Option.bind_eq_some_iff.mp summed
    simp only [add64] at added
    split at added
    · rename_i fits
      obtain rfl := Option.some.inj added
      have more := ih later
      rw [UInt64.toNat_add, Nat.mod_eq_of_lt fits] at more
      rw [List.map_cons, List.sum_cons]
      omega
    · contradiction

end Build
end Subzero
