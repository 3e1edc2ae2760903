import Mathlib.Data.List.Lex
import Mathlib.Data.Nat.Basic
import Mathlib.Order.Fin.Basic
import Mathlib.Tactic.Ring

/-! Numbers as fixed-width lists of bytes, the most significant byte first. -/
namespace Subzero

abbrev Byte := Fin 256

def bigEndian : Nat → Nat → List Byte
  | 0, _ => []
  | width + 1, n => bigEndian width (n / 256) ++ [Fin.ofNat 256 n]

def ofBigEndian (bytes : List Byte) : Nat := bytes.foldl (fun n byte => n * 256 + byte.val) 0

@[simp] theorem length_bigEndian (width n : Nat) : (bigEndian width n).length = width := by
  induction width generalizing n with
  | zero => rfl
  | succ width ih => simp [bigEndian, ih]

theorem ofBigEndian_bigEndian {width n : Nat} (fits : n < 256 ^ width) :
    ofBigEndian (bigEndian width n) = n := by
  induction width generalizing n with
  | zero =>
    obtain rfl : n = 0 := by simpa using fits
    rfl
  | succ width ih =>
    have shorter : n / 256 < 256 ^ width := by
      apply Nat.div_lt_of_lt_mul
      rw [Nat.mul_comm, ← Nat.pow_succ]
      exact fits
    have rest : (bigEndian width (n / 256)).foldl (fun n (byte : Byte) => n * 256 + byte.val) 0 =
        n / 256 := ih shorter
    have low : (Fin.ofNat 256 n).val = n % 256 := rfl
    rw [bigEndian, ofBigEndian, List.foldl_append, rest, List.foldl_cons, List.foldl_nil, low]
    omega

theorem bigEndian_inj {width n m : Nat} (fits : n < 256 ^ width) (fits' : m < 256 ^ width) :
    bigEndian width n = bigEndian width m ↔ n = m := by
  constructor
  · intro same
    rw [← ofBigEndian_bigEndian fits, same, ofBigEndian_bigEndian fits']
  · exact congrArg (bigEndian width)

/-- After heads of one length, the tails are compared only if the heads are equal. -/
theorem append_lt_append_iff {α : Type*} [LinearOrder α] {as bs : List α}
    (lengths : as.length = bs.length) (xs ys : List α) :
    as ++ xs < bs ++ ys ↔ as < bs ∨ as = bs ∧ xs < ys := by
  induction as generalizing bs with
  | nil =>
    obtain rfl : bs = [] := List.length_eq_zero_iff.mp lengths.symm
    simp
  | cons a as ih =>
    cases bs with
    | nil => contradiction
    | cons b bs =>
      have rest := ih (Nat.succ.inj lengths)
      simp only [List.cons_append, List.cons_lt_cons_iff, List.cons.injEq, rest]
      tauto

/-- The bytes of two numbers compare as the numbers do. -/
theorem bigEndian_lt_iff {width n m : Nat} (fits : n < 256 ^ width) (fits' : m < 256 ^ width) :
    bigEndian width n < bigEndian width m ↔ n < m := by
  induction width generalizing n m with
  | zero =>
    obtain rfl : n = 0 := by simpa using fits
    obtain rfl : m = 0 := by simpa using fits'
    simp
  | succ width ih =>
    rw [Nat.pow_succ, Nat.mul_comm] at fits fits'
    have high : n / 256 < 256 ^ width := Nat.div_lt_of_lt_mul fits
    have high' : m / 256 < 256 ^ width := Nat.div_lt_of_lt_mul fits'
    have low : [Fin.ofNat 256 n] < [Fin.ofNat 256 m] ↔ n % 256 < m % 256 := by
      rw [List.cons_lt_cons_iff]
      simp [Fin.lt_def]
    rw [bigEndian, bigEndian, append_lt_append_iff (by simp), ih high high',
      bigEndian_inj high high', low]
    omega

end Subzero
