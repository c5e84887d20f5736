import Mathlib.Algebra.Group.Int.Defs
import Mathlib.Algebra.GroupWithZero.Nat
import Mathlib.Data.Int.Basic

/-! Machine words as integers: the unsigned and signed 64-bit value of an integer and its value as a
    32-bit `int`. -/

namespace Word

/-- The value of `x` as an unsigned 64-bit integer. --/
def u64 (x : Int) : Nat := (x % 18446744073709551616).toNat

/-- The value of `x` as a signed 64-bit integer. --/
def s64 (x : Int) : Int := (x + 9223372036854775808) % 18446744073709551616 - 9223372036854775808

/-- The value of `x` as a signed 32-bit integer. --/
def int32 (x : Int) : Int := (x + 2147483648) % 4294967296 - 2147483648

theorem u64_lt (x : Int) : u64 x < 2 ^ 64 := by
  unfold u64
  omega

theorem u64_of_nonneg {x : Int} (h₀ : 0 ≤ x) (h : x < 18446744073709551616) : (u64 x : Int) = x := by
  unfold u64
  omega

theorem u64_natCast {n : Nat} (h : n < 2 ^ 64) : u64 n = n := by
  unfold u64
  omega

theorem s64_of_mem {x : Int} (h₀ : -9223372036854775808 ≤ x) (h : x < 9223372036854775808) : s64 x = x := by
  unfold s64
  omega

theorem int32_of_mem {x : Int} (h₀ : -2147483648 ≤ x) (h : x < 2147483648) : int32 x = x := by
  unfold int32
  omega

end Word
