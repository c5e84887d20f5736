import Mathlib.Tactic.Ring
import Mathlib.Data.Nat.Digits.Defs

/-! Numbers of a fixed width in an array of bytes, the least significant byte first. -/

namespace LittleEndian
variable {b c : Nat → UInt8} {p q w n : Nat}

/-- The number in the `w` bytes from `p` on. --/
def read (b : Nat → UInt8) (p : Nat) : Nat → Nat
  | 0 => 0
  | w + 1 => (b p).toNat + 256 * read b (p + 1) w

/-- `n` put into the `w` bytes from `p` on. --/
def write (b : Nat → UInt8) (p w n : Nat) : Nat → UInt8 := fun k =>
  if p ≤ k ∧ k < p + w then UInt8.ofNat (n / 256 ^ (k - p)) else b k

theorem read_congr (h : ∀ k, p ≤ k → k < p + w → b k = c k) : read b p w = read c p w := by
  induction w generalizing p with
  | zero => rfl
  | succ w ih =>
    have htail : read b (p + 1) w = read c (p + 1) w := ih fun k hk hw => h k (by omega) (by omega)
    rw [read, read, h p (le_refl p) (by omega), htail]

theorem write_apply_of_outside {k : Nat} (h : k < p ∨ p + w ≤ k) : write b p w n k = b k := by
  unfold write
  rw [if_neg (by omega)]

/-- A field is not touched by a write to a part that does not meet it. --/
theorem read_write_of_disjoint {v : Nat} (h : q + v ≤ p ∨ p + w ≤ q) : read (write b p w n) q v = read b q v :=
  read_congr fun k hk hv => write_apply_of_outside (by omega)

theorem read_of_digits (h : ∀ i < w, b (p + i) = UInt8.ofNat (n / 256 ^ i)) : read b p w = n % 256 ^ w := by
  induction w generalizing p n with
  | zero => rw [read, pow_zero, Nat.mod_one]
  | succ w ih =>
    have hhead : (b p).toNat = n % 256 := by
      have h₀ := h 0 (by omega)
      rw [pow_zero, Nat.div_one, Nat.add_zero] at h₀
      rw [h₀, UInt8.toNat_ofNat']
    have htail : read b (p + 1) w = n / 256 % 256 ^ w := by
      apply ih
      intro i hi
      rw [Nat.div_div_eq_div_mul, ← pow_succ', ← h (i + 1) (by omega)]
      congr 1
      omega
    rw [read, hhead, htail, pow_succ', Nat.mod_mul]

theorem read_write (b : Nat → UInt8) (p w n : Nat) : read (write b p w n) p w = n % 256 ^ w := by
  apply read_of_digits
  intro i hi
  unfold write
  rw [if_pos ⟨by omega, by omega⟩, Nat.add_sub_cancel_left]

theorem read_lt (b : Nat → UInt8) (p w : Nat) : read b p w < 256 ^ w := by
  induction w generalizing p with
  | zero => simp [read]
  | succ w ih =>
    have := ih (p + 1)
    have := (b p).toNat_lt
    rw [read, pow_succ']
    omega

end LittleEndian
