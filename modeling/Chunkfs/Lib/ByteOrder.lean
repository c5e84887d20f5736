import Chunkfs.Lib.LittleEndian

/-! Numbers of a fixed width in the memory of a host, whose byte order may be either, and the conversion between the
    host's order and the little-endian one. -/

namespace ByteOrder

/-- The byte order of a host. --/
inductive Order where
  | little
  | big
deriving DecidableEq

/-- The `w` bytes of a number in the other order. --/
def swap : Nat → Nat → Nat
  | 0, _ => 0
  | w + 1, n => n % 256 * 256 ^ w + swap w (n / 256)

namespace BigEndian

/-- The number in the `w` bytes from `p` on, the most significant byte first. --/
def read (b : Nat → UInt8) (p : Nat) : Nat → Nat
  | 0 => 0
  | w + 1 => (b p).toNat * 256 ^ w + read b (p + 1) w

def write (b : Nat → UInt8) (p w n : Nat) : Nat → UInt8 := fun k =>
  if p ≤ k ∧ k < p + w then UInt8.ofNat (n / 256 ^ (w - 1 - (k - p))) else b k

end BigEndian

/-! ### Swapping bytes -/

section Swap
variable {b : Nat → UInt8} {p w n m i : Nat}

theorem swap_lt : ∀ w n, swap w n < 256 ^ w
  | 0, _ => Nat.one_pos
  | w + 1, n => by
    have hrest := swap_lt w (n / 256)
    have hbyte : n % 256 * 256 ^ w ≤ 255 * 256 ^ w := Nat.mul_le_mul_right _ (by omega)
    rw [swap, pow_succ]
    omega

/-- The bytes come in the other order. --/
theorem swap_digit (hi : i < w) : swap w n / 256 ^ i % 256 = n / 256 ^ (w - 1 - i) % 256 := by
  induction w generalizing n with
  | zero => exact absurd hi (Nat.not_lt_zero i)
  | succ w ih =>
    rw [swap, Nat.add_sub_cancel]
    rcases Nat.lt_succ_iff_lt_or_eq.mp hi with hlt | rfl
    · obtain ⟨d, hd⟩ : ∃ d, w = i + 1 + d := ⟨w - (i + 1), by omega⟩
      have hpow : n % 256 * 256 ^ w = 256 ^ i * (256 * (n % 256 * 256 ^ d)) := by
        rw [hd]
        ring
      rw [hpow, Nat.mul_add_div (Nat.pow_pos (by decide)), Nat.mul_add_mod, ih hlt, Nat.div_div_eq_div_mul, ← pow_succ',
        show w - 1 - i + 1 = w - i by omega]
    · rw [Nat.mul_comm, Nat.mul_add_div (Nat.pow_pos (by decide)), Nat.div_eq_of_lt (swap_lt i _), Nat.sub_self, pow_zero,
        Nat.div_one, Nat.add_zero, Nat.mod_mod]

/-- Numbers with the same bytes. --/
theorem mod_eq_of_digits (h : ∀ i < w, n / 256 ^ i % 256 = m / 256 ^ i % 256) : n % 256 ^ w = m % 256 ^ w := by
  have hn : LittleEndian.read (fun i => UInt8.ofNat (n / 256 ^ i)) 0 w = n % 256 ^ w :=
    LittleEndian.read_of_digits fun i _ => by rw [Nat.zero_add]
  have hm : LittleEndian.read (fun i => UInt8.ofNat (n / 256 ^ i)) 0 w = m % 256 ^ w :=
    LittleEndian.read_of_digits fun i hi => by
      rw [Nat.zero_add]
      exact UInt8.toNat_inj.mp (by rw [UInt8.toNat_ofNat', UInt8.toNat_ofNat']; exact h i hi)
  rw [← hn, hm]

theorem swap_swap (w n : Nat) : swap w (swap w n) = n % 256 ^ w := by
  rw [← Nat.mod_eq_of_lt (swap_lt w (swap w n))]
  refine mod_eq_of_digits fun i hi => ?_
  rw [swap_digit hi, swap_digit (by omega), show w - 1 - (w - 1 - i) = i by omega]

theorem BigEndian.write_eq (b : Nat → UInt8) (p w n : Nat) : BigEndian.write b p w n = LittleEndian.write b p w (swap w n) := by
  funext k
  unfold BigEndian.write LittleEndian.write
  split
  · refine UInt8.toNat_inj.mp ?_
    rw [UInt8.toNat_ofNat', UInt8.toNat_ofNat']
    exact (swap_digit (by omega)).symm
  · rfl

theorem BigEndian.read_eq (b : Nat → UInt8) (p w : Nat) : BigEndian.read b p w = swap w (LittleEndian.read b p w) := by
  induction w generalizing p with
  | zero => rfl
  | succ w ih =>
    have hbyte := (b p).toNat_lt
    have hlow : ((b p).toNat + 256 * LittleEndian.read b (p + 1) w) % 256 = (b p).toNat := by omega
    have hrest : ((b p).toNat + 256 * LittleEndian.read b (p + 1) w) / 256 = LittleEndian.read b (p + 1) w := by omega
    rw [BigEndian.read, LittleEndian.read, swap, hlow, hrest, ih]

theorem write_mod (b : Nat → UInt8) (p w n : Nat) : LittleEndian.write b p w (n % 256 ^ w) = LittleEndian.write b p w n := by
  rw [← swap_swap w n, ← BigEndian.write_eq]
  funext k
  unfold BigEndian.write LittleEndian.write
  split
  · refine UInt8.toNat_inj.mp ?_
    rw [UInt8.toNat_ofNat', UInt8.toNat_ofNat', swap_digit (by omega), show w - 1 - (w - 1 - (k - p)) = k - p by omega]
  · rfl

end Swap

/-! ### The order of a host -/

namespace Order
variable {b : Nat → UInt8} {p w n m : Nat}

/-- A number stored to memory. --/
def store : Order → (Nat → UInt8) → Nat → Nat → Nat → Nat → UInt8
  | .little => LittleEndian.write
  | .big => BigEndian.write

/-- The number in memory. --/
def load : Order → (Nat → UInt8) → Nat → Nat → Nat
  | .little => LittleEndian.read
  | .big => BigEndian.read

/-- The conversion between the order of the host and the little-endian one, which is its own inverse. --/
def convert : Order → Nat → Nat → Nat
  | .little, _, n => n
  | .big, w, n => swap w n

/-- A converted number is stored the same on every host. --/
theorem store_convert (o : Order) (b : Nat → UInt8) (p w n : Nat) :
    o.store b p w (o.convert w n) = LittleEndian.write b p w n := by
  cases o with
  | little => rfl
  | big =>
    show BigEndian.write b p w (swap w n) = _
    rw [BigEndian.write_eq, swap_swap, write_mod]

/-- A field that is loaded and converted is the same on every host. --/
theorem convert_load (o : Order) (b : Nat → UInt8) (p w : Nat) : o.convert w (o.load b p w) = LittleEndian.read b p w := by
  cases o with
  | little => rfl
  | big =>
    show swap w (BigEndian.read b p w) = _
    rw [BigEndian.read_eq, swap_swap, Nat.mod_eq_of_lt (LittleEndian.read_lt b p w)]

theorem convert_convert (o : Order) (h : n < 256 ^ w) : o.convert w (o.convert w n) = n := by
  cases o with
  | little => rfl
  | big => exact (swap_swap w n).trans (Nat.mod_eq_of_lt h)

theorem convert_lt (o : Order) (h : n < 256 ^ w) : o.convert w n < 256 ^ w := by
  cases o with
  | little => exact h
  | big => exact swap_lt w n

end Order

end ByteOrder
