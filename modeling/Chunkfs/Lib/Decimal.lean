import Mathlib.Algebra.Group.Nat.Defs
import Mathlib.Data.List.TakeWhile

/-! Decimal text of natural numbers, as `sprintf` prints it with `%llu` and as `simple_strtoull` reads it
    back: the leading digits, in a word of `bits` bits. A character that is no digit ends the number, so
    texts joined by such separators determine the numbers in them. -/

namespace Decimal

/-- The decimal digits of `n`, without leading zeros. --/
def print (n : Nat) : List Char := Nat.toDigits 10 n

/-- The number the leading digits of `cs` spell, in a word of `bits` bits. --/
def parse (bits : Nat) (cs : List Char) : Nat := Nat.ofDigitChars 10 (cs.takeWhile Char.isDigit) 0 % 2 ^ bits

theorem parse_lt (bits : Nat) (cs : List Char) : parse bits cs < 2 ^ bits := Nat.mod_lt _ (Nat.two_pow_pos bits)

theorem isDigit_of_mem_print {n : Nat} {c : Char} (h : c ∈ print n) : c.isDigit = true :=
  Nat.isDigit_of_mem_toDigits (by decide) (by decide) h

theorem print_ne_nil (n : Nat) : print n ≠ [] := Nat.toDigits_ne_nil

theorem length_print_le_iff {n k : Nat} (hk : 0 < k) : (print n).length ≤ k ↔ n < 10 ^ k :=
  Nat.length_toDigits_le_iff (by decide) hk

theorem length_print_le {n k : Nat} (hk : 0 < k) (h : n < 10 ^ k) : (print n).length ≤ k :=
  (length_print_le_iff hk).mpr h

/-- A character that is no digit ends the number read. --/
theorem takeWhile_print {n : Nat} {stop : Char} (hs : stop.isDigit = false) (rest : List Char) :
    (print n ++ stop :: rest).takeWhile Char.isDigit = print n := by
  rw [List.takeWhile_append_of_pos fun c hc => isDigit_of_mem_print hc]
  simp [hs]

theorem dropWhile_print {n : Nat} {stop : Char} (hs : stop.isDigit = false) (rest : List Char) :
    (print n ++ stop :: rest).dropWhile Char.isDigit = stop :: rest := by
  rw [List.dropWhile_append_of_pos fun c hc => isDigit_of_mem_print hc]
  simp [hs]

theorem parse_print {bits n : Nat} (hn : n < 2 ^ bits) {stop : Char} (hs : stop.isDigit = false)
    (rest : List Char) : parse bits (print n ++ stop :: rest) = n := by
  unfold parse
  rw [takeWhile_print hs, print, Nat.ofDigitChars_ten_toDigits, Nat.mod_eq_of_lt hn]

/-- A number with nothing behind it. --/
theorem parse_print_end {bits n : Nat} (hn : n < 2 ^ bits) : parse bits (print n) = n := by
  unfold parse
  rw [List.takeWhile_eq_self_iff.mpr fun c hc => isDigit_of_mem_print hc, print, Nat.ofDigitChars_ten_toDigits,
    Nat.mod_eq_of_lt hn]

theorem print_injective {m n : Nat} (h : print m = print n) : m = n := by
  have := congrArg (Nat.ofDigitChars 10 · 0) h
  simpa [print] using this

/-- Two texts that begin with a number and the same separator agree in the number and in the rest. --/
theorem print_append_inj {m n : Nat} {stop : Char} (hs : stop.isDigit = false) {r s : List Char}
    (h : print m ++ stop :: r = print n ++ stop :: s) : m = n ∧ r = s := by
  have ht := congrArg (List.takeWhile Char.isDigit) h
  have hd := congrArg (List.dropWhile Char.isDigit) h
  rw [takeWhile_print hs, takeWhile_print hs] at ht
  rw [dropWhile_print hs, dropWhile_print hs] at hd
  exact ⟨print_injective ht, List.tail_eq_of_cons_eq hd⟩

end Decimal
