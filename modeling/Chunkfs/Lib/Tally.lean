import Mathlib.Data.List.Basic
import Mathlib.Logic.Function.Basic

/-! How many of the numbers below a bound have a property, and how that changes when the property does. -/

namespace Tally
variable {n d : Nat} {p q : Nat → Bool}

def tally (n : Nat) (p : Nat → Bool) : Nat := (List.range n).countP p

theorem tally_succ (n : Nat) (p : Nat → Bool) : tally (n + 1) p = tally n p + if p n then 1 else 0 := by
  unfold tally
  rw [List.range_succ, List.countP_append, List.countP_singleton]

theorem tally_congr (h : ∀ k < n, p k = q k) : tally n p = tally n q :=
  List.countP_congr fun k hk => by rw [h k (List.mem_range.mp hk)]

theorem tally_eq_zero (h : ∀ k < n, p k = false) : tally n p = 0 :=
  List.countP_eq_zero.mpr fun k hk => by simp [h k (List.mem_range.mp hk)]

theorem tally_pos (hd : d < n) (h : p d = true) : 0 < tally n p :=
  List.countP_pos_iff.mpr ⟨d, List.mem_range.mpr hd, h⟩

/-- The property changes at one number below the bound. --/
theorem tally_change (hd : d < n) (h : ∀ k, k ≠ d → q k = p k) :
    tally n q + (if p d then 1 else 0) = tally n p + if q d then 1 else 0 := by
  induction n with
  | zero => exact absurd hd (Nat.not_lt_zero d)
  | succ n ih =>
    rw [tally_succ, tally_succ]
    rcases Nat.lt_succ_iff_lt_or_eq.mp hd with hlt | rfl
    · rw [h n (by omega)]
      have := ih hlt
      omega
    · rw [tally_congr fun k hk => h k (by omega)]
      omega

/-- No number from the first bound on has the property. --/
theorem tally_extend {m : Nat} (hnm : n ≤ m) (h : ∀ k, n ≤ k → p k = false) : tally m p = tally n p := by
  induction hnm with
  | refl => rfl
  | step hm ih =>
    rw [tally_succ, ih, h _ hm]
    rfl

/-- A table whose entries from the first bound on do not count gets one other entry. --/
theorem tally_update {α : Type} {f : Nat → α} {r : α → Bool} {m : Nat} (v : α) (hnm : n ≤ m) (hd : d < m)
    (h : ∀ k, n ≤ k → r (f k) = false) :
    tally m (fun k => r (Function.update f d v k)) + (if r (f d) then 1 else 0) =
      tally n (fun k => r (f k)) + if r v then 1 else 0 := by
  have hchange := tally_change (p := fun k => r (f k)) (q := fun k => r (Function.update f d v k)) hd
    fun k hk => by rw [Function.update_of_ne hk]
  rw [tally_extend hnm h, Function.update_self] at hchange
  exact hchange

end Tally
