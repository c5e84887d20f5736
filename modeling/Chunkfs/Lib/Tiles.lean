import Mathlib.Algebra.GroupWithZero.Nat
import Mathlib.Data.List.Basic

/-! Intervals that lie one behind another: each begins where the one before it ends. -/

namespace Tiles
variable {α : Type} {start len : α → Nat} {l : List α} {lo hi p : Nat} {x y : α}

/-- The interval of `x` holds `p`. --/
def Owns (start len : α → Nat) (x : α) (p : Nat) : Prop := start x ≤ p ∧ p < start x + len x

/-- The intervals of the list tile what lies from `lo` to below `hi`. --/
def Tiled (start len : α → Nat) : Nat → List α → Nat → Prop
  | lo, [], hi => lo = hi
  | lo, x :: l, hi => start x = lo ∧ Tiled start len (lo + len x) l hi

theorem Tiled.bounds : ∀ {l : List α} {lo : Nat}, Tiled start len lo l hi →
    lo ≤ hi ∧ ∀ x ∈ l, lo ≤ start x ∧ start x + len x ≤ hi
  | [], lo, h => ⟨Nat.le_of_eq h, fun _ hx => absurd hx List.not_mem_nil⟩
  | y :: l, lo, ⟨hy, h⟩ => by
    obtain ⟨hle, hl⟩ := bounds h
    refine ⟨by omega, fun x hx => ?_⟩
    rcases List.mem_cons.mp hx with rfl | hx
    · omega
    · have := hl x hx
      omega

theorem Tiled.hi_eq : ∀ {l : List α} {lo : Nat}, Tiled start len lo l hi → hi = lo + (l.map len).sum
  | [], _, h => h.symm
  | x :: l, lo, ⟨_, h⟩ => by
    rw [hi_eq h, List.map_cons, List.sum_cons, Nat.add_assoc]

theorem tiled_append {l' : List α} : ∀ {l : List α} {lo : Nat},
    Tiled start len lo (l ++ l') hi ↔ ∃ mid, Tiled start len lo l mid ∧ Tiled start len mid l' hi
  | [], lo => ⟨fun h => ⟨lo, rfl, h⟩, fun ⟨mid, hmid, h⟩ => by cases hmid; exact h⟩
  | x :: l, lo => by
    constructor
    · rintro ⟨hx, h⟩
      obtain ⟨mid, hl, hl'⟩ := tiled_append.mp h
      exact ⟨mid, ⟨hx, hl⟩, hl'⟩
    · rintro ⟨mid, ⟨hx, hl⟩, hl'⟩
      exact ⟨hx, tiled_append.mpr ⟨mid, hl, hl'⟩⟩

/-- Each number between the ends lies in one of the intervals. --/
theorem Tiled.exists_owner : ∀ {l : List α} {lo : Nat}, Tiled start len lo l hi → lo ≤ p → p < hi →
    ∃ x ∈ l, Owns start len x p
  | [], lo, h, hlo, hhi => by
    have : lo = hi := h
    omega
  | x :: l, lo, ⟨hx, h⟩, hlo, hhi => by
    by_cases hp : p < lo + len x
    · exact ⟨x, List.mem_cons_self, by omega, by omega⟩
    · obtain ⟨y, hy, hown⟩ := exists_owner h (Nat.not_lt.mp hp) hhi
      exact ⟨y, List.mem_cons_of_mem _ hy, hown⟩

/-- No number lies in two of them: the search for the owner finds it. --/
theorem Tiled.find?_owner {P : α → Bool} : ∀ {l : List α} {lo : Nat}, Tiled start len lo l hi →
    (∀ y ∈ l, P y = true ↔ Owns start len y p) → x ∈ l → Owns start len x p → l.find? P = some x
  | y :: l, lo, ⟨hy, h⟩, hP, hx, hown => by
    by_cases hyp : Owns start len y p
    · rw [List.find?_cons_of_pos ((hP y List.mem_cons_self).mpr hyp)]
      rcases List.mem_cons.mp hx with rfl | hx
      · rfl
      · have := (h.bounds.2 x hx).1
        unfold Owns at hown hyp
        omega
    · rw [List.find?_cons_of_neg fun hyP => hyp ((hP y List.mem_cons_self).mp hyP)]
      rcases List.mem_cons.mp hx with rfl | hx
      · exact absurd hown hyp
      · exact find?_owner h (fun z hz => hP z (List.mem_cons_of_mem _ hz)) hx hown

end Tiles
