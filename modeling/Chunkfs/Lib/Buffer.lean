import Mathlib.Data.List.TakeWhile

/-! Arrays of characters as C has them: storing at an index past the end is nothing that the array itself notices, so
    the indices that have been written are kept beside the characters. A string ends at its first NUL. -/

/-- The characters from the start of an array on, also behind its end, and the indices written. --/
structure Buffer where
  char : Nat → Char
  written : List Nat

namespace Buffer
variable {b : Buffer} {k n size : Nat} {text : List Char}

/-- An array that nothing has been stored in. --/
def unset (junk : Nat → Char) : Buffer := ⟨junk, []⟩

/-- `b[k] = ch`. --/
def store (b : Buffer) (k : Nat) (ch : Char) : Buffer where
  char j := if j = k then ch else b.char j
  written := k :: b.written

/-- Characters stored one after the other from an index on. --/
def copy (b : Buffer) (k : Nat) : List Char → Buffer
  | [] => b
  | ch :: text => (b.store k ch).copy (k + 1) text

/-- A text from the start on, with its terminator. --/
def sprintf (b : Buffer) (text : List Char) : Buffer := b.copy 0 (text ++ ['\x00'])

/-- The first `n` characters. --/
def contents (b : Buffer) (n : Nat) : List Char := (List.range n).map b.char

/-- The string in the first `n` characters. --/
def string (b : Buffer) (n : Nat) : List Char := (b.contents n).takeWhile (· ≠ '\x00')

/-- Every index written is one of an array of `size` characters. --/
def Within (b : Buffer) (size : Nat) : Prop := ∀ k ∈ b.written, k < size

instance (b : Buffer) (size : Nat) : Decidable (b.Within size) := inferInstanceAs (Decidable (∀ k ∈ b.written, k < size))

theorem within_unset (junk : Nat → Char) : (unset junk).Within size := nofun

/-! ### Characters -/

theorem contents_add (b : Buffer) (n m : Nat) :
    b.contents (n + m) = b.contents n ++ (List.range m).map fun j => b.char (n + j) := by
  simp only [contents, List.range_add, List.map_append, List.map_map, Function.comp_def]

theorem contents_store (b : Buffer) (k : Nat) (ch : Char) : (b.store k ch).contents (k + 1) = b.contents k ++ [ch] := by
  have hbelow : (List.range k).map (b.store k ch).char = b.contents k :=
    List.map_congr_left fun j hj => if_neg (List.mem_range.mp hj).ne
  rw [contents_add, contents, hbelow]
  simp [store]

/-- What has been copied stands behind what stood before it. --/
theorem contents_copy (text : List Char) (b : Buffer) (k : Nat) :
    (b.copy k text).contents (k + text.length) = b.contents k ++ text := by
  induction text generalizing b k with
  | nil => simp [copy]
  | cons ch text ih =>
    have := ih (b.store k ch) (k + 1)
    rw [contents_store, List.append_assoc] at this
    rw [List.length_cons, Nat.add_comm text.length 1, ← Nat.add_assoc]
    exact this

theorem copy_concat (text : List Char) (b : Buffer) (k : Nat) (ch : Char) :
    b.copy k (text ++ [ch]) = (b.copy k text).store (k + text.length) ch := by
  induction text generalizing b k with
  | nil => rfl
  | cons c text ih =>
    rw [List.cons_append, copy, ih, copy, List.length_cons, Nat.add_comm text.length 1, ← Nat.add_assoc]

/-- Storing behind a copied text is printing the text with that character for its terminator. --/
theorem store_copy (b : Buffer) (text : List Char) : (b.copy 0 text).store text.length '\x00' = b.sprintf text := by
  rw [sprintf, copy_concat, Nat.zero_add]

theorem contents_sprintf (b : Buffer) (text : List Char) :
    (b.sprintf text).contents (text.length + 1) = text ++ ['\x00'] := by
  have := contents_copy (text ++ ['\x00']) b 0
  rwa [Nat.zero_add, List.length_append] at this

/-- A printed text is a string of every piece of the memory that has its terminator. --/
theorem string_sprintf (b : Buffer) (hnul : '\x00' ∉ text) (hn : text.length < n) : (b.sprintf text).string n = text := by
  obtain ⟨m, rfl⟩ := Nat.exists_eq_add_of_lt hn
  have hkeep : ∀ ch ∈ text, decide (ch ≠ '\x00') = true := fun ch hch =>
    decide_eq_true fun hz => hnul (hz ▸ hch)
  rw [string, show text.length + m + 1 = text.length + 1 + m by omega, contents_add, contents_sprintf, List.append_assoc,
    List.takeWhile_append_of_pos hkeep]
  simp

/-! ### Indices -/

theorem within_store (ch : Char) : (b.store k ch).Within size ↔ k < size ∧ b.Within size := List.forall_mem_cons

theorem within_copy (text : List Char) (b : Buffer) (k : Nat) :
    (b.copy k text).Within size ↔ (text = [] ∨ k + text.length ≤ size) ∧ b.Within size := by
  induction text generalizing b k with
  | nil => simp [copy]
  | cons ch text ih =>
    rw [copy, ih, within_store, ← and_assoc]
    refine and_congr_left' ⟨?_, ?_⟩
    · rintro ⟨rfl | hle, hk⟩
      · exact .inr hk
      · exact .inr (by rw [List.length_cons]; omega)
    · rintro (hnil | hle)
      · cases hnil
      · rw [List.length_cons] at hle
        exact ⟨.inr (by omega), by omega⟩

/-- A printed text stays inside an array exactly when the array has room for it and its terminator. --/
theorem within_sprintf (b : Buffer) (text : List Char) :
    (b.sprintf text).Within size ↔ text.length < size ∧ b.Within size := by
  rw [sprintf, within_copy, List.length_append, List.length_singleton, Nat.zero_add, Nat.succ_le_iff]
  simp

end Buffer
