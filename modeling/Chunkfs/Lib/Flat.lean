import Mathlib.Data.List.Range
import Mathlib.Data.UInt

/-! Byte files, and a file cut into pieces of one length. Where a write lies in one piece, and the pieces before
    it are full, writing to that piece is writing to the whole file. -/

namespace Flat

/-- A file: its size, and its bytes below the size. --/
structure Bytes (α : Type) where
  size : Nat
  byte : Nat → α

namespace Bytes
variable {α : Type}

/-- The bytes from `pos` on, at most `len` of them. --/
def read (f : Bytes α) (pos len : Nat) : List α := (List.range (min len (f.size - pos))).map fun k => f.byte (pos + k)

@[simp] theorem length_read (f : Bytes α) (pos len : Nat) : (f.read pos len).length = min len (f.size - pos) := by
  simp [read]

/-- Asking for more than there is gives what there is. --/
theorem read_min (f : Bytes α) (pos m n : Nat) (h : min m (f.size - pos) = min n (f.size - pos)) :
    f.read pos m = f.read pos n := by
  unfold read
  rw [h]

/-- All bytes of a file. --/
def text (f : Bytes α) : List α := f.read 0 f.size

@[simp] theorem length_text (f : Bytes α) : f.text.length = f.size := by simp [text]

theorem text_eq (f : Bytes α) : f.text = (List.range f.size).map f.byte := by
  simp only [text, read, Nat.sub_zero, Nat.min_self, Nat.zero_add]

theorem read_eq_text (f : Bytes α) (pos len : Nat) : f.read pos len = (f.text.drop pos).take len := by
  refine List.ext_getElem (by simp) fun k _ _ => ?_
  simp [read, text_eq]

section Write
variable [Zero α]

/-- The empty file. --/
def empty : Bytes α := ⟨0, fun _ => 0⟩

/-- Writing `data` at `pos`: a gap behind the old end reads as zeros. --/
def write (f : Bytes α) (pos : Nat) (data : List α) : Bytes α :=
  if data = [] then f
  else
    { size := max f.size (pos + data.length)
      byte := fun k =>
        if pos ≤ k ∧ k < pos + data.length then data.getD (k - pos) 0
        else if k < f.size then f.byte k
        else 0 }

@[simp] theorem write_nil (f : Bytes α) (pos : Nat) : f.write pos [] = f := by simp [write]

theorem size_write (f : Bytes α) {pos : Nat} {data : List α} (h : data ≠ []) :
    (f.write pos data).size = max f.size (pos + data.length) := by simp [write, h]

theorem byte_write (f : Bytes α) {pos k : Nat} {data : List α} (h : data ≠ []) :
    (f.write pos data).byte k = if pos ≤ k ∧ k < pos + data.length then data.getD (k - pos) 0
      else if k < f.size then f.byte k else 0 := by simp [write, h]

/-- Writing at the end appends. --/
theorem text_write_end (f : Bytes α) (data : List α) : (f.write f.size data).text = f.text ++ data := by
  rcases eq_or_ne data [] with rfl | hd
  · rw [write_nil, List.append_nil]
  · have hsize : (f.write f.size data).size = f.size + data.length := by
      rw [size_write f hd, Nat.max_eq_right (Nat.le_add_right _ _)]
    refine List.ext_getElem (by simp [hsize]) fun k h₁ h₂ => ?_
    rw [length_text, hsize] at h₁
    simp only [text_eq, hsize, List.getElem_map, List.getElem_range, byte_write f hd]
    rcases Nat.lt_or_ge k f.size with hk | hk
    · rw [if_neg fun h => Nat.not_le.mpr hk h.1, if_pos hk, List.getElem_append_left (by simpa using hk)]
      simp
    · have hin : k - f.size < data.length := Nat.sub_lt_left_of_lt_add hk h₁
      rw [if_pos ⟨hk, h₁⟩, List.getD_eq_getElem?_getD, List.getElem?_eq_getElem hin, List.getElem_append_right (by simpa using hk)]
      simp

/-- Cutting a file off at a size, or filling it up with zeros. --/
def resize (f : Bytes α) (size : Nat) : Bytes α := ⟨size, fun k => if k < f.size then f.byte k else 0⟩

end Write

end Bytes

/-- `s` is the piece of `f` that begins at `len * i`. --/
structure Piece {α : Type} (len : Nat) (f : Bytes α) (i : Nat) (s : Bytes α) : Prop where
  size : s.size = min len (f.size - len * i)
  byte : ∀ k, k < s.size → s.byte k = f.byte (len * i + k)

section Pieces
variable {α : Type} {len q i pos : Nat} {f s : Bytes α} {data : List α}

/-- A piece behind the end is empty. --/
theorem Piece.of_size_zero (hs : s.size = 0) (h : f.size ≤ len * i) : Piece len f i s where
  size := by omega
  byte k hk := by omega

/-- The first piece is the file cut off behind it. --/
theorem Piece.first [Zero α] (h : Piece len f 0 s) : Piece len (f.resize (min len f.size)) 0 s where
  size := by simp only [h.size, Bytes.resize, Nat.mul_zero, Nat.sub_zero, ← Nat.min_assoc, Nat.min_self]
  byte k hk := by
    have hlt : len * 0 + k < f.size := by
      rw [h.size] at hk
      rw [Nat.mul_zero, Nat.zero_add]
      exact Nat.lt_of_lt_of_le hk (Nat.min_le_right _ _)
    rw [h.byte k hk]
    exact (if_pos hlt).symm

/-- Reading from a piece reads from the file, up to the end of the piece. --/
theorem Piece.read (h : Piece len f q s) (hpos : len * q ≤ pos) (n : Nat) :
    s.read (pos - len * q) n = f.read pos (min n (len * q + len - pos)) := by
  have hsize := h.size
  have hlen : min n (s.size - (pos - len * q)) = min (min n (len * q + len - pos)) (f.size - pos) := by omega
  unfold Bytes.read
  rw [← hlen]
  refine List.map_congr_left fun k hk => ?_
  have hk := List.mem_range.mp hk
  rw [h.byte _ (by omega), show len * q + (pos - len * q + k) = pos + k by omega]

section Write
variable [Zero α]

/-- Writing to the piece the position lies in. --/
theorem Piece.write (h : Piece len f q s) (hpos : len * q ≤ pos) (hend : pos + data.length ≤ len * q + len)
    (hfull : data ≠ [] → len * q ≤ f.size) : Piece len (f.write pos data) q (s.write (pos - len * q) data) := by
  by_cases hd : data = []
  · simpa [hd] using h
  · have hsize := h.size
    have hfull := hfull hd
    refine ⟨?_, fun k hk => ?_⟩
    · rw [Bytes.size_write f hd, Bytes.size_write s hd]
      omega
    · rw [Bytes.size_write s hd] at hk
      rw [Bytes.byte_write f hd, Bytes.byte_write s hd]
      by_cases hin : pos ≤ len * q + k ∧ len * q + k < pos + data.length
      · rw [if_pos hin, if_pos (by omega), show len * q + k - pos = k - (pos - len * q) by omega]
      · rw [if_neg hin, if_neg (by omega)]
        by_cases hk' : k < s.size
        · rw [if_pos hk', if_pos (by omega)]
          exact h.byte k hk'
        · rw [if_neg hk', if_neg (by omega)]

/-- The other pieces stay as they are. --/
theorem Piece.write_of_ne (h : Piece len f i s) (hi : i ≠ q) (hpos : len * q ≤ pos)
    (hend : pos + data.length ≤ len * q + len) (hfull : data ≠ [] → len * q ≤ f.size) :
    Piece len (f.write pos data) i s := by
  by_cases hd : data = []
  · simpa [hd] using h
  · have hsize := h.size
    have hfull := hfull hd
    have hlt : len * i + len ≤ len * q ∨ len * q + len ≤ len * i := by
      rcases Nat.lt_or_gt_of_ne hi with hi | hi
      · exact Or.inl (by have := Nat.mul_le_mul_left len hi; rwa [Nat.mul_succ] at this)
      · exact Or.inr (by have := Nat.mul_le_mul_left len hi; rwa [Nat.mul_succ] at this)
    refine ⟨?_, fun k hk => ?_⟩
    · rw [Bytes.size_write f hd]
      omega
    · rw [Bytes.byte_write f hd, if_neg (by omega), if_pos (by omega)]
      exact h.byte k hk

/-- Resizing a file of one piece resizes that piece. --/
theorem Piece.resize (h : Piece len f 0 s) (hf : f.size ≤ len) {size : Nat} (hs : size ≤ len) :
    Piece len (f.resize size) 0 (s.resize size) := by
  have hsize : s.size = f.size := by rw [h.size, Nat.mul_zero, Nat.sub_zero, Nat.min_eq_right hf]
  refine ⟨by simp only [Bytes.resize, Nat.mul_zero, Nat.sub_zero, Nat.min_eq_right hs], fun k _ => ?_⟩
  simp only [Bytes.resize, Nat.mul_zero, Nat.zero_add, hsize]
  by_cases hk : k < f.size
  · rw [if_pos hk, if_pos hk, h.byte k (hsize ▸ hk), Nat.mul_zero, Nat.zero_add]
  · rw [if_neg hk, if_neg hk]

/-- The pieces behind it are empty before and after. --/
theorem Piece.resize_behind (h : Piece len f i s) (hi : i ≠ 0) (hf : f.size ≤ len) {size : Nat} (hs : size ≤ len) :
    Piece len (f.resize size) i s := by
  have hle : len ≤ len * i := Nat.le_mul_of_pos_right len (Nat.pos_of_ne_zero hi)
  refine .of_size_zero ?_ (hs.trans hle)
  rw [h.size, Nat.sub_eq_zero_of_le (hf.trans hle), Nat.min_zero]

end Write

/-- The sizes of the pieces add up to the size of the file. --/
theorem sum_pieces (len total : Nat) : ∀ n, total ≤ len * n →
    ((List.range n).map fun i => min len (total - len * i)).sum = total
  | 0, h => by simpa using Eq.symm (Nat.le_zero.mp h)
  | n + 1, h => by
    rw [List.range_succ, List.map_append, List.sum_append]
    rw [Nat.mul_succ] at h
    simp only [List.map_cons, List.map_nil, List.sum_cons, List.sum_nil, Nat.add_zero]
    by_cases hn : total ≤ len * n
    · rw [sum_pieces len total n hn]
      omega
    · have hfull : ((List.range n).map fun i => min len (total - len * i)) = (List.range n).map fun _ => len := by
        refine List.map_congr_left fun i hi => ?_
        have := Nat.mul_le_mul_left len (List.mem_range.mp hi)
        rw [Nat.mul_succ] at this
        omega
      rw [hfull, List.map_const', List.length_range, List.sum_replicate_nat, Nat.mul_comm n len]
      omega

end Pieces

end Flat
