import Chunkfs.Cross
import Chunkfs.Theorems.Grow

/-! What the cross-chunk check leaves. The loop variable of the script is the path that `ls` prints, so `debugfs` is asked
    for a path where it expects a number: no answer is marked, and every continuation file is removed. -/

namespace Chunkfs

/-! ### Names -/

theorem ContFile.path_eq (f : ContFile) : ∃ rest, f.path = '/' :: rest := ⟨_, rfl⟩

/-- No field separator is in the name of a continuation file. --/
theorem isSep_path {f : ContFile} {c : Char} (hc : c ∈ f.path) : Text.isSep c = false := by
  have digit : ∀ {n : Nat} {c : Char}, c ∈ Decimal.print n → Text.isSep c = false := by
    intro n c hc
    have hd := Decimal.isDigit_of_mem_print hc
    unfold Text.isSep
    by_contra hsep
    simp only [Bool.or_eq_true, decide_eq_true_eq, Bool.not_eq_false] at hsep
    rcases hsep with (rfl | rfl) | rfl <;> exact absurd hd (by decide)
  unfold ContFile.path contPath at hc
  simp only [List.mem_append, List.mem_cons] at hc
  rcases hc with hc | hc | rfl | hc | rfl | hc
  · have hprefix : ∀ c ∈ "/chunk".toList, Text.isSep c = false := by simp [Text.isSep]
    exact hprefix c hc
  · exact digit hc
  · rfl
  · exact digit hc
  · rfl
  · exact digit hc

/-- The files that the pattern of a directory matches. --/
theorem dirname_path_iff {f : ContFile} {toChunk fromChunk : Nat} :
    dirname f.path = contDir toChunk fromChunk ↔ f.toChunk = toChunk ∧ f.fromChunk = fromChunk := by
  unfold ContFile.path
  rw [dirname_contPath]
  exact ⟨contDir_inj, fun ⟨ht, hf⟩ => by rw [ht, hf]⟩

/-- The loop runs over the paths that `ls` prints. --/
theorem words_ls (s : Chunks) (toChunk fromChunk : Nat) :
    Text.words (s.ls toChunk fromChunk) = (s.files.map ContFile.path).filter fun p => dirname p = contDir toChunk fromChunk := by
  refine Text.words_unlines fun x hx => ?_
  obtain ⟨f, -, rfl⟩ := List.mem_map.mp (List.mem_filter.mp hx).1
  exact ⟨List.cons_ne_nil _ _, fun c => isSep_path⟩

/-! ### Loops -/

section Loops
variable (g : Debugfs) {s : Chunks}

/-- A path is removed, whatever is allocated. --/
theorem check_path (f : ContFile) (fromChunk : Nat) : g.check fromChunk s f.path = s.rm f.path := by
  obtain ⟨rest, hf⟩ := f.path_eq
  rw [hf]
  exact if_pos (Text.grep_eq_one_iff.mpr (g.testi_path _ rest))

theorem foldl_check_files {l : List (List Char)} (hl : ∀ i ∈ l, ∃ f : ContFile, i = f.path) (fromChunk : Nat) :
    (l.foldl (g.check fromChunk) s).files = s.files.filter fun f => f.path ∉ l := by
  induction l generalizing s with
  | nil => simp
  | cons i l ih =>
    obtain ⟨f, rfl⟩ := hl i List.mem_cons_self
    rw [List.foldl_cons, check_path g f, ih fun j hj => hl j (List.mem_cons_of_mem _ hj)]
    simp only [Chunks.rm, List.filter_filter, List.mem_cons, not_or, Bool.decide_and, Bool.and_comm]

/-- One directory is emptied, and nothing else is touched. --/
theorem checkDir_files (fromChunk toChunk : Nat) :
    (g.checkDir fromChunk s toChunk).files = s.files.filter fun f => ¬(f.toChunk = toChunk ∧ f.fromChunk = fromChunk) := by
  unfold Debugfs.checkDir
  rw [words_ls, foldl_check_files g fun i hi => ?_]
  · refine List.filter_congr fun f hf => decide_eq_decide.mpr (not_congr ?_)
    rw [List.mem_filter, decide_eq_true_iff, dirname_path_iff]
    exact and_iff_right (List.mem_map_of_mem hf)
  · obtain ⟨f, -, rfl⟩ := List.mem_map.mp (List.mem_filter.mp hi).1
    exact ⟨f, rfl⟩

theorem foldl_checkDir_files (fromChunk : Nat) (tos : List Nat) :
    (tos.foldl (fun s toChunk => g.checkDir fromChunk s toChunk) s).files =
      s.files.filter fun f => ¬(f.toChunk ∈ tos ∧ f.fromChunk = fromChunk) := by
  induction tos generalizing s with
  | nil => simp
  | cons k tos ih =>
    rw [List.foldl_cons, ih, checkDir_files, List.filter_filter]
    refine List.filter_congr fun f _ => ?_
    grind

theorem foldl_from_files (froms : List Nat) :
    (froms.foldl (fun s fromChunk => chunkIds.foldl (fun s toChunk => g.checkDir fromChunk s toChunk) s) s).files =
      s.files.filter fun f => ¬(f.toChunk ∈ chunkIds ∧ f.fromChunk ∈ froms) := by
  induction froms generalizing s with
  | nil => simp
  | cons k froms ih =>
    rw [List.foldl_cons, ih, foldl_checkDir_files, List.filter_filter]
    refine List.filter_congr fun f _ => ?_
    grind

/-- No continuation file is left. --/
theorem cross_files : (g.cross s).files = [] := by
  unfold Debugfs.cross
  rw [foldl_from_files, List.filter_eq_nil_iff]
  intro f hf hn
  exact of_decide_eq_true hn (s.places f hf)

end Loops

/-! ### Orphans -/

/-- The inode that the file continues is not allocated. --/
def Chunks.Orphan (s : Chunks) (f : ContFile) : Prop := s.allocated f.fromChunk f.fromIno = false

instance (s : Chunks) (f : ContFile) : Decidable (s.Orphan f) := inferInstanceAs (Decidable (_ = _))

/-- The check removes the orphans and nothing else. --/
def RemovesOrphans (g : Debugfs) (s : Chunks) : Prop := ∀ f ∈ s.files, f ∉ (g.cross s).files ↔ s.Orphan f

/-- It does so if and only if every continuation file is an orphan. --/
theorem removes_orphans_iff (g : Debugfs) (s : Chunks) : RemovesOrphans g s ↔ ∀ f ∈ s.files, s.Orphan f := by
  unfold RemovesOrphans
  rw [cross_files]
  refine forall₂_congr fun f _ => ?_
  exact ⟨fun h => h.mp List.not_mem_nil, fun h => iff_of_true List.not_mem_nil h⟩

/-! ### A live file -/

/-- `debugfs` with the command `testi` only: other arguments than a number it looks up as a path, and complains to its error
    output. --/
def testi (inodes : Nat → Bool) (input : List Char) : List Char :=
  let arg := (input.drop "testi <".length).takeWhile (· ≠ '>')
  if arg.all Char.isDigit then
    let n := Nat.ofDigitChars 10 arg 0
    "Inode ".toList ++ Decimal.print n ++ (if inodes n then " is marked in use".toList else " is not in use".toList) ++ ['\n']
  else []

theorem testi_print (inodes : Nat → Bool) (n : Nat) : testi inodes (echoTesti (Decimal.print n)) =
    "Inode ".toList ++ Decimal.print n ++ (if inodes n then " is marked in use".toList else " is not in use".toList) ++
      ['\n'] := by
  have hdigit : ∀ c ∈ Decimal.print n, (c ≠ '>') := by
    rintro c hc rfl
    exact absurd (Decimal.isDigit_of_mem_print hc) (by decide)
  have harg : ((echoTesti (Decimal.print n)).drop "testi <".length).takeWhile (· ≠ '>') = Decimal.print n := by
    show (Decimal.print n ++ ['>', '\n']).takeWhile (· ≠ '>') = _
    rw [List.takeWhile_append_of_pos fun c hc => decide_eq_true (hdigit c hc)]
    simp
  have hall : (Decimal.print n).all Char.isDigit = true := List.all_eq_true.mpr fun c => Decimal.isDigit_of_mem_print
  unfold testi
  simp only [harg, hall, if_true]
  rw [show Nat.ofDigitChars 10 (Decimal.print n) 0 = n by simp [Decimal.print]]

/-- The answer is marked if the inode is allocated. --/
theorem marked_testi (inodes : Nat → Bool) (n : Nat) :
    (∃ line ∈ Text.lines (testi inodes (echoTesti (Decimal.print n))), marked <:+: line) ↔ inodes n = true := by
  have digit : ∀ c ∈ Decimal.print n, c ≠ '\n' ∧ c ≠ 'm' := fun c hc => by
    have hd := Decimal.isDigit_of_mem_print hc
    constructor <;> rintro rfl <;> exact absurd hd (by decide)
  rw [testi_print, Text.exists_line_iff ?_ (by decide)]
  · cases hn : inodes n with
    | true =>
      have hmarked : " is marked in use".toList = " is ".toList ++ marked ++ " in use".toList := rfl
      refine iff_of_true ⟨"Inode ".toList ++ Decimal.print n ++ " is ".toList, " in use".toList, ?_⟩ rfl
      rw [if_pos rfl, hmarked]
      simp only [List.append_assoc]
    | false =>
      refine iff_of_false (fun h => ?_) nofun
      have hm : 'm' ∈ "Inode ".toList ++ Decimal.print n ++ " is not in use".toList := h.subset (by decide)
      simp only [List.mem_append] at hm
      rcases hm with (hm | hm) | hm
      · exact absurd hm (by decide)
      · exact (digit _ hm).2 rfl
      · exact absurd hm (by decide)
  · intro hnl
    simp only [List.mem_append] at hnl
    rcases hnl with (hnl | hnl) | hnl
    · exact absurd hnl (by decide)
    · exact (digit _ hnl).1 rfl
    · cases hn : inodes n <;> rw [hn] at hnl <;> exact absurd hnl (by decide)

def testiOnly : Debugfs where
  run := testi
  testi_number := marked_testi
  testi_path inodes path := by
    have harg : ((echoTesti ('/' :: path)).drop "testi <".length).takeWhile (· ≠ '>') =
        '/' :: (path ++ ['>', '\n']).takeWhile (· ≠ '>') := rfl
    have hout : testi inodes (echoTesti ('/' :: path)) = [] := by
      unfold testi
      rw [harg]
      rfl
    rw [hout]
    decide

/-- Inode 29 of chunk 1 is continued by inode 12 of chunk 2, and both are allocated. --/
def oneContinued : Chunks where
  files := [⟨2, 1, 29, 12⟩]
  allocated k i := (k, i) = (1, 29) || (k, i) = (2, 12)
  places := by decide
  nodup := List.pairwise_singleton _ _

/-- The file is removed all the same. --/
theorem removes_live_file : ⟨2, 1, 29, 12⟩ ∈ oneContinued.files ∧ oneContinued.allocated 1 29 = true ∧
    (⟨2, 1, 29, 12⟩ : ContFile) ∉ (testiOnly.cross oneContinued).files ∧ ¬RemovesOrphans testiOnly oneContinued := by
  have hgone : (⟨2, 1, 29, 12⟩ : ContFile) ∉ (testiOnly.cross oneContinued).files := by
    rw [cross_files]
    exact List.not_mem_nil
  refine ⟨List.mem_cons_self, rfl, hgone, fun h => ?_⟩
  have horphan : oneContinued.allocated 1 29 = false := (h _ List.mem_cons_self).mp hgone
  cases horphan

end Chunkfs
