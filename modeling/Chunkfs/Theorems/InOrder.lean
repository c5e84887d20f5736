import Chunkfs.Theorems.Runs

/-! Writes that each lie in one segment. Where every write starts at or before the end of the file, the chain, the
    sizes and the reads are those of the flat file. Where a write skips the rest of the last segment, the size
    copied up falls short of the end of the file. -/

namespace Chunkfs
open Exec Word Flat

/-- A run of writes. --/
def writesOf (ws : List (Nat × List UInt8)) : List Call := ws.map fun x => .write x.1 x.2

theorem writesOf_cons (p : Nat) (data : List UInt8) (ws : List (Nat × List UInt8)) :
    writesOf ((p, data) :: ws) = .write p data :: writesOf ws := rfl

/-- The end of the file after writes to a file of `size` bytes. --/
def endAfter (size : Nat) (ws : List (Nat × List UInt8)) : Nat := ws.foldl (fun m x => max m (x.1 + x.2.length)) size

/-- The number of segments of a file of `size` bytes: at least the head. --/
def segmentsFor (size : Nat) : Nat := max 1 ((size + (segLen - 1)) / segLen)

/-- A write of at least one byte inside one segment. --/
def InSegment (p : Nat) (data : List UInt8) : Prop :=
  data ≠ [] ∧ p + data.length ≤ segLen * (p / segLen) + segLen

/-- Every write lies in one segment and starts at or before the end of the file. --/
def InOrder : Nat → List (Nat × List UInt8) → Prop
  | _, [] => True
  | size, (p, data) :: ws => InSegment p data ∧ p ≤ size ∧ InOrder (max size (p + data.length)) ws

theorem segmentsAfter_eq {size p n : Nat} {data : List UInt8} (hn : n = segmentsFor size) (hin : InSegment p data)
    (hfull : segLen * (p / segLen) ≤ size) :
    segmentsAfter n p = segmentsFor (max size (p + data.length)) ∧ p / segLen ≤ n := by
  have hpos := List.length_pos_of_ne_nil hin.1
  have hone := hin.2
  subst hn
  unfold segmentsAfter segmentsFor segLen at *
  split <;> omega

theorem lt_of_segment_le {p : Nat} (h : p / segLen ≤ 15) : p < 2 ^ 63 := by
  unfold segLen at h
  omega

section Runs
variable {w : World} {d : Dentry} {cs : List Continuation} {f : Bytes UInt8} {pool : List Nat}

/-- Writes in order fit, and need no more chunks than those they name. --/
theorem InOrder.fits (head : Nat) {ws : List (Nat × List UInt8)} (hids : ∀ k ∈ pool, k ≤ 15) (h : InOrder f.size ws)
    (hpool : ∀ x ∈ ws, head + x.1 / segLen ∈ pool) :
    AllFit f (writesOf ws) ∧ Enough pool head (segmentsFor f.size) (writesOf ws) ∧
      (writesOf ws).foldl Call.segments (segmentsFor f.size) = segmentsFor ((writesOf ws).foldl Call.apply f).size := by
  induction ws generalizing f with
  | nil => exact ⟨trivial, trivial, by rw [writesOf, List.map_nil, List.foldl_nil, List.foldl_nil]⟩
  | cons x ws ih =>
    obtain ⟨p, data⟩ := x
    obtain ⟨hin, hle, hrest⟩ := h
    have hdiv := Nat.mul_div_le p segLen
    have hmem : head + p / segLen ∈ pool := hpool (p, data) (by simp)
    have hsmall : p < 2 ^ 63 := lt_of_segment_le (Nat.le_trans (Nat.le_add_left _ _) (hids _ hmem))
    obtain ⟨hafter, hlast⟩ := segmentsAfter_eq rfl hin (hdiv.trans hle)
    have hsize : (f.write p data).size = max f.size (p + data.length) := Bytes.size_write f hin.1
    rw [← hsize] at hrest hafter
    obtain ⟨h₁, h₂, h₃⟩ := ih hrest fun x hx => hpool x (List.mem_cons_of_mem _ hx)
    rw [writesOf_cons]
    refine ⟨⟨⟨hsmall, fun _ => ⟨hin.2, hdiv.trans hle⟩⟩, h₁⟩, ⟨?_, ?_⟩, ?_⟩
    · rcases Nat.lt_or_eq_of_le hlast with hlt | heq
      · exact Or.inl hlt
      · exact Or.inr (heq ▸ hmem)
    · rw [hafter]
      exact h₂
    · rw [List.foldl_cons, List.foldl_cons, Call.segments, hafter]
      exact h₃

/-- All segments but the last are full. --/
theorem Holds.size_of_not_last (h : Holds w d cs f) (hn : cs.length = segmentsFor f.size) {i : Nat} {c : Continuation}
    (hi : cs[i]? = some c) (hlast : i + 1 < cs.length) : ∃ x, w.disk.inode c.inode = some x ∧ x.size = segLen := by
  obtain ⟨x, hx, hpiece⟩ := h.pieces i c hi
  refine ⟨x, hx, ?_⟩
  have hs : x.size = min segLen (f.size - segLen * i) := hpiece.size
  unfold segmentsFor segLen at hn
  unfold segLen at hs ⊢
  omega

end Runs

/-- Writes in order, each in one segment: the chain has as many elements as the size needs, all but the last are
    full, the chunkfs inode has the size, and every read gives the bytes up to the end of its segment. --/
theorem inOrder_writes_are_flat {w : World} {d : Dentry} (h : NewFile w d) (hu : Undisturbed w) (file : File)
    (hfile : file.dentry = d) (hflags : file.flags &&& oAppend = 0) (ws : List (Nat × List UInt8)) (hws : InOrder 0 ws)
    (hpool : ∀ x ∈ ws, d.client.chunk + x.1 / 40960 ∈ w.pool) :
    let f := flat (writesOf ws)
    ∃ rs w', runCalls file (writesOf ws) w = .ok rs w' ∧
      (∃ cs, (∀ fuel, cs.length < fuel → ∃ w'', walkConts fuel d none w' = .ok (.ok cs) w'') ∧
        cs.length = max 1 ((f.size + 40959) / 40960) ∧
        ∀ i c, cs[i]? = some c → i + 1 < cs.length → ∃ x, w'.disk.inode c.inode = some x ∧ x.size = 40960) ∧
      (∃ vn, w'.vnode d.inode = some vn ∧ vn.size = f.size) ∧
      ∀ p len : Nat, p < 2 ^ 63 → 1 ≤ len → ∃ r w'', read file len p w' = .ok r w'' ∧
        (p < f.size → r.ret = min len (min (40960 - p % 40960) (f.size - p)) ∧
          r.buf = f.read p (min len (min (40960 - p % 40960) (f.size - p)))) ∧
        (f.size ≤ p → r.ret = 0) := by
  intro f
  have hL : segLen = 40960 := rfl
  simp only [← hL] at hpool
  obtain ⟨hfit, henough, hsegs⟩ := InOrder.fits (f := Bytes.empty) d.client.chunk
    (fun k hk => (h.sound.pool k hk).2) hws hpool
  rw [show segmentsFor (Bytes.empty : Bytes UInt8).size = 1 by decide] at henough hsegs
  obtain ⟨rs, w', cs, hr, hh, hlen⟩ := (h.holds hu).runCalls hfile hflags hfit henough
  have hn : cs.length = segmentsFor f.size := hlen.trans hsegs
  obtain ⟨vn, hv⟩ := hh.vnode
  refine ⟨rs, w', hr, ⟨cs, fun fuel hf => ?_, by rw [hn, segmentsFor, hL], fun i c hi hl => hh.size_of_not_last hn hi hl⟩, ⟨vn, hv, hh.size vn hv⟩,
    fun p len hp hlen => ?_⟩
  · obtain ⟨w'', hw, -⟩ := (walkConts_reads (hh.walkable.follows hh.calm.honest) hf w' (Warm.refl w')).calm hh.calm
    exact ⟨w'', hw⟩
  · obtain ⟨r, w'', hrd, hbuf, hret, -⟩ := hh.read hfile hp len
    have hlength : r.buf.length = min (min len (segLen * (p / segLen) + segLen - p)) (f.size - p) := by
      rw [hbuf, Bytes.length_read]
      rfl
    have hseg : segLen * (p / segLen) + segLen - p = 40960 - p % 40960 := by
      unfold segLen
      omega
    rw [hseg] at hbuf hlength
    refine ⟨r, w'', hrd, fun hlt => ⟨by rw [hret]; omega, ?_⟩, fun hle => by rw [hret]; omega⟩
    rw [hbuf]
    exact Bytes.read_min f p _ _ (by omega)

/-- Two segments filled in order and a byte written again. --/
theorem inOrder_writes_are_flat_two_segments :
    let ws : List (Nat × List UInt8) := [(0, List.replicate 40960 7), (40960, [1, 2]), (5, [9])]
    ∃ rs w', runCalls firstFile (writesOf ws) (oneFile [1, 2] quietEnv) = .ok rs w' ∧
      ∃ vn, w'.vnode 1 = some vn ∧ vn.size = (flat (writesOf ws)).size := by
  intro ws
  obtain ⟨rs, w', hr, -, hv, -⟩ := inOrder_writes_are_flat (oneFile_quiet (by decide) (by decide))
    (oneFile_undisturbed [1, 2]) firstFile rfl (by decide) ws
    (by simp [ws, InOrder, InSegment, segLen, -List.reduceReplicate])
    (by simp [ws, oneFile, prepared, firstDentry, firstIno, -List.reduceReplicate])
  exact ⟨rs, w', hr, hv⟩

/-! ### Writes in any order -/

/-- Every write lies in one segment, which exists already or is the next one. --/
def InSegments : Nat → List (Nat × List UInt8) → Prop
  | _, [] => True
  | n, (p, data) :: ws => InSegment p data ∧ p / segLen ≤ n ∧ InSegments (segmentsAfter n p) ws

/-- Every write is to a segment the file reaches. --/
def Reached : Nat → List (Nat × List UInt8) → Prop
  | _, [] => True
  | size, (p, data) :: ws => segLen * (p / segLen) ≤ size ∧ Reached (max size (p + data.length)) ws

/-- `i_size` of the chunkfs inode after a run of writes. --/
def sizeAfter (file : File) (ws : List (Nat × List UInt8)) (w : World) (d : Dentry) : Option Int :=
  ((final (runCalls file (writesOf ws) w)).vnode d.inode).map (·.size)

section Sizes
variable {w : World} {d : Dentry} {cs : List Continuation} {f : Bytes UInt8} {file : File}

theorem sizeAfter_cons {p : Nat} {data : List UInt8} {ws : List (Nat × List UInt8)} {r : IoResult} {w' : World}
    (h : write file data p w = .ok r w') : sizeAfter file ((p, data) :: ws) w d = sizeAfter r.file ws w' d := by
  unfold sizeAfter
  rw [writesOf_cons, runCalls_cons (x := .write p data) h, final_bind_pure]

theorem Holds.sizeAfter_nil (h : Holds w d cs f) : sizeAfter file [] w d = some (f.size : Int) := by
  obtain ⟨vn, hv⟩ := h.vnode
  show (w.vnode d.inode).map (·.size) = _
  rw [hv, Option.map_some, h.size vn hv]

/-- The size is right after each of the writes exactly when each is to a segment the file reaches. --/
theorem Holds.sizes_iff {ws : List (Nat × List UInt8)} (h : Holds w d cs f) (hn : cs.length = segmentsFor f.size)
    (hfile : file.dentry = d) (hflags : file.flags &&& oAppend = 0) (hws : InSegments cs.length ws)
    (hpool : ∀ x ∈ ws, d.client.chunk + x.1 / segLen ∈ w.pool) :
    (∀ k, k ≤ ws.length → sizeAfter file (ws.take k) w d = some (endAfter f.size (ws.take k) : Int)) ↔
      Reached f.size ws := by
  induction ws generalizing w cs f file with
  | nil =>
    refine ⟨fun _ => trivial, fun _ k hk => ?_⟩
    rw [Nat.le_zero.mp hk]
    exact h.sizeAfter_nil
  | cons x ws ih =>
    obtain ⟨p, data⟩ := x
    obtain ⟨hin, hnext, hrest⟩ := hws
    have hmem : d.client.chunk + p / segLen ∈ w.pool := hpool (p, data) (by simp)
    have hsmall : p < 2 ^ 63 :=
      lt_of_segment_le (Nat.le_trans (Nat.le_add_left _ _) (h.sound.pool _ hmem).2)
    by_cases hfull : segLen * (p / segLen) ≤ f.size
    · -- The write keeps the file and the flat file together; the rest is the induction hypothesis.
      have hroom : p / segLen < cs.length ∨ d.client.chunk + cs.length ∈ w.pool := by
        rcases Nat.lt_or_eq_of_le hnext with hlt | heq
        · exact Or.inl hlt
        · exact Or.inr (heq ▸ hmem)
      obtain ⟨r, w', cs', hr, -, hrf, hp', hlen, hh⟩ := h.write hfile hflags hsmall (fun _ => hin.2) (fun _ => hfull)
        hroom
      have hsize : (f.write p data).size = max f.size (p + data.length) := Bytes.size_write f hin.1
      have hfile' : r.file.dentry = d := by rw [hrf]; exact hfile
      have := ih hh (by rw [hlen, hsize]; exact (segmentsAfter_eq hn hin hfull).1) hfile'
        (by rw [hrf]; exact hflags) (by rw [hlen]; exact hrest)
        (fun x hx => by rw [hp']; exact hpool x (List.mem_cons_of_mem _ hx))
      rw [Reached, and_iff_right hfull, ← hsize, ← this]
      constructor
      · intro hall k hk
        have := hall (k + 1) (by simp only [List.length_cons]; omega)
        rwa [List.take_succ_cons, sizeAfter_cons hr, endAfter, List.foldl_cons, ← hsize] at this
      · intro hall k hk
        cases k with
        | zero => exact h.sizeAfter_nil
        | succ k =>
          rw [List.take_succ_cons, sizeAfter_cons hr, endAfter, List.foldl_cons, ← hsize]
          exact hall k (by simp only [List.length_cons] at hk; omega)
    · -- The write skips the rest of the last segment, which the sum of the sizes does not count.
      have hq : p / segLen = cs.length := by
        by_contra hne
        have hlt : p / segLen < cs.length := by omega
        unfold segmentsFor segLen at hn
        unfold segLen at hfull hlt
        omega
      refine ⟨fun hall => ?_, fun hr => absurd hr.1 hfull⟩
      obtain ⟨r, w', vn, hr, hv, hsz⟩ := h.size_behind hfile (Nat.le_of_eq hq.symm) hsmall (hq ▸ hmem) hin.1
        (hq ▸ hin.2)
      have hone := hall 1 (by simp)
      rw [List.take_succ_cons, List.take_zero, sizeAfter_cons hr] at hone
      have hvn : sizeAfter r.file [] w' d = some vn.size := by
        show (w'.vnode d.inode).map (·.size) = _
        rw [hv, Option.map_some]
      have hpos := Nat.mul_div_le p segLen
      rw [hvn, hsz, endAfter, List.foldl_cons, List.foldl_nil, Option.some.injEq, Int.ofNat_inj] at hone
      dsimp only at hone
      rw [hq] at hfull hpos
      omega

end Sizes

/-- On a new file, where every write lies in one segment that exists or is the next, `i_size` is the end of the file
    after each write exactly when no write skips the rest of a segment. --/
theorem reported_size_iff {w : World} {d : Dentry} (h : NewFile w d) (hu : Undisturbed w) (file : File)
    (hfile : file.dentry = d) (hflags : file.flags &&& oAppend = 0) (ws : List (Nat × List UInt8))
    (hws : InSegments 1 ws) (hpool : ∀ x ∈ ws, d.client.chunk + x.1 / segLen ∈ w.pool) :
    (∀ k, k ≤ ws.length → sizeAfter file (ws.take k) w d = some (endAfter 0 (ws.take k) : Int)) ↔ Reached 0 ws :=
  (h.holds hu).sizes_iff (by show 1 = segmentsFor 0; decide) hfile hflags hws hpool

/-- One byte at the beginning of each of two segments. --/
theorem skipping_write_reports_two_bytes :
    NewFile (oneFile [1, 2] quietEnv) firstDentry ∧ Undisturbed (oneFile [1, 2] quietEnv) ∧
      InSegments 1 [(0, [1]), (40960, [1])] ∧
      sizeAfter firstFile [(0, [1]), (40960, [1])] (oneFile [1, 2] quietEnv) firstDentry = some 2 ∧
      endAfter 0 [(0, [1]), (40960, [1])] = 40961 :=
  ⟨oneFile_quiet (by decide) (by decide), oneFile_undisturbed _, by simp [InSegments, InSegment, segLen, segmentsAfter],
    by decide +kernel, by decide⟩

/-- A segment filled before the next one is begun. --/
theorem reported_size_iff_two_segments :
    let ws : List (Nat × List UInt8) := [(0, List.replicate 40960 7), (40960, [1])]
    ∀ k, k ≤ ws.length → sizeAfter firstFile (ws.take k) (oneFile [1, 2] quietEnv) firstDentry =
      some (endAfter 0 (ws.take k) : Int) := by
  intro ws
  refine (reported_size_iff (oneFile_quiet (by decide) (by decide)) (oneFile_undisturbed [1, 2])
    firstFile rfl (by decide) ws ?_ ?_).mpr ?_
  · simp [ws, InSegments, InSegment, segLen, segmentsAfter, -List.reduceReplicate]
  · simp [ws, oneFile, prepared, firstDentry, firstIno, segLen, -List.reduceReplicate]
  · simp [ws, Reached, segLen, -List.reduceReplicate]

end Chunkfs
