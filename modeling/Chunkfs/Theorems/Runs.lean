import Chunkfs.Theorems.NewFile

/-! Runs of reads and writes at explicit positions on a new file. As long as each write that stores something lies
    in one segment, and the file reaches that segment, a run is a run on one flat file. -/

namespace Chunkfs
open Exec Word Flat

/-- A read or write at an explicit position. --/
inductive Call where
  | read (pos len : Nat)
  | write (pos : Nat) (data : List UInt8)

def Call.run (file : File) : Call → Kern IoResult
  | .read pos len => Chunkfs.read file len pos
  | .write pos data => Chunkfs.write file data pos

/-- One call after the other on the same file. --/
def runCalls : File → List Call → Kern (List IoResult)
  | _, [] => return []
  | file, x :: xs => do
    let r ← x.run file
    let rs ← runCalls r.file xs
    return r :: rs

/-- What a call does to the flat file. --/
def Call.apply (f : Bytes UInt8) : Call → Bytes UInt8
  | .read _ _ => f
  | .write pos data => f.write pos data

/-- The flat file after a run on an empty file. --/
def flat (calls : List Call) : Bytes UInt8 := calls.foldl Call.apply Bytes.empty

/-- A write that stores something lies in one segment, and the file reaches that segment. --/
def Call.Fits (f : Bytes UInt8) : Call → Prop
  | .read pos _ => pos < 2 ^ 63
  | .write pos data => pos < 2 ^ 63 ∧
    (data ≠ [] → pos + data.length ≤ segLen * (pos / segLen) + segLen ∧ segLen * (pos / segLen) ≤ f.size)

/-- Every call of a run fits the file as it then is. --/
def AllFit : Bytes UInt8 → List Call → Prop
  | _, [] => True
  | f, x :: xs => x.Fits f ∧ AllFit (x.apply f) xs

/-- The number of segments after a call. --/
def Call.segments (n : Nat) : Call → Nat
  | .read _ _ => n
  | .write pos _ => segmentsAfter n pos

/-- The pool has the chunks a run needs on a file of `n` segments whose head is in the chunk `head`. --/
def Enough (pool : List Nat) (head : Nat) : Nat → List Call → Prop
  | _, [] => True
  | n, .read _ _ :: xs => Enough pool head n xs
  | n, .write pos _ :: xs => (pos / segLen < n ∨ head + n ∈ pool) ∧ Enough pool head (segmentsAfter n pos) xs

section Run
variable {w : World} {d : Dentry} {cs : List Continuation} {f : Bytes UInt8} {file : File}

/-- One call that fits keeps the file and the flat file together. --/
theorem Holds.call (h : Holds w d cs f) (hfile : file.dentry = d) (hflags : file.flags &&& oAppend = 0) {x : Call}
    (hfit : x.Fits f) {xs : List Call} (henough : Enough w.pool d.client.chunk cs.length (x :: xs)) :
    ∃ r w' cs', x.run file w = .ok r w' ∧ r.file.dentry = d ∧ r.file.flags = file.flags ∧ w'.pool = w.pool ∧
      Holds w' d cs' (x.apply f) ∧ cs'.length = x.segments cs.length ∧
      Enough w'.pool d.client.chunk cs'.length xs ∧ ∀ p data, x = .write p data → r.ret = data.length := by
  cases x with
  | read p len =>
    obtain ⟨r, w', hr, -, -, hd, hf, hpool, hh⟩ := h.read hfile hfit len
    exact ⟨r, w', cs, hr, hd, hf, hpool, hh, rfl, hpool ▸ henough, fun _ _ he => by cases he⟩
  | write p data =>
    obtain ⟨hp, hin⟩ := hfit
    obtain ⟨r, w', cs', hr, hret, hf, hpool, hlen, hh⟩ := h.write hfile hflags hp (fun hd => (hin hd).1)
      (fun hd => (hin hd).2) henough.1
    refine ⟨r, w', cs', hr, by rw [hf]; exact hfile, by rw [hf], hpool, hh, hlen, ?_, fun _ _ he => ?_⟩
    · rw [hpool, hlen]
      exact henough.2
    · cases he
      exact hret

theorem runCalls_cons {x : Call} {xs : List Call} {r : IoResult} {w' : World} (h : x.run file w = .ok r w') :
    runCalls file (x :: xs) w = (do let rs ← runCalls r.file xs; return r :: rs : Kern (List IoResult)) w' :=
  bind_ok h

/-- A run of calls that fit. --/
theorem Holds.runCalls {calls : List Call} (h : Holds w d cs f) (hfile : file.dentry = d)
    (hflags : file.flags &&& oAppend = 0) (hfit : AllFit f calls)
    (henough : Enough w.pool d.client.chunk cs.length calls) :
    ∃ rs w' cs', Chunkfs.runCalls file calls w = .ok rs w' ∧ Holds w' d cs' (calls.foldl Call.apply f) ∧
      cs'.length = calls.foldl Call.segments cs.length := by
  induction calls generalizing w cs f file with
  | nil => exact ⟨[], w, cs, rfl, h, rfl⟩
  | cons x xs ih =>
    obtain ⟨r, w₁, cs₁, hr, hd, hf, -, hh, hlen, hen, -⟩ := h.call hfile hflags hfit.1 henough
    obtain ⟨rs, w₂, cs₂, hrs, hh₂, hlen₂⟩ := ih hh hd (by rw [hf]; exact hflags) hfit.2 hen
    refine ⟨r :: rs, w₂, cs₂, ?_, hh₂, ?_⟩
    · rw [runCalls_cons hr, bind_ok hrs]
      rfl
    · rw [hlen₂, hlen]
      rfl

end Run

/-- After the run, a read below the highest byte written gives at least one byte, and the bytes last written; a
    read at or behind it gives nothing. --/
def RefinesFlat (file : File) (calls : List Call) (w : World) : Prop :=
  ∃ rs w', runCalls file calls w = .ok rs w' ∧ ∀ p len : Nat, p < 2 ^ 63 → 1 ≤ len → ∃ r w'', read file len p w' = .ok r w'' ∧
    (p < (flat calls).size → 1 ≤ r.ret ∧ r.ret = r.buf.length ∧
      ∀ k b, r.buf[k]? = some b → b = (flat calls).byte (p + k)) ∧
    ((flat calls).size ≤ p → r.ret = 0)

/-- A run whose calls all fit refines the flat file. --/
theorem run_refines_flat {w : World} {d : Dentry} (h : NewFile w d) (hu : Undisturbed w) {file : File}
    (hfile : file.dentry = d) (hflags : file.flags &&& oAppend = 0) {calls : List Call} (hfit : AllFit Bytes.empty calls)
    (henough : Enough w.pool d.client.chunk 1 calls) : RefinesFlat file calls w := by
  obtain ⟨rs, w', cs', hr, hh, -⟩ := (h.holds hu).runCalls hfile hflags hfit henough
  refine ⟨rs, w', hr, fun p len hp hlen => ?_⟩
  obtain ⟨r, w'', hrd, hbuf, hret, -⟩ := hh.read hfile hp len
  have hlength : r.buf.length = min (min len (segLen * (p / segLen) + segLen - p)) ((flat calls).size - p) := by
    rw [hbuf, Bytes.length_read]
    rfl
  have hdiv := Nat.lt_div_mul_add (a := p) (show 0 < segLen by decide)
  rw [Nat.mul_comm] at hdiv
  refine ⟨r, w'', hrd, fun hlt => ⟨by rw [hret]; omega, hret, fun k b hk => ?_⟩, fun hle => by rw [hret]; omega⟩
  rw [hbuf, Bytes.read, List.getElem?_map] at hk
  obtain ⟨j, hj, rfl⟩ := Option.map_eq_some_iff.mp hk
  obtain ⟨-, rfl⟩ := List.getElem?_eq_some_iff.mp hj
  rw [List.getElem_range]
  rfl

/-- A run over the border of the first two segments. --/
theorem run_refines_flat_two_segments :
    RefinesFlat firstFile [.write 0 (List.replicate 40960 7), .read 5 10, .write 40960 [1, 2]]
      (oneFile [1, 2] quietEnv) :=
  run_refines_flat (oneFile_quiet (by decide) (by decide)) (oneFile_undisturbed _) rfl (by decide)
    (by simp [AllFit, Call.Fits, Call.apply, segLen, Bytes.write, Bytes.empty, -List.reduceReplicate])
    (by simp [Enough, segmentsAfter, segLen, oneFile, prepared, firstDentry, firstIno])

/-- The status that a call returned. --/
def retOf : EStateM.Result Stop World IoResult → Option Int
  | .ok r _ => some r.ret
  | .error _ _ => none

/-- A write over the border of two segments is stored in the first, where a read does not look for it. --/
theorem crossing_write_not_flat :
    NewFile (oneFile [1, 2] quietEnv) firstDentry ∧ Undisturbed (oneFile [1, 2] quietEnv) ∧
      Enough [1, 2] firstIno.chunk 1 [.write 40950 (List.replicate 20 7)] ∧
      ¬RefinesFlat firstFile [.write 40950 (List.replicate 20 7)] (oneFile [1, 2] quietEnv) := by
  refine ⟨oneFile_quiet (by decide) (by decide), oneFile_undisturbed _, by simp [Enough, segLen], ?_⟩
  rintro ⟨rs, w', hr, h⟩
  obtain ⟨r, w'', hrd, hlt, -⟩ := h 40960 1 (by decide) (by decide)
  have hread : retOf ((runCalls firstFile [.write 40950 (List.replicate 20 7)] >>= fun _ => read firstFile 1 (40960 : Nat))
      (oneFile [1, 2] quietEnv)) = some 0 := by decide +kernel
  rw [bind_ok hr, hrd] at hread
  have hpos := (hlt (by decide)).1
  have hzero : r.ret = 0 := Option.some.inj hread
  omega

end Chunkfs
