import Chunkfs.Unmounting
import Chunkfs.Theorems.MountRefs

/-! What mounts and unmounts leave behind. A mount that returns 0 holds the pool, the root inode, the root dentry and the
    client dentry and mount of the root directory, and its unmount drops all of it, with one reference on a client inode that
    no mount has taken. A mount that fails once its root inode has been started puts that client inode as well. -/

namespace Chunkfs
namespace Mounting
open Exec
variable {s t : Attempt} {r : Refs} {m : List Bool} {c : Chunk} {di : Dev} {pi : Pool} {fuel : Nat}

/-! ### What a mount holds -/

/-- What a root directory holds besides the pool. --/
def Refs.rooted (r : Refs) (c : Chunk) : Refs :=
  { (r.addDentry rootPath 2).addMnt c.mnt 1 with inode := r.inode + 1, root := r.root + 1 }

/-- Of the references on the path of the root directory, those of `kern_path` go again. --/
theorem Refs.root_found (r : Refs) (c : Chunk) :
    (((({ (((r.addMnt rootPath 1).addDentry rootPath 1).addDentry rootPath 1) with
      inode := r.inode + 1, root := r.root + 1 } : Refs).addDentry rootPath 1).addMnt c.mnt 1).addDentry rootPath
        (-1)).addMnt rootPath (-1) = r.rooted c := by
  apply Refs.ext'
  · exact fun _ => rfl
  · intro p
    simp only [rooted, addMnt, addDentry]
    split <;> omega
  · intro p
    simp only [rooted, addMnt, addDentry]
    split <;> omega
  · rfl
  · rfl
  · rfl

/-- `chunkfs_read_root` returns 0 with a root directory, or has put the client inode: then `sb->s_root` is NULL or has been
    freed. --/
theorem readRoot_leaves (c : Chunk) (m : List Bool) (hs : s.sRoot = false) (hinode : r.inode = 0) (hroot : r.root = 0) :
    Meets (readRoot c) (s.at m r)
      (fun v t => (v = 0 ∧ ∃ m', t = Attempt.at { s with sRoot := true } m' (r.rooted c)) ∨
        v ≠ 0 ∧ t.refs.client = r.client - 1 ∧ (t.sRoot = true → t.refs.root ≤ 0))
      (fun _ _ => True) := by
  unfold readRoot
  refine meets_bind_ok (kzalloc_at ..) ?_
  cases m.headD true with
  | false => trivial
  | true =>
    simp only [Bool.not_true, Bool.false_eq_true, ↓reduceIte]
    refine meets_bind_ok (changeRefs_at ..) ?_
    cases hp : s.sb.kernPath rootPath with
    | some e =>
      refine meets_bind_ok (kernPath_missing hp) ?_
      unfold Meets
      dsimp only
      rw [bind_error (freeDentry_null hs _ _)]
      trivial
    | none =>
      refine meets_bind_ok (kernPath_found hp) ?_
      refine meets_bind_ok (changeRefs_at ..) (meets_get_bind ?_)
      split
      · trivial
      have hlast : r.inode + 1 = 1 := by omega
      refine meets_bind_ok (kzalloc_at ..) ?_
      cases m.tail.headD true with
      | false =>
        refine meets_bind_ok (iput_at ..) (meets_bind_ok (iput_at ..) (Or.inr ⟨Errno.enomem.ret_neg.ne, ?_, fun h => ?_⟩))
        · -- The second `iput` finds no reference.
          simp [Attempt.at, Refs.put, Refs.addMnt, Refs.addDentry, hlast]
        · exact absurd (hs.symm.trans h) Bool.false_ne_true
      | true =>
        simp only [↓reduceIte]
        refine meets_bind_ok (t := Attempt.at { s with sRoot := true } m.tail.tail _) rfl ?_
        refine meets_bind_ok (initDentry_at ..) ?_
        cases m.tail.tail.headD true && m.tail.tail.tail.headD true with
        | false =>
          simp only [Bool.false_eq_true, ↓reduceIte]
          refine meets_bind_ok (dputRoot_at ..) (meets_bind_ok (iput_at ..) (Or.inr ⟨Errno.enomem.ret_neg.ne, ?_, fun _ => ?_⟩))
          · simp [Attempt.at, Refs.putRoot, Refs.put, Refs.addMnt, Refs.addDentry, hlast, hroot]
          · simp [Attempt.at, Refs.putRoot, Refs.put, Refs.addMnt, Refs.addDentry, hroot]
        | true =>
          simp only [↓reduceIte]
          refine meets_bind_ok (changeRefs_at ..) (meets_bind_ok (changeRefs_at ..) (meets_bind_ok (changeRefs_at ..) ?_))
          exact Or.inl ⟨rfl, _, congrArg (Attempt.at _ _) (Refs.root_found r c)⟩

/-! ### What an unmount drops -/

/-- The bound on the walk is beyond the chunks of the device, if its summaries can be read to their end. --/
def Enough (fuel : Nat) (sb : Sb) : Prop := ∀ cs, ReadsAll sb cs → cs.length < fuel

end Mounting
end Chunkfs
