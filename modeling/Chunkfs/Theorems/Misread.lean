import Chunkfs.Theorems.Failures
import Chunkfs.Theorems.Search

/-! What a failed call makes of a search in the middle of a chain, and what a read and a write take it for. -/

namespace Chunkfs
open Exec

/-- The search does not answer that there is no such segment, a read returns an error, and a write returns one and
    leaves the disk. --/
structure ErrorSeen (w : World) (file : File) (p : Int) : Prop where
  search : ∃ e w', getContAtOffset file.dentry p w = .ok (.error e) w' ∧ e ≠ .enoent
  read : ∀ len, ∃ r w', read file len p w = .ok r w' ∧ r.ret < 0
  write : ∀ data, ∃ r w', write file data p w = .ok r w' ∧ r.ret < 0 ∧ w'.disk = w.disk

/-- The `k`-th call of a walk that fails with `e` is not mistaken. The first five load the head: `next_cont` is still
    unset then, and an attribute that cannot be read for `-ENOENT` counts as a missing segment. Of the seven of each
    later element, the first gets the buffer for the path and the second looks it up. --/
def Shows (junk : Bool) (k : Nat) (e : Errno) : Prop :=
  if k < 5 then junk = false ∧ (k = 0 ∨ e ≠ .enoent)
  else 2 ≤ (k - 5) % 7 ∧ ((k - 5) % 7 = 2 ∨ e ≠ .enoent)

theorem loadErr_ne_enoent {k : Nat} {e : Errno} : loadErr k e ≠ .enoent ↔ k = 0 ∨ e ≠ .enoent := by
  unfold loadErr
  by_cases hk : k = 0
  · simp [hk, Errno.enomem, Errno.enoent]
  · simp [hk]

theorem shows_iff {junk : Bool} {k : Nat} {e : Errno} :
    Shows junk k e ↔ ∃ e', searchErr junk none k e = .ok e' ∧ e' ≠ .enoent := by
  unfold Shows
  by_cases hk : k < 5
  · have hplace : searchErr junk none k e = .ok (if junk then .enoent else loadErr k e) := by
      simp [searchErr, walkErr, stepCost, hk, Except.map]
    rw [if_pos hk, hplace]
    cases junk with
    | true => simp
    | false => simp [loadErr_ne_enoent]
  · have hplace : searchErr junk none k e = nextErr ((k - 5) % 7) e := by
      simp [searchErr, walkErr, stepCost, hk]
    rw [if_neg hk, hplace]
    rcases (k - 5) % 7 with _ | _ | m
    · simp [nextErr]
    · simp [nextErr]
    · simp [nextErr, loadErr_ne_enoent]

section Search
variable {w : World} {d : Dentry} {vn : Vnode} {cs : List Continuation} {file : File} {p : Int} {e : Errno} {w' : World}

theorem getContAtOffset_asks (h : Traced w d vn cs) (hf : cs.length < w.env.fuel) (p : Int) :
    Asks (getContAtOffset d p) w (searchCost p none cs)
      (fun k e => (searchErr w.env.junkNull none k e).map .error) fun r _ => r = searched cs p :=
  .get_bind (contAtOffsetLoop_asks h.visits hf w.env.junkNull w (Warm.refl w))

theorem openContFile_of_error (h : getContAtOffset file.dentry p w = .ok (.error e) w') :
    openContFile file p w = .ok (.error e) w' := bind_ok h

theorem read_of_error (h : getContAtOffset file.dentry p w = .ok (.error e) w') (len : Nat) :
    read file len p w = .ok { ret := if e = .enoent then 0 else e.ret, buf := [], ppos := p, file := file } w' :=
  bind_ok (openContFile_of_error h)

theorem write_of_error (h : getContAtOffset file.dentry p w = .ok (.error e) w') (he : e ≠ .enoent)
    (data : List UInt8) :
    write file data p w = .ok { ret := e.ret, buf := [], ppos := p, file := file } w' := by
  unfold write
  rw [bind_ok (openContFile_of_error h)]
  exact congrFun (if_neg he) w'

/-- An error other than `-ENOENT` is handed on. --/
theorem errorSeen_of_ne (h : getContAtOffset file.dentry p w = .ok (.error e) w') (he : e ≠ .enoent)
    (hdisk : w'.disk = w.disk) : ErrorSeen w file p where
  search := ⟨e, w', h, he⟩
  read len := by
    refine ⟨_, w', read_of_error h len, ?_⟩
    dsimp only
    rw [if_neg he]
    exact e.ret_neg
  write data := ⟨_, w', write_of_error h he data, e.ret_neg, hdisk⟩

/-- A failing call of the search is seen as an error if and only if its place and its code let it show. When all its
    calls work, the search answers `-ENOENT` for the chain without an element that covers the offset alone. --/
theorem error_seen_iff (h : Traced w file.dentry vn cs) (hf : cs.length < w.env.fuel) (p : Int) :
    (∀ k e, firstStop (searchCost p none cs) w.env.script = some (k, some e) →
      (ErrorSeen w file p ↔ Shows w.env.junkNull k e)) ∧
    (firstStop (searchCost p none cs) w.env.script = none →
      ∃ r w', getContAtOffset file.dentry p w = .ok r w' ∧ (r = .error .enoent ↔ ∀ c ∈ cs, c.cd.covers p = false)) := by
  have hasks := getContAtOffset_asks h hf p
  unfold Asks at hasks
  constructor
  · intro k e hfail
    rw [hfail] at hasks
    dsimp only at hasks
    rw [shows_iff]
    unfold EndsIn at hasks
    cases herr : searchErr w.env.junkNull none k e with
    | error s =>
      rw [herr] at hasks
      obtain ⟨w', hr⟩ := hasks
      refine ⟨fun hseen => ?_, nofun⟩
      obtain ⟨e', w'', hr', -⟩ := hseen.search
      cases hr.symm.trans hr'
    | ok e' =>
      rw [herr] at hasks
      obtain ⟨w', hr, hu⟩ := hasks
      constructor
      · intro hseen
        obtain ⟨e'', w'', hr', hne⟩ := hseen.search
        cases hr.symm.trans hr'
        exact ⟨e', rfl, hne⟩
      · rintro ⟨e'', heq, hne⟩
        cases heq
        exact errorSeen_of_ne hr hne hu.disk
  · intro hworks
    rw [hworks] at hasks
    obtain ⟨r, w', hr, -, rfl⟩ := hasks
    refine ⟨_, w', hr, ?_⟩
    unfold searched
    cases hfind : cs.find? (·.cd.covers p) with
    | none => simpa using hfind
    | some c =>
      refine ⟨nofun, fun hnone => ?_⟩
      have := List.find?_some hfind
      rw [hnone c (List.mem_of_find?_eq_some hfind)] at this
      cases this

end Search

/-! ### A file of two segments -/

theorem Traced.scripted {w : World} {d : Dentry} {vn : Vnode} {cs : List Continuation} (h : Traced w d vn cs)
    (script : List Outcome) : Traced (w.scripted script) d vn cs where
  vnode := h.vnode
  live := h.live
  first := h.first
  elem c hc := ⟨(h.elem c hc).eq_loaded, (h.elem c hc).pool, (h.elem c hc).data, (h.elem c hc).readable⟩
  links := h.links.imp fun _ _ hab => ⟨hab.not_head, hab.not_zero, hab.chunk, hab.path⟩
  last := h.last

/-- The calls before the `k`-th work, and that one fails. --/
def failsAt (k : Nat) (e : Errno) : List Outcome := List.replicate k .works ++ [.fails e]

/-- The file opened for reading and writing. --/
def linkedFile : File := ⟨firstDentry, 0, 2⟩

/-- The second segment cannot be allocated. --/
theorem error_seen_twoLinked : ErrorSeen ((twoLinked 0).scripted (failsAt 7 .enomem)) linkedFile 50000 := by
  have htraced : Traced ((twoLinked 0).scripted (failsAt 7 .enomem)) linkedFile.dentry twoLinkedVnode (twoChain 0) :=
    (twoLinked_traced (Or.inl rfl)).scripted _
  refine ((error_seen_iff htraced (by decide) 50000).1 7 .enomem (by decide)).mpr ?_
  exact ⟨by decide, Or.inl rfl⟩

/-- The path of the second segment cannot be looked up: a read in it finds the end of the file. --/
theorem error_not_seen_twoLinked : ∃ r w',
    read linkedFile 100 50000 ((twoLinked 0).scripted (failsAt 6 .eio)) = .ok r w' ∧ r.ret = 0 ∧
      ¬ErrorSeen ((twoLinked 0).scripted (failsAt 6 .eio)) linkedFile 50000 := by
  have htraced : Traced ((twoLinked 0).scripted (failsAt 6 .eio)) linkedFile.dentry twoLinkedVnode (twoChain 0) :=
    (twoLinked_traced (Or.inl rfl)).scripted _
  have hstop : firstStop (searchCost 50000 none (twoChain 0)) ((twoLinked 0).scripted (failsAt 6 .eio)).env.script =
      some (6, some .eio) := by decide
  have hasks := getContAtOffset_asks htraced (by decide) 50000
  unfold Asks at hasks
  rw [hstop] at hasks
  obtain ⟨w', hr, -⟩ := hasks
  have hread := read_of_error hr 100
  refine ⟨_, w', hread, rfl, fun hseen => ?_⟩
  obtain ⟨r, w'', hr', hneg⟩ := hseen.read 100
  cases hread.symm.trans hr'
  exact absurd hneg (by decide)

end Chunkfs
