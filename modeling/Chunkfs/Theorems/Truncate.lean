import Chunkfs.Theorems.Contents
import Chunkfs.Theorems.Search

/-! The bytes of a file of segments of any lengths, and what `chunkfs_setattr` makes of them when it is given a size:
    it resizes the head client inode only, so it resizes the file where all the others are empty. -/

namespace Chunkfs
open Exec Word Tiles

/-! ### The bytes of a file -/

/-- The byte of the file at an offset: in the segment that owns the offset, below the size of its client inode. --/
def fileByte (w : World) (cs : List Continuation) (p : Nat) : Option UInt8 :=
  match cs.find? (fun c => c.cd.start ≤ p ∧ p < c.cd.start + c.cd.len) with
  | none => none
  | some c =>
    match w.disk.inode c.inode with
    | none => none
    | some i => if p - c.cd.start < i.size then some (i.byte (p - c.cd.start)) else none

section Bytes
variable {w w' : World} {d : Dentry} {cs : List Continuation} {c : Continuation} {i : ClientInode} {total p : Nat}
  {file : File}

theorem Continuation.Owns.offset (h : c.Owns p) : c.cd.start ≤ p ∧ p < c.cd.start + c.cd.len := by
  unfold Owns at h
  omega

theorem Segmented.fileByte_owner (hs : Segmented cs total) (hc : c ∈ cs) (hown : c.Owns p)
    (hi : w.disk.inode c.inode = some i) :
    fileByte w cs p = if p - c.cd.start < i.size then some (i.byte (p - c.cd.start)) else none := by
  have hfind : cs.find? (fun c => c.cd.start ≤ p ∧ p < c.cd.start + c.cd.len) = some c :=
    Tiled.find?_owner hs (fun y _ => decide_eq_true_iff) hc hown.offset
  unfold fileByte
  rw [hfind]
  dsimp only
  rw [hi]

theorem Segmented.fileByte_outside (hs : Segmented cs total) (hp : total ≤ p) : fileByte w cs p = none := by
  have hfind : cs.find? (fun c => c.cd.start ≤ p ∧ p < c.cd.start + c.cd.len) = none := by
    refine List.find?_eq_none.mpr fun c hc hown => ?_
    have hend := (hs.bounds.2 c hc).2
    have := of_decide_eq_true hown
    omega
  unfold fileByte
  rw [hfind]

theorem Segmented.exists_owner (hs : Segmented cs total) (hp : p < total) : ∃ c ∈ cs, c.Owns p := by
  obtain ⟨c, hc, hown⟩ := Tiled.exists_owner hs (Nat.zero_le p) hp
  exact ⟨c, hc, (Segmented.owns_iff p).mpr hown⟩

/-- Where a file has no byte, a read gives none. --/
theorem read_nothing (h : Chain w d cs) (hs : Segmented cs total) (ht : total ≤ 2 ^ 63) (hc : Calm w)
    (hf : cs.length < w.env.fuel) (hfile : file.dentry = d) (hp : p < 2 ^ 63) (hb : fileByte w cs p = none) (len : Nat) :
    ∃ r w', read file len p w = .ok r w' ∧ r.ret = 0 ∧ r.buf = [] := by
  obtain ⟨vn, hv, -⟩ := h.head.vnode
  rcases hs.find_cases ht (show -(2 ^ 63) ≤ (p : Int) by omega) (by omega) with ⟨-, -, c, hmem, hown, hfind⟩ | ⟨-, -, hfind⟩
  · obtain ⟨i, hi, -⟩ := (h.elem c hmem).allocated
    have hpast : ¬p - c.cd.start < i.size := by
      intro hin
      rw [hs.fileByte_owner hmem hown hi, if_pos hin] at hb
      cases hb
    have hempty : i.readData ((p : Int) - c.cd.start).toNat (w.env.transfer len) = [] := by
      have hpos : ((p : Int) - c.cd.start).toNat = p - c.cd.start := Int.toNat_sub p c.cd.start
      have hzero : i.size - (p - c.cd.start) = 0 := Nat.sub_eq_zero_of_le (Nat.not_lt.mp hpast)
      unfold ClientInode.readData
      rw [hpos, hzero, Nat.min_zero]
      rfl
    obtain ⟨w', hr, -⟩ := read_found h hc hf hv hfile (Int.natCast_nonneg p) (by omega) hfind hi hempty.symm (by decide)
    exact ⟨_, w', hr, rfl, rfl⟩
  · obtain ⟨w', hr, -⟩ := read_past h.walkable hc hf hfile hfind len
    exact ⟨_, w', hr, rfl, rfl⟩

/-- Where a file has a byte, a read of one byte gives it, unless the client gives none. --/
theorem read_byte (h : Chain w d cs) (hs : Segmented cs total) (ht : total ≤ 2 ^ 63) (hc : Calm w)
    (hf : cs.length < w.env.fuel) (hfile : file.dentry = d) (hlimit : w.env.limit ≠ some 0) {b : UInt8}
    (hb : fileByte w cs p = some b) : ∃ r w', read file 1 p w = .ok r w' ∧ r.ret = 1 ∧ r.buf = [b] := by
  obtain ⟨vn, hv, -⟩ := h.head.vnode
  have hin : p < total := by
    by_contra hout
    rw [hs.fileByte_outside (Nat.not_lt.mp hout)] at hb
    cases hb
  obtain ⟨c, hmem, hown⟩ := hs.exists_owner hin
  obtain ⟨i, hi, -⟩ := (h.elem c hmem).allocated
  rw [hs.fileByte_owner hmem hown hi, Option.ite_none_right_eq_some, Option.some.injEq] at hb
  obtain ⟨hlt, hbyte⟩ := hb
  have htransfer : w.env.transfer 1 = 1 := by
    unfold Env.transfer
    cases hl : w.env.limit with
    | none => rfl
    | some most =>
      have : most ≠ 0 := fun hz => hlimit (hz ▸ hl)
      dsimp only
      omega
  have hdata : i.readData ((p : Int) - c.cd.start).toNat (w.env.transfer 1) = [b] := by
    have hpos : ((p : Int) - c.cd.start).toNat = p - c.cd.start := Int.toNat_sub p c.cd.start
    have hone : min 1 (i.size - (p - c.cd.start)) = 1 := by omega
    unfold ClientInode.readData
    rw [hpos, htransfer, hone]
    simp [hbyte]
  obtain ⟨w', hr, -⟩ := read_found h hc hf hv hfile (Int.natCast_nonneg p) (by omega)
    (hs.find_owner (by omega) (by omega) hmem hown) hi hdata.symm (by simp)
  exact ⟨_, w', hr, rfl, rfl⟩

end Bytes

/-! ### `chunkfs_setattr` -/

@[simp] theorem ClientInode.contData?_setattr (i : ClientInode) (attr : Iattr) (now : Nat) :
    (i.setattr attr now).contData? = i.contData? := by
  unfold setattr
  cases attr.size <;> rfl

theorem ClientInode.setattr_resizes {attr : Iattr} {size : Nat} (h : attr.size = some size) (i : ClientInode) (now : Nat) :
    (i.setattr attr now).size = size ∧ (i.setattr attr now).byte = fun k => if k < i.size then i.byte k else 0 := by
  unfold setattr
  rw [h]
  exact ⟨rfl, rfl⟩

/-- The world after a client has changed one of its inodes. --/
def World.changed (w : World) (c : ClientIno) (attr : Iattr) : World :=
  w.setDisk (w.disk.modify c fun i => i.setattr attr w.env.now)

/-- The chunkfs inode shows the size, below it a read gives the byte that was there, and from it on none. --/
structure Truncated (w w' : World) (file : File) (cs : List Continuation) (size : Nat) : Prop where
  shown : ∃ vn, w'.vnode file.dentry.inode = some vn ∧ vn.size = size
  kept : ∀ vn, w.vnode file.dentry.inode = some vn → ∀ p : Nat, (p : Int) < min (size : Int) vn.size →
    ∀ b, fileByte w cs p = some b → ∃ r w'', read file 1 p w' = .ok r w'' ∧ r.ret = 1 ∧ r.buf = [b]
  cut : ∀ p : Nat, size ≤ p → p < 2 ^ 63 → ∀ len, ∃ r w'', read file len p w' = .ok r w'' ∧ r.ret = 0

section Setattr
variable {w w' : World} {d : Dentry} {head c : Continuation} {rest cs : List Continuation} {i : ClientInode}
  {vn : Vnode} {attr : Iattr} {total size p : Nat} {file : File}

theorem Kept.changed (w : World) (c : ClientIno) (attr : Iattr) : Kept w (w.changed c attr) :=
  .modify w c fun i => ClientInode.contData?_setattr i attr w.env.now

theorem setattr_calm (h : Chain w d cs) (hc : Calm w) (hf : cs.length < w.env.fuel) (hv : w.vnode d.inode = some vn)
    (attr : Iattr) : ∃ w' i, setattr true d attr w = .ok (.ok ()) w' ∧
      Warm ((w.changed d.client attr).copiedUp d vn i cs) w' := by
  obtain ⟨vn', hv', hclient, -⟩ := h.head.vnode
  rw [hv] at hv'
  cases hv'
  obtain ⟨x, rest, rfl, hx⟩ := h.first
  obtain ⟨i, hi, -⟩ := (h.elem x List.mem_cons_self).allocated
  rw [hx] at hi
  have hi' : w.inode? d.client = some i := inode?_of_live h.head.live hi
  have hclientSet : clientSetattr d.client attr w = .ok none (w.changed d.client attr) := by
    unfold clientSetattr
    rw [bind_ok (ask_calm hc)]
    simp only [bind_ok (get_apply w), hi']
    rfl
  have hc₁ : Calm (w.changed d.client attr) := hc
  obtain ⟨w', hr, hw⟩ := copyUpInode_calm (h.kept (.changed w d.client attr)) hc₁ hf hv
    (World.inode?_setDisk_modify (fun i => i.setattr attr w.env.now) hi')
  refine ⟨w', _, ?_, hw⟩
  have hvnode : vnodeAt d.inode w = .ok vn w := by
    unfold vnodeAt
    rw [bind_ok (get_apply w), hv]
    rfl
  unfold setattr
  rw [bind_ok hvnode, hclient]
  exact (congrFun (if_pos rfl) w).trans ((bind_ok hclientSet).trans (bind_ok hr))

theorem iSize_changed_of_ne (h : c.inode ≠ d.client) : (w.changed d.client attr).iSize c.inode = w.iSize c.inode := by
  simp only [World.iSize, World.inode?, World.changed, World.setDisk]
  rw [Disk.inode_modify_of_ne h]

theorem s64_s64_add (x y : Int) : s64 (s64 x + y) = s64 (x + y) := by
  unfold s64
  omega

/-- The sizes are added up modulo `2 ^ 64`. --/
theorem sumSizes_eq_s64 (w : World) : ∀ (l : List ClientIno) (t : Int), s64 t = t →
    sumSizes w l t = s64 (t + (l.map w.iSize).sum)
  | [], t, ht => by
    simp [sumSizes, ht]
  | c :: l, t, ht => by
    have hidem : s64 (s64 (t + w.iSize c)) = s64 (t + w.iSize c) := by
      have := s64_s64_add (t + w.iSize c) 0
      rwa [Int.add_zero, Int.add_zero] at this
    rw [sumSizes_cons, sumSizes_eq_s64 w l _ hidem, s64_s64_add, List.map_cons, List.sum_cons]
    congr 1
    omega

/-- After the change the head has the new size and the bytes below both sizes; the other inodes are as before. --/
theorem fileByte_changed (hs : Segmented (head :: rest) total) (hnodup : ((head :: rest).map (·.inode)).Nodup)
    (hhead : head.inode = d.client) (hi : w.disk.inode d.client = some i) (hsize : attr.size = some size) (p : Nat) :
    (head.Owns p → fileByte (w.changed d.client attr) (head :: rest) p =
      if p < size then some (if p < i.size then i.byte p else 0) else none) ∧
    (∀ c ∈ rest, c.Owns p → fileByte (w.changed d.client attr) (head :: rest) p = fileByte w (head :: rest) p) := by
  have hstart : head.cd.start = 0 := hs.1
  constructor
  · intro hown
    have hi' : (w.changed d.client attr).disk.inode head.inode = some (i.setattr attr w.env.now) := by
      rw [hhead]
      simp [World.changed, World.setDisk, hi]
    obtain ⟨hnew, hbyte⟩ := i.setattr_resizes hsize w.env.now
    rw [hs.fileByte_owner List.mem_cons_self hown hi', hstart, Nat.sub_zero, hnew, hbyte]
  · intro c hc hown
    have hne : c.inode ≠ d.client := by
      rw [List.map_cons, List.nodup_cons] at hnodup
      exact fun heq => hnodup.1 (hhead ▸ heq ▸ List.mem_map_of_mem hc)
    have hinode : (w.changed d.client attr).disk.inode c.inode = w.disk.inode c.inode := Disk.inode_modify_of_ne hne
    have hfind : (head :: rest).find? (fun c => c.cd.start ≤ p ∧ p < c.cd.start + c.cd.len) = some c :=
      Tiled.find?_owner hs (fun y _ => decide_eq_true_iff) (List.mem_cons_of_mem _ hc) hown.offset
    unfold fileByte
    rw [hfind]
    dsimp only
    rw [hinode]

theorem Warm.fileByte (hw : Warm w w') (cs : List Continuation) (p : Nat) : fileByte w' cs p = fileByte w cs p := by
  unfold Chunkfs.fileByte
  rw [hw.disk]

/-- The size shown is the sum of the new size and the sizes of the other segments. --/
theorem sumSizes_changed (h : Chain w d (head :: rest)) (hsize : attr.size = some size) (hlt : size < 2 ^ 63) :
    sumSizes (w.changed d.client attr) ((head :: rest).map (·.inode)) 0 =
      s64 (size + (rest.map fun c => w.iSize c.inode).sum) := by
  obtain ⟨x, l, hx, hhead⟩ := h.first
  cases hx
  obtain ⟨i, hi, -⟩ := (h.elem head List.mem_cons_self).allocated
  have hnodup := h.nodup
  rw [List.map_cons, List.nodup_cons] at hnodup
  rw [hhead] at hi
  have hfirst : (w.changed d.client attr).iSize head.inode = size := by
    rw [hhead, World.iSize_of_live (show (w.changed d.client attr).icache d.client = .live from h.head.live)
      (show (w.changed d.client attr).disk.inode d.client = some (i.setattr attr w.env.now) by
        simp [World.changed, World.setDisk, hi])]
    exact (i.setattr_resizes hsize w.env.now).1
  have hrest : (rest.map (·.inode)).map (w.changed d.client attr).iSize = rest.map fun c => w.iSize c.inode := by
    rw [List.map_map]
    refine List.map_congr_left fun c hc => iSize_changed_of_ne fun heq => hnodup.1 ?_
    exact hhead ▸ heq ▸ List.mem_map_of_mem hc
  have hs : s64 (size : Int) = size := s64_of_mem (by omega) (by omega)
  rw [List.map_cons, sumSizes_cons, hfirst, Int.zero_add, hs, sumSizes_eq_s64 _ _ _ hs, hrest]

/-- Given a size, `chunkfs_setattr` truncates the file if and only if all its segments but the first are empty. --/
theorem truncated_iff (h : Chain w file.dentry cs) (hs : Segmented cs total) (ht : total ≤ 2 ^ 63) (hc : Calm w)
    (hf : cs.length < w.env.fuel) (hlimit : w.env.limit ≠ some 0) (hsum : (cs.map fun c => w.iSize c.inode).sum < 2 ^ 63)
    (hsize : attr.size = some size) (hlt : size < 2 ^ 63) (hrun : setattr true file.dentry attr w = .ok (.ok ()) w') :
    Truncated w w' file cs size ↔ ∀ c ∈ cs.tail, w.iSize c.inode = 0 := by
  obtain ⟨vn, hv, -⟩ := h.head.vnode
  obtain ⟨w'', i', hr, hw⟩ := setattr_calm h hc hf hv attr
  rw [hrun] at hr
  cases hr
  obtain ⟨head, rest, rfl, hhead⟩ := h.first
  obtain ⟨i, hi, -⟩ := (h.elem head List.mem_cons_self).allocated
  rw [hhead] at hi
  have hv₁ : (w.changed file.dentry.client attr).vnode file.dentry.inode = some vn := hv
  have hk : Kept w ((w.changed file.dentry.client attr).copiedUp file.dentry vn i' (head :: rest)) :=
    (Kept.changed w file.dentry.client attr).trans (.copiedUp hv₁ i')
  have hchain := (h.kept hk).warm hw
  have hcalm : Calm w' := Calm.warm (w := (w.changed file.dentry.client attr).copiedUp file.dentry vn i' (head :: rest))
    hc hw
  have henv : w'.env = w.env := Calm.env_eq
    (w := (w.changed file.dentry.client attr).copiedUp file.dentry vn i' (head :: rest)) hc hw
  have hbyte : ∀ p, fileByte w' (head :: rest) p = fileByte (w.changed file.dentry.client attr) (head :: rest) p :=
    fun p => hw.fileByte _ p
  have hvn : w'.vnode file.dentry.inode = some { vn with
      attrs := i'.attrs, size := sumSizes (w.changed file.dentry.client attr) ((head :: rest).map (·.inode)) 0 } := by
    rw [hw.vnode]
    exact World.setVnode_vnode_same _ _ _
  rw [sumSizes_changed h hsize hlt] at hvn
  rw [List.map_cons, List.sum_cons] at hsum
  constructor
  · -- The size shown leaves nothing for the other segments.
    intro htr c hmem
    obtain ⟨vn', hvn', hshown⟩ := htr.shown
    rw [hvn] at hvn'
    cases hvn'
    have hshown : s64 (size + (rest.map fun c => w.iSize c.inode).sum) = size := hshown
    have hzero : (rest.map fun c => w.iSize c.inode).sum = 0 := by
      unfold s64 at hshown
      omega
    exact List.sum_eq_zero_iff_forall_eq_nat.mp hzero _ (List.mem_map_of_mem hmem)
  · intro hempty
    have hnone : ∀ c ∈ rest, ∀ p : Nat, c.Owns p → fileByte w (head :: rest) p = none := by
      intro c hmem p hown
      obtain ⟨x, hx, -⟩ := (h.elem c (List.mem_cons_of_mem _ hmem)).allocated
      have hx0 : x.size = 0 := by
        rw [← World.iSize_of_live (h.live c (List.mem_cons_of_mem _ hmem)) hx]
        exact hempty c hmem
      rw [hs.fileByte_owner (List.mem_cons_of_mem _ hmem) hown hx, hx0]
      rfl
    have hsumzero : (rest.map fun c => w.iSize c.inode).sum = 0 := by
      refine List.sum_eq_zero_iff_forall_eq_nat.mpr fun n hn => ?_
      obtain ⟨c, hmem, rfl⟩ := List.mem_map.mp hn
      exact hempty c hmem
    have hchanged := fileByte_changed hs h.nodup hhead hi hsize
    have hf' : (head :: rest).length < w'.env.fuel := by rw [henv]; exact hf
    refine ⟨⟨_, hvn, ?_⟩, fun vn' _ p hp b hb => ?_, fun p hp hp63 len => ?_⟩
    · show s64 (size + (rest.map fun c => w.iSize c.inode).sum) = size
      rw [hsumzero]
      exact s64_of_mem (by omega) (by omega)
    · refine read_byte hchain hs ht hcalm hf' rfl (by rw [henv]; exact hlimit) ?_
      rw [hbyte]
      have hin : p < total := by
        by_contra hout
        rw [hs.fileByte_outside (Nat.not_lt.mp hout)] at hb
        cases hb
      obtain ⟨c, hmem, hown⟩ := hs.exists_owner hin
      rcases List.mem_cons.mp hmem with rfl | hmem'
      · have hi' : w.disk.inode c.inode = some i := by rw [hhead]; exact hi
        have hstart : c.cd.start = 0 := hs.1
        rw [hs.fileByte_owner hmem hown hi', hstart, Nat.sub_zero, Option.ite_none_right_eq_some,
          Option.some.injEq] at hb
        rw [(hchanged p).1 hown, if_pos (by omega), if_pos hb.1, hb.2]
      · rw [hnone c hmem' p hown] at hb
        cases hb
    · obtain ⟨r, w'', hr, hret, -⟩ := read_nothing hchain hs ht hcalm hf' rfl hp63 (by
        rw [hbyte]
        by_cases hin : p < total
        · obtain ⟨c, hmem, hown⟩ := hs.exists_owner hin
          rcases List.mem_cons.mp hmem with rfl | hmem'
          · rw [(hchanged p).1 hown, if_neg (by omega)]
          · rw [(hchanged p).2 c hmem' hown]
            exact hnone c hmem' p hown
        · exact hs.fileByte_outside (Nat.not_lt.mp hin)) len
      exact ⟨r, w'', hr, hret⟩

end Setattr

/-! ### A file of two segments -/

/-- The two linked inodes with sizes, added up in the chunkfs inode. --/
def twoSized (first second : Nat) : World :=
  { twoLinked 0 with
    disk :=
      { (twoLinked 0).disk with
        inode := fun c => ((twoLinked 0).disk.inode c).map fun i =>
          { i with size := if c = firstIno then first else second } }
    vnode := fun v => ((twoLinked 0).vnode v).map fun vn => { vn with size := (first + second : Nat) } }

/-- The file opened for reading and writing. --/
def twoFile : File := ⟨firstDentry, 0, 2⟩

theorem twoSized_kept (first second : Nat) : Kept (twoLinked 0) (twoSized first second) where
  pool := rfl
  dir := rfl
  path := rfl
  inode c i hi := ⟨{ i with size := if c = firstIno then first else second }, congrArg (Option.map _) hi, rfl⟩
  live _ hc := hc
  vnode v vn hv := ⟨{ vn with size := (first + second : Nat) }, congrArg (Option.map _) hv, rfl, rfl⟩
  vnext := Nat.le_refl _
  fresh hw v hv := by simp [twoSized, hw v hv]
  ialloc hw := hw

theorem twoSized_chain (first second : Nat) : Chain (twoSized first second) firstDentry (twoChain 0) :=
  twoLinked_chain.kept (twoSized_kept first second)

/-- `ATTR_SIZE` alone. --/
def toSize (size : Nat) : Iattr := ⟨none, none, none, some size, none, none, none⟩

theorem truncated_twoSized : ∃ w', setattr true firstDentry (toSize 50) (twoSized 100 0) = .ok (.ok ()) w' ∧
    Truncated (twoSized 100 0) w' twoFile (twoChain 0) 50 := by
  have hchain := twoSized_chain 100 0
  obtain ⟨vn, hv, -⟩ := hchain.head.vnode
  obtain ⟨w', i, hrun, -⟩ := setattr_calm hchain rfl (by decide) hv (toSize 50)
  refine ⟨w', hrun, (truncated_iff (show Chain _ twoFile.dentry _ from hchain) (twoChain_segmented 0) (by decide) rfl (by decide)
    (by decide) (by decide +kernel) rfl (by decide) hrun).mpr ?_⟩
  intro c hc
  cases List.mem_singleton.mp hc
  decide +kernel

/-- A full first segment and some of a second: cut off at 0, the file keeps the second segment's size. --/
theorem not_truncated_twoSized : ∃ w' vn, setattr true firstDentry (toSize 0) (twoSized 40960 9040) = .ok (.ok ()) w' ∧
    w'.vnode firstDentry.inode = some vn ∧ vn.size = 9040 ∧
      ¬Truncated (twoSized 40960 9040) w' twoFile (twoChain 0) 0 := by
  have hchain := twoSized_chain 40960 9040
  obtain ⟨vn, hv, -⟩ := hchain.head.vnode
  obtain ⟨w', i, hrun, hw⟩ := setattr_calm hchain rfl (by decide) hv (toSize 0)
  have hvn := (congrFun hw.vnode firstDentry.inode).trans (World.setVnode_vnode_same _ _ _)
  have hsize : sumSizes ((twoSized 40960 9040).changed firstDentry.client (toSize 0))
      ((twoChain 0).map (·.inode)) 0 = 9040 :=
    (sumSizes_changed hchain (show (toSize 0).size = some 0 from rfl) (by decide)).trans (by decide +kernel)
  refine ⟨w', _, hrun, hvn, hsize, fun htr => ?_⟩
  obtain ⟨vn', hvn', hshown⟩ := htr.shown
  have hvn₁ : w'.vnode firstDentry.inode = some vn' := hvn'
  rw [hvn] at hvn₁
  cases hvn₁
  exact absurd (hsize.symm.trans hshown) (by decide)

end Chunkfs
