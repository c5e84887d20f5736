import Chunkfs.Theorems.Agree
import Chunkfs.Theorems.Damage
import Chunkfs.Theorems.Transfers

/-! Copying a size up when not every inode of the chain is in memory. `iget_locked` makes an inode that is not cached, and
    `unlock_inode` unlocks it before its file system has filled it in: its size reads as 0 and its attributes cannot be
    read, so the walk by inode number ends there. -/

namespace Chunkfs
open Exec Word

/-- The chain of a file as it lies on disk, whatever is cached. --/
structure ChainStored (w : World) (v : Nat) (cs : List Continuation) : Prop where
  head : ∃ vn c rest, w.vnode v = some vn ∧ cs = c :: rest ∧ vn.client = some c.inode
  elem : ∀ c ∈ cs, OnDisk w c
  links : cs.IsChain fun a b => a.cd.next = b.uino
  last : ∀ c ∈ cs.getLast?, c.cd.next = 0

theorem Linked.chainStored {w : World} {d : Dentry} {cs : List Continuation} (h : Linked w d cs) : ChainStored w d.inode cs where
  head := by
    obtain ⟨vn, hv, hclient, -⟩ := h.head.vnode
    obtain ⟨c, rest, hcs, hc⟩ := h.first
    exact ⟨vn, c, rest, hv, hcs, hc ▸ hclient⟩
  elem := h.elem
  links := h.links.imp fun _ _ hab => hab.next
  last := h.last

/-- The size of a client inode on disk. --/
def World.sizeOnDisk (w : World) (c : ClientIno) : Nat :=
  match w.disk.inode c with
  | none => 0
  | some i => i.size

/-- The sizes of the inodes of a chain, added up. --/
def World.chainSize (w : World) (cs : List Continuation) : Nat := (cs.map fun c => w.sizeOnDisk c.inode).sum

theorem chainSize_nil (w : World) : w.chainSize [] = 0 := rfl

theorem chainSize_cons (w : World) (c : Continuation) (cs : List Continuation) :
    w.chainSize (c :: cs) = w.sizeOnDisk c.inode + w.chainSize cs := by
  simp [World.chainSize]

/-- The client inode is in memory. --/
def World.cached (w : World) (c : Continuation) : Bool := w.icache c.inode = .live

section Steps
variable {w u : World} {c : ClientIno} {v : Nat}

theorem iSize_of_live (h : w.icache c = .live) : w.iSize c = w.sizeOnDisk c := by
  have hi : w.inode? c = w.disk.inode c := by
    unfold World.inode?
    rw [h]
  exact congrArg (fun o : Option ClientInode => match o with | none => 0 | some i => i.size) hi

theorem inode?_of_not_live (h : w.icache c ≠ .live) : w.inode? c = none := by
  unfold World.inode?
  split
  · rename_i hlive
    exact absurd hlive h
  · rfl

theorem iSize_of_not_live (h : w.icache c ≠ .live) : w.iSize c = 0 := by
  unfold World.iSize
  rw [inode?_of_not_live h]

theorem Still.iSize (h : Still w u) (c : ClientIno) : u.iSize c = w.iSize c := by
  unfold World.iSize
  rw [h.inode?]

theorem OnDisk.still {c : Continuation} (h : OnDisk w c) (hs : Still w u) : OnDisk u c :=
  ⟨h.range, hs.pool ▸ h.pool, h.chunk, h.uino, hs.disk ▸ h.data⟩

theorem Still.chainSize (h : Still w u) (cs : List Continuation) : u.chainSize cs = w.chainSize cs := by
  simp only [World.chainSize, World.sizeOnDisk, h.disk]

theorem Still.cached (h : Still w u) : u.cached = w.cached := funext fun _ => decide_eq_decide.mpr h.live_iff

/-- The attributes of an inode that is not in memory cannot be read. --/
theorem getContData_not_live (h : Calm w) (hc : w.icache c ≠ .live) : ∃ u, getContData c w = .ok (.error .enodata) u := by
  obtain ⟨u, hask, hw⟩ := (ask_reads h.honest).calm h
  have hs : Still w u := ask_still.of_ok hask
  have hx : genericGetxattr c .next w = .ok (.error .enodata) u := by
    unfold genericGetxattr
    rw [bind_ok hask]
    dsimp only
    rw [bind_ok (get_apply u), hs.inode?, inode?_of_not_live hc]
    rfl
  have hnext : getSetContData c .next 0 0 w = .ok (.error .enodata) u := by
    unfold getSetContData
    rw [if_pos rfl, bind_ok hx]
    rfl
  exact ⟨u, bind_ok hnext⟩

end Steps

/-! ### The walk -/

section Walk
variable {w w₁ : World} {v : Nat}

/-- What the walk does when it has come to an element: it asks for the inode whatever is cached. --/
def Comes (v : Nat) (prev : Option ClientIno) (c : Continuation) (w : World) : Prop :=
  ∃ u, getNextInode v prev w = .ok (if w.icache c.inode = .bad then .error .eio else .ok (some c.inode)) u

/-- From an inode in memory the walk comes to the next element. --/
theorem comes_next (h : Calm w) {a b : Continuation} (ha : OnDisk w a) (hlive : w.icache a.inode = .live)
    (hb : OnDisk w b) (hab : a.cd.next = b.uino) : Comes v (some a.inode) b w := by
  have hdata : w.contData? a.inode = some a.cd := (contData?_of_live hlive).trans ha.data
  have hnext : a.cd.next = b.inode.uino := hab.trans hb.uino
  refine getNextInode_next_returns h v hdata (hnext ▸ hb.range.uino_ne_zero) ?_ ?_
  · rw [hnext, hb.range.chunkId_uino]
    exact hb.pool
  · rw [hnext, hb.range.chunkId_uino, hb.range.ino_uino]

/-- The loop stops behind an element that is not in memory. --/
theorem totalSize_not_live (h : Calm w) {c : ClientIno} (hc : w.icache c ≠ .live) (fuel : Nat) (total : Int) :
    ∃ u, totalSize (fuel + 1) v (some c) total w = .ok total u := by
  obtain ⟨u, hr⟩ := getContData_not_live h hc
  have hnext : getNextInode v (some c) w = .ok (.error .enodata) u := bind_ok hr
  exact ⟨u, bind_ok hnext⟩

theorem s64_s64 (x : Int) : s64 (s64 x) = s64 x := by
  unfold s64
  omega

theorem s64_add_left (x y : Int) : s64 (s64 x + y) = s64 (x + y) := by
  unfold s64
  omega

/-- An element that is not in memory adds nothing, and the loop stops there. --/
theorem totalSize_gap {prev : Option ClientIno} {c : Continuation} (h : Calm w) (hcomes : Comes v prev c w)
    (hc : w.icache c.inode ≠ .live) (fuel : Nat) {total : Int} (ht : s64 total = total) :
    ∃ u, totalSize (fuel + 2) v prev total w = .ok total u := by
  obtain ⟨u, hstep⟩ := hcomes
  have hs : Still w u := (getNextInode_still v prev).of_ok hstep
  by_cases hbad : w.icache c.inode = .bad
  · rw [if_pos hbad] at hstep
    exact ⟨u, bind_ok hstep⟩
  · rw [if_neg hbad] at hstep
    have hzero : (u.iSize c.inode : Int) = 0 := by
      rw [hs.iSize, iSize_of_not_live hc]
      rfl
    obtain ⟨u', hu'⟩ := totalSize_not_live (v := v) (hs.calm h) (mt hs.live_iff.mp hc) fuel total
    refine ⟨u', ?_⟩
    unfold totalSize
    rw [bind_ok hstep]
    dsimp only
    rw [bind_ok (get_apply u), hzero, Int.add_zero, ht]
    exact hu'

/-- An element in memory counts, and the loop goes on from it. --/
theorem totalSize_counts {prev : Option ClientIno} {c : Continuation} (h : Calm w) (hcomes : Comes v prev c w)
    (hc : w.icache c.inode = .live) : ∃ u, Still w u ∧ Calm u ∧ ∀ fuel total,
      totalSize (fuel + 1) v prev total w = totalSize fuel v (some c.inode) (s64 (total + w.sizeOnDisk c.inode)) u := by
  obtain ⟨u, hstep⟩ := hcomes
  have hs : Still w u := (getNextInode_still v prev).of_ok hstep
  rw [if_neg (by rw [hc]; nofun)] at hstep
  refine ⟨u, hs, hs.calm h, fun fuel total => ?_⟩
  rw [totalSize, bind_ok hstep]
  dsimp only
  rw [bind_ok (get_apply u), hs.iSize, iSize_of_live hc]

/-- The loop adds up the sizes of the elements in memory, as far as they go without a gap. --/
theorem totalSize_comes {c : Continuation} {rest : List Continuation} (helem : ∀ x ∈ c :: rest, OnDisk w x)
    (hlinks : (c :: rest).IsChain fun a b => a.cd.next = b.uino) (hlast : ∀ x ∈ (c :: rest).getLast?, x.cd.next = 0)
    {prev : Option ClientIno} (h : Calm w) (hcomes : Comes v prev c w) {fuel : Nat} (hf : (c :: rest).length < fuel)
    {total : Int} (ht : s64 total = total) :
    ∃ u, totalSize fuel v prev total w = .ok (s64 (total + w.chainSize ((c :: rest).takeWhile w.cached))) u := by
  induction rest generalizing w c prev fuel total with
  | nil =>
    obtain ⟨m, rfl⟩ := Nat.exists_eq_add_of_le' (show 2 ≤ fuel from hf)
    by_cases hlive : w.cached c = true
    · obtain ⟨u, hs, hcalm, hgo⟩ := totalSize_counts h hcomes (of_decide_eq_true hlive)
      have hdata : u.contData? c.inode = some c.cd :=
        (contData?_of_live (hs.live_iff.mpr (of_decide_eq_true hlive))).trans ((helem c List.mem_cons_self).still hs).data
      obtain ⟨u', hend, -⟩ := (getNextInode_end (v := v) hcalm.honest hdata (hlast c rfl)).calm hcalm
      rw [List.takeWhile_cons_of_pos hlive, List.takeWhile_nil, chainSize_cons, chainSize_nil, Nat.add_zero, hgo]
      exact ⟨u', bind_ok hend⟩
    · rw [List.takeWhile_cons_of_neg hlive, chainSize_nil, Int.natCast_zero, Int.add_zero, ht]
      exact totalSize_gap h hcomes (of_decide_eq_false (Bool.eq_false_iff.mpr hlive)) m ht
  | cons b rest ih =>
    obtain ⟨hcb, hrest⟩ := List.isChain_cons_cons.mp hlinks
    obtain ⟨n, rfl, hn⟩ := fuel_succ hf
    by_cases hlive : w.cached c = true
    · obtain ⟨u, hs, hcalm, hgo⟩ := totalSize_counts h hcomes (of_decide_eq_true hlive)
      have helem' : ∀ x ∈ c :: b :: rest, OnDisk u x := fun x hx => (helem x hx).still hs
      have hb := comes_next (v := v) hcalm (helem' c List.mem_cons_self)
        (hs.live_iff.mpr (of_decide_eq_true hlive)) (helem' b (by simp)) hcb
      obtain ⟨u', hu'⟩ := ih (fun x hx => helem' x (List.mem_cons_of_mem c hx)) hrest
        (fun x hx => hlast x (by rw [List.getLast?_cons_cons]; exact hx)) hcalm hb hn
        (s64_s64 (total + w.sizeOnDisk c.inode))
      rw [hs.cached, hs.chainSize, s64_add_left, Int.add_assoc, ← Int.natCast_add, ← chainSize_cons] at hu'
      rw [List.takeWhile_cons_of_pos hlive, hgo]
      exact ⟨u', hu'⟩
    · rw [List.takeWhile_cons_of_neg hlive, chainSize_nil, Int.natCast_zero, Int.add_zero, ht]
      obtain ⟨m, rfl⟩ := Nat.exists_eq_add_of_le' (show 1 ≤ n from Nat.lt_of_lt_of_le (Nat.succ_pos _) hn)
      exact totalSize_gap h hcomes (of_decide_eq_false (Bool.eq_false_iff.mpr hlive)) m ht

end Walk

/-! ### The size that is copied up -/

section Copied
variable {w : World} {v : Nat} {cs : List Continuation}

theorem ChainStored.withAttrs (h : ChainStored w v cs) (attrs : Attrs) : ChainStored (w.withAttrs v attrs) v cs where
  head := by
    obtain ⟨vn, c, rest, hv, hcs, hclient⟩ := h.head
    refine ⟨{ vn with attrs := attrs }, c, rest, ?_, hcs, hclient⟩
    simp only [World.withAttrs, ↓reduceIte, hv, Option.map_some]
  elem c hc :=
    have e := h.elem c hc
    ⟨e.range, e.pool, e.chunk, e.uino, e.data⟩
  links := h.links
  last := h.last

/-- `chunkfs_copy_up_inode` copies the sizes up as far as the chain is cached. --/
theorem copyUpInode_counts (hcalm : Calm w) (h : ChainStored w v cs) (hf : cs.length < w.env.fuel) {client : ClientIno}
    {i : ClientInode} (hi : w.inode? client = some i) : ∃ w' vn', copyUpInode v client w = .ok () w' ∧
      w'.vnode v = some vn' ∧ vn'.size = s64 (w.chainSize (cs.takeWhile w.cached)) := by
  have ha := h.withAttrs i.attrs
  have hcalm' : Calm (w.withAttrs v i.attrs) := hcalm
  obtain ⟨vn, c, rest, hv, rfl, hclient⟩ := ha.head
  obtain ⟨u, hu⟩ := totalSize_comes ha.elem ha.links ha.last hcalm' (getNextInode_head_returns hcalm' hv hclient) hf
    (show s64 0 = 0 from rfl)
  have hs : Still (w.withAttrs v i.attrs) u := (totalSize_still _ v none 0).of_ok hu
  rw [Int.zero_add] at hu
  have huv : u.vnode v = some vn := hs.vnode ▸ hv
  let vn' : Vnode := { vn with size := s64 (w.chainSize ((c :: rest).takeWhile w.cached)) }
  refine ⟨u.setVnode v vn', vn', ?_, World.setVnode_vnode_same .., rfl⟩
  unfold copyUpInode
  rw [bind_ok (get_apply w), hi]
  exact (bind_ok hu).trans (modifyVnode_apply _ huv)

/-- `chunkfs_copy_up_inode` sets the size to the sum over the whole chain. --/
def CopiesSize (w : World) (v : Nat) (client : ClientIno) (cs : List Continuation) : Prop :=
  ∃ w' vn', copyUpInode v client w = .ok () w' ∧ w'.vnode v = some vn' ∧ vn'.size = w.chainSize cs

theorem copiesSize_iff_sum (hcalm : Calm w) (h : ChainStored w v cs) (hf : cs.length < w.env.fuel) {client : ClientIno}
    {i : ClientInode} (hi : w.inode? client = some i) :
    CopiesSize w v client cs ↔ s64 (w.chainSize (cs.takeWhile w.cached)) = w.chainSize cs := by
  obtain ⟨w', vn', hr, hv, hsize⟩ := copyUpInode_counts hcalm h hf hi
  constructor
  · rintro ⟨w'', vn'', hr', hv', hsize'⟩
    rw [hr] at hr'
    cases hr'
    rw [hv] at hv'
    cases hv'
    exact hsize.symm.trans hsize'
  · intro hsum
    exact ⟨w', vn', hr, hv, hsize.trans hsum⟩

theorem chainSize_append (w : World) (cs ds : List Continuation) : w.chainSize (cs ++ ds) = w.chainSize cs + w.chainSize ds := by
  simp [World.chainSize]

theorem chainSize_eq_zero : w.chainSize cs = 0 ↔ ∀ c ∈ cs, w.sizeOnDisk c.inode = 0 := by
  unfold World.chainSize
  rw [List.sum_eq_zero_iff_forall_eq_nat]
  simp

/-- The sum over the cached part is the sum over the chain if it does not wrap and nothing is left out. --/
theorem sum_cached_iff (w : World) (cs : List Continuation) : s64 (w.chainSize (cs.takeWhile w.cached)) = w.chainSize cs ↔
    w.chainSize cs < 2 ^ 63 ∧ ∀ c ∈ cs.dropWhile w.cached, w.sizeOnDisk c.inode = 0 := by
  have hsplit : w.chainSize cs = w.chainSize (cs.takeWhile w.cached) + w.chainSize (cs.dropWhile w.cached) := by
    rw [← chainSize_append, List.takeWhile_append_dropWhile]
  rw [← chainSize_eq_zero, hsplit]
  unfold s64
  omega

/-- Whatever is cached, the size copied up is the sum over the chain if and only if that is a `loff_t` and every inode
    from the first one that is not cached on is empty. --/
theorem size_copied_iff (hcalm : Calm w) (h : ChainStored w v cs) (hf : cs.length < w.env.fuel) {client : ClientIno}
    {i : ClientInode} (hi : w.inode? client = some i) : CopiesSize w v client cs ↔
      w.chainSize cs < 2 ^ 63 ∧ ∀ c ∈ cs.dropWhile w.cached, w.sizeOnDisk c.inode = 0 :=
  (copiesSize_iff_sum hcalm h hf hi).trans (sum_cached_iff w cs)

end Copied

/-! ### Two inodes -/

/-- The file of two inodes, of `m` and `n` bytes. --/
def sizedPair (m n : Nat) (cache : ClientIno → Cached) : World :=
  { twoLinked 0 with
    disk := ((twoLinked 0).disk.modify firstIno ({ · with size := m })).modify secondIno ({ · with size := n })
    icache := cache }

def sizedChain : List Continuation :=
  [⟨firstIno, ⟨secondIno.uino, 0, 0, segLen⟩, 1, firstIno.uino⟩,
    ⟨secondIno, ⟨0, firstIno.uino, segLen, segLen⟩, 2, secondIno.uino⟩]

/-- Only the first inode is in memory. --/
def onlyFirst : ClientIno → Cached := fun c => if c = firstIno then .live else .absent

section SizedPair
variable (m n : Nat) (cache : ClientIno → Cached)

theorem sizedPair_first :
    (sizedPair m n cache).disk.contData? firstIno = some ⟨secondIno.uino, 0, 0, segLen⟩ := by
  have hfirst : (twoLinked 0).disk.contData? firstIno = some ⟨secondIno.uino, 0, 0, segLen⟩ := twoLinked_first
  obtain ⟨i, hi, hcd⟩ := Disk.inode_of_contData? hfirst
  unfold sizedPair
  rw [Disk.contData?_modify_of_ne (by decide), Disk.contData?_modify_same hi]
  exact (ClientInode.contData?_of_xattr rfl).trans hcd

theorem sizedPair_second :
    (sizedPair m n cache).disk.contData? secondIno = some ⟨0, firstIno.uino, segLen, segLen⟩ := by
  have hsecond : (twoLinked 0).disk.contData? secondIno = some ⟨0, firstIno.uino, segLen, segLen⟩ :=
    twoLinked_second (by decide)
  obtain ⟨i, hi, hcd⟩ := Disk.inode_of_contData? hsecond
  have hi' := (Disk.inode_modify_of_ne (f := ({ · with size := m })) (show secondIno ≠ firstIno by decide)).trans hi
  unfold sizedPair
  rw [Disk.contData?_modify_same hi']
  exact (ClientInode.contData?_of_xattr rfl).trans hcd

theorem sizedPair_stored : ChainStored (sizedPair m n cache) 1 sizedChain where
  head := ⟨twoLinkedVnode, _, _, (twoLinked_vnode 0).1, rfl, rfl⟩
  elem c hc := by
    have hpool : (sizedPair m n cache).pool = [1, 2] := rfl
    rcases List.mem_pair.mp hc with rfl | rfl
    · exact ⟨firstIno_inRange, hpool ▸ (by decide), rfl, rfl, sizedPair_first m n cache⟩
    · exact ⟨secondIno_inRange, hpool ▸ (by decide), rfl, rfl, sizedPair_second m n cache⟩
  links := List.isChain_pair.mpr rfl
  last c hc := by
    cases hc
    rfl

theorem sizedPair_calm : Calm (sizedPair m n cache) := rfl

/-- The first inode is in memory if it is cached. --/
theorem sizedPair_inode? (h : cache firstIno = .live) : ∃ i, (sizedPair m n cache).inode? firstIno = some i := by
  have hi : (sizedPair m n cache).inode? firstIno = (sizedPair m n cache).disk.inode firstIno := by
    unfold World.inode?
    rw [show (sizedPair m n cache).icache firstIno = .live from h]
  exact ⟨_, hi.trans rfl⟩

end SizedPair

theorem size_copied_onlyFirst : CopiesSize (sizedPair 40960 0 onlyFirst) 1 firstIno sizedChain := by
  obtain ⟨i, hi⟩ := sizedPair_inode? 40960 0 onlyFirst rfl
  refine (size_copied_iff (sizedPair_calm ..) (sizedPair_stored ..) (by decide) hi).mpr ⟨by decide, fun c hc => ?_⟩
  obtain rfl := List.mem_singleton.mp (show c ∈ [_] from hc)
  rfl

/-- The bytes of the second inode count only if it is cached. --/
theorem size_depends_on_cache : CopiesSize (sizedPair 40960 5 fun _ => .live) 1 firstIno sizedChain ∧
    ¬CopiesSize (sizedPair 40960 5 onlyFirst) 1 firstIno sizedChain := by
  obtain ⟨i, hi⟩ := sizedPair_inode? 40960 5 (fun _ => .live) rfl
  obtain ⟨i', hi'⟩ := sizedPair_inode? 40960 5 onlyFirst rfl
  rw [copiesSize_iff_sum (sizedPair_calm ..) (sizedPair_stored ..) (by decide) hi,
    copiesSize_iff_sum (sizedPair_calm ..) (sizedPair_stored ..) (by decide) hi']
  decide

end Chunkfs
