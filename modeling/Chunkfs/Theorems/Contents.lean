import Chunkfs.Theorems.Segments

/-! What a file holds. `Holds w d cs f`: segment `i` of the chain `cs` is the piece of the flat file `f` that
    begins at `segLen * i`, and the size of the chunkfs inode is the size of `f`. A write that lies in one segment,
    with the file reaching up to that segment, is a write to `f`; a read is a read of `f` up to the end of the
    segment. -/

namespace Chunkfs
open Exec Word Flat

/-- The data of a client inode. --/
def ClientInode.bytes (i : ClientInode) : Bytes UInt8 := ⟨i.size, i.byte⟩

theorem ClientInode.bytes_writeData (i : ClientInode) (pos : Nat) (data : List UInt8) (now : Nat) :
    (i.writeData pos data now).bytes = i.bytes.write pos data := by
  unfold writeData Bytes.write
  split <;> rfl

theorem ClientInode.bytes_wrote (i : ClientInode) (e : Env) (pos : Nat) (data : List UInt8) :
    (i.wrote e pos data).bytes = i.bytes.write pos data := by
  unfold wrote
  split
  · rename_i hnil
    rw [hnil]
    rfl
  · exact bytes_writeData (i.fileRemoveSuid e) pos data e.now

theorem ClientInode.bytes_setFirst (i : ClientInode) (k : Nat) (cd : ContData) : (i.setFirst k cd).bytes = i.bytes := by
  unfold setFirst
  induction ContAttr.order.take k generalizing i with
  | nil => rfl
  | cons a l ih => exact ih _

theorem ClientInode.size_setFirst (i : ClientInode) (k : Nat) (cd : ContData) : (i.setFirst k cd).size = i.size :=
  congrArg Bytes.size (bytes_setFirst i k cd)

theorem ClientInode.attrs_setFirst (i : ClientInode) (k : Nat) (cd : ContData) : (i.setFirst k cd).attrs = i.attrs := by
  unfold setFirst
  induction ContAttr.order.take k generalizing i with
  | nil => rfl
  | cons a l ih => exact ih _

/-- Segment `i` of the chain is piece `i` of the file. --/
def Pieces (w : World) (cs : List Continuation) (f : Bytes UInt8) : Prop :=
  ∀ i c, cs[i]? = some c → ∃ x, w.disk.inode c.inode = some x ∧ Piece segLen f i x.bytes

structure Holds (w : World) (d : Dentry) (cs : List Continuation) (f : Bytes UInt8) : Prop extends Ready w d cs where
  pieces : Pieces w cs f
  fits : f.size ≤ segLen * cs.length
  size : ∀ vn, w.vnode d.inode = some vn → vn.size = f.size
  whole : w.env.limit = none

/-! ### Sizes -/

theorem sumSizes_eq_sum (w : World) : ∀ (l : List ClientIno) (total : Nat), total + (l.map w.iSize).sum < 2 ^ 63 →
    sumSizes w l total = ((total + (l.map w.iSize).sum : Nat) : Int)
  | [], total, _ => by simp [sumSizes]
  | c :: l, total, h => by
    simp only [List.map_cons, List.sum_cons] at h ⊢
    have hs : s64 ((total : Int) + w.iSize c) = ((total + w.iSize c : Nat) : Int) := by
      rw [s64_of_mem (by omega) (by omega)]
      simp
    rw [sumSizes_cons, hs, sumSizes_eq_sum w l (total + w.iSize c) (by omega), Nat.add_assoc]

section Sizes
variable {w : World} {d : Dentry} {cs : List Continuation} {f : Bytes UInt8}

theorem World.iSize_of_live {c : ClientIno} {i : ClientInode} (hl : w.icache c = .live) (hi : w.disk.inode c = some i) :
    w.iSize c = i.size := by
  simp only [iSize, inode?_of_live hl hi]

theorem World.iSize_wrote_of_ne {c x : ClientIno} (h : x ≠ c) (pos : Nat) (data : List UInt8) :
    (w.wrote c pos data).iSize x = w.iSize x := by
  simp only [iSize, inode?, wrote, setDisk]
  rw [Disk.inode_modify_of_ne h]

theorem World.iSize_wrote {c : ClientIno} {i : ClientInode} (hl : w.icache c = .live) (hi : w.disk.inode c = some i)
    {pos : Nat} {data : List UInt8} (hd : data ≠ []) : (w.wrote c pos data).iSize c = max i.size (pos + data.length) := by
  have hw : (w.wrote c pos data).disk.inode c = some (i.wrote w.env pos data) := by
    simp [wrote, setDisk, hi]
  rw [iSize_of_live (show (w.wrote c pos data).icache c = .live from hl) hw]
  have := congrArg Bytes.size (ClientInode.bytes_wrote i w.env pos data)
  rwa [Bytes.size_write _ hd] at this

/-- The sizes of the segments are those of the pieces. --/
theorem Pieces.sizes (hp : Pieces w cs f) (hlive : ∀ c ∈ cs, w.icache c.inode = .live) :
    (cs.map (·.inode)).map w.iSize = (List.range cs.length).map fun i => min segLen (f.size - segLen * i) := by
  refine List.ext_getElem (by simp) fun i h₁ h₂ => ?_
  simp only [List.length_map] at h₁
  obtain ⟨x, hx, hpiece⟩ := hp i cs[i] (List.getElem?_eq_getElem h₁)
  simp only [List.getElem_map, List.getElem_range]
  rw [World.iSize_of_live (hlive _ (List.getElem_mem h₁)) hx]
  exact hpiece.size

/-- The size copied up is the size of the file. --/
theorem Pieces.sumSizes (hp : Pieces w cs f) (hlive : ∀ c ∈ cs, w.icache c.inode = .live)
    (hfits : f.size ≤ segLen * cs.length) (hlen : cs.length ≤ 15) :
    Chunkfs.sumSizes w (cs.map (·.inode)) 0 = f.size := by
  have hsum : ((cs.map (·.inode)).map w.iSize).sum = f.size := by
    rw [hp.sizes hlive]
    exact sum_pieces segLen f.size cs.length hfits
  have hsmall : f.size < 2 ^ 63 := by
    unfold segLen at hfits
    omega
  have := sumSizes_eq_sum w (cs.map (·.inode)) 0 (by omega)
  rw [hsum, Nat.zero_add] at this
  exact this

end Sizes

/-! ### One write -/

section Write
variable {w u : World} {d : Dentry} {cs init : List Continuation} {f : Bytes UInt8} {t : Continuation} {c : ClientIno}

theorem FileChain.length_le_fifteen (h : FileChain w d cs) : cs.length ≤ 15 := by
  have h₁ := h.length_le
  have h₂ := h.chunk_pos
  omega

theorem Pieces.warm {w' : World} (hp : Pieces w cs f) (hw : Warm w w') : Pieces w' cs f := fun i x hx => by
  rw [hw.disk]
  exact hp i x hx

theorem Holds.warm {w' : World} (h : Holds w d cs f) (hw : Warm w w') : Holds w' d cs f where
  toReady := h.toReady.warm hw
  pieces := h.pieces.warm hw
  fits := h.fits
  size vn hv := h.size vn (by rwa [hw.vnode] at hv)
  whole := by rw [hw.env]; exact h.whole

/-- After copying up, the chunkfs inode has the size of the file again. --/
theorem Holds.of_copiedUp (hr : Ready w d cs) (hp : Pieces w cs f) (hfits : f.size ≤ segLen * cs.length)
    (hwhole : w.env.limit = none) {vn : Vnode} (hv : w.vnode d.inode = some vn) (i : ClientInode) :
    Holds (w.copiedUp d vn i cs) d cs f where
  toReady := hr.copiedUp hv i
  pieces := hp
  fits := hfits
  size vn' hv' := by
    simp only [World.copiedUp, World.setVnode, ↓reduceIte, Option.some.injEq] at hv'
    rw [← hv']
    exact hp.sumSizes hr.live hfits hr.length_le_fifteen
  whole := hwhole

/-- Writing to a segment is writing to the file. --/
theorem Pieces.wrote (hp : Pieces w cs f) (hnodup : (cs.map (·.inode)).Nodup) {q : Nat} {c : Continuation}
    (hq : cs[q]? = some c) {pos : Nat} {data : List UInt8} (hpos : segLen * q ≤ pos)
    (hend : pos + data.length ≤ segLen * q + segLen) (hfull : data ≠ [] → segLen * q ≤ f.size) :
    Pieces (w.wrote c.inode (pos - segLen * q) data) cs (f.write pos data) := by
  intro i x hx
  obtain ⟨y, hy, hpiece⟩ := hp i x hx
  by_cases hi : i = q
  · subst hi
    rw [hq] at hx
    cases hx
    refine ⟨y.wrote w.env (pos - segLen * i) data, ?_, ?_⟩
    · simp [World.wrote, World.setDisk, hy]
    · rw [ClientInode.bytes_wrote]
      exact hpiece.write hpos hend hfull
  · have hne : x.inode ≠ c.inode := fun he => hi (by
      have h₁ : (cs.map (·.inode))[i]? = some x.inode := by simp [hx]
      have h₂ : (cs.map (·.inode))[q]? = some x.inode := by simp [hq, he]
      exact (List.getElem?_inj (List.getElem?_eq_some_iff.mp h₁).1 hnodup).mp (h₁.trans h₂.symm))
    refine ⟨y, ?_, hpiece.write_of_ne hi hpos hend hfull⟩
    simp only [World.wrote, World.setDisk]
    rw [Disk.inode_modify_of_ne hne]
    exact hy

/-- Writing nothing anywhere changes nothing. --/
theorem Pieces.wrote_nil (hp : Pieces w cs f) (c : ClientIno) (pos : Nat) : Pieces (w.wrote c pos []) cs f := by
  rw [World.wrote_nil]
  exact hp

/-- Growing adds an empty segment. --/
theorem Pieces.grown (hp : Pieces w (init ++ [t]) f) (h : Ready w d (init ++ [t]))
    (hfits : f.size ≤ segLen * (init ++ [t]).length) (ho : w.openPath (nextPath t) contMode = .ok (c, u)) :
    Pieces (growStage u t c 4 4) (init ++ [relinked t c, appended t c]) f := by
  obtain ⟨hcan, -, hu⟩ := h.opens_new (by simp) ho
  have hne : c ≠ t.inode := fun he => hcan.outside (by simp [he])
  have hnodup := h.nodup
  rw [List.map_append, List.nodup_append] at hnodup
  intro i x hx
  rcases Nat.lt_trichotomy i init.length with hi | rfl | hi
  · rw [List.getElem?_append_left hi] at hx
    have hmem := List.mem_of_getElem? hx
    obtain ⟨y, hy, hpiece⟩ := hp i x (by rw [List.getElem?_append_left hi]; exact hx)
    have h₁ : x.inode ≠ t.inode := hnodup.2.2 x.inode (List.mem_map_of_mem hmem) t.inode (by simp)
    have h₂ : x.inode ≠ c := fun he => hcan.outside (he ▸ List.mem_map_of_mem (by simp [hmem]))
    refine ⟨y, ?_, hpiece⟩
    show ((u.disk.modify c _).modify t.inode _).inode x.inode = some y
    rw [Disk.inode_modify_of_ne h₁, Disk.inode_modify_of_ne h₂]
    exact openPath_inode ho hy
  · simp only [Nat.le_refl, List.getElem?_append_right, Nat.sub_self, List.getElem?_cons_zero, Option.some.injEq] at hx
    subst hx
    obtain ⟨y, hy, hpiece⟩ := hp init.length t (by simp)
    refine ⟨y.setFirst 4 (tailCd t c), ?_, by rw [ClientInode.bytes_setFirst]; exact hpiece⟩
    show ((u.disk.modify c _).modify t.inode _).inode t.inode = _
    rw [Disk.inode_modify_same, Disk.inode_modify_of_ne hne.symm, openPath_inode ho hy]
    rfl
  · rw [List.getElem?_append_right (by omega)] at hx
    obtain ⟨rfl, rfl⟩ : i = init.length + 1 ∧ x = appended t c := by
      have hlt := (List.getElem?_eq_some_iff.mp hx).1
      simp only [List.length_cons, List.length_nil] at hlt
      have hi' : i = init.length + 1 := by omega
      subst hi'
      simp at hx
      exact ⟨rfl, hx.symm⟩
    have hnew : u.disk.inode c = some (w.env.newInode (w.env.fileMode contMode) 0) := by
      rw [hu]
      simp [World.withFile, Disk.setPath, Disk.insert]
    refine ⟨_, inode_growStage hne hnew, ?_⟩
    rw [ClientInode.bytes_setFirst]
    refine Piece.of_size_zero rfl ?_
    simpa using hfits

theorem Holds.stored (h : Holds w d cs f) (data : List UInt8) : data = data.take (w.env.transfer data.length) := by
  simp [Env.transfer, h.whole]

/-- A write inside the chain. --/
theorem Holds.write_in (h : Holds w d cs f) {file : File} (hfile : file.dentry = d)
    (hflags : file.flags &&& oAppend = 0) {p q : Nat} {data : List UInt8} {c : Continuation} (hq : cs[q]? = some c)
    (hpq : p / segLen = q) (hone : p + data.length ≤ segLen * q + segLen) (hfull : data ≠ [] → segLen * q ≤ f.size) :
    ∃ r w', write file data p w = .ok r w' ∧ r.ret = data.length ∧ r.file = { file with pos := p } ∧
      w'.pool = w.pool ∧ Holds w' d cs (f.write p data) := by
  obtain ⟨vn, hv⟩ := h.vnode
  obtain ⟨i, hi, -⟩ := h.pieces q c hq
  have hqlt := (List.getElem?_eq_some_iff.mp hq).1
  have hlen := h.length_le_fifteen
  have hstart := h.start hq
  have hpos : segLen * q ≤ p := by
    rw [← hpq]
    exact Nat.mul_div_le p segLen
  have hsmall : segLen * q + segLen < 2 ^ 62 := by
    unfold segLen
    omega
  have hfind : cs.find? (·.cd.covers p) = some c := by
    rw [h.find_covers (by omega), hpq]
    exact hq
  obtain ⟨w', hr, hw⟩ := write_found h.toChain h.calm (by have := h.length_lt; omega) hv hfile (p := p) (by omega)
    (by omega) hfind hi (h.stored data) (p - segLen * q)
    (by rw [writeStart_of_not_append hflags, hstart]; omega) (by omega)
  refine ⟨_, w', hr, rfl, rfl, hw.pool, Holds.warm ?_ hw⟩
  refine Holds.of_copiedUp (h.toReady.wrote c.inode (p - segLen * q) data)
    (h.pieces.wrote h.nodup hq hpos hone hfull) ?_ h.whole hv _
  by_cases hd : data = []
  · rw [hd, Bytes.write_nil]
    exact h.fits
  · have hsucc := Nat.mul_le_mul_left segLen (Nat.succ_le_of_lt hqlt)
    rw [Nat.mul_succ] at hsucc
    have hf := h.fits
    rw [Bytes.size_write f hd]
    omega

/-- A write behind the chain makes the next segment. --/
theorem Holds.grows (h : Holds w d cs f) {file : File} (hfile : file.dentry = d) {p : Nat} {data : List UInt8}
    (hbehind : cs.length ≤ p / segLen) (hp : p < 2 ^ 63) (hpool : d.client.chunk + cs.length ∈ w.pool)
    (hend : p - segLen * cs.length + data.length < 2 ^ 63) :
    ∃ init t c u vn i r w', cs = init ++ [t] ∧ w.openPath (nextPath t) contMode = .ok (c, u) ∧
      w.vnode d.inode = some vn ∧ Chunkfs.write file data p w = .ok r w' ∧ r.ret = data.length ∧
      r.file = { file with pos := p } ∧
      Warm (((growStage u t c 4 4).wrote c (p - segLen * cs.length) data).copiedUp d vn i
        (init ++ [relinked t c, appended t c])) w' := by
  obtain ⟨vn, hv⟩ := h.vnode
  obtain ⟨t, ht⟩ : ∃ t, cs.getLast? = some t := Option.isSome_iff_exists.mp (by simp [h.ne_nil])
  obtain ⟨init, rfl⟩ : ∃ init, cs = init ++ [t] := ⟨_, (List.dropLast_append_getLast? t ht).symm⟩
  obtain ⟨c, u, ho⟩ := h.openPath_ok ht hpool
  obtain ⟨hcan, -, hu⟩ := h.opens_new ht ho
  have hpos : segLen * (init ++ [t]).length ≤ p :=
    Nat.le_trans (Nat.mul_le_mul_left segLen hbehind) (Nat.mul_div_le p segLen)
  have hfind : (init ++ [t]).find? (·.cd.covers p) = none := by
    rw [h.find_covers hp]
    exact List.getElem?_eq_none hbehind
  have hnew : u.disk.inode c = some (w.env.newInode (w.env.fileMode contMode) 0) := by
    rw [hu]
    simp [World.withFile, Disk.setPath, Disk.insert]
  obtain ⟨w', hr, hw⟩ := write_grows h.toChain h.calm h.length_lt hv hfile hfind ho hcan hnew
    (p - segLen * (init ++ [t]).length) (by rw [(h.last_eq ht).2.2]; omega) (by omega) (h.stored data) hend
  exact ⟨init, t, c, u, vn, _, _, w', rfl, ho, hv, hr, rfl, rfl, hw⟩

/-- A write behind the chain, to the segment the file reaches. --/
theorem Holds.write_behind (h : Holds w d cs f) {file : File} (hfile : file.dentry = d) {p : Nat} {data : List UInt8}
    (hbehind : cs.length ≤ p / segLen) (hp : p < 2 ^ 63) (hpool : d.client.chunk + cs.length ∈ w.pool)
    (hone : data ≠ [] → p + data.length ≤ segLen * cs.length + segLen)
    (hfull : data ≠ [] → segLen * cs.length ≤ f.size) :
    ∃ r w' cs', Chunkfs.write file data p w = .ok r w' ∧ r.ret = data.length ∧ r.file = { file with pos := p } ∧
      w'.pool = w.pool ∧ cs'.length = cs.length + 1 ∧ Holds w' d cs' (f.write p data) := by
  have hlen := h.length_le_fifteen
  have hpos : segLen * cs.length ≤ p :=
    Nat.le_trans (Nat.mul_le_mul_left segLen hbehind) (Nat.mul_div_le p segLen)
  have hend : p - segLen * cs.length + data.length < 2 ^ 63 := by
    by_cases hd : data = []
    · rw [hd, List.length_nil]
      omega
    · have := hone hd
      unfold segLen at *
      omega
  obtain ⟨init, t, c, u, vn, i, r, w', rfl, ho, hv, hr, hret, hrf, hw⟩ := h.grows hfile hbehind hp hpool hend
  have henv : (growStage u t c 4 4).env = w.env := (openPath_env ho).1
  have hready := h.toReady.grown ho
  have hpieces := h.pieces.grown h.toReady h.fits ho
  have hvg : (growStage u t c 4 4).vnode d.inode = some vn := by
    show u.vnode d.inode = some vn
    rw [openPath_vnode ho]
    exact hv
  refine ⟨r, w', init ++ [relinked t c, appended t c], hr, hret, hrf, ?_, by simp, Holds.warm ?_ hw⟩
  · rw [hw.pool]
    exact (openPath_env ho).2
  refine Holds.of_copiedUp (hready.wrote c _ data) ?_ ?_ ((congrArg Env.limit henv).trans h.whole) hvg _
  · by_cases hd : data = []
    · rw [hd, Bytes.write_nil]
      exact hpieces.wrote_nil c _
    · have hq : (init ++ [relinked t c, appended t c])[(init ++ [t]).length]? = some (appended t c) := by simp
      exact hpieces.wrote hready.nodup hq hpos (hone hd) hfull
  · have hf := h.fits
    simp only [List.length_append, List.length_cons, List.length_nil, Nat.zero_add] at hf hone ⊢
    by_cases hd : data = []
    · rw [hd, Bytes.write_nil]
      rw [Nat.mul_add] at hf ⊢
      omega
    · have := hone hd
      rw [Bytes.size_write f hd]
      rw [Nat.mul_add] at hf this ⊢
      omega

/-- After a write behind the chain the size copied up is the old size and what the new segment holds. --/
theorem Holds.size_behind (h : Holds w d cs f) {file : File} (hfile : file.dentry = d) {p : Nat} {data : List UInt8}
    (hbehind : cs.length ≤ p / segLen) (hp : p < 2 ^ 63) (hpool : d.client.chunk + cs.length ∈ w.pool) (hd : data ≠ [])
    (hone : p + data.length ≤ segLen * cs.length + segLen) :
    ∃ r w' vn, Chunkfs.write file data p w = .ok r w' ∧ w'.vnode d.inode = some vn ∧
      vn.size = (f.size + (p - segLen * cs.length + data.length) : Nat) := by
  have hlen := h.length_le_fifteen
  have hf := h.fits
  have hsmall : segLen * cs.length + segLen < 2 ^ 62 := by
    unfold segLen
    omega
  obtain ⟨init, t, c, u, vn, i, r, w', rfl, ho, hv, hr, hret, hrf, hw⟩ := h.grows hfile hbehind hp hpool
    (show p - segLen * cs.length + data.length < 2 ^ 63 by omega)
  have hready := h.toReady.grown ho
  have hpieces := h.pieces.grown h.toReady h.fits ho
  obtain ⟨hcan, -, -⟩ := h.opens_new (by simp) ho
  have hlive : (growStage u t c 4 4).icache c = .live := hcan.live
  -- Before the write the new segment is empty, and the sizes add up to the old size.
  have hsum := sum_pieces segLen f.size (init ++ [relinked t c, appended t c]).length (by
    have : (init ++ [relinked t c, appended t c]).length = (init ++ [t]).length + 1 := by simp
    rw [this, Nat.mul_succ]
    omega)
  rw [← hpieces.sizes hready.live] at hsum
  have hmap : (init ++ [relinked t c, appended t c]).map (·.inode) = (init ++ [t]).map (·.inode) ++ [c] := by
    simp [relinked, appended, loaded]
  obtain ⟨x, hx, hpiece⟩ := hpieces (init ++ [t]).length (appended t c) (by simp)
  have hzero : x.size = 0 := by
    have : x.size = min segLen (f.size - segLen * (init ++ [t]).length) := hpiece.size
    omega
  rw [hmap, List.map_append, List.sum_append, List.map_singleton, List.sum_singleton,
    World.iSize_of_live hlive hx, hzero] at hsum
  -- The write changes the size of the new segment only.
  generalize hstart : p - segLen * (init ++ [t]).length = start at hw ⊢
  have hold : ((init ++ [t]).map (·.inode)).map ((growStage u t c 4 4).wrote c start data).iSize =
      ((init ++ [t]).map (·.inode)).map (growStage u t c 4 4).iSize := List.map_congr_left fun y hy =>
    World.iSize_wrote_of_ne (fun he : y = c => hcan.outside (he ▸ hy)) start data
  have hnew : ((growStage u t c 4 4).wrote c start data).iSize c = start + data.length := by
    rw [World.iSize_wrote hlive hx hd, hzero, Nat.zero_max]
  have htotal : (((init ++ [relinked t c, appended t c]).map (·.inode)).map
      ((growStage u t c 4 4).wrote c start data).iSize).sum = f.size + (start + data.length) := by
    rw [hmap, List.map_append, List.sum_append, List.map_singleton, List.sum_singleton, hold, hnew]
    omega
  have hup := sumSizes_eq_sum ((growStage u t c 4 4).wrote c start data)
    ((init ++ [relinked t c, appended t c]).map (·.inode)) 0 (by rw [htotal]; omega)
  rw [htotal, Nat.zero_add] at hup
  exact ⟨r, w', _, hr, by rw [hw.vnode]; exact if_pos rfl, hup⟩

/-- The number of segments after a write at `p`. --/
def segmentsAfter (n p : Nat) : Nat := if p / segLen < n then n else n + 1

/-- A write that lies in one segment which the file reaches is a write to the flat file. --/
theorem Holds.write (h : Holds w d cs f) {file : File} (hfile : file.dentry = d) (hflags : file.flags &&& oAppend = 0)
    {p : Nat} {data : List UInt8} (hp : p < 2 ^ 63)
    (hone : data ≠ [] → p + data.length ≤ segLen * (p / segLen) + segLen)
    (hfull : data ≠ [] → segLen * (p / segLen) ≤ f.size)
    (hroom : p / segLen < cs.length ∨ d.client.chunk + cs.length ∈ w.pool) :
    ∃ r w' cs', Chunkfs.write file data p w = .ok r w' ∧ r.ret = data.length ∧ r.file = { file with pos := p } ∧
      w'.pool = w.pool ∧ cs'.length = segmentsAfter cs.length p ∧ Holds w' d cs' (f.write p data) := by
  unfold segmentsAfter
  by_cases hq : p / segLen < cs.length
  · have hdiv := Nat.lt_div_mul_add (a := p) (show 0 < segLen by decide)
    have hone' : p + data.length ≤ segLen * (p / segLen) + segLen := by
      by_cases hd : data = []
      · rw [hd, List.length_nil, Nat.mul_comm]
        omega
      · exact hone hd
    obtain ⟨r, w', hr, hret, hf, hpool, hh⟩ := h.write_in hfile hflags (List.getElem?_eq_getElem hq) rfl hone' hfull
    exact ⟨r, w', cs, hr, hret, hf, hpool, by rw [if_pos hq], hh⟩
  · -- The file reaches the segment, so it is the next one, unless there is nothing to write.
    have hlast : data ≠ [] → p / segLen = cs.length := fun hd => by
      have h₁ := hfull hd
      have h₂ := Nat.le_of_mul_le_mul_left (h₁.trans h.fits) (show 0 < segLen by decide)
      omega
    obtain ⟨r, w', cs', hr, hret, hf, hpool, hlen, hh⟩ := h.write_behind hfile (Nat.le_of_not_lt hq) hp
      (hroom.resolve_left hq) (fun hd => by rw [← hlast hd]; exact hone hd) fun hd => by rw [← hlast hd]; exact hfull hd
    exact ⟨r, w', cs', hr, hret, hf, hpool, by rw [if_neg hq, hlen], hh⟩

/-- A read gives the bytes of the flat file up to the end of the segment. --/
theorem Holds.read (h : Holds w d cs f) {file : File} (hfile : file.dentry = d) {p : Nat} (hp : p < 2 ^ 63)
    (len : Nat) :
    ∃ r w', Chunkfs.read file len p w = .ok r w' ∧
      r.buf = f.read p (min len (segLen * (p / segLen) + segLen - p)) ∧ r.ret = r.buf.length ∧
      r.file.dentry = d ∧ r.file.flags = file.flags ∧ w'.pool = w.pool ∧ Holds w' d cs f := by
  have hpos := Nat.mul_div_le p segLen
  have hfuel := h.length_lt
  cases hq : cs[p / segLen]? with
  | none =>
    obtain ⟨w', hr, hw⟩ := read_past h.walkable h.calm (by omega) hfile (p := p)
      (by rw [h.find_covers hp]; exact hq) len
    refine ⟨_, w', hr, ?_, rfl, hfile, rfl, hw.pool, h.warm hw⟩
    -- The file ends before the segment.
    have hbehind := List.getElem?_eq_none_iff.mp hq
    have hf := h.fits.trans (Nat.mul_le_mul_left segLen hbehind)
    exact (List.eq_nil_of_length_eq_zero (by rw [Bytes.length_read]; omega)).symm
  | some c =>
    obtain ⟨vn, hv⟩ := h.vnode
    obtain ⟨i, hi, hpiece⟩ := h.pieces _ c hq
    have hstart := h.start hq
    have hlen : w.env.transfer len = len := by simp [Env.transfer, h.whole]
    have hbuf : f.read p (min len (segLen * (p / segLen) + segLen - p)) =
        i.readData ((p : Int) - c.cd.start).toNat (w.env.transfer len) := by
      rw [hlen, hstart, ← hpiece.read hpos len]
      have : ((p : Int) - (segLen * (p / segLen) : Nat)).toNat = p - segLen * (p / segLen) := by omega
      rw [this]
      rfl
    obtain ⟨w', hr, hw⟩ := read_found h.toChain h.calm (by omega) hv hfile (p := p) (by omega) (by omega)
      (by rw [h.find_covers hp]; exact hq) hi hbuf (by
        rw [Bytes.length_read]
        unfold segLen
        omega)
    exact ⟨_, w', hr, rfl, rfl, hfile, rfl, hw.pool,
      (Holds.of_copiedUp h.toReady h.pieces h.fits h.whole hv i).warm hw⟩

end Write

end Chunkfs
