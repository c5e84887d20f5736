import Chunkfs.Theorems.Sparse
import Chunkfs.Theorems.Truncate
import Mathlib.Data.List.Nodup

/-! Writes to a file opened with `O_APPEND`. The client appends to whichever client inode the position leads to, so the
    file is appended to where that is the last one. -/

namespace Chunkfs
open Exec Word Tiles

/-- A chain in memory whose elements are full, up to the last one, behind which another can be made. The chunkfs inode
    shows the size. --/
structure Dense (w : World) (d : Dentry) (init : List Continuation) (t : Continuation) (total size : Nat) : Prop
    extends Growable w d (init ++ [t]) total where
  live : ∀ c ∈ init ++ [t], w.icache c.inode = .live
  full : ∀ c ∈ init, w.iSize c.inode = c.cd.len
  sum : size = ((init ++ [t]).map fun c => w.iSize c.inode).sum
  shown : ∀ vn, w.vnode d.inode = some vn → vn.size = size

/-- The write returns, what the client stored of the data is at the end of the file, and the bytes before it are as
    they were. --/
def AppendsToFile (w : World) (file : File) (cs : List Continuation) (data : List UInt8) (p : Int) (size : Nat) : Prop :=
  ∃ r w' cs', write file data p w = .ok r w' ∧ Chain w' file.dentry cs' ∧
    (∀ k < (data.take (w.env.transfer data.length)).length,
      fileByte w' cs' (size + k) = (data.take (w.env.transfer data.length))[k]?) ∧
    ∀ k < size, fileByte w' cs' k = fileByte w cs k

section Append
variable {w w' u : World} {d : Dentry} {cs init : List Continuation} {t : Continuation} {c : ClientIno} {file : File}
  {total size : Nat} {i : ClientInode} {vn : Vnode}

/-- A world has one chain from a head. --/
theorem Chain.unique {cs' : List Continuation} (h : Chain w d cs) (h' : Chain w d cs') (hc : Calm w) : cs = cs' := by
  have hwalk := fun (l : List Continuation) (hl : Chain w d l) (hlen : l.length < cs.length + cs'.length + 1) =>
    (walkConts_reads (hl.walkable.follows hc.honest) hlen w (Warm.refl w)).calm hc
  obtain ⟨w₁, hr₁, -⟩ := hwalk cs h (by omega)
  obtain ⟨w₂, hr₂, -⟩ := hwalk cs' h' (by omega)
  rw [hr₁] at hr₂
  cases hr₂
  rfl

/-- Growing a file changes no data. --/
theorem growStage_bytes {path : List Char} {mode : Nat} {x : ClientIno} (ho : w.openPath path mode = .ok (c, u))
    (hi : w.disk.inode x = some i) : ∃ i', (growStage u t c 4 4).disk.inode x = some i' ∧ i'.bytes = i.bytes := by
  have hmodify : ∀ (k : Disk) (y : ClientIno) (cd : ContData) (j : ClientInode), k.inode x = some j →
      ∃ j', (k.modify y (·.setFirst 4 cd)).inode x = some j' ∧ j'.bytes = j.bytes := by
    intro k y cd j hj
    by_cases hxy : x = y
    · exact ⟨j.setFirst 4 cd, by simp [← hxy, hj], ClientInode.bytes_setFirst j 4 cd⟩
    · exact ⟨j, (Disk.inode_modify_of_ne hxy).trans hj, rfl⟩
  obtain ⟨i₁, hi₁, hb₁⟩ := hmodify u.disk c (nextCd t) i (openPath_inode ho hi)
  obtain ⟨i₂, hi₂, hb₂⟩ := hmodify (u.disk.modify c (·.setFirst 4 (nextCd t))) t.inode (tailCd t c) i₁ hi₁
  exact ⟨i₂, hi₂, hb₂.trans hb₁⟩

/-- The bytes of a file that grows are those it had. --/
theorem fileByte_grown (hs : Segmented (init ++ [t]) total) (ht : total ≤ 2 ^ 63)
    (halloc : ∀ x ∈ init ++ [t], ∃ i, w.disk.inode x.inode = some i) {path : List Char} {mode : Nat}
    (ho : w.openPath path mode = .ok (c, u)) {p : Nat} (hp : p < total) :
    fileByte (growStage u t c 4 4) (init ++ [relinked t c, appended t c]) p = fileByte w (init ++ [t]) p := by
  obtain ⟨x, hx, hown⟩ := hs.exists_owner hp
  obtain ⟨i, hi⟩ := halloc x hx
  obtain ⟨i', hi', hbytes⟩ := growStage_bytes (t := t) ho hi
  obtain ⟨-, hgrown⟩ := hs.grown ht c
  have hsize : i'.size = i.size := congrArg Flat.Bytes.size hbytes
  have hbyte : i'.byte = i.byte := congrArg Flat.Bytes.byte hbytes
  rw [hs.fileByte_owner hx hown hi]
  rcases List.mem_append.mp hx with hx | hx
  · rw [hgrown.fileByte_owner (by simp [hx]) hown hi', hsize, hbyte]
  · cases List.mem_singleton.mp hx
    have hown' : (relinked t c).Owns p := hown
    rw [hgrown.fileByte_owner (by simp) hown' hi', hsize, hbyte]
    rfl

namespace Dense

theorem chain (h : Dense w d init t total size) : Chain w d (init ++ [t]) := ⟨h.toLinked, h.live⟩

theorem length_lt (h : Dense w d init t total size) : (init ++ [t]).length < w.env.fuel := by
  have := h.fuel
  omega

/-- The file ends in its last segment. --/
theorem end_eq (h : Dense w d init t total size) :
    size = t.cd.start + w.iSize t.inode ∧ t.cd.start + t.cd.len = total := by
  obtain ⟨mid, hinit, hstart, hend⟩ := tiled_append.mp h.segmented
  have hstart : t.cd.start = mid := hstart
  have hend : mid + t.cd.len = total := hend
  have hlen : init.map (fun c => w.iSize c.inode) = init.map (·.cd.len) := List.map_congr_left h.full
  have hmid : mid = 0 + (init.map (·.cd.len)).sum := hinit.hi_eq
  have hsum := h.sum
  rw [List.map_append, List.sum_append, hlen, List.map_singleton, List.sum_singleton] at hsum
  omega

theorem allocated (h : Dense w d init t total size) {x : Continuation} (hx : x ∈ init ++ [t]) :
    ∃ i, w.disk.inode x.inode = some i := by
  obtain ⟨i, hi, -⟩ := (h.elem x hx).allocated
  exact ⟨i, hi⟩

end Dense

/-- What a client writes behind the last byte of the last segment stands behind the last byte of the file. --/
theorem fileByte_wrote (h : Dense w d init t total size) (stored : List UInt8) (hi : w.disk.inode t.inode = some i)
    (hfit : i.size + stored.length ≤ t.cd.len) :
    (∀ k < stored.length, fileByte (w.wrote t.inode i.size stored) (init ++ [t]) (size + k) = stored[k]?) ∧
      ∀ k < size, fileByte (w.wrote t.inode i.size stored) (init ++ [t]) k = fileByte w (init ++ [t]) k := by
  obtain ⟨hsize, htotal⟩ := h.end_eq
  rw [World.iSize_of_live (h.live t (by simp)) hi] at hsize
  have hmem : t ∈ init ++ [t] := by simp
  have hnew : (w.wrote t.inode i.size stored).disk.inode t.inode = some (i.wrote w.env i.size stored) := by
    simp [World.wrote, World.setDisk, hi]
  have hbytes := ClientInode.bytes_wrote i w.env i.size stored
  have hcut : ∀ j, (i.wrote w.env i.size stored).size = (i.bytes.write i.size stored).size ∧
      (i.wrote w.env i.size stored).byte j = (i.bytes.write i.size stored).byte j := fun j =>
    ⟨congrArg Flat.Bytes.size hbytes, congrFun (congrArg Flat.Bytes.byte hbytes) j⟩
  constructor
  · intro k hk
    have hne : stored ≠ [] := List.ne_nil_of_length_pos (by omega)
    have hown : t.Owns ((size + k : Nat) : Int) := by
      unfold Continuation.Owns
      omega
    have hrel : size + k - t.cd.start = i.size + k := by omega
    rw [h.segmented.fileByte_owner hmem hown hnew, hrel, (hcut (i.size + k)).1, (hcut (i.size + k)).2,
      Flat.Bytes.size_write _ hne, Flat.Bytes.byte_write _ hne, if_pos (by omega), if_pos (by omega),
      Nat.add_sub_cancel_left, List.getD_eq_getElem?_getD, List.getElem?_eq_getElem hk]
    rfl
  · intro k hk
    obtain ⟨x, hx, hown⟩ := h.segmented.exists_owner (p := k) (by omega)
    obtain ⟨j, hj⟩ := h.allocated hx
    rw [h.segmented.fileByte_owner hx hown hj]
    by_cases hxt : x.inode = t.inode
    · have hxeq : x = t := List.inj_on_of_nodup_map h.nodup hx hmem hxt
      subst hxeq
      rw [hi] at hj
      cases hj
      have hrel := hown.offset
      have hbelow : k - x.cd.start < i.size := by omega
      rw [h.segmented.fileByte_owner hmem hown hnew, (hcut (k - x.cd.start)).1, (hcut (k - x.cd.start)).2,
        if_pos hbelow]
      by_cases hne : stored = []
      · rw [hne, Flat.Bytes.write_nil]
        exact if_pos hbelow
      · have hlonger : k - x.cd.start < max i.bytes.size (i.size + stored.length) :=
          Nat.lt_of_lt_of_le hbelow (Nat.le_max_left _ _)
        rw [Flat.Bytes.size_write _ hne, Flat.Bytes.byte_write _ hne, if_pos hlonger, if_neg (by omega)]
        exact congrArg some (if_pos hbelow)
    · have hsame : (w.wrote t.inode i.size stored).disk.inode x.inode = some j := (Disk.inode_modify_of_ne hxt).trans hj
      exact h.segmented.fileByte_owner hx hown hsame

/-- The last segment owns the position: the client appends where the file ends. --/
theorem appends_in_last (h : Dense w d init t total size) (ht : total ≤ 2 ^ 63) (hfile : file.dentry = d)
    (hflags : file.flags &&& oAppend ≠ 0) {p : Nat} (hp : p < 2 ^ 63) (hown : t.Owns p) {data : List UInt8}
    (hfit : w.iSize t.inode + data.length ≤ t.cd.len) (hend : size + data.length < 2 ^ 63) :
    AppendsToFile w file (init ++ [t]) data p size := by
  have hmem : t ∈ init ++ [t] := by simp
  obtain ⟨i, hi⟩ := h.allocated hmem
  obtain ⟨vn, hv, -⟩ := h.head.vnode
  have hsize := h.end_eq.1
  rw [World.iSize_of_live (h.live t hmem) hi] at hfit hsize
  have hstored : (data.take (w.env.transfer data.length)).length ≤ data.length := by
    rw [List.length_take]
    exact Nat.min_le_right _ _
  have hstart : (i.size : Int) = writeStart (openedAt t file.flags p).file i ((p : Int) - t.cd.start) := (if_neg hflags).symm
  obtain ⟨w', hr, hw⟩ := write_found h.chain h.calm h.length_lt hv hfile (Int.natCast_nonneg p) (by omega)
    (h.segmented.find_owner (by omega) (by omega) hmem hown) hi
    (.refl (data.take (w.env.transfer data.length))) i.size hstart (by omega)
  have hk : Kept w ((w.wrote t.inode i.size (data.take (w.env.transfer data.length))).copiedUp d vn
      (i.wrote w.env i.size (data.take (w.env.transfer data.length))) (init ++ [t])) :=
    (Kept.wrote w t.inode _ _).trans (.copiedUp (show (w.wrote t.inode _ _).vnode d.inode = some vn from hv) _)
  obtain ⟨hnew, hold⟩ := fileByte_wrote h (data.take (w.env.transfer data.length)) hi (by omega)
  refine ⟨_, w', init ++ [t], hr, hfile ▸ (h.chain.kept hk).warm hw, fun k hk => ?_, fun k hk => ?_⟩
  · rw [hw.fileByte]
    exact hnew k hk
  · rw [hw.fileByte]
    exact hold k hk

theorem Dense.iSize_le (h : Dense w d init t total size) {x : Continuation} (hx : x ∈ init ++ [t]) :
    w.iSize x.inode ≤ size := by
  obtain ⟨hsize, -⟩ := h.end_eq
  rcases List.mem_append.mp hx with hx | hx
  · obtain ⟨mid, hinit, hstart, -⟩ := tiled_append.mp h.segmented
    have hstart : t.cd.start = mid := hstart
    have hbound : x.cd.start + x.cd.len ≤ mid := (hinit.bounds.2 x hx).2
    rw [h.full x hx]
    omega
  · cases List.mem_singleton.mp hx
    omega

/-- Where the client stores nothing, the file keeps its bytes, whether it grows or not. --/
theorem appends_nothing (h : Dense w d init t total size) (ht : total ≤ 2 ^ 63) (hfile : file.dentry = d)
    (hflags : file.flags &&& oAppend ≠ 0) {p : Nat} (hp : p < 2 ^ 63) {data : List UInt8}
    (hempty : data.take (w.env.transfer data.length) = []) (hfit : w.iSize t.inode ≤ t.cd.len) (hend : size < 2 ^ 63) :
    AppendsToFile w file (init ++ [t]) data p size := by
  obtain ⟨vn, hv, -⟩ := h.head.vnode
  obtain ⟨hsize, htotal⟩ := h.end_eq
  unfold AppendsToFile
  rw [hempty]
  rcases h.segmented.find_cases ht (show -(2 ^ 63) ≤ (p : Int) by omega) (by omega) with ⟨-, -, c, hc, hown, hfind⟩ | ⟨hout, -, hfind⟩
  · obtain ⟨i, hi⟩ := h.allocated hc
    have hle : i.size ≤ size := World.iSize_of_live (h.live c hc) hi ▸ h.iSize_le hc
    have hstart : (i.size : Int) = writeStart (openedAt c file.flags p).file i ((p : Int) - c.cd.start) :=
      (if_neg hflags).symm
    obtain ⟨w', hr, hw⟩ := write_found h.chain h.calm h.length_lt hv hfile (Int.natCast_nonneg p) (by omega) hfind hi
      hempty.symm i.size hstart (by simp only [List.length_nil]; omega)
    rw [World.wrote_nil] at hw
    have hk : Kept w (w.copiedUp d vn (i.wrote w.env i.size []) (init ++ [t])) := .copiedUp hv _
    exact ⟨_, w', _, hr, hfile ▸ (h.chain.kept hk).warm hw, nofun, fun k _ => hw.fileByte _ k⟩
  · cases ho : w.openPath (nextPath t) contMode with
    | error e =>
      obtain ⟨w', hr, hw⟩ := write_fails h.chain h.calm h.length_lt hfile hfind (by simp) ho data
      exact ⟨_, w', _, hr, hfile ▸ h.chain.warm hw, nofun, fun k _ => hw.fileByte _ k⟩
    | ok opened =>
      obtain ⟨c, u⟩ := opened
      have hcan := h.sound.canFollow h.toLinked (by simp) (h.fresh t (by simp) c) h.number ho
      obtain ⟨i, hi⟩ := hcan.allocated
      obtain ⟨hstart, -⟩ := h.segmented.grown ht c
      obtain ⟨w', hr, hw⟩ := write_grows h.chain h.calm h.fuel hv hfile hfind ho hcan hi (p - (nextCd t).start)
        (by omega) (by omega) hempty.symm (by simp only [List.length_nil]; omega)
      rw [World.wrote_nil] at hw
      have hvg : (growStage u t c 4 4).vnode d.inode = some vn := by
        show u.vnode d.inode = some vn
        rw [openPath_vnode ho]
        exact hv
      have hchain := (h.chain.openPath ho).grown hcan
      refine ⟨_, w', _, hr, hfile ▸ (hchain.kept (.copiedUp hvg _)).warm hw, nofun, fun k hk => ?_⟩
      exact (hw.fileByte _ k).trans
        (fileByte_grown h.segmented ht (fun x hx => h.allocated hx) ho (by omega))

/-- No byte stands behind the end of the file as long as the last segment's inode has its size. --/
theorem fileByte_end (h : Dense w d init t total size) {cs' : List Continuation} {t' : Continuation} {total' : Nat}
    (hs : Segmented cs' total') (hmem : t' ∈ cs') (hstart : t'.cd.start = t.cd.start) (hlen : t'.cd.len = t.cd.len)
    (hi : w'.disk.inode t'.inode = some i) (hsize : i.size = w.iSize t.inode) (hroom : w.iSize t.inode < t.cd.len) :
    fileByte w' cs' size = none := by
  obtain ⟨hend, -⟩ := h.end_eq
  have hown : t'.Owns size := by
    unfold Continuation.Owns
    omega
  rw [hs.fileByte_owner hmem hown hi, if_neg (by omega)]

/-- Where the position leads to another segment, or to a new one, no byte is stored at the end of the file. --/
theorem not_appends_elsewhere (h : Dense w d init t total size) (ht : total ≤ 2 ^ 63) (hfile : file.dentry = d) {p : Nat}
    (hp : p < 2 ^ 63) (hown : ¬t.Owns p) {data : List UInt8} (hne : data.take (w.env.transfer data.length) ≠ [])
    (hfit : w.iSize t.inode + data.length ≤ t.cd.len) : ¬AppendsToFile w file (init ++ [t]) data p size := by
  rintro ⟨r, w', cs', hr, hchain', hnew, -⟩
  have hmem : t ∈ init ++ [t] := by simp
  obtain ⟨i, hi⟩ := h.allocated hmem
  have hisize := World.iSize_of_live (h.live t hmem) hi
  have hpos : 0 < (data.take (w.env.transfer data.length)).length := List.length_pos_of_ne_nil hne
  have hroom : w.iSize t.inode < t.cd.len := by
    rw [List.length_take] at hpos
    omega
  have hbyte := hnew 0 hpos
  rw [Nat.add_zero, List.getElem?_eq_getElem hpos] at hbyte
  -- It is enough that the write leaves a chain in which the last segment's inode has its size.
  suffices hwrote : ∃ total' t' j, Segmented cs' total' ∧ t' ∈ cs' ∧ t'.cd.start = t.cd.start ∧ t'.cd.len = t.cd.len ∧
      w'.disk.inode t'.inode = some j ∧ j.size = i.size by
    obtain ⟨total', t', j, hs, hmem', hstart, hlen, hj, hsize⟩ := hwrote
    rw [fileByte_end h hs hmem' hstart hlen hj (hsize.trans hisize.symm) hroom] at hbyte
    cases hbyte
  rcases h.segmented.find_cases ht (show -(2 ^ 63) ≤ (p : Int) by omega) (by omega) with ⟨-, -, c, hc, hcown, hfind⟩ | ⟨hout, -, hfind⟩
  · have hci : c.inode ≠ t.inode := fun heq =>
      hown (List.inj_on_of_nodup_map h.nodup hc hmem heq ▸ hcown)
    obtain ⟨w₁, hw₁, hr₁⟩ := write_opens h.toWalkable h.calm h.length_lt hfile hfind data
    obtain ⟨r₂, w₂, hr₂, hchain, henv, hother⟩ := writeOpened_leaves (h.chain.warm hw₁) (h.calm.warm hw₁)
      (by rw [hw₁.fuel]; exact h.length_lt) hfile (o := openedAt c file.flags p) (List.mem_map_of_mem hc) data
    rw [hr₁, hr₂] at hr
    cases hr
    have hcalm : Calm w' := by
      rw [Calm, henv]
      exact h.calm.warm hw₁
    obtain rfl := hchain.unique (hfile ▸ hchain') hcalm
    refine ⟨total, t, i, h.segmented, hmem, rfl, rfl, ?_, rfl⟩
    rw [hother t.inode hci.symm, hw₁.disk]
    exact hi
  · cases ho : w.openPath (nextPath t) contMode with
    | error e =>
      obtain ⟨w₁, hr₁, hw₁⟩ := write_fails h.chain h.calm h.length_lt hfile hfind (by simp) ho data
      rw [hr₁] at hr
      cases hr
      obtain rfl := (h.chain.warm hw₁).unique (hfile ▸ hchain') (h.calm.warm hw₁)
      exact ⟨total, t, i, h.segmented, hmem, rfl, rfl, by rw [hw₁.disk]; exact hi, rfl⟩
    | ok opened =>
      obtain ⟨c, u⟩ := opened
      have hcan := h.sound.canFollow h.toLinked (by simp) (h.fresh t (by simp) c) h.number ho
      obtain ⟨-, hseg⟩ := h.segmented.grown ht c
      have hmem₁ : (appended t c).inode ∈ (init ++ [relinked t c, appended t c]).map (·.inode) :=
        List.mem_map_of_mem (by simp)
      obtain ⟨w₁, hw₁, henv₁, hr₁⟩ := write_appends h.toWalkable h.calm h.length_lt hfile hfind ho hcan data
      have hcalm₁ : Calm w₁ := by
        rw [Calm, henv₁]
        exact h.calm
      have hf₁ : (init ++ [relinked t c, appended t c]).length < w₁.env.fuel := by
        have := h.fuel
        rw [henv₁]
        simpa using this
      obtain ⟨r₂, w₂, hr₂, hchain, henv, hother⟩ := writeOpened_leaves
        (((h.chain.openPath ho).grown hcan).warm hw₁) hcalm₁ hf₁ hfile (o := openedAt (appended t c) oCreatRdwr p)
        hmem₁ data
      rw [hr₁, hr₂] at hr
      cases hr
      have hcalm : Calm w' := by
        rw [Calm, henv]
        exact hcalm₁
      obtain rfl := hchain.unique (hfile ▸ hchain') hcalm
      obtain ⟨j, hj, hbytes⟩ := growStage_bytes (t := t) ho hi
      have hne : t.inode ≠ c := fun heq => hcan.outside (heq ▸ List.mem_map_of_mem hmem)
      refine ⟨total + segLen, relinked t c, j, hseg, by simp, rfl, rfl, ?_, congrArg Flat.Bytes.size hbytes⟩
      exact (hother t.inode hne).trans (by rw [hw₁.disk]; exact hj)

/-- With `O_APPEND` a write is appended to the file if and only if nothing is stored or the position lies in the last
    segment. --/
theorem appends_to_file_iff (h : Dense w d init t total size) (ht : total ≤ 2 ^ 63) (hfile : file.dentry = d)
    (hflags : file.flags &&& oAppend ≠ 0) {p : Nat} (hp : p < 2 ^ 63) {data : List UInt8}
    (hfit : w.iSize t.inode + data.length ≤ t.cd.len) (hend : size + data.length < 2 ^ 63) :
    AppendsToFile w file (init ++ [t]) data p size ↔
      data.take (w.env.transfer data.length) = [] ∨ t.cd.start ≤ p ∧ p < t.cd.start + t.cd.len := by
  constructor
  · intro happ
    by_contra hnot
    obtain ⟨hne, hout⟩ := not_or.mp hnot
    exact not_appends_elsewhere h ht hfile hp (fun hown => hout hown.offset) hne hfit happ
  · rintro (hempty | hin)
    · exact appends_nothing h ht hfile hflags hp hempty (by omega) (by omega)
    · have hown : t.Owns p := by
        unfold Continuation.Owns
        omega
      exact appends_in_last h ht hfile hflags hp hown hfit hend

end Append

/-! ### A full segment and a part of one -/

/-- The file opened with `O_APPEND`. --/
def appendFile : File := ⟨firstDentry, 0, oAppend ||| 1⟩

/-- The two elements of the chain. --/
def firstOfTwo : Continuation := loaded firstIno ⟨secondIno.uino, 0, 0, segLen⟩ 1
def secondOfTwo : Continuation := loaded secondIno ⟨0, firstIno.uino, segLen, segLen⟩ 2

theorem twoLinked_sound (last : Nat) : Sound (twoLinked last) where
  pool := by
    show ∀ k ∈ [1, 2], 1 ≤ k ∧ k ≤ 15
    decide
  ialloc _ := by
    show 30 < 2 ^ 28
    decide
  dir _ _ _ hn := by cases hn
  file k f i c hc := by
    obtain ⟨rfl, rfl⟩ := twoLinked_path hc
    exact ⟨rfl, List.mem_cons_of_mem _ List.mem_cons_self, by decide, Option.isSome_iff_exists.mp rfl⟩

theorem twoSized_dense : Dense (twoSized segLen 100) firstDentry [firstOfTwo] secondOfTwo (2 * segLen) (segLen + 100) := by
  have hchain := twoSized_chain segLen 100
  have hvnode : (twoSized segLen 100).vnode firstDentry.inode = some { twoLinkedVnode with size := (segLen + 100 : Nat) } := by
    simp only [twoSized, (twoLinked_vnode 0).1, Option.map_some]
  refine ⟨⟨hchain.walkable, twoChain_segmented 0, (twoLinked_sound 0).kept (twoSized_kept segLen 100), rfl, by decide,
    fun vn hv => ?_, fun t ht c hc => ?_⟩, fun _ _ => rfl, fun c hc => ?_, by decide +kernel, fun vn hv => ?_⟩
  · rw [hvnode] at hv
    cases hv
    rfl
  · cases ht
    have hpath : (twoLinked 0).disk.path (contPath 3 2 30) = some c := hc
    exact absurd (twoLinked_path hpath).1 (by decide)
  · cases List.mem_singleton.mp hc
    decide +kernel
  · rw [hvnode] at hv
    cases hv
    rfl

/-- At a position in the second segment the client appends to the file. --/
theorem appends_twoSized : AppendsToFile (twoSized segLen 100) appendFile [firstOfTwo, secondOfTwo] [7] (41000 : Nat)
    (segLen + 100) :=
  (appends_to_file_iff twoSized_dense (by decide) rfl (by decide) (by decide) (by decide +kernel) (by decide)).mpr
    (Or.inr (by decide))

/-- At the position of a fresh open the client appends behind the first segment. --/
theorem not_appends_twoSized : Dense (twoSized segLen 100) firstDentry [firstOfTwo] secondOfTwo (2 * segLen) (segLen + 100) ∧
    appendFile.dentry = firstDentry ∧ appendFile.flags &&& oAppend ≠ 0 ∧
    (twoSized segLen 100).iSize secondOfTwo.inode + ([7] : List UInt8).length ≤ secondOfTwo.cd.len ∧
    ¬AppendsToFile (twoSized segLen 100) appendFile [firstOfTwo, secondOfTwo] [7] (0 : Nat) (segLen + 100) := by
  have hfit : (twoSized segLen 100).iSize secondOfTwo.inode + ([7] : List UInt8).length ≤ secondOfTwo.cd.len := by
    decide +kernel
  refine ⟨twoSized_dense, rfl, by decide, hfit, ?_⟩
  refine not_appends_elsewhere twoSized_dense (by decide) rfl (by decide) (fun hown => ?_) (by decide) hfit
  exact absurd hown.offset.1 (by decide)

end Chunkfs
