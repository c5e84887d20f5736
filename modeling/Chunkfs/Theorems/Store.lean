import Chunkfs.Theorems.Append
import Chunkfs.Theorems.Isolation

/-! The files of a pool and what each of them holds. A request that fits the flat file of its own file does to that
    file what it does to the flat file (`Contents`), and leaves the others. So in a run of requests on any number of
    files each file is a flat file of its own, whatever is done to the others. -/

namespace Chunkfs
open Exec Word Flat

/-! ### What one file holds -/

/-- The data of a client inode on disk. --/
def World.bytes? (w : World) (c : ClientIno) : Option (Bytes UInt8) := (w.disk.inode c).map ClientInode.bytes

/-- The file holds the bytes of `f`, one segment after the other, and the chunkfs inode has its size. --/
structure Contents (w : World) (d : Dentry) (cs : List Continuation) (f : Bytes UInt8) : Prop where
  pieces : Pieces w cs f
  fits : f.size ≤ segLen * cs.length
  size : ∀ vn, w.vnode d.inode = some vn → vn.size = f.size

section Contents
variable {w w' : World} {d : Dentry} {cs cs' : List Continuation} {c : ClientIno} {f : Bytes UInt8}

theorem World.bytes?_modify {g : ClientInode → ClientInode} (hg : ∀ i, (g i).bytes = i.bytes) (c x : ClientIno) :
    (w.setDisk (w.disk.modify c g)).bytes? x = w.bytes? x := by
  by_cases hx : x = c
  · simp only [bytes?, setDisk, hx, Disk.inode_modify_same, Option.map_map]
    exact congrArg (fun k => Option.map k (w.disk.inode c)) (funext hg)
  · simp only [bytes?, setDisk, Disk.inode_modify_of_ne hx]

theorem Pieces.bytes? (hp : Pieces w cs f) {i : Nat} {x : Continuation} (hx : cs[i]? = some x) :
    ∃ s, w.bytes? x.inode = some s ∧ Piece segLen f i s := by
  obtain ⟨y, hy, hpiece⟩ := hp i x hx
  exact ⟨y.bytes, by rw [World.bytes?, hy]; rfl, hpiece⟩

theorem Pieces.of_bytes? (h : ∀ i x, cs[i]? = some x → ∃ s, w.bytes? x.inode = some s ∧ Piece segLen f i s) :
    Pieces w cs f := by
  intro i x hx
  obtain ⟨s, hs, hpiece⟩ := h i x hx
  obtain ⟨y, hy, rfl⟩ := Option.map_eq_some_iff.mp hs
  exact ⟨y, hy, hpiece⟩

theorem Pieces.frame (hp : Pieces w cs f) (h : ∀ x ∈ cs, w'.bytes? x.inode = w.bytes? x.inode) : Pieces w' cs f := by
  refine .of_bytes? fun i x hx => ?_
  rw [h x (List.mem_of_getElem? hx)]
  exact hp.bytes? hx

/-- An empty inode behind the others is the next piece. --/
theorem Pieces.extend (hp : Pieces w cs f) (hmap : cs'.map (·.inode) = cs.map (·.inode) ++ [c])
    (hold : ∀ x ∈ cs, w'.bytes? x.inode = w.bytes? x.inode) {s : Bytes UInt8} (hnew : w'.bytes? c = some s)
    (hempty : s.size = 0) (hfits : f.size ≤ segLen * cs.length) : Pieces w' cs' f := by
  refine .of_bytes? fun i x hx => ?_
  have hi : (cs.map (·.inode) ++ [c])[i]? = some x.inode := by
    rw [← hmap, List.getElem?_map, hx]
    rfl
  rcases Nat.lt_or_ge i cs.length with hlt | hge
  · rw [List.getElem?_append_left (by rwa [List.length_map]), List.getElem?_map, List.getElem?_eq_getElem hlt] at hi
    obtain ⟨s, hs, hpiece⟩ := hp.bytes? (List.getElem?_eq_getElem hlt)
    refine ⟨s, ?_, hpiece⟩
    rw [← Option.some.inj hi, hold _ (List.getElem_mem hlt)]
    exact hs
  · rw [List.getElem?_append_right (by rwa [List.length_map]), List.length_map] at hi
    obtain ⟨hzero, hc⟩ := List.getElem?_eq_some_iff.mp hi
    have hic : i = cs.length := Nat.le_antisymm (Nat.sub_eq_zero_iff_le.mp (Nat.lt_one_iff.mp hzero)) hge
    rw [List.getElem_singleton] at hc
    rw [← hc, hic]
    exact ⟨s, hnew, .of_size_zero hempty hfits⟩

theorem Contents.frame (h : Contents w d cs f) (hb : ∀ x ∈ cs, w'.bytes? x.inode = w.bytes? x.inode)
    (hv : w'.vnode d.inode = w.vnode d.inode) : Contents w' d cs f where
  pieces := h.pieces.frame hb
  fits := h.fits
  size vn hvn := h.size vn (hv ▸ hvn)

theorem Contents.warm (h : Contents w d cs f) (hw : Warm w w') : Contents w' d cs f :=
  h.frame (fun x _ => by rw [World.bytes?, World.bytes?, hw.disk]) (by rw [hw.vnode])

/-- Copying up gives the chunkfs inode the size of the pieces. --/
theorem Pieces.copiedUp (hp : Pieces w cs f) (h : FileChain w d cs) (hfits : f.size ≤ segLen * cs.length) (vn : Vnode)
    (i : ClientInode) : Contents (w.copiedUp d vn i cs) d cs f where
  pieces := hp
  fits := hfits
  size vn' hv' := by
    simp only [World.copiedUp, World.setVnode, ↓reduceIte, Option.some.injEq] at hv'
    rw [← hv']
    exact hp.sumSizes h.live hfits h.length_le_fifteen

theorem Contents.untouched (h : Contents w d cs f) (hu : Untouched w w' d cs) : Contents w' d cs f :=
  h.frame (fun x hx => by rw [World.bytes?, World.bytes?, hu.inode x hx]) hu.vnode

end Contents

/-! ### Requests that fit -/

section Fitting
variable {w u : World} {root d : Dentry} {files : List Dentry} {ch : Dentry → List Continuation} {f : Bytes UInt8}
  {file : File} {p : Nat} {data : List UInt8} {c : Continuation} {vn : Vnode} {n t : Continuation}

/-- A write that stores something ends in the segment it begins in. --/
theorem end_le_of_one (hone : data ≠ [] → p + data.length ≤ segLen * (p / segLen) + segLen) :
    p + data.length ≤ segLen * (p / segLen) + segLen := by
  rcases eq_or_ne data [] with rfl | hne
  · rw [List.length_nil, Nat.mul_comm]
    exact Nat.le_of_lt (Nat.lt_div_mul_add (show 0 < segLen by decide))
  · exact hone hne

theorem write_size_le {bound : Nat} (hf : f.size ≤ bound) (hp : data ≠ [] → p + data.length ≤ bound) :
    (f.write p data).size ≤ bound := by
  rcases eq_or_ne data [] with rfl | hne
  · rwa [Bytes.write_nil]
  · rw [Bytes.size_write f hne]
    exact Nat.max_le.mpr ⟨hf, hp hne⟩

/-- A write to a segment of the chain. --/
theorem Contents.write_inside (h : Contents w d (ch d) f) (ht : Tidy w root files ch) (hd : d ∈ files)
    (he : Obliging w.env) (hwhole : w.env.limit = none) (hfile : file.dentry = d) (hflags : file.flags &&& oAppend = 0)
    (hp : p < 2 ^ 63) (hq : (ch d)[p / segLen]? = some c)
    (hone : data ≠ [] → p + data.length ≤ segLen * (p / segLen) + segLen)
    (hfull : data ≠ [] → segLen * (p / segLen) ≤ f.size) :
    ∃ r w', Chunkfs.write file data p w = .ok r w' ∧ Chain w' d (ch d) ∧ r.ret = data.length ∧
      Contents w' d (ch d) (f.write p data) := by
  have hf := ht.chain d hd
  have hlen := hf.length_le_fifteen
  obtain ⟨vn, hv, -⟩ := hf.head.vnode
  obtain ⟨i, hi, -⟩ := h.pieces _ c hq
  have hqlt := (List.getElem?_eq_some_iff.mp hq).1
  have hstart := hf.start hq
  have hpos := Nat.mul_div_le p segLen
  have hend := end_le_of_one hone
  have hsmall : segLen * (p / segLen) + segLen < 2 ^ 62 := by
    unfold segLen at hqlt ⊢
    omega
  have hstored : data = data.take (w.env.transfer data.length) := by simp only [Env.transfer, hwhole, List.take_length]
  obtain ⟨w', hr, hw⟩ := write_found hf.toChain he.script (Nat.lt_of_le_of_lt hlen (Nat.lt_of_succ_lt he.fuel)) hv hfile
    (p := p) (Int.natCast_nonneg p) (by omega) (by rw [hf.find_covers hp]; exact hq) hi hstored
    (p - segLen * (p / segLen)) (by rw [writeStart_of_not_append hflags, hstart]; omega) (by omega)
  have hchain : FileChain (w.wrote c.inode (p - segLen * (p / segLen)) data) d (ch d) := hf.kept (.wrote w _ _ _)
  have hv₁ : (w.wrote c.inode (p - segLen * (p / segLen)) data).vnode d.inode = some vn := hv
  have hsucc := Nat.mul_le_mul_left segLen (Nat.succ_le_of_lt hqlt)
  rw [Nat.mul_succ] at hsucc
  have hwrite := (h.pieces.wrote hf.nodup hq hpos hend hfull).copiedUp hchain
    (write_size_le h.fits fun hne => (hone hne).trans hsucc) vn
    (i.wrote w.env (p - segLen * (p / segLen)) data)
  exact ⟨_, w', hr, ((hchain.kept (.copiedUp hv₁ _)).kept hw.kept).toChain, rfl, hwrite.warm hw⟩

/-- The segments of a file that has grown are those it had, and an empty one. --/
theorem Contents.grown (h : Contents w d (ch d) f) (ht : Tidy w root files ch) (hd : d ∈ files)
    {init : List Continuation} {x : ClientIno} (hch : ch d = init ++ [t])
    (ho : w.openPath (nextPath t) contMode = .ok (x, u)) :
    Pieces (growStage u t x 4 4) (init ++ [relinked t x, appended t x]) f := by
  have htl : (ch d).getLast? = some t := by rw [hch]; exact List.getLast?_concat
  obtain ⟨hcan, -, hu⟩ := ht.opens_new hd htl ho
  have hne : x ≠ t.inode := fun he => hcan.outside (he ▸ List.mem_map_of_mem (List.mem_of_getLast? htl))
  have hnew : u.disk.inode x = some (w.env.newInode (w.env.fileMode contMode) 0) := by
    rw [hu]
    exact if_pos rfl
  refine h.pieces.extend (c := x) (s := ⟨0, fun _ => 0⟩) ?_ (fun y hy => ?_) ?_ rfl h.fits
  · rw [hch, List.map_append, List.map_append, List.append_assoc]
    rfl
  · obtain ⟨i, hi⟩ := ht.allocated hd (List.mem_map_of_mem hy)
    have hopen : u.bytes? y.inode = w.bytes? y.inode := by
      rw [World.bytes?, World.bytes?, hi, openPath_inode ho hi]
    exact ((World.bytes?_modify (fun i => ClientInode.bytes_setFirst i 4 (tailCd t x)) _ _).trans
      (World.bytes?_modify (fun i => ClientInode.bytes_setFirst i 4 (nextCd t)) _ _)).trans hopen
  · rw [World.bytes?, inode_growStage hne hnew, Option.map_some, ClientInode.bytes_setFirst]
    rfl

/-- A write behind the chain, to the segment the file reaches. --/
theorem Contents.write_behind (h : Contents w d (ch d) f) (ht : Tidy w root files ch) (hd : d ∈ files)
    (he : Obliging w.env) (hwhole : w.env.limit = none) (hfile : file.dentry = d) (hp : p < 2 ^ 63)
    (hbehind : (ch d).length ≤ p / segLen) {init : List Continuation} {x : ClientIno} (hch : ch d = init ++ [t])
    (ho : w.openPath (nextPath t) contMode = .ok (x, u))
    (hone : data ≠ [] → p + data.length ≤ segLen * (p / segLen) + segLen)
    (hfull : data ≠ [] → segLen * (p / segLen) ≤ f.size) :
    ∃ r w', Chunkfs.write file data p w = .ok r w' ∧ Chain w' d (init ++ [relinked t x, appended t x]) ∧
      r.ret = data.length ∧ Contents w' d (init ++ [relinked t x, appended t x]) (f.write p data) := by
  have hf := ht.chain d hd
  have hlen := hf.length_le_fifteen
  have htl : (ch d).getLast? = some t := by rw [hch]; exact List.getLast?_concat
  obtain ⟨hcan, -, hu⟩ := ht.opens_new hd htl ho
  obtain ⟨vn, hv, -⟩ := hf.head.vnode
  have hpos := Nat.le_trans (Nat.mul_le_mul_left segLen hbehind) (Nat.mul_div_le p segLen)
  have hlast : data ≠ [] → p / segLen = (ch d).length := fun hne =>
    Nat.le_antisymm (Nat.le_of_mul_le_mul_left ((hfull hne).trans h.fits) (show 0 < segLen by decide)) hbehind
  have hend : data ≠ [] → p + data.length ≤ segLen * (ch d).length + segLen := fun hne => hlast hne ▸ hone hne
  have hroom : p - segLen * (ch d).length + data.length < 2 ^ 63 := by
    rcases eq_or_ne data [] with rfl | hne
    · exact Nat.lt_of_le_of_lt (Nat.sub_le _ _) hp
    · have := hend hne
      unfold segLen at *
      omega
  have hfind : (ch d).find? (·.cd.covers p) = none := by
    rw [hf.find_covers hp]
    exact List.getElem?_eq_none hbehind
  have hstored : data = data.take (w.env.transfer data.length) := by simp only [Env.transfer, hwhole, List.take_length]
  have hnew : u.disk.inode x = some (w.env.newInode (w.env.fileMode contMode) 0) := by
    rw [hu]
    exact if_pos rfl
  obtain ⟨w', hr, hw⟩ := write_grows (hch ▸ hf.toChain) he.script
    (by rw [← hch]; exact Nat.lt_of_le_of_lt (Nat.succ_le_succ hlen) he.fuel) hv hfile (hch ▸ hfind) ho (hch ▸ hcan) hnew
    (p - segLen * (ch d).length) (by rw [(hf.last_eq htl).2.2]; omega) (by omega) hstored hroom
  have hf' := (ht.grown hd hch ho).chain d hd
  rw [Function.update_self] at hf'
  have hlength : (init ++ [relinked t x, appended t x]).length = (ch d).length + 1 := by
    rw [hch, List.length_append, List.length_append]
    rfl
  have hwrote : Pieces ((growStage u t x 4 4).wrote x (p - segLen * (ch d).length) data)
      (init ++ [relinked t x, appended t x]) (f.write p data) := by
    have hpieces := h.grown ht hd hch ho
    rcases eq_or_ne data [] with rfl | hne
    · rw [Bytes.write_nil]
      exact hpieces.wrote_nil x _
    · have hq : (init ++ [relinked t x, appended t x])[(ch d).length]? = some (appended t x) := by
        rw [hch, List.getElem?_append_right (by simp)]
        simp
      exact hpieces.wrote hf'.nodup hq hpos (hend hne) fun _ => hlast hne ▸ hfull hne
  have hchain : FileChain ((growStage u t x 4 4).wrote x (p - segLen * (ch d).length) data) d
      (init ++ [relinked t x, appended t x]) := hf'.kept (.wrote _ _ _ _)
  have hv₁ : ((growStage u t x 4 4).wrote x (p - segLen * (ch d).length) data).vnode d.inode = some vn :=
    (congrFun (openPath_vnode ho) d.inode).trans hv
  have hwrite := hwrote.copiedUp hchain (by
    rw [hlength, Nat.mul_succ]
    exact write_size_le (h.fits.trans (Nat.le_add_right _ _)) hend) vn
    (((w.env.newInode (w.env.fileMode contMode) 0).setFirst 4 (nextCd t)).wrote w.env (p - segLen * (ch d).length) data)
  exact ⟨_, w', hr, ((hchain.kept (.copiedUp hv₁ _)).kept hw.kept).toChain, rfl, hwrite.warm hw⟩

/-- A write that lies in one segment which the file reaches is a write to the flat file, or fails. --/
theorem Contents.write (h : Contents w d (ch d) f) (ht : Tidy w root files ch) (hd : d ∈ files) (he : Obliging w.env)
    (hwhole : w.env.limit = none) (hfile : file.dentry = d) (hflags : file.flags &&& oAppend = 0) (hp : p < 2 ^ 63)
    (hone : data ≠ [] → p + data.length ≤ segLen * (p / segLen) + segLen)
    (hfull : data ≠ [] → segLen * (p / segLen) ≤ f.size) :
    ∃ r w' cs', Chunkfs.write file data p w = .ok r w' ∧ Chain w' d cs' ∧
      (r.ret = data.length ∧ Contents w' d cs' (f.write p data) ∨ r.ret < 0 ∧ Contents w' d cs' f) := by
  have hf := ht.chain d hd
  cases hq : (ch d)[p / segLen]? with
  | some c =>
    obtain ⟨r, w', hr, hc, hret, hh⟩ := h.write_inside ht hd he hwhole hfile hflags hp hq hone hfull
    exact ⟨r, w', _, hr, hc, Or.inl ⟨hret, hh⟩⟩
  | none =>
    have hfind : (ch d).find? (·.cd.covers p) = none := by
      rw [hf.find_covers hp]
      exact hq
    obtain ⟨t, htl⟩ : ∃ t, (ch d).getLast? = some t := Option.isSome_iff_exists.mp (by simp [hf.ne_nil])
    cases ho : w.openPath (nextPath t) contMode with
    | error e =>
      obtain ⟨w', hr, hw⟩ := write_fails hf.toChain he.script
        (Nat.lt_of_le_of_lt hf.length_le_fifteen (Nat.lt_of_succ_lt he.fuel)) hfile hfind htl ho data
      exact ⟨_, w', _, hr, (hf.kept hw.kept).toChain, Or.inr ⟨e.ret_neg, h.warm hw⟩⟩
    | ok xu =>
      obtain ⟨x, u⟩ := xu
      obtain ⟨init, hinit⟩ : ∃ init, ch d = init ++ [t] := ⟨_, (List.dropLast_append_getLast? t htl).symm⟩
      obtain ⟨r, w', hr, hc, hret, hh⟩ := h.write_behind ht hd he hwhole hfile hp (List.getElem?_eq_none_iff.mp hq) hinit
        ho hone hfull
      exact ⟨r, w', _, hr, hc, Or.inl ⟨hret, hh⟩⟩

/-- A read is one of the flat file, up to the end of the segment it begins in. --/
theorem Contents.reads {cs : List Continuation} (h : Contents w d cs f) (hf : FileChain w d cs) (hc : Calm w)
    (hfuel : cs.length < w.env.fuel) (hfile : file.dentry = d) (hp : p < 2 ^ 63) (len : Nat) :
    ∃ r w', Chunkfs.read file len p w = .ok r w' ∧
      r.buf = f.read p (min (w.env.transfer len) (segLen * (p / segLen) + segLen - p)) ∧ r.ret = r.buf.length ∧
      Contents w' d cs f := by
  have hpos := Nat.mul_div_le p segLen
  cases hq : cs[p / segLen]? with
  | none =>
    obtain ⟨w', hr, hw⟩ := read_past hf.walkable hc hfuel hfile (p := p) (by rw [hf.find_covers hp]; exact hq) len
    refine ⟨_, w', hr, ?_, rfl, h.warm hw⟩
    -- The file ends before the segment.
    have hends := h.fits.trans (Nat.mul_le_mul_left segLen (List.getElem?_eq_none_iff.mp hq))
    refine (List.eq_nil_of_length_eq_zero ?_).symm
    rw [Bytes.length_read, Nat.sub_eq_zero_of_le (hends.trans hpos), Nat.min_zero]
  | some c =>
    obtain ⟨vn, hv, -⟩ := hf.head.vnode
    obtain ⟨i, hi, hpiece⟩ := h.pieces _ c hq
    have hstart := hf.start hq
    have hbuf : f.read p (min (w.env.transfer len) (segLen * (p / segLen) + segLen - p)) =
        i.readData ((p : Int) - c.cd.start).toNat (w.env.transfer len) := by
      have hoffset : ((p : Int) - (segLen * (p / segLen) : Nat)).toNat = p - segLen * (p / segLen) :=
        Int.toNat_sub p _
      rw [hstart, hoffset, ← hpiece.read hpos (w.env.transfer len)]
      rfl
    obtain ⟨w', hr, hw⟩ := read_found hf.toChain hc hfuel hv hfile (p := p) (Int.natCast_nonneg p) (by omega)
      (by rw [hf.find_covers hp]; exact hq) hi hbuf (by
        rw [Bytes.length_read]
        unfold segLen
        omega)
    exact ⟨_, w', hr, rfl, rfl, (h.pieces.copiedUp hf h.fits vn i).warm hw⟩

theorem Contents.read (h : Contents w d (ch d) f) (ht : Tidy w root files ch) (hd : d ∈ files) (he : Obliging w.env)
    (hwhole : w.env.limit = none) (hfile : file.dentry = d) (hp : p < 2 ^ 63) (len : Nat) :
    ∃ r w', Chunkfs.read file len p w = .ok r w' ∧
      r.buf = f.read p (min len (segLen * (p / segLen) + segLen - p)) ∧ r.ret = r.buf.length ∧
      Contents w' d (ch d) f := by
  have hf := ht.chain d hd
  have htransfer : w.env.transfer len = len := by simp only [Env.transfer, hwhole]
  have hreads := h.reads hf he.script (Nat.lt_of_le_of_lt hf.length_le_fifteen (Nat.lt_of_succ_lt he.fuel)) hfile hp len
  rwa [htransfer] at hreads

/-- The size that `chunkfs_setattr` gives the head client inode: `setattr_copy` leaves it alone. --/
def Iattr.newSize (own : Bool) (attr : Iattr) : Option Nat := if own then attr.size else none

theorem ClientInode.bytes_setattrBy (own : Bool) (attr : Iattr) (now : Nat) (i : ClientInode) :
    (i.setattrBy own attr now).bytes = (attr.newSize own).elim i.bytes i.bytes.resize := by
  cases own with
  | false => rfl
  | true =>
    unfold setattrBy Iattr.newSize setattr
    rw [if_pos rfl, if_pos rfl]
    cases attr.size <;> rfl

/-- The pieces of a file that lies and stays in its first segment, when the head is resized. --/
theorem Pieces.resized {cs : List Continuation} (hp : Pieces w cs f) (hf : FileChain w d cs) {own : Bool} {attr : Iattr}
    {size now : Nat} (hsize : attr.newSize own = some size) (hle : f.size ≤ segLen) (hle' : size ≤ segLen) :
    Pieces (w.setDisk (w.disk.modify d.client (·.setattrBy own attr now))) cs (f.resize size) := by
  obtain ⟨z, rest, hz, hzd⟩ := hf.first
  have hhead : (cs.map (·.inode))[0]? = some d.client := by rw [hz, List.map_cons, List.getElem?_cons_zero, hzd]
  refine .of_bytes? fun k x hx => ?_
  obtain ⟨y, hy, hpiece⟩ := hp k x hx
  have hk : (cs.map (·.inode))[k]? = some x.inode := by rw [List.getElem?_map, hx, Option.map_some]
  rcases Nat.eq_zero_or_pos k with rfl | hpos
  · have hxd : x.inode = d.client := Option.some.inj (hk.symm.trans hhead)
    refine ⟨y.bytes.resize size, ?_, hpiece.resize hle hle'⟩
    rw [hxd] at hy
    simp only [World.bytes?, World.setDisk, hxd, Disk.inode_modify_same, hy, Option.map_some,
      ClientInode.bytes_setattrBy, hsize, Option.elim_some]
  · have hne : x.inode ≠ d.client := fun hxd => Nat.ne_of_gt hpos
      ((List.getElem?_inj (List.getElem?_eq_some_iff.mp hk).1 hf.nodup).mp ((hxd ▸ hk).trans hhead.symm))
    refine ⟨y.bytes, ?_, hpiece.resize_behind (Nat.ne_of_gt hpos) hle hle'⟩
    simp only [World.bytes?, World.setDisk, Disk.inode_modify_of_ne hne, hy, Option.map_some]

/-- Setting the attributes, and the size of a file that lies and stays in its first segment. --/
theorem Contents.setattr (h : Contents w d (ch d) f) (ht : Tidy w root files ch) (hd : d ∈ files) (he : Obliging w.env)
    (own : Bool) (attr : Iattr) (hfit : ∀ size, attr.newSize own = some size → f.size ≤ segLen ∧ size ≤ segLen) :
    ∃ w', Chunkfs.setattr own d attr w = .ok (.ok ()) w' ∧
      Contents w' d (ch d) ((attr.newSize own).elim f f.resize) := by
  have hf := ht.chain d hd
  have hfuel : (ch d).length < w.env.fuel := Nat.lt_of_le_of_lt hf.length_le_fifteen (Nat.lt_of_succ_lt he.fuel)
  obtain ⟨w', vn, i, hr, hv, hw⟩ := setattr_changes hf.toChain he.script hfuel own attr
  refine ⟨w', hr, ?_⟩
  have hchain := hf.kept (.modify w d.client (ClientInode.contData?_setattrBy own attr w.env.now))
  cases hsize : attr.newSize own with
  | none =>
    have hkept : ∀ i : ClientInode, (i.setattrBy own attr w.env.now).bytes = i.bytes := fun i => by
      rw [ClientInode.bytes_setattrBy, hsize, Option.elim_none]
    exact (Pieces.copiedUp (h.pieces.frame fun x _ => World.bytes?_modify hkept d.client x.inode) hchain h.fits vn
      i).warm hw
  | some size =>
    obtain ⟨hle, hle'⟩ := hfit size hsize
    have hpos := List.length_pos_of_ne_nil hf.ne_nil
    exact ((h.pieces.resized hf hsize hle hle').copiedUp hchain
      (hle'.trans (Nat.le_mul_of_pos_right segLen hpos)) vn i).warm hw

/-- Reading a link whose text lies in the first segment. --/
theorem Contents.readlink (h : Contents w d (ch d) f) (ht : Tidy w root files ch) (hd : d ∈ files) (he : Obliging w.env)
    (hle : f.size ≤ segLen) (buflen : Nat) :
    Chunkfs.readlink d buflen w = .ok (.ok (((f.read 0 f.size).takeWhile (· ≠ 0)).take buflen)) w := by
  have hf := ht.chain d hd
  obtain ⟨vn, hv, hclient, -⟩ := hf.head.vnode
  obtain ⟨z, rest, hz, hzd⟩ := hf.first
  obtain ⟨i, hi, hpiece⟩ := h.pieces 0 z (by rw [hz]; rfl)
  rw [hzd] at hi
  have hsize : i.size = f.size := hpiece.size.trans (by rw [Nat.mul_zero, Nat.sub_zero, Nat.min_eq_right hle])
  have htext : i.readData 0 i.size = f.read 0 f.size := by
    have := hpiece.read (Nat.zero_le 0) f.size
    rw [Nat.mul_zero, Nat.zero_add, Nat.sub_zero, Nat.sub_zero, Nat.min_eq_left hle] at this
    rw [hsize]
    exact this
  have := readlink_calm he.script hv hclient (inode?_of_live hf.head.live hi) buflen
  rwa [htext] at this

/-- The bytes a client puts into a new object. --/
def NewObject.bytes (o : NewObject) : Bytes UInt8 := ⟨o.size, fun k => o.data.getD k 0⟩

/-- On disk a new object is there with its bytes; those of the other inodes are as they were. --/
theorem World.bytes?_withMade (w : World) (dir : ClientIno) (name : List Char) (o : NewObject) (links : Nat)
    (x : ClientIno) (vn : Vnode) (y : ClientIno) :
    (w.withMade dir name o links x vn).bytes? y = if y = x then some o.bytes else w.bytes? y := by
  have hstored : (w.withMade dir name o links x vn).bytes? y = (w.withVnode.withObject dir name o links x).bytes? y :=
    bytes?_modify (fun i => ClientInode.bytes_setFirst i 4 initCd) x y
  rw [hstored]
  by_cases hy : y = x
  · rw [if_pos hy]
    exact congrArg (Option.map ClientInode.bytes) (if_pos hy)
  · rw [if_neg hy]
    exact (congrArg (Option.map ClientInode.bytes) (if_neg hy)).trans
      (bytes?_modify (fun i => show (i.touchDir w.env.now links).bytes = i.bytes from rfl) dir y)

section Making
variable {w' : World} {dir d' : Dentry} {name : List Char} {o : NewObject} {links : Nat}

/-- The directory of a new object holds what it held. --/
theorem Contents.made_in (h : Contents w dir (ch dir) f) (ht : Tidy w root files ch) (hd : dir ∈ files)
    (he : Obliging w.env) (hr : makeObject dir.inode name o links w = .ok (.ok d') w') : Contents w' dir (ch dir) f := by
  have hf := ht.chain dir hd
  have hfuel : (ch dir).length < w.env.fuel := Nat.lt_of_le_of_lt hf.length_le_fifteen (Nat.lt_of_succ_lt he.fuel)
  rcases (makeObject_world hf.toChain ht.sound ht.fresh he.script hfuel (Nat.lt_of_le_of_lt (by decide) he.fuel) name o
    links).ok hr with ⟨e, hfail, -⟩ | ⟨x, vn, vd, i, hfree, hok, -, hk, hw⟩
  · cases hfail
  · cases hok
    refine (Pieces.copiedUp (h.pieces.frame fun y hy => ?_) (hf.kept hk) h.fits vd i).warm hw
    rw [World.bytes?_withMade, if_neg]
    rintro rfl
    obtain ⟨i, hi⟩ := ht.allocated hd (List.mem_map_of_mem hy)
    rw [hfree] at hi
    cases hi

/-- A new object holds what its client has put into it. --/
theorem Contents.of_made (ht : Tidy w root files ch) (he : Obliging w.env) (hdir : dir ∈ root :: files)
    (hr : makeObject dir.inode name o links w = .ok (.ok d') w') (hle : o.size ≤ segLen) :
    Contents w' d' [headOf d'] o.bytes := by
  obtain ⟨cs, hcs, hlen⟩ := ht.chain_of_mem hdir
  have hf : cs.length < w.env.fuel := Nat.lt_of_le_of_lt hlen (Nat.lt_of_succ_lt he.fuel)
  have hf' : 1 < w.env.fuel := Nat.lt_of_le_of_lt (by decide) he.fuel
  obtain ⟨-, hmade⟩ := (makeObject_meets hcs ht.sound ht.fresh he.script hf hf' name o links).ok hr
  rcases (makeObject_world hcs ht.sound ht.fresh he.script hf hf' name o links).ok hr with
    ⟨e, hfail, -⟩ | ⟨x, vn, vd, i, -, hok, -, -, hw⟩
  · cases hfail
  · cases hok
    obtain ⟨vn', hv', -, -, hsize⟩ := (hmade _ rfl).vnode
    have hbytes : w'.bytes? x = some o.bytes := by
      have hdisk : w'.bytes? x = (w.withMade dir.client name o links x vn).bytes? x := by
        rw [World.bytes?, hw.disk]
        rfl
      rw [hdisk, World.bytes?_withMade, if_pos rfl]
    refine ⟨.of_bytes? fun k y hy => ?_, ?_, fun vn'' hv'' => ?_⟩
    · obtain ⟨hk, rfl⟩ := List.getElem?_eq_some_iff.mp hy
      obtain rfl : k = 0 := Nat.lt_one_iff.mp hk
      refine ⟨o.bytes, hbytes, ?_, fun j _ => ?_⟩
      · rw [Nat.mul_zero, Nat.sub_zero]
        exact (Nat.min_eq_right hle).symm
      · rw [Nat.mul_zero, Nat.zero_add]
    · rwa [List.length_singleton, Nat.mul_one]
    · rw [hv'] at hv''
      cases hv''
      rw [hsize]
      refine s64_of_mem (Int.le_trans (by decide) (Int.natCast_nonneg _)) (Int.ofNat_lt.mpr ?_)
      exact Nat.lt_of_le_of_lt hle (by decide)

end Making

end Fitting

/-! ### Runs -/

/-- Every call works, and the clients store all they are given. --/
structure Generous (e : Env) : Prop extends Obliging e where
  whole : e.limit = none

/-- What a request makes of the flat file of `d`. --/
def flatStep (d : Dentry) (f : Bytes UInt8) : Request × Answer → Bytes UInt8
  | (.make _ _ o _, .made (.ok d')) => if d' = d then o.bytes else f
  | (.write file data p, .io r) => if file.dentry = d ∧ 0 ≤ r.ret then f.write p.toNat data else f
  | (.setattr own d' attr, .done (.ok _)) => if d' = d then (attr.newSize own).elim f f.resize else f
  | _ => f

/-- A request on `d` fits the flat file: what a write stores lies in one segment which the file reaches, and a size is
    set only where the file lies and stays in its first segment. --/
def FitsFlat (d : Dentry) (f : Bytes UInt8) : Request × Answer → Prop
  | (.make _ _ o _, .made (.ok d')) => d' = d → o.size ≤ segLen
  | (.write file data p, _) => file.dentry = d → file.flags &&& oAppend = 0 ∧ 0 ≤ p ∧ p < 2 ^ 63 ∧ (data ≠ [] →
      p.toNat + data.length ≤ segLen * (p.toNat / segLen) + segLen ∧ segLen * (p.toNat / segLen) ≤ f.size)
  | (.setattr own d' attr, _) => d' = d → ∀ size, attr.newSize own = some size → f.size ≤ segLen ∧ size ≤ segLen
  | _ => True

/-- The answer of a request on `d` is that of the flat file, where a read may stop at the end of a segment. --/
def AgreesFlat (d : Dentry) (f : Bytes UInt8) : Request × Answer → Prop
  | (.read file len p, .io r) => file.dentry = d → 0 ≤ p → p < 2 ^ 63 → r.ret = r.buf.length ∧
      r.buf = f.read p.toNat (min len (segLen * (p.toNat / segLen) + segLen - p.toNat))
  | (.write file data _, .io r) => file.dentry = d → r.ret = data.length ∨ r.ret < 0
  | (.readlink d' buflen, .link r) => d' = d → f.size ≤ segLen →
      r = .ok (((f.read 0 f.size).takeWhile (· ≠ 0)).take buflen)
  | _ => True

/-- Every request of a log fits the flat file as it then is. --/
def AllFitFlat (d : Dentry) : Bytes UInt8 → List (Request × Answer) → Prop
  | _, [] => True
  | f, x :: log => FitsFlat d f x ∧ AllFitFlat d (flatStep d f x) log

/-- Every answer of a log is that of the flat file as it then is. --/
def AllAgreeFlat (d : Dentry) : Bytes UInt8 → List (Request × Answer) → Prop
  | _, [] => True
  | f, x :: log => AgreesFlat d f x ∧ AllAgreeFlat d (flatStep d f x) log

section Runs
variable {w w' : World} {root d : Dentry} {files : List Dentry} {ch ch' : Dentry → List Continuation} {f : Bytes UInt8}
  {q : Request} {a : Answer} {cs cs' : List Continuation}

/-- A world has one chain from a head, whatever its environment is. --/
theorem Chain.only (h : Chain w d cs) (h' : Chain w d cs') {e : Env} (he : Obliging e) : cs = cs' := by
  have hk := Kept.withEnv w he
  exact (h.kept hk).unique (h'.kept hk) he.script

/-- A request on another file is none on the flat file of `d`. --/
theorem flat_of_other (hne : q.target ≠ d) (hnew : a ≠ .made (.ok d)) :
    flatStep d f (q, a) = f ∧ AgreesFlat d f (q, a) := by
  cases q with
  | make dir name o links =>
    refine ⟨?_, trivial⟩
    rcases a with (_ | d') | _ | _ | _ | _ | _
    case made.ok => exact if_neg fun he => hnew (by rw [he])
    all_goals rfl
  | write file data p =>
    rcases a with _ | _ | r | _ | _ | _
    case io => exact ⟨if_neg fun he => hne he.1, fun he => absurd he hne⟩
    all_goals exact ⟨rfl, trivial⟩
  | read file len p =>
    rcases a with _ | _ | r | _ | _ | _
    case io => exact ⟨rfl, fun he => absurd he hne⟩
    all_goals exact ⟨rfl, trivial⟩
  | setattr own d' attr =>
    rcases a with _ | _ | _ | (_ | _) | _ | _
    case done.ok => exact ⟨if_neg hne, trivial⟩
    all_goals exact ⟨rfl, trivial⟩
  | readlink d' buflen =>
    rcases a with _ | _ | _ | _ | r | _
    case link => exact ⟨rfl, fun he => absurd he hne⟩
    all_goals exact ⟨rfl, trivial⟩
  | «open» _ => exact ⟨rfl, trivial⟩
  | fsync _ _ _ => exact ⟨rfl, trivial⟩
  | writeInode _ => exact ⟨rfl, trivial⟩

/-- The answer of a request on an object that is there, and what it leaves. --/
theorem Request.run_of_mem (hin : q.target ∈ q.targets root files) (hr : q.run root files w = .ok a w') :
    q.call w = .ok a w' := by
  unfold run at hr
  rwa [if_pos hin] at hr

/-- An object that is not there answers nothing; the others are asked, and only `make` makes one. --/
theorem Request.run_cases (hr : q.run root files w = .ok a w') :
    a = .unknown ∨
      (∃ dir name o links r, q = .make dir name o links ∧ a = .made r ∧ dir ∈ root :: files ∧
        makeObject dir.inode name o links w = .ok r w') ∨
      (q.target ∈ files ∧ ∀ d, a ≠ .made (.ok d)) := by
  by_cases hin : q.target ∈ q.targets root files
  · have hcall := q.run_of_mem hin hr
    cases q with
    | make dir name o links =>
      obtain ⟨r, w₁, hmake, h₁⟩ := bind_eq_ok.mp hcall
      cases h₁
      exact Or.inr (Or.inl ⟨dir, name, o, links, r, rfl, rfl, hin, hmake⟩)
    | _ =>
      obtain ⟨r, w₁, -, h₁⟩ := bind_eq_ok.mp hcall
      cases h₁
      exact Or.inr (Or.inr ⟨hin, nofun⟩)
  · unfold run at hr
    rw [if_neg hin] at hr
    cases hr
    exact Or.inl rfl

theorem agreesFlat_unknown (d : Dentry) (f : Bytes UInt8) (q : Request) : AgreesFlat d f (q, .unknown) := by
  cases q <;> trivial

/-- A request that fits does to its own file what it does to the flat file. --/
theorem Contents.request (h : Contents w d (ch d) f) (ht : Tidy w root files ch) (hd : d ∈ files) (he : Generous w.env)
    (hq : q.target = d) (hr : q.run root files w = .ok a w') (hm : Answered w root files ch q a w' ch')
    (hfit : FitsFlat d f (q, a)) : AgreesFlat d f (q, a) ∧ Contents w' d (ch' d) (flatStep d f (q, a)) := by
  have hf := ht.chain d hd
  have hfuel : (ch d).length < w.env.fuel := Nat.lt_of_le_of_lt hf.length_le_fifteen (Nat.lt_of_succ_lt he.fuel)
  have hc : Calm w := he.script
  obtain ⟨vn, hv, hclient, -⟩ := hf.head.vnode
  replace hr := q.run_of_mem (by cases q <;> first | exact hq ▸ hd | exact List.mem_cons_of_mem _ (hq ▸ hd)) hr
  have hsteady := fun hw => hm.steady hw d hd
  cases q with
  | make dir name o links =>
    obtain rfl : dir = d := hq
    rw [hsteady nofun]
    obtain ⟨r, w₁, hmake, h₁⟩ := bind_eq_ok.mp hr
    cases h₁
    cases r with
    | error e =>
      rcases (makeObject_world hf.toChain ht.sound ht.fresh hc hfuel (Nat.lt_of_le_of_lt (by decide) he.fuel) name o
        links).ok hmake with ⟨e, -, rfl⟩ | ⟨x, vn, vd, i, -, hok, -⟩
      · exact ⟨trivial, h.frame (fun _ _ => rfl) rfl⟩
      · cases hok
    | ok d' =>
      have hne : d' ≠ dir := fun he => (hm.new d' rfl).1 (he ▸ hd)
      have hflat : flatStep dir f (.make dir name o links, .made (.ok d')) = f := if_neg hne
      rw [hflat]
      exact ⟨trivial, h.made_in ht hd he.toObliging hmake⟩
  | «open» file =>
    obtain ⟨r, w₁, vn, i, hopen, -, hw⟩ := openFs_calm hf hc hfuel hq
    rw [hsteady nofun]
    cases hr.symm.trans (bind_ok hopen)
    exact ⟨trivial, (h.pieces.copiedUp hf h.fits vn i).warm hw⟩
  | read file len p =>
    rw [hsteady nofun]
    obtain ⟨r, w₁, hread, hends⟩ := read_leaves (p := p) hf.toChain hc hfuel hq len
    cases hr.symm.trans (bind_ok hread)
    refine ⟨fun _ h₀ hp => ?_, ?_⟩
    · obtain ⟨n, rfl⟩ := Int.eq_ofNat_of_zero_le h₀
      obtain ⟨r', w₂, hread', hbuf, hret, -⟩ := h.read ht hd he.toObliging he.whole hq (p := n) (by omega) len
      cases hread.symm.trans hread'
      exact ⟨hret, hbuf⟩
    · rcases hends with hw | ⟨vn, i, -, hw⟩
      · exact h.warm hw
      · exact (h.pieces.copiedUp hf h.fits vn i).warm hw
  | write file data p =>
    obtain ⟨hflags, h₀, hp, hdata⟩ := hfit hq
    obtain ⟨n, rfl⟩ := Int.eq_ofNat_of_zero_le h₀
    obtain ⟨r, w₁, cs, hwrite, hchain, hends⟩ := h.write ht hd he.toObliging he.whole hq hflags (p := n) (by omega)
      (fun hne => (hdata hne).1) fun hne => (hdata hne).2
    cases hr.symm.trans (bind_ok hwrite)
    obtain rfl := hchain.only (hm.tidy.chain d hd).toChain he.toObliging
    rcases hends with ⟨hret, hh⟩ | ⟨hret, hh⟩
    · have hflat : flatStep d f (.write file data n, .io r) = f.write n data :=
        if_pos ⟨hq, hret ▸ Int.natCast_nonneg _⟩
      rw [hflat]
      exact ⟨fun _ => Or.inl hret, hh⟩
    · have hflat : flatStep d f (.write file data n, .io r) = f := if_neg fun h => Int.not_le.mpr hret h.2
      rw [hflat]
      exact ⟨fun _ => Or.inr hret, hh⟩
  | fsync file first last =>
    obtain ⟨w₁, hsync, hw⟩ := (fsyncLoop_reads (hf.walkable.follows hc.honest) hc hfuel first last w (.refl w)).calm hc
    have hrun : fsyncFile file first last w = .ok (.ok ()) w₁ := by
      unfold fsyncFile
      rw [bind_ok (get_apply w), show file.dentry = d from hq]
      exact hsync
    rw [hsteady nofun]
    cases hr.symm.trans (bind_ok hrun)
    exact ⟨trivial, h.warm hw⟩
  | setattr own d₀ attr =>
    obtain rfl : d₀ = d := hq
    obtain ⟨w₁, hset, hh⟩ := h.setattr ht hd he.toObliging own attr (hfit rfl)
    rw [hsteady nofun]
    cases hr.symm.trans (bind_ok hset)
    have hflat : flatStep d₀ f (.setattr own d₀ attr, .done (.ok ())) = (attr.newSize own).elim f f.resize := if_pos rfl
    rw [hflat]
    exact ⟨trivial, hh⟩
  | writeInode d₀ =>
    obtain rfl : d₀ = d := hq
    rw [hsteady nofun]
    cases hr.symm.trans (bind_ok (writeInode_calm hc hv hclient))
    exact ⟨trivial, h.frame (fun x _ => World.bytes?_modify (g := fun i => { i with attrs := vn.attrs }) (fun _ => rfl)
      d₀.client x.inode) rfl⟩
  | readlink d₀ buflen =>
    obtain rfl : d₀ = d := hq
    rw [hsteady nofun]
    obtain ⟨z, rest, hz, hzd⟩ := hf.first
    obtain ⟨i, hi, -⟩ := (hf.elem z (by rw [hz]; exact List.mem_cons_self)).allocated
    rw [hzd] at hi
    have hlink := readlink_calm hc hv hclient (inode?_of_live hf.head.live hi) buflen
    cases hr.symm.trans (bind_ok hlink)
    exact ⟨fun _ hle => (EStateM.Result.ok.inj (hlink.symm.trans (h.readlink ht hd he.toObliging hle buflen))).1, h⟩

/-- One request, for every file at once. --/
theorem Tidy.request_flat (h : Tidy w root files ch) (he : Generous w.env) (q : Request) :
    Meets (q.run root files) w (fun a w' => ∃ ch', Tidy w' root (a.files files) ch' ∧
      ∀ d f, (d ∈ files → Contents w d (ch d) f) → FitsFlat d f (q, a) →
        AgreesFlat d f (q, a) ∧ (d ∈ a.files files → Contents w' d (ch' d) (flatStep d f (q, a)))) w.env.Stops := by
  refine (h.request he.toObliging q).run.mono ?_ fun _ _ hs => hs
  rintro a w' ⟨hr, ch', hm⟩
  refine ⟨ch', hm.tidy, fun d f hcont hfit => ?_⟩
  by_cases hd : d ∈ files
  · by_cases hq : q.target = d
    · obtain ⟨hagree, hh⟩ := (hcont hd).request h hd he hq hr hm hfit
      exact ⟨hagree, fun _ => hh⟩
    · obtain ⟨hflat, hagree⟩ := flat_of_other (f := f) hq fun hmade => (hm.new d hmade).1 hd
      obtain ⟨hch, hu⟩ := hm.others d hd fun he => hq he.symm
      rw [hflat, hch]
      exact ⟨hagree, fun _ => (hcont hd).untouched hu⟩
  · rcases Request.run_cases hr with rfl | ⟨dir, name, o, links, r, rfl, rfl, hdir, hmake⟩ | ⟨hin, hother⟩
    · exact ⟨agreesFlat_unknown d f q, fun hd' => absurd hd' hd⟩
    · refine ⟨trivial, fun hd' => ?_⟩
      rcases r with e | d'
      · exact absurd hd' hd
      obtain rfl : d = d' := (List.mem_cons.mp hd').resolve_right hd
      have hflat : flatStep d f (.make dir name o links, .made (.ok d)) = o.bytes := if_pos rfl
      rw [hflat, (hm.new d rfl).2.1]
      exact .of_made h he.toObliging hdir hmake (hfit rfl)
    · have hne : q.target ≠ d := fun hq => hd (hq ▸ hin)
      refine ⟨(flat_of_other hne (hother d)).2, fun hd' => absurd ?_ hd⟩
      rcases a with (_ | d') | _ | _ | _ | _ | _
      case made.ok => exact absurd rfl (hother d')
      all_goals exact hd'

/-- Making one object, which then holds what its client has put into it. --/
theorem Tidy.make_flat (h : Tidy w root files ch) (he : Generous w.env) (dir : Dentry) (name : List Char) (o : NewObject)
    (links : Nat) (ho : o.size ≤ segLen) :
    Meets ((Request.make dir name o links).run root files) w (fun a w' => ∃ ch', Tidy w' root (a.files files) ch' ∧
      ∀ d, a = .made (.ok d) → d ∉ files ∧ Contents w' d (ch' d) o.bytes) w.env.Stops := by
  refine (h.request he.toObliging (.make dir name o links)).run.mono ?_ fun _ _ hs => hs
  rintro a w' ⟨hr, ch', hm⟩
  refine ⟨ch', hm.tidy, fun d hd => ?_⟩
  subst hd
  rcases Request.run_cases hr with hnone | ⟨_, _, _, _, r, hq, hmade, hdir, hmake⟩ | ⟨-, hother⟩
  · cases hnone
  · cases hq
    cases hmade
    obtain ⟨hnew, hch, -⟩ := hm.new d rfl
    rw [hch]
    exact ⟨hnew, .of_made h he.toObliging hdir hmake ho⟩
  · exact absurd rfl (hother d)

/-- A run, for every file at once. --/
theorem Tidy.requests_flat {qs : List (Env × Request)} (h : Tidy w root files ch) (he : ∀ x ∈ qs, Generous x.1) :
    Meets (runRequests root qs files) w (fun log w' => ∃ ch', Tidy w' root (filesAfter files log) ch' ∧
      ∀ d f, (d ∈ files → Contents w d (ch d) f) → AllFitFlat d f log → AllAgreeFlat d f log ∧
        (d ∈ filesAfter files log → Contents w' d (ch' d) (log.foldl (flatStep d) f))) (Stopped qs) := by
  induction qs generalizing w files ch with
  | nil => exact ⟨ch, h, fun d f hcont _ => ⟨trivial, hcont⟩⟩
  | cons x qs ih =>
    obtain ⟨e, q⟩ := x
    have hx : Generous e := he (e, q) List.mem_cons_self
    have hfirst := ((h.kept (.withEnv w hx.toObliging)).request_flat (w := w.withEnv e) hx q).mono (fun _ _ hq => hq)
      (stopped_head (e, q) qs)
    refine meets_bind_ok (modify_apply _ w) (hfirst.bind fun a w₁ ⟨ch₁, h₁, hstep⟩ => ?_)
    have hlater := (ih h₁ fun x hm => he x (List.mem_cons_of_mem _ hm)).mono (fun _ _ hq => hq) (stopped_tail (e, q))
    refine hlater.bind fun log w₂ ⟨ch₂, h₂, hrest⟩ => ⟨ch₂, h₂, fun d f hcont hfit => ?_⟩
    obtain ⟨hagree, hcont₁⟩ := hstep d f (fun hd => (hcont hd).untouched (.withEnv w e d (ch d))) hfit.1
    obtain ⟨hagrees, hcont₂⟩ := hrest d _ hcont₁ hfit.2
    exact ⟨⟨hagree, hagrees⟩, hcont₂⟩

end Runs

/-- In every run on a mounted pool that returns each file is a flat file of its own, as far as the requests on it fit the
    flat file, and whatever is done to the others: its answers are those of the flat file, and its size is the same. Only
    memory that was never set can stop a run. --/
theorem files_refine_flat {w : World} {root : Dentry} (h : Mounted w root) (qs : List (Env × Request))
    (he : ∀ x ∈ qs, Generous x.1) :
    (∀ log w', runRequests root qs [] w = .ok log w' →
      ∀ d, AllFitFlat d Bytes.empty log → AllAgreeFlat d Bytes.empty log ∧
        (d ∈ filesAfter [] log → ∃ vn, w'.vnode d.inode = some vn ∧
          vn.size = (log.foldl (flatStep d) Bytes.empty).size)) ∧
      ((∀ x ∈ qs, x.1.Tame) → ∃ log w', runRequests root qs [] w = .ok log w') := by
  refine ⟨fun log w' hr d hfit => ?_, h.tidy.requests_return fun x hx => (he x hx).toObliging⟩
  obtain ⟨ch, ht, hflat⟩ := (h.tidy.requests_flat he).ok hr
  obtain ⟨hagree, hcont⟩ := hflat d Bytes.empty (fun hd => absurd hd List.not_mem_nil) hfit
  refine ⟨hagree, fun hd => ?_⟩
  obtain ⟨vn, hv, -⟩ := (ht.chain d hd).head.vnode
  exact ⟨vn, hv, (hcont hd).size vn hv⟩

theorem quietEnv_generous : Generous quietEnv := ⟨quietEnv_obliging, rfl⟩

/-- Two files are made: the second is written across a border of segments, the first is read back. --/
theorem files_refine_flat_two_files :
    let first : File := ⟨⟨1, ⟨1, 30⟩⟩, 0, 2⟩
    let second : File := ⟨⟨2, ⟨1, 31⟩⟩, 0, 2⟩
    let e : Env := { quietEnv with ialloc := fun _ => 31 }
    let qs : List (Env × Request) := [(quietEnv, .make ⟨0, rootIno⟩ "a".toList ⟨0o100644, 0, 1, [], 0, true⟩ 0),
      (e, .make ⟨0, rootIno⟩ "b".toList ⟨0o100644, 0, 1, [], 0, true⟩ 0), (quietEnv, .write first [1, 2] 0),
      (quietEnv, .write second [3, 4] 40959), (quietEnv, .write first [5] 1), (quietEnv, .read first 9 0)]
    ∃ w, readRoot 1 (prepared [1, 2] quietEnv) = .ok (.ok ⟨0, rootIno⟩) w ∧
      ∃ (log : List (Request × Answer)) (w' : World), runRequests ⟨0, rootIno⟩ qs [] w = .ok log w' ∧
        AllFitFlat first.dentry Bytes.empty log ∧ AllAgreeFlat first.dentry Bytes.empty log ∧
        ∃ vn, w'.vnode 1 = some vn ∧ vn.size = 2 := by
  intro first second e qs
  obtain ⟨w, hr, -, hm⟩ := readRoot_mounts [1, 2] (by decide) (by decide) quietEnv_obliging
  have he : Generous e := ⟨⟨rfl, fun _ => show 31 < 2 ^ 28 by decide, by decide⟩, rfl⟩
  have htame : ∀ x ∈ qs, x.1.Tame := by simp [qs, quietEnv_tame, show e.Tame from quietEnv_tame]
  obtain ⟨hall, hreturns⟩ := files_refine_flat hm qs (by simp [qs, he, quietEnv_generous])
  obtain ⟨log, w', hlog⟩ := hreturns htame
  have hvalue : (do
      let _ ← readRoot 1
      runRequests ⟨0, rootIno⟩ qs [] : Kern _).run' (prepared [1, 2] quietEnv) = some ((qs.map (·.2)).zip
        [.made (.ok first.dentry), .made (.ok second.dentry), .io ⟨2, [], 2, first⟩,
          .io ⟨2, [], 40961, { second with pos := 40959 }⟩, .io ⟨1, [], 2, { first with pos := 1 }⟩,
          .io ⟨2, [1, 5], 2, first⟩]) := by decide +kernel
  obtain ⟨t, ht⟩ := of_run' hvalue
  rw [bind_ok hr, hlog] at ht
  obtain ⟨hsame, -⟩ := EStateM.Result.ok.inj ht
  have hfit : AllFitFlat first.dentry Bytes.empty log := by
    rw [hsame]
    exact ⟨fun _ => Nat.zero_le _, fun h => absurd h (by decide), fun _ => by decide +kernel, fun h => absurd h (by decide),
      fun _ => by decide +kernel, trivial, trivial⟩
  obtain ⟨hagree, hsize⟩ := hall log w' hlog first.dentry hfit
  obtain ⟨vn, hv, hn⟩ := hsize (by rw [hsame]; decide)
  have hflat : (log.foldl (flatStep first.dentry) Bytes.empty).size = 2 := by
    rw [hsame]
    decide +kernel
  exact ⟨w, hr, log, w', hlog, hfit, hagree, vn, hv, by rw [hn, hflat]; rfl⟩

end Chunkfs
