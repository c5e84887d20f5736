import Chunkfs.Theorems.Chains

/-! One read or write of a file in a world where every call works. The chain decides which client inode is
    opened; the client moves the bytes; then the attributes of that inode and the summed size of the chain are
    copied up. The world after it is given up to reading (`Warm`). -/

namespace Chunkfs
open Exec Word

/-- The world after the attributes of a client inode have been copied up to the chunkfs inode of `d`. --/
def World.copiedUp (w : World) (d : Dentry) (vn : Vnode) (i : ClientInode) (cs : List Continuation) : World :=
  w.setVnode d.inode { vn with attrs := i.attrs, size := sumSizes w (cs.map (·.inode)) 0 }

theorem Warm.copiedUp {w w' : World} (hw : Warm w w') {cs : List Continuation}
    (hlive : ∀ c ∈ cs, w.icache c.inode = .live) (d : Dentry) (vn : Vnode) (i : ClientInode) :
    Warm (w.copiedUp d vn i cs) (w'.copiedUp d vn i cs) := by
  unfold World.copiedUp
  rw [sumSizes_warm hw fun x hx => by
    obtain ⟨y, hy, rfl⟩ := List.mem_map.mp hx
    exact hlive y hy]
  exact hw.setVnode _ _

/-- What storing bytes makes of a client inode, which loses its set-ID bits first. --/
def ClientInode.wrote (i : ClientInode) (e : Env) (pos : Nat) (stored : List UInt8) : ClientInode :=
  if stored = [] then i else (i.fileRemoveSuid e).writeData pos stored e.now

@[simp] theorem ClientInode.wrote_nil (i : ClientInode) (e : Env) (pos : Nat) : i.wrote e pos [] = i := if_pos rfl

@[simp] theorem ClientInode.contData?_wrote (i : ClientInode) (e : Env) (pos : Nat) (stored : List UInt8) :
    (i.wrote e pos stored).contData? = i.contData? := by
  unfold wrote
  split
  · rfl
  · exact contData?_writeData ..

/-- Of the environment only the time and the caller matter. --/
theorem ClientInode.wrote_script (i : ClientInode) (e : Env) (s : List Outcome) (pos : Nat) (stored : List UInt8) :
    i.wrote { e with script := s } pos stored = i.wrote e pos stored := rfl

/-- The world after a client has written to one of its inodes. --/
def World.wrote (w : World) (c : ClientIno) (pos : Nat) (stored : List UInt8) : World :=
  w.setDisk (w.disk.modify c fun i => i.wrote w.env pos stored)

theorem Warm.wrote {w w' : World} (hw : Warm w w') (c : ClientIno) (pos : Nat) (stored : List UInt8) :
    Warm (w.wrote c pos stored) (w'.wrote c pos stored) := by
  unfold World.wrote
  rw [hw.disk, hw.env]
  exact hw.setDisk _

theorem World.wrote_nil (w : World) (c : ClientIno) (pos : Nat) : w.wrote c pos [] = w := by
  simp only [wrote, setDisk, ClientInode.wrote_nil]
  rw [show (fun i : ClientInode => i) = id from rfl, Disk.modify_id]

/-- The world after a client has taken the set-ID bits of one of its inodes. --/
def World.stripped (w : World) (c : ClientIno) : World := w.setDisk (w.disk.modify c fun i => i.fileRemoveSuid w.env)

/-- First the set-ID bits go, then the bytes come. --/
theorem World.wrote_eq (w : World) (c : ClientIno) (pos : Nat) {stored : List UInt8} (hne : stored ≠ []) :
    w.wrote c pos stored =
      (w.stripped c).setDisk ((w.stripped c).disk.modify c fun i => i.writeData pos stored w.env.now) := by
  simp only [wrote, stripped, setDisk, ClientInode.wrote, if_neg hne]
  rw [Disk.modify_modify]
  rfl

section Opening
variable {w : World} {d : Dentry} {cs : List Continuation} {c : Continuation} {file : File} {p : Int}

theorem openContFile_finds (hh : Honest w) (hfile : file.dentry = d)
    (h : Finds (getContAtOffset d p) w (.ok c) c.inode) :
    Finds (openContFile file p) w (.ok (openedAt c file.flags p)) c.inode := by
  unfold openContFile
  rw [hfile]
  refine h.bind fun w₁ h₁ hlive => ?_
  refine .of_reads (dentryOpen_reads (hh.warm h₁) c.inode file.flags) fun w₂ h₂ => ?_
  exact (Reads.pure _ w₂).finds (h₂.live hlive)

theorem openContFile_error (hfile : file.dentry = d) {e : Errno} (h : Reads (getContAtOffset d p) w (.error e)) :
    Reads (openContFile file p) w (.error e) := by
  unfold openContFile
  rw [hfile]
  exact h.bind fun w₁ _ => .pure _ w₁

end Opening

/-! ### The clients' reads and writes -/

section Client
variable {w : World} {i : ClientInode} {file : ClientFile} {pos : Int}

theorem clientRead_reads (hh : Honest w) (file : ClientFile) (hi : w.inode? file.inode = some i) (hpos : 0 ≤ pos)
    (len : Nat) :
    let buf := i.readData pos.toNat (w.env.transfer len)
    Reads (clientRead file len pos) w ⟨buf.length, buf, pos + buf.length⟩ := by
  refine (ask_reads hh).bind fun w₁ h₁ => get_bind_reads ?_
  have ht : w₁.env.transfer len = w.env.transfer len := by rw [h₁.env]; rfl
  simp only [h₁.inode? hi, if_neg (Int.not_lt.mpr hpos), ht]
  exact .pure _ w₁

theorem ask_calm (h : Calm w) : ask w = .ok none w := by
  unfold ask
  rw [h]

/-- Where the client puts the bytes. --/
def writeStart (file : ClientFile) (i : ClientInode) (pos : Int) : Int :=
  if file.flags &&& oAppend = 0 then pos else i.size

theorem writeStart_of_not_append (h : file.flags &&& oAppend = 0) : writeStart file i pos = pos := if_pos h

/-- Where a write leaves the position: it stays when nothing is stored. --/
def writeEnd (file : ClientFile) (i : ClientInode) (pos : Int) (stored : List UInt8) : Int :=
  if stored = [] then pos else writeStart file i pos + stored.length

theorem writeEnd_of_not_append (h : file.flags &&& oAppend = 0) (stored : List UInt8) :
    writeEnd file i pos stored = pos + stored.length := by
  unfold writeEnd
  rw [writeStart_of_not_append h]
  split
  · rename_i hnil
    rw [hnil, List.length_nil, Int.natCast_zero, Int.add_zero]
  · rfl

theorem clientWrite_stores (h : Calm w) (file : ClientFile) (hi : w.inode? file.inode = some i) {data stored : List UInt8}
    (hs : stored = data.take (w.env.transfer data.length)) (h₀ : 0 ≤ writeStart file i pos)
    (hlt : writeStart file i pos + stored.length < 2 ^ 63) :
    clientWrite file data pos w = .ok ⟨stored.length, [], writeEnd file i pos stored⟩
      (w.wrote file.inode (writeStart file i pos).toNat stored) := by
  subst hs
  unfold clientWrite
  rw [bind_ok (ask_calm h)]
  simp only [bind_ok (get_apply w), hi]
  have hneg : ¬(if file.flags &&& oAppend = 0 then pos else (i.size : Int)) < 0 := Int.not_lt.mpr h₀
  have hbig : ¬2 ^ 63 ≤ (if file.flags &&& oAppend = 0 then pos else (i.size : Int)) +
      (data.take (w.env.transfer data.length)).length := Int.not_le.mpr hlt
  by_cases hnil : data.take (w.env.transfer data.length) = []
  · simp only [if_neg hneg, hnil, ↓reduceIte]
    rw [World.wrote_nil]
    rfl
  · have hcalm : Calm (w.stripped file.inode) := h
    simp only [if_neg hneg, if_neg hbig, if_neg hnil]
    rw [bind_ok (set_apply _ w), World.wrote_eq w _ _ hnil]
    refine (bind_ok (ask_calm hcalm)).trans ?_
    unfold writeEnd
    rw [if_neg hnil]
    rfl

theorem clientWrite_fails (h : Calm w) (hi : w.inode? file.inode = some i) {data : List UInt8}
    (hbad : writeStart file i pos < 0 ∨
      2 ^ 63 ≤ writeStart file i pos + (data.take (w.env.transfer data.length)).length) :
    ∃ r : Int, clientWrite file data pos w = .ok ⟨r, [], pos⟩ w := by
  unfold clientWrite
  rw [bind_ok (ask_calm h)]
  simp only [bind_ok (get_apply w), hi]
  unfold writeStart at hbad
  by_cases hneg : (if file.flags &&& oAppend = 0 then pos else (i.size : Int)) < 0
  · exact ⟨_, by simp only [if_pos hneg]; rfl⟩
  · by_cases hnil : data.take (w.env.transfer data.length) = []
    · exact ⟨_, by simp only [if_neg hneg, if_pos hnil]; rfl⟩
    · exact ⟨_, by simp only [if_neg hneg, if_neg hnil, if_pos (hbad.resolve_left hneg)]; rfl⟩

end Client

/-! ### A whole call -/

section Calls
variable {w : World} {d : Dentry} {cs : List Continuation} {c : Continuation} {file : File} {vn : Vnode}
  {i : ClientInode}

/-- Closing copies up, and sets the caller's file back to the position it had. --/
theorem closeContFile_calm (h : Chain w d cs) (hc : Calm w) (hf : cs.length < w.env.fuel)
    (hv : w.vnode d.inode = some vn) (client : ClientFile) (hi : w.inode? client.inode = some i)
    (hfile : file.dentry = d) (cont : Continuation) :
    ∃ w', closeContFile file client cont w = .ok (copyUpFile file client cont.cd.start) w' ∧
      Warm (w.copiedUp d vn i cs) w' := by
  obtain ⟨w₁, hr₁, hw₁⟩ := copyUpInode_calm h hc hf hv hi
  have hc₁ : Calm w₁ := Calm.warm (w := w.copiedUp d vn i cs) hc hw₁
  obtain ⟨w₂, hr₂, hw₂⟩ := (putContinuation_reads (w := w₁) cont).calm hc₁
  refine ⟨w₂, ?_, hw₁.trans hw₂⟩
  unfold closeContFile
  rw [hfile, bind_ok hr₁, bind_ok hr₂]
  rfl

theorem copyDownFile_eq {p : Int} {start : Nat} (h₀ : (start : Int) ≤ p) (hlt : p < 2 ^ 63) :
    copyDownFile p start = p - start := s64_of_mem (by omega) (by omega)

theorem covers_iff {cd : ContData} {p : Int} (h₀ : 0 ≤ p) (hlt : p < 2 ^ 63) :
    cd.covers p = true ↔ (cd.start : Int) ≤ p ∧ p < ((cd.start + cd.len) % 2 ^ 64 : Nat) := by
  have hu := u64_of_nonneg h₀ (by omega)
  simp only [ContData.covers, Bool.and_eq_true, decide_eq_true_eq]
  omega

/-- The position that closing stores is the one the file was opened for. --/
theorem copyUpFile_openedAt {p : Int} (cont : Continuation) (flags : Nat) (h₀ : 0 ≤ p) (hlt : p < 2 ^ 63) :
    copyUpFile file (openedAt cont flags p).file cont.cd.start = { file with pos := p } := by
  simp only [copyUpFile, openedAt, copyDownFile]
  congr 1
  unfold s64
  omega

/-- A read inside the chain goes to the element that covers the position. --/
theorem read_found (h : Chain w d cs) (hc : Calm w) (hf : cs.length < w.env.fuel) (hv : w.vnode d.inode = some vn)
    (hfile : file.dentry = d) {p : Int} (h₀ : 0 ≤ p) (hlt : p < 2 ^ 63)
    (hfind : cs.find? (·.cd.covers p) = some c) (hi : w.disk.inode c.inode = some i) {len : Nat} {buf : List UInt8}
    (hbuf : buf = i.readData (p - c.cd.start).toNat (w.env.transfer len)) (hn : buf.length < 2 ^ 31) :
    ∃ w', read file len p w = .ok ⟨buf.length, buf, p - c.cd.start + buf.length, { file with pos := p }⟩ w' ∧
      Warm (w.copiedUp d vn i cs) w' := by
  subst hbuf
  have hcov := (covers_iff h₀ hlt).mp (by simpa using List.find?_some hfind)
  have hlive := h.live c (List.mem_of_find?_eq_some hfind)
  obtain ⟨w₁, hr₁, hw₁⟩ := ((openContFile_finds hc.honest hfile
    (getContAtOffset_finds (h.walkable.follows hc.honest) hf hfind)).reads).calm hc
  have hc₁ := hc.warm hw₁
  have hi₁ : w₁.inode? c.inode = some i := hw₁.inode? (inode?_of_live hlive hi)
  have ht : w₁.env.transfer len = w.env.transfer len := by rw [hw₁.env]; rfl
  have hpos : (openedAt c file.flags p).ppos = p - c.cd.start := copyDownFile_eq hcov.1 hlt
  obtain ⟨w₂, hr₂, hw₂⟩ := (clientRead_reads hc₁.honest (openedAt c file.flags p).file hi₁
    (Int.sub_nonneg_of_le hcov.1) len).calm hc₁
  rw [ht] at hr₂
  have hw := hw₁.trans hw₂
  obtain ⟨w₃, hr₃, hw₃⟩ := closeContFile_calm (h.warm hw) (hc.warm hw) (by rw [hw.fuel]; exact hf)
    (by rw [hw.vnode]; exact hv) (openedAt c file.flags p).file (hw₂.inode? hi₁) hfile c
  refine ⟨w₃, ?_, ?_⟩
  · unfold read
    rw [bind_ok hr₁]
    simp only [hpos]
    rw [bind_ok hr₂]
    have hint : int32 ((i.readData (p - c.cd.start).toNat (w.env.transfer len)).length : Int) =
        (i.readData (p - c.cd.start).toNat (w.env.transfer len)).length := int32_of_mem (by omega) (by omega)
    rw [hint, if_neg (Errno.natCast_ne_ret _ _), openedAt_cont, bind_ok hr₃, copyUpFile_openedAt c _ (by omega) hlt]
    rfl
  · exact (hw.copiedUp h.live d vn i).trans hw₃

/-- A read past the chain gives nothing. --/
theorem read_past (h : Walkable w d cs) (hc : Calm w) (hf : cs.length < w.env.fuel) (hfile : file.dentry = d) {p : Int}
    (hfind : cs.find? (·.cd.covers p) = none) (len : Nat) :
    ∃ w', read file len p w = .ok ⟨0, [], p, file⟩ w' ∧ Warm w w' := by
  obtain ⟨w₁, hr₁, hw₁⟩ := (openContFile_error hfile (getContAtOffset_enoent (h.follows hc.honest) hf hfind)).calm hc
  refine ⟨w₁, ?_, hw₁⟩
  unfold read
  rw [bind_ok hr₁]
  rfl

theorem Kept.wrote (w : World) (c : ClientIno) (pos : Nat) (stored : List UInt8) : Kept w (w.wrote c pos stored) :=
  .modify w c fun i => ClientInode.contData?_wrote i w.env pos stored

theorem Kept.copiedUp {cs : List Continuation} (hv : w.vnode d.inode = some vn) (i : ClientInode) :
    Kept w (w.copiedUp d vn i cs) := .setVnode w hv _ rfl rfl

theorem World.inode?_wrote {x : ClientIno} (hi : w.inode? x = some i) (pos : Nat) (stored : List UInt8) :
    (w.wrote x pos stored).inode? x = some (i.wrote w.env pos stored) :=
  World.inode?_setDisk_modify _ hi

/-- The rest of a write once an element of the chain has been opened: the client stores the bytes. --/
theorem writeOpened_stores (h : Chain w d cs) (hc : Calm w) (hf : cs.length < w.env.fuel)
    (hv : w.vnode d.inode = some vn) (hfile : file.dentry = d) (hmem : c ∈ cs) (hi : w.disk.inode c.inode = some i)
    {p : Int} (flags : Nat) (h₀ : (c.cd.start : Int) ≤ p) (hlt : p < 2 ^ 63) {data stored : List UInt8}
    (hs : stored = data.take (w.env.transfer data.length)) {start : Nat}
    (hstart : (start : Int) = writeStart (openedAt c flags p).file i (p - c.cd.start))
    (hend : start + stored.length < 2 ^ 63) :
    ∃ w', writeOpened file data (openedAt c flags p) w =
        .ok ⟨stored.length, [], writeEnd (openedAt c flags p).file i (p - c.cd.start) stored, { file with pos := p }⟩ w' ∧
      Warm ((w.wrote c.inode start stored).copiedUp d vn (i.wrote w.env start stored) cs) w' := by
  have hpos : (openedAt c flags p).ppos = p - c.cd.start := copyDownFile_eq h₀ hlt
  have hi' : w.inode? c.inode = some i := inode?_of_live (h.live c hmem) hi
  have hbelow : writeStart (openedAt c flags p).file i (p - c.cd.start) + stored.length < 2 ^ 63 := by
    rw [← hstart]
    omega
  have hr := clientWrite_stores hc (openedAt c flags p).file hi' hs (by rw [← hstart]; omega) hbelow
  rw [← hstart, Int.toNat_natCast] at hr
  have hc₁ : Calm (w.wrote c.inode start stored) := hc
  obtain ⟨w₁, hr₁, hw₁⟩ := closeContFile_calm (h.kept (.wrote w c.inode start stored)) hc₁ hf hv
    (openedAt c flags p).file (World.inode?_wrote hi' start stored) hfile c
  refine ⟨w₁, ?_, hw₁⟩
  unfold writeOpened
  rw [hpos, bind_ok hr, openedAt_cont]
  rw [show w.wrote (openedAt c flags p).file.inode start stored = w.wrote c.inode start stored from rfl, bind_ok hr₁,
    copyUpFile_openedAt c _ (by omega) hlt]
  rfl

/-- A write inside the chain opens the element that covers the position. --/
theorem write_opens (h : Walkable w d cs) (hc : Calm w) (hf : cs.length < w.env.fuel) (hfile : file.dentry = d) {p : Int}
    (hfind : cs.find? (·.cd.covers p) = some c) (data : List UInt8) :
    ∃ w', Warm w w' ∧ write file data p w = writeOpened file data (openedAt c file.flags p) w' := by
  obtain ⟨w₁, hr₁, hw₁⟩ := ((openContFile_finds hc.honest hfile
    (getContAtOffset_finds (h.follows hc.honest) hf hfind)).reads).calm hc
  exact ⟨w₁, hw₁, bind_ok hr₁⟩

theorem Calm.env_eq {w' : World} (hc : Calm w) (hw : Warm w w') : w'.env = w.env := by
  have := hc.warm hw
  rw [hw.env, this, ← hc]

/-- A write inside the chain goes to the element that covers the position. --/
theorem write_found (h : Chain w d cs) (hc : Calm w) (hf : cs.length < w.env.fuel) (hv : w.vnode d.inode = some vn)
    (hfile : file.dentry = d) {p : Int} (h₀ : 0 ≤ p) (hlt : p < 2 ^ 63)
    (hfind : cs.find? (·.cd.covers p) = some c) (hi : w.disk.inode c.inode = some i) {data stored : List UInt8}
    (hs : stored = data.take (w.env.transfer data.length)) (start : Nat)
    (hstart : (start : Int) = writeStart (openedAt c file.flags p).file i (p - c.cd.start))
    (hend : start + stored.length < 2 ^ 63) :
    ∃ w', write file data p w = .ok ⟨stored.length, [],
        writeEnd (openedAt c file.flags p).file i (p - c.cd.start) stored, { file with pos := p }⟩ w' ∧
      Warm ((w.wrote c.inode start stored).copiedUp d vn (i.wrote w.env start stored) cs) w' := by
  have hcov := (covers_iff h₀ hlt).mp (by simpa using List.find?_some hfind)
  have hmem := List.mem_of_find?_eq_some hfind
  obtain ⟨w₁, hw₁, hr₁⟩ := write_opens h.walkable hc hf hfile hfind data
  have henv := hc.env_eq hw₁
  obtain ⟨w₂, hr₂, hw₂⟩ := writeOpened_stores (h.warm hw₁) (hc.warm hw₁) (by rw [hw₁.fuel]; exact hf)
    (by rw [hw₁.vnode]; exact hv) hfile hmem (by rw [hw₁.disk]; exact hi) file.flags hcov.1 hlt (by rw [henv]; exact hs)
    hstart hend
  refine ⟨w₂, hr₁.trans hr₂, Warm.trans ?_ hw₂⟩
  rw [henv]
  exact (hw₁.wrote c.inode start stored).copiedUp (fun x hx => h.live x hx) d vn _

end Calls

/-! ### A write that grows the file -/

section Growing
variable {w u : World} {d : Dentry} {init : List Continuation} {t : Continuation} {c : ClientIno} {file : File}
  {vn : Vnode} {i : ClientInode}

theorem Warm.growStage {u' : World} (hw : Warm u u') (t : Continuation) (c : ClientIno) (j k : Nat) :
    Warm (growStage u t c j k) (growStage u' t c j k) :=
  (hw.stored c (nextCd t) j).stored t.inode (tailCd t c) k

theorem Chain.openPath {cs : List Continuation} (h : Chain w d cs) {path : List Char} {mode : Nat}
    (ho : w.openPath path mode = .ok (c, u)) : Chain u d cs :=
  ⟨h.toLinked.openPath ho, fun x hx => openPath_live ho (h.live x hx)⟩

theorem Chain.grown (h : Chain u d (init ++ [t])) (hc : CanFollow u d (init ++ [t]) t c) :
    Chain (growStage u t c 4 4) d (init ++ [relinked t c, appended t c]) where
  toLinked := h.toLinked.grown hc (by omega)
  live x hx := by
    show u.icache x.inode = .live
    simp only [List.mem_append, List.mem_cons, List.not_mem_nil, or_false] at hx
    rcases hx with hx | rfl | rfl
    · exact h.live x (by simp [hx])
    · exact h.live t (by simp)
    · exact hc.live

/-- The new inode once it is linked: it has its continuation data and is otherwise as it was. --/
theorem inode_growStage (hne : c ≠ t.inode) (hi : u.disk.inode c = some i) :
    (growStage u t c 4 4).disk.inode c = some (i.setFirst 4 (nextCd t)) := by
  show ((u.disk.modify c _).modify t.inode _).inode c = _
  rw [Disk.inode_modify_of_ne hne, Disk.inode_modify_same, hi]
  rfl

/-- Where no element covers the position, a write fails as the opening of the next file does. --/
theorem write_fails {cs : List Continuation} (h : Chain w d cs) (hc : Calm w) (hf : cs.length < w.env.fuel)
    (hfile : file.dentry = d) {p : Int} (hfind : cs.find? (·.cd.covers p) = none) (ht : cs.getLast? = some t)
    {e : Errno} (ho : w.openPath (nextPath t) contMode = .error e) (data : List UInt8) :
    ∃ w', write file data p w = .ok ⟨e.ret, [], p, file⟩ w' ∧ Warm w w' := by
  obtain ⟨w₁, hr₁, hw₁⟩ := (openContFile_error hfile
    (getContAtOffset_enoent (h.walkable.follows hc.honest) hf hfind)).calm hc
  obtain ⟨w₂, hr₂, hw₂⟩ := (createContinuation_fails (h.warm hw₁).walkable (hc.warm hw₁).honest
    (by rw [hw₁.fuel]; exact hf) ht (hw₁.openPath_error ho) hfile p).calm (hc.warm hw₁)
  refine ⟨w₂, ?_, hw₁.trans hw₂⟩
  unfold write
  rw [bind_ok hr₁]
  simp only [↓reduceIte]
  rw [bind_ok hr₂]
  rfl

theorem createContinuation_calm (h : Walkable w d (init ++ [t])) (hc : Calm w) (hf : (init ++ [t]).length < w.env.fuel)
    (hfile : file.dentry = d) (ho : w.openPath (nextPath t) contMode = .ok (c, u))
    (hcan : CanFollow u d (init ++ [t]) t c) (p : Int) :
    ∃ w', createContinuation file p w = .ok (.ok (openedAt (appended t c) oCreatRdwr p)) w' ∧
      Warm (growStage u t c 4 4) w' ∧ w'.env = w.env := by
  obtain ⟨i, hi⟩ := hcan.allocated
  have hne : c ≠ t.inode := fun he => hcan.outside (by simp [he])
  have hpool : c.chunk ∈ w.pool := by rw [← (openPath_env ho).2]; exact hcan.pool
  obtain ⟨r, w', hr, rfl, hw⟩ := (createContinuation_grows h hc.honest hf (by simp) ho hcan.live hi hne hcan.chunk hpool
    hfile p).returns fun e w' hh => by
      have := hh.2.1
      rw [hc] at this
      cases this
  have henv : (growStage u t c 4 4).env = w.env := (openPath_env ho).1
  have hcg : Calm (growStage u t c 4 4) := by rw [Calm, henv]; exact hc
  exact ⟨w', hr, hw, (hcg.env_eq hw).trans henv⟩

/-- Where no element covers the position, a write opens a new element at the end of the chain. --/
theorem write_appends (h : Walkable w d (init ++ [t])) (hc : Calm w) (hf : (init ++ [t]).length < w.env.fuel)
    (hfile : file.dentry = d) {p : Int} (hfind : (init ++ [t]).find? (·.cd.covers p) = none)
    (ho : w.openPath (nextPath t) contMode = .ok (c, u)) (hcan : CanFollow u d (init ++ [t]) t c) (data : List UInt8) :
    ∃ w', Warm (growStage u t c 4 4) w' ∧ w'.env = w.env ∧
      write file data p w = writeOpened file data (openedAt (appended t c) oCreatRdwr p) w' := by
  obtain ⟨w₁, hr₁, hw₁⟩ := (openContFile_error hfile
    (getContAtOffset_enoent (h.follows hc.honest) hf hfind)).calm hc
  -- The walk has only read, so the same file is opened.
  obtain ⟨u₁, ho₁, hu₁⟩ := hw₁.openPath_ok ho
  have hwalk : Walkable w₁ d (init ++ [t]) := ⟨h.toLinked.warm hw₁, fun x hx => hw₁.readable (h.readable x hx)⟩
  obtain ⟨w₂, hr₂, hw₂, henv⟩ := createContinuation_calm hwalk (hc.warm hw₁) (by rw [hw₁.fuel]; exact hf) hfile ho₁
    (hcan.warm hu₁) p
  refine ⟨w₂, (hu₁.growStage t c 4 4).trans hw₂, henv.trans (hc.env_eq hw₁), ?_⟩
  unfold write
  rw [bind_ok hr₁]
  simp only [↓reduceIte]
  rw [bind_ok hr₂]

/-- Where no element covers the position, a write goes to a new element at the end of the chain. --/
theorem write_grows (h : Chain w d (init ++ [t])) (hc : Calm w) (hf : (init ++ [t]).length + 1 < w.env.fuel)
    (hv : w.vnode d.inode = some vn) (hfile : file.dentry = d) {p : Int}
    (hfind : (init ++ [t]).find? (·.cd.covers p) = none) (ho : w.openPath (nextPath t) contMode = .ok (c, u))
    (hcan : CanFollow u d (init ++ [t]) t c) (hi : u.disk.inode c = some i) (start : Nat)
    (hstart : (start : Int) = p - (nextCd t).start) (hlt : p < 2 ^ 63) {data stored : List UInt8}
    (hs : stored = data.take (w.env.transfer data.length)) (hend : start + stored.length < 2 ^ 63) :
    ∃ w', write file data p w = .ok ⟨stored.length, [], start + stored.length, { file with pos := p }⟩ w' ∧
      Warm (((growStage u t c 4 4).wrote c start stored).copiedUp d vn
        ((i.setFirst 4 (nextCd t)).wrote w.env start stored) (init ++ [relinked t c, appended t c])) w' := by
  obtain ⟨w₂, hg, henv₂, hr₂⟩ := write_appends h.walkable hc (by omega) hfile hfind ho hcan data
  have hne : c ≠ t.inode := fun he => hcan.outside (by simp [he])
  have hcg : Calm w₂ := by rw [Calm, henv₂]; exact hc
  have hchain := (h.openPath ho).grown hcan
  have hvg : (growStage u t c 4 4).vnode d.inode = some vn := by
    show u.vnode d.inode = some vn
    rw [openPath_vnode ho]
    exact hv
  obtain ⟨w₃, hr₃, hw₃⟩ := writeOpened_stores (c := appended t c) (hchain.warm hg) hcg
    (by rw [henv₂]; simpa using hf) (by rw [hg.vnode]; exact hvg) hfile (by simp)
    (by rw [hg.disk]; exact inode_growStage hne hi) (p := p) oCreatRdwr
    (by show ((nextCd t).start : Int) ≤ p; omega) hlt (by rw [henv₂]; exact hs)
    (by rw [writeStart_of_not_append (by rw [openedAt_flags]; decide)]; exact hstart) hend
  have hplace : p - ((appended t c).cd.start : Int) = start := hstart.symm
  rw [writeEnd_of_not_append (by rw [openedAt_flags]; decide), hplace] at hr₃
  refine ⟨w₃, hr₂.trans hr₃, Warm.trans ?_ hw₃⟩
  rw [henv₂]
  exact (hg.wrote c start stored).copiedUp (fun x hx => hchain.live x hx) d vn _

end Growing

/-! ### Any position

Where only the chains matter, a call is described by what it keeps: whatever the position and the bytes, a read keeps
everything, and so does a write unless it grows the file. -/

section AnyPosition
variable {w : World} {d : Dentry} {cs : List Continuation} {file : File} {p : Int}

theorem clientRead_calm {client : ClientFile} {i : ClientInode} (hc : Calm w) (hi : w.inode? client.inode = some i)
    (len : Nat) (pos : Int) : ∃ t, clientRead client len pos w = .ok t w ∧ ∀ b ∈ t.buf, ∃ k, b = i.byte k := by
  unfold clientRead
  rw [bind_ok (ask_calm hc)]
  simp only [bind_ok (get_apply w), hi]
  by_cases hpos : pos < 0
  · refine ⟨⟨Errno.einval.ret, [], pos⟩, by simp only [if_pos hpos]; rfl, fun b hb => ?_⟩
    cases hb
  · refine ⟨_, by simp only [if_neg hpos]; rfl, fun b hb => ?_⟩
    obtain ⟨k, -, hk⟩ := List.mem_map.mp hb
    exact ⟨_, hk.symm⟩

theorem clientWrite_calm {client : ClientFile} {i : ClientInode} (hc : Calm w) (hi : w.inode? client.inode = some i)
    (data : List UInt8) (pos : Int) :
    ∃ t start stored, stored ⊆ data ∧ clientWrite client data pos w = .ok t (w.wrote client.inode start stored) := by
  by_cases hbad : writeStart client i pos < 0 ∨
      2 ^ 63 ≤ writeStart client i pos + (data.take (w.env.transfer data.length)).length
  · obtain ⟨r, he⟩ := clientWrite_fails hc hi hbad
    exact ⟨_, 0, [], List.nil_subset _, by rw [World.wrote_nil]; exact he⟩
  · obtain ⟨h₀, h₁⟩ := not_or.mp hbad
    exact ⟨_, _, _, List.take_subset _ _,
      clientWrite_stores hc client hi rfl (Int.not_lt.mp h₀) (Int.not_le.mp h₁)⟩

/-- A write through an open client file changes the data of its inode and copies the inode up. --/
theorem writeOpened_warm (h : Chain w d cs) (hc : Calm w) (hf : cs.length < w.env.fuel) (hfile : file.dentry = d)
    {o : Opened} (hmem : o.file.inode ∈ cs.map (·.inode)) (data : List UInt8) :
    ∃ r w' vn i start stored, stored ⊆ data ∧ writeOpened file data o w = .ok r w' ∧ w.vnode d.inode = some vn ∧
      Warm ((w.wrote o.file.inode start stored).copiedUp d vn i cs) w' := by
  obtain ⟨vn, hv, -⟩ := h.head.vnode
  obtain ⟨c, hc', hci⟩ := List.mem_map.mp hmem
  obtain ⟨i, hi, -⟩ := (h.elem c hc').allocated
  rw [hci] at hi
  have hi' : w.inode? o.file.inode = some i := inode?_of_live (hci ▸ h.live c hc') hi
  obtain ⟨t, start, stored, hsub, hr⟩ := clientWrite_calm hc hi' data o.ppos
  have hk : Kept w (w.wrote o.file.inode start stored) := .wrote w o.file.inode start stored
  have hc₁ : Calm (w.wrote o.file.inode start stored) := hc
  obtain ⟨w₁, hr₁, hw₁⟩ := closeContFile_calm (h.kept hk) hc₁ hf hv o.file (World.inode?_wrote hi' start stored) hfile
    o.cont
  have hrun : writeOpened file data o w = .ok ⟨t.ret, [], t.pos, copyUpFile file o.file o.cont.cd.start⟩ w₁ := by
    unfold writeOpened
    rw [bind_ok hr]
    exact bind_ok hr₁
  exact ⟨_, w₁, vn, _, start, stored, hsub, hrun, hv, hw₁⟩

/-- A write through an open client file leaves the chain and the other client inodes. --/
theorem writeOpened_leaves (h : Chain w d cs) (hc : Calm w) (hf : cs.length < w.env.fuel) (hfile : file.dentry = d)
    {o : Opened} (hmem : o.file.inode ∈ cs.map (·.inode)) (data : List UInt8) :
    ∃ r w', writeOpened file data o w = .ok r w' ∧ Chain w' d cs ∧ w'.env = w.env ∧
      ∀ x, x ≠ o.file.inode → w'.disk.inode x = w.disk.inode x := by
  obtain ⟨r, w', vn, i, start, stored, -, hr, hv, hw⟩ := writeOpened_warm h hc hf hfile hmem data
  have hv₁ : (w.wrote o.file.inode start stored).vnode d.inode = some vn := hv
  have hc₁ : Calm ((w.wrote o.file.inode start stored).copiedUp d vn i cs) := hc
  refine ⟨r, w', hr, ((h.kept (.wrote w o.file.inode start stored)).kept (.copiedUp hv₁ i)).warm hw, hc₁.env_eq hw,
    fun x hx => ?_⟩
  rw [hw.disk]
  exact Disk.inode_modify_of_ne hx

/-- `w'` is `w` after bytes of `data` have been stored at the client inode `c`; the rest is kept. --/
structure Fed (w : World) (c : ClientIno) (data : List UInt8) (w' : World) : Prop extends Kept w w' where
  disk : ∃ start stored, stored ⊆ data ∧ w'.disk = (w.wrote c start stored).disk

theorem Fed.of_warm {w₁ w' : World} {c : ClientIno} {data : List UInt8} (hw : Warm w w₁) (h : Fed w₁ c data w') :
    Fed w c data w' := by
  refine ⟨hw.kept.trans h.toKept, ?_⟩
  obtain ⟨start, stored, hsub, hdisk⟩ := h.disk
  refine ⟨start, stored, hsub, hdisk.trans ?_⟩
  unfold World.wrote World.setDisk
  rw [hw.disk, hw.env]
  rfl

theorem writeOpened_feeds (h : Chain w d cs) (hc : Calm w) (hf : cs.length < w.env.fuel) (hfile : file.dentry = d)
    {c : Continuation} (hmem : c ∈ cs) (data : List UInt8) (flags : Nat) :
    ∃ r w', writeOpened file data (openedAt c flags p) w = .ok r w' ∧ Fed w c.inode data w' := by
  obtain ⟨r, w', vn, i, start, stored, hsub, hr, hv, hw⟩ := writeOpened_warm h hc hf hfile (o := openedAt c flags p)
    (List.mem_map_of_mem hmem) data
  have hv₁ : (w.wrote c.inode start stored).vnode d.inode = some vn := hv
  exact ⟨r, w', hr, ((Kept.wrote w c.inode start stored).trans (.copiedUp hv₁ i)).trans hw.kept, start, stored, hsub,
    hw.disk⟩

/-- A read gives bytes of the client inodes of the chain. --/
theorem read_gives (h : Chain w d cs) (hc : Calm w) (hf : cs.length < w.env.fuel) (hfile : file.dentry = d) (len : Nat) :
    ∃ r w', read file len p w = .ok r w' ∧ Kept w w' ∧
      ∀ b ∈ r.buf, ∃ c ∈ cs, ∃ i k, w.disk.inode c.inode = some i ∧ b = i.byte k := by
  cases hfind : cs.find? (·.cd.covers p) with
  | none =>
    obtain ⟨w', hr, hw⟩ := read_past h.walkable hc hf hfile hfind len
    exact ⟨_, w', hr, hw.kept, fun b hb => nomatch hb⟩
  | some c =>
    obtain ⟨vn, hv, -⟩ := h.head.vnode
    have hmem := List.mem_of_find?_eq_some hfind
    obtain ⟨i, hi, -⟩ := (h.elem c hmem).allocated
    obtain ⟨w₁, hr₁, hw₁⟩ := ((openContFile_finds hc.honest hfile
      (getContAtOffset_finds (h.walkable.follows hc.honest) hf hfind)).reads).calm hc
    have hi₁ : w₁.inode? (openedAt c file.flags p).file.inode = some i :=
      hw₁.inode? (inode?_of_live (h.live c hmem) hi)
    obtain ⟨t, hr₂, hbytes⟩ := clientRead_calm (hc.warm hw₁) hi₁ len (openedAt c file.flags p).ppos
    obtain ⟨w₂, hr₃, hw₂⟩ := closeContFile_calm (h.warm hw₁) (hc.warm hw₁) (by rw [hw₁.fuel]; exact hf)
      (by rw [hw₁.vnode]; exact hv) (openedAt c file.flags p).file hi₁ hfile c
    have hv₁ : w₁.vnode d.inode = some vn := by rw [hw₁.vnode]; exact hv
    have hrun : read file len p w = .ok ⟨if int32 t.ret = Errno.enodata.ret then 0 else int32 t.ret, t.buf, t.pos,
        copyUpFile file (openedAt c file.flags p).file c.cd.start⟩ w₂ := by
      unfold read
      rw [bind_ok hr₁]
      simp only
      rw [bind_ok hr₂]
      exact bind_ok hr₃
    refine ⟨_, w₂, hrun, (hw₁.kept.trans (.copiedUp hv₁ i)).trans hw₂.kept, fun b hb => ?_⟩
    obtain ⟨k, hk⟩ := hbytes b hb
    exact ⟨c, hmem, i, k, hi, hk⟩

theorem read_kept (h : Chain w d cs) (hc : Calm w) (hf : cs.length < w.env.fuel) (hfile : file.dentry = d) (len : Nat) :
    ∃ r w', read file len p w = .ok r w' ∧ Kept w w' := by
  obtain ⟨r, w', hr, hk, -⟩ := read_gives h hc hf hfile (p := p) len
  exact ⟨r, w', hr, hk⟩

/-- The world after growth: the new file has been opened and linked behind the tail, and the rest is kept. --/
def GrownBy (w : World) (cs : List Continuation) (t : Continuation) (c : ClientIno) (w' : World) : Prop :=
  cs.getLast? = some t ∧ ∃ u, w.openPath (nextPath t) contMode = .ok (c, u) ∧ Kept (growStage u t c 4 4) w'

/-- How a write ends: an element of the chain gets the bytes, no next file can be opened, or a new element gets them. --/
inductive WriteEnds (w : World) (cs : List Continuation) (p : Int) (data : List UInt8) (w' : World) : Prop
  | found (c : Continuation) (hfind : cs.find? (·.cd.covers p) = some c) (hfed : Fed w c.inode data w')
  | fails (t : Continuation) (e : Errno) (hfind : cs.find? (·.cd.covers p) = none) (ht : cs.getLast? = some t)
      (ho : w.openPath (nextPath t) contMode = .error e) (hw : Warm w w')
  | grown (t : Continuation) (c : ClientIno) (u : World) (hfind : cs.find? (·.cd.covers p) = none)
      (ht : cs.getLast? = some t) (ho : w.openPath (nextPath t) contMode = .ok (c, u))
      (hfed : Fed (growStage u t c 4 4) c data w')

theorem write_ends (h : Chain w d cs) (hc : Calm w) (hf : cs.length + 1 < w.env.fuel) (hfile : file.dentry = d)
    (hcan : ∀ t c u, cs.getLast? = some t → w.openPath (nextPath t) contMode = .ok (c, u) → CanFollow u d cs t c)
    (data : List UInt8) : ∃ r w', write file data p w = .ok r w' ∧ WriteEnds w cs p data w' := by
  have hf₀ : cs.length < w.env.fuel := by omega
  cases hfind : cs.find? (·.cd.covers p) with
  | some c =>
    obtain ⟨w₁, hw₁, hr₁⟩ := write_opens h.walkable hc hf₀ hfile hfind data
    obtain ⟨r, w₂, hr₂, hfed⟩ := writeOpened_feeds (h.warm hw₁) (hc.warm hw₁) (by rw [hw₁.fuel]; exact hf₀) hfile
      (List.mem_of_find?_eq_some hfind) data file.flags
    exact ⟨r, w₂, hr₁.trans hr₂, .found c hfind (hfed.of_warm hw₁)⟩
  | none =>
    obtain ⟨x, rest, hx, -⟩ := h.first
    obtain ⟨t, ht⟩ : ∃ t, cs.getLast? = some t := Option.isSome_iff_exists.mp (by simp [hx])
    cases ho : w.openPath (nextPath t) contMode with
    | error e =>
      obtain ⟨w', hr, hw⟩ := write_fails h hc hf₀ hfile hfind ht ho data
      exact ⟨_, w', hr, .fails t e hfind ht ho hw⟩
    | ok cu =>
      obtain ⟨c, u⟩ := cu
      have hcf := hcan t c u ht ho
      obtain ⟨init, rfl⟩ : ∃ init, cs = init ++ [t] := ⟨_, (List.dropLast_append_getLast? t ht).symm⟩
      obtain ⟨w₁, hw₁, henv, hr₁⟩ := write_appends h.walkable hc hf₀ hfile hfind ho hcf data
      have hchain := ((h.openPath ho).grown hcf).warm hw₁
      obtain ⟨r, w₂, hr₂, hfed⟩ := writeOpened_feeds hchain (by rw [Calm, henv]; exact hc)
        (by rw [henv]; simpa using hf) hfile (c := appended t c) (by simp) data oCreatRdwr
      exact ⟨r, w₂, hr₁.trans hr₂, .grown t c u hfind ht ho (hfed.of_warm hw₁)⟩

theorem write_kept (h : Chain w d cs) (hc : Calm w) (hf : cs.length + 1 < w.env.fuel) (hfile : file.dentry = d)
    (hcan : ∀ t c u, cs.getLast? = some t → w.openPath (nextPath t) contMode = .ok (c, u) → CanFollow u d cs t c)
    (data : List UInt8) :
    ∃ r w', write file data p w = .ok r w' ∧
      (Kept w w' ∨ cs.find? (·.cd.covers p) = none ∧ ∃ t c, GrownBy w cs t c w') := by
  obtain ⟨r, w', hr, hends⟩ := write_ends h hc hf hfile (p := p) hcan data
  refine ⟨r, w', hr, ?_⟩
  cases hends with
  | found c hfind hfed => exact Or.inl hfed.toKept
  | fails t e hfind ht ho hw => exact Or.inl hw.kept
  | grown t c u hfind ht ho hfed => exact Or.inr ⟨hfind, t, c, ht, u, ho, hfed.toKept⟩

theorem fsyncLoop_reads {prev : Option Continuation} (h : Follows w d prev cs) (hc : Calm w) {fuel : Nat}
    (hf : cs.length < fuel) (first last : Int) :
    ∀ w₁, Warm w w₁ → Reads (fsyncLoop fuel d first last prev) w₁ (.ok ()) := by
  induction h generalizing fuel with
  | @nil prev stop =>
    intro w₁ h₁
    obtain ⟨n, rfl, -⟩ := fuel_succ hf
    exact (stop w₁ h₁).bind fun w₂ _ => .pure _ w₂
  | @cons prev x cs next rest ih =>
    intro w₁ h₁
    obtain ⟨n, rfl, hn⟩ := fuel_succ hf
    refine (next w₁ h₁).reads.bind fun w₂ h₂ => ?_
    have hsync : Reads (clientFsync x.inode first last) w₂ none := by
      refine (ask_reads (hc.warm (h₁.trans h₂)).honest).bind fun w₃ _ => ?_
      have hlog := modify_apply (ε := Stop)
        (fun w : World => { w with fsyncs := w.fsyncs ++ [⟨x.inode, first, last, none⟩] }) w₃
      exact Reads.bind (.of_ok hlog ⟨rfl, rfl, rfl, rfl, List.suffix_refl _, rfl, fun _ => Or.inl rfl⟩)
        fun w₄ _ => .pure _ w₄
    exact hsync.bind fun w₃ h₃ => ih (Nat.lt_of_succ_le hn) w₃ ((h₁.trans h₂).trans h₃)

theorem fsyncFile_kept (h : Walkable w d cs) (hc : Calm w) (hf : cs.length < w.env.fuel) (hfile : file.dentry = d)
    (first last : Int) : ∃ w', fsyncFile file first last w = .ok (.ok ()) w' ∧ Kept w w' := by
  obtain ⟨w', hr, hw⟩ := (fsyncLoop_reads (h.follows hc.honest) hc hf first last w (Warm.refl w)).calm hc
  refine ⟨w', ?_, hw.kept⟩
  unfold fsyncFile
  rw [bind_ok (get_apply w), hfile]
  exact hr

end AnyPosition

end Chunkfs
