import Chunkfs.Lib.Run
import Chunkfs.Theorems.Transfers
import Chunkfs.Theorems.Truncate

/-! The position of an open file. The VFS hands it to a read or a write in `*ppos` and stores what comes back, so
    calls are in sequence as long as each leaves it where its own bytes end. That they do for one segment only. -/

namespace Chunkfs
open Exec Word Run

/-- A `read(2)` or a `write(2)`. --/
inductive Io where
  | read (len : Nat)
  | write (data : List UInt8)

def Io.size : Io → Nat
  | .read len => len
  | .write data => data.length

/-- What `rw_verify_area` lets through, and no more than `MAX_RW_COUNT` leaves of it. --/
def Io.Verified (x : Io) (pos : Int) : Prop := 0 ≤ pos ∧ pos + x.size < 2 ^ 63 ∧ x.size < 2 ^ 31

instance (x : Io) (pos : Int) : Decidable (x.Verified pos) := inferInstanceAs (Decidable (_ ∧ _ ∧ _))

/-- The call for the position `ppos`. --/
def Io.call (file : File) (ppos : Int) : Io → Kern IoResult
  | .read len => Chunkfs.read file len ppos
  | .write data => Chunkfs.write file data ppos

/-- A process with its open file, the count of bytes its calls have moved, and those it has read. --/
structure Session where
  world : World
  file : File
  moved : Int
  got : List UInt8

/-- A system call that returns a count; the VFS stores the position that comes back. --/
def Session.step (s : Session) (x : Io) : Option Session :=
  if x.Verified s.file.pos then
    match x.call s.file s.file.pos s.world with
    | .ok r w =>
      if 0 ≤ r.ret then
        some { world := w, file := { r.file with pos := r.ppos }, moved := s.moved + r.ret, got := s.got ++ r.buf }
      else none
    | .error _ _ => none
  else none

/-! ### In sequence -/

/-- The segment `k` holds the byte `b` at the offset `q` of its file. --/
def Disk.HoldsAt (d : Disk) (k : Continuation) (q : Int) (b : UInt8) : Prop :=
  ∃ i, d.inode k.inode = some i ∧ k.cd.start ≤ q ∧ q < k.cd.start + i.size ∧ i.byte (q - k.cd.start).toNat = b

namespace Session

/-- The segment `k` covers the offset `q` of the file. --/
def At (s : Session) (q : Int) (k : Continuation) : Prop :=
  ∃ vn, s.world.vnode s.file.dentry.inode = some vn ∧ Locates s.world s.file.dentry vn.ino q none k

/-- A write between the borders of one segment puts its bytes at `q`; with `O_APPEND` there is no telling. --/
def Lands (s : Session) (q : Int) (x : Io) : Prop :=
  ∀ data k t, x = .write data → s.file.flags &&& oAppend = 0 → (∀ j < data.length, s.At (q + j) k) → s.step x = some t →
    ∀ j : Nat, j < t.moved - s.moved → t.world.disk.HoldsAt k (q + j) (data.getD j 0)

/-- No client file reaches past its segment. --/
def Fits (s : Session) : Prop :=
  ∀ p q k b, s.At p k → s.world.disk.HoldsAt k q b → s.At q k

/-- Each call moves the position by what it returns, a write goes to where the calls before it have come, and what
    has been read is the file's content from where the calls began. --/
structure InSequence (s : Session) (xs : List Io) : Prop where
  moves : Always step (fun t => t.file.pos = s.file.pos + t.moved) (fun t x => t.Lands (s.file.pos + t.moved) x) s xs
  reads : (∀ x ∈ xs, ∃ len, x = .read len) → s.Fits → ∀ t, run step s xs = some t →
    ∀ (j : Nat) b, t.got[j]? = some b → ∃ k, s.At (s.file.pos + j) k ∧ s.world.disk.HoldsAt k (s.file.pos + j) b

/-- What the client stores of the data of a write. --/
def stores (s : Session) (data : List UInt8) : List UInt8 := data.take (s.world.env.transfer data.length)

/-- A read or a write goes to a segment that begins at offset 0: the one that covers the position, or the one a write
    makes. Where the client appends bytes, its file ends at the position. --/
def InFirst (s : Session) : Io → Prop
  | .read _ => ∀ k, s.At s.file.pos k → k.cd.start = 0
  | .write data =>
    (∀ k i, s.At s.file.pos k → s.world.disk.inode k.inode = some i →
      if s.file.flags &&& oAppend = 0 ∨ s.stores data = [] then k.cd.start = 0 else i.size = s.file.pos) ∧
    ((∀ k, ¬s.At s.file.pos k) → ∀ vn t c u, s.world.vnode s.file.dentry.inode = some vn →
      Tail s.world s.file.dentry vn.ino none t → s.world.openPath (afterPath t) contMode = .ok (c, u) →
      afterStart t c = 0)

end Session

/-! ### Where a call leaves the position -/

section Calls
variable {w w' : World} {d : Dentry} {vn : Vnode} {p : Int} {file : File} {r : IoResult} {k : Continuation}

/-- The position in the client file of a segment that covers it. --/
theorem Locates.copyDown {n : Nat} (hk : Locates w d n p none k) (h₀ : 0 ≤ p) (hlt : p < 2 ^ 63) :
    (k.cd.start : Int) ≤ p ∧ copyDownFile p k.cd.start = p - k.cd.start := by
  have hle := ((covers_iff h₀ hlt).mp hk.covers).1
  exact ⟨hle, copyDownFile_eq hle hlt⟩

theorem copyDownFile_eq_self {a : Nat} (h₀ : 0 ≤ p) (hlt : p < 2 ^ 63) (ha : a < 2 ^ 64) : copyDownFile p a = p ↔ a = 0 := by
  unfold copyDownFile s64
  omega

theorem transfer_le (e : Env) (len : Nat) : e.transfer len ≤ len := by
  unfold Env.transfer
  split
  · exact Nat.le_refl len
  · exact Nat.min_le_left ..

theorem length_readData_le (i : ClientInode) (pos n : Nat) : (i.readData pos n).length ≤ n := by
  simp only [ClientInode.readData, List.length_map, List.length_range]
  exact Nat.min_le_left ..

theorem afterStart_lt {n : Nat} {t : Continuation} (ht : Tail w d n none t) (c : ClientIno) : afterStart t c < 2 ^ 64 := by
  obtain ⟨i, -, hi⟩ := Disk.inode_of_contData? (ht.stored nofun)
  unfold afterStart
  split
  · exact ClientInode.fits_of_contData? hi .start
  · exact Nat.mod_lt _ (by decide)

/-- What a read returns. --/
theorem read_counts (h : InUse w d) (hv : w.vnode d.inode = some vn) (hfile : file.dentry = d) (h₀ : 0 ≤ p)
    (hlt : p < 2 ^ 63) {len : Nat} (hlen : len < 2 ^ 31) (hr : read file len p w = .ok r w') :
    ((∀ k, ¬Locates w d vn.ino p none k) ∧ r.ret ≤ 0 ∧ r.buf = [] ∧ r.ppos = p) ∨
      ∃ k i, Locates w d vn.ino p none k ∧ w.disk.inode k.inode = some i ∧
        r.buf = i.readData (p - k.cd.start).toNat (w.env.transfer len) ∧ r.ret = r.buf.length ∧
        r.ppos = p - k.cd.start + r.buf.length := by
  rcases read_ok h.honest hv h.live hfile hr with ⟨hnone, hret, hbuf, hppos, -, -⟩ | ⟨k, i, hk, hi, -, -, hret, hbuf, hppos⟩
  · exact Or.inl ⟨hnone, hret, hbuf, hppos⟩
  · obtain ⟨hle, hdown⟩ := hk.copyDown h₀ hlt
    have hat : i.readAt (w.env.transfer len) (p - k.cd.start) =
        ⟨(i.readData (p - k.cd.start).toNat (w.env.transfer len)).length,
          i.readData (p - k.cd.start).toNat (w.env.transfer len),
          p - k.cd.start + (i.readData (p - k.cd.start).toNat (w.env.transfer len)).length⟩ := if_neg (by omega)
    rw [hdown, hat] at hret hbuf hppos
    dsimp only at hret hbuf hppos
    have hcount := (length_readData_le i (p - k.cd.start).toNat (w.env.transfer len)).trans (transfer_le w.env len)
    rw [int32_of_mem (by omega) (by omega), if_neg (Errno.natCast_ne_ret _ _)] at hret
    exact Or.inr ⟨k, i, hk, hi, hbuf, by rw [hret, hbuf], by rw [hppos, hbuf]⟩

theorem writeOpened_buf {data : List UInt8} {o : Opened} (hr : writeOpened file data o w = .ok r w') : r.buf = [] := by
  unfold writeOpened at hr
  simp only [bind_eq_ok] at hr
  obtain ⟨t, w₁, -, f, w₂, -, hr⟩ := hr
  cases hr
  rfl

/-- A write reads nothing. --/
theorem write_buf {data : List UInt8} (hr : write file data p w = .ok r w') : r.buf = [] := by
  unfold write at hr
  simp only [bind_eq_ok] at hr
  obtain ⟨o, w₁, -, hr⟩ := hr
  cases o with
  | ok o => exact writeOpened_buf hr
  | error e =>
    dsimp only at hr
    split at hr
    · simp only [bind_eq_ok] at hr
      obtain ⟨o, w₂, -, hr⟩ := hr
      cases o with
      | ok o => exact writeOpened_buf hr
      | error e =>
        cases hr
        rfl
    · cases hr
      rfl

/-- What a write that returns a count has done: it has stored its bytes, if any, from `start` on in the segment that
    covers the position or in a new one. --/
theorem write_counts (h : InUse w d) (hv : w.vnode d.inode = some vn) (hfile : file.dentry = d) (h₀ : 0 ≤ p)
    (hlt : p < 2 ^ 63) {data : List UInt8} (hr : write file data p w = .ok r w') (hret : 0 ≤ r.ret) :
    ∃ (start : Int) (stored : List UInt8), stored = data.take (w.env.transfer data.length) ∧ r.ret = stored.length ∧
      r.ppos = start + stored.length ∧ r.buf = [] ∧
      ((∃ k i, Locates w d vn.ino p none k ∧ w.disk.inode k.inode = some i ∧
          start = (if file.flags &&& oAppend = 0 ∨ stored = [] then p - k.cd.start else i.size) ∧
          w'.disk = (w.wrote k.inode start.toNat stored).disk) ∨
        (∀ k, ¬Locates w d vn.ino p none k) ∧ ∃ t c u, Tail w d vn.ino none t ∧
          w.openPath (afterPath t) contMode = .ok (c, u) ∧ start = copyDownFile p (afterStart t c)) := by
  have hcount {w₁ : World} {o : Opened} {i : ClientInode} (hs : Stored w₁ file data o i r w') :
      ∃ (start : Int) (stored : List UInt8), start = (if stored = [] then o.ppos else writeStart o.file i o.ppos) ∧
        stored = data.take (w₁.env.transfer data.length) ∧ r.ret = stored.length ∧ r.ppos = start + stored.length ∧
        w'.disk = (w₁.wrote o.file.inode start.toNat stored).disk := by
    cases hs with
    | fails e hneg => exact absurd hret (by rw [hneg]; exact Int.not_le.mpr e.ret_neg)
    | nothing hnil hzero hppos hcopied =>
      refine ⟨o.ppos, [], (if_pos rfl).symm, hnil.symm, hzero, by rw [hppos, List.length_nil]; omega, ?_⟩
      rw [World.wrote_nil]
      exact hcopied.disk
    | stores start stored hstart hstored hne hend hlen hppos hcopied =>
      exact ⟨start, stored, hstart.trans (if_neg hne).symm, hstored, hlen, hppos, hcopied.disk⟩
  cases write_ok h.honest hv h.live hfile hr with
  | fails hneg => exact absurd hret (Int.not_le.mpr hneg)
  | found k i hk hi hf hs =>
    obtain ⟨start, stored, hstart, hstored, hlen, hppos, hdisk⟩ := hcount hs
    refine ⟨start, stored, hstored, hlen, hppos, write_buf hr, Or.inl ⟨k, i, hk, hi, ?_, hdisk⟩⟩
    rw [hstart, ← (hk.copyDown h₀ hlt).2]
    unfold writeStart
    split
    · rename_i hnil
      exact (if_pos (Or.inr hnil)).symm
    · rename_i hne
      simp only [hne, or_false]
      rfl
  | grown t c u k w₁ i hnone hgrew hinode hks hi hf hs =>
    obtain ⟨start, stored, hstart, hstored, hlen, hppos, -⟩ := hcount hs
    obtain ⟨w₂, hw₂, ho⟩ := hgrew.opened
    obtain ⟨u', ho', -⟩ := hw₂.of_openPath ho
    have henv : w₁.env.transfer data.length = w.env.transfer data.length := by
      have hlimit : w₁.env.limit = u.env.limit := by
        rw [hgrew.warm.env]
        rfl
      rw [openPath_env ho |>.1, hw₂.env] at hlimit
      unfold Env.transfer
      rw [hlimit]
    refine ⟨start, stored, henv ▸ hstored, hlen, hppos, write_buf hr, Or.inr ⟨hnone, t, c, u', hgrew.tail, ho', ?_⟩⟩
    rw [hstart, ← hks, writeStart_of_not_append (by rw [openedAt_flags]; decide), ite_self]
    rfl

theorem Io.call_inUse (x : Io) (h : InUse w file.dentry) (hr : x.call file p w = .ok r w') :
    r.file.dentry = file.dentry ∧ InUse w' file.dentry := by
  obtain ⟨vn, hv⟩ := h.vnode
  cases x with
  | read len =>
    refine ⟨?_, h.read rfl hr⟩
    rcases read_ok h.honest hv h.live rfl hr with ⟨-, -, -, -, hf, -⟩ | ⟨k, i, -, -, -, hf, -⟩ <;> rw [hf]
    rfl
  | write data =>
    refine ⟨?_, h.write rfl hr⟩
    cases write_ok h.honest hv h.live rfl hr with
    | fails _ hf => rw [hf]
    | found k i _ _ hf =>
      rw [hf]
      rfl
    | grown t c u k w₁ i _ _ _ _ _ hf =>
      rw [hf]
      rfl

end Calls

namespace Session
variable {s t : Session} {x : Io} {vn : Vnode} {k : Continuation} {q : Int}

theorem at_iff (hv : s.world.vnode s.file.dentry.inode = some vn) :
    s.At q k ↔ Locates s.world s.file.dentry vn.ino q none k := by
  constructor
  · rintro ⟨vn', hv', hk⟩
    rw [hv] at hv'
    cases hv'
    exact hk
  · exact fun hk => ⟨vn, hv, hk⟩

/-- What a system call has done. --/
theorem step_ok (h : s.step x = some t) :
    ∃ r, x.Verified s.file.pos ∧ x.call s.file s.file.pos s.world = .ok r t.world ∧ 0 ≤ r.ret ∧
      t.file = { r.file with pos := r.ppos } ∧ t.moved = s.moved + r.ret ∧ t.got = s.got ++ r.buf := by
  unfold step at h
  split at h
  · rename_i hver
    split at h
    · rename_i r w hr
      split at h
      · rename_i hret
        cases h
        exact ⟨r, hver, hr, hret, rfl, rfl, rfl⟩
      · cases h
    · cases h
  · cases h

theorem read_moves (h : InUse s.world s.file.dentry) {len : Nat} (hs : s.step (.read len) = some t) :
    t.file.pos = s.file.pos + (t.moved - s.moved) ↔ s.InFirst (.read len) := by
  obtain ⟨vn, hv⟩ := h.vnode
  obtain ⟨r, ⟨h₀, hend, hlen⟩, hr, hret, hfile, hmoved, -⟩ := step_ok hs
  dsimp only [Io.size] at hend hlen
  have hpos : t.file.pos = r.ppos := by rw [hfile]
  rw [hpos, hmoved]
  simp only [InFirst, at_iff hv]
  rcases read_counts h hv rfl h₀ (by omega) hlen hr with ⟨hnone, hzero, -, hppos⟩ | ⟨k, i, hk, -, -, hcount, hppos⟩
  · refine ⟨fun _ k hk => absurd hk (hnone k), fun _ => ?_⟩
    omega
  · constructor
    · intro hadd k' hk'
      obtain rfl := hk.unique hk'
      omega
    · intro hzero
      have := hzero k hk
      omega

theorem write_moves (h : InUse s.world s.file.dentry) {data : List UInt8} (hs : s.step (.write data) = some t) :
    t.file.pos = s.file.pos + (t.moved - s.moved) ↔ s.InFirst (.write data) := by
  obtain ⟨vn, hv⟩ := h.vnode
  obtain ⟨r, ⟨h₀, hend, hlen⟩, hr, hret, hfile, hmoved, -⟩ := step_ok hs
  dsimp only [Io.size] at hend hlen
  have hlt : s.file.pos < 2 ^ 63 := by omega
  have hpos : t.file.pos = r.ppos := by rw [hfile]
  rw [hpos, hmoved]
  simp only [InFirst, at_iff hv]
  obtain ⟨start, stored, hstored, hcount, hppos, -, hwhere⟩ := write_counts h hv rfl h₀ hlt hr hret
  obtain rfl : stored = s.stores data := hstored
  have hstart : r.ppos = s.file.pos + (s.moved + r.ret - s.moved) ↔ start = s.file.pos := by omega
  rw [hstart]
  rcases hwhere with ⟨k, i, hk, hi, hplace, -⟩ | ⟨hnone, t', c, u, ht, ho, hplace⟩
  · constructor
    · intro hsame
      refine ⟨fun k' i' hk' hi' => ?_, fun hnone => absurd hk (hnone k)⟩
      obtain rfl := hk.unique hk'
      obtain rfl := Option.some.inj (hi.symm.trans hi')
      split at hplace
      · rename_i hflags
        rw [if_pos hflags]
        omega
      · rename_i hflags
        rw [if_neg hflags]
        omega
    · rintro ⟨hfound, -⟩
      have := hfound k i hk hi
      split at hplace
      · rename_i hflags
        rw [if_pos hflags] at this
        omega
      · rename_i hflags
        rw [if_neg hflags] at this
        omega
  · rw [hplace, copyDownFile_eq_self h₀ hlt (afterStart_lt ht c)]
    constructor
    · intro hzero
      refine ⟨fun k i hk => absurd hk (hnone k), fun _ vn' t₁ c₁ u₁ hv' ht₁ ho₁ => ?_⟩
      rw [hv] at hv'
      cases hv'
      obtain rfl := ht.unique ht₁
      rw [ho] at ho₁
      cases ho₁
      exact hzero
    · rintro ⟨-, hgrown⟩
      exact hgrown hnone vn t' c u hv ht ho

theorem step_inUse (h : InUse s.world s.file.dentry) (hs : s.step x = some t) :
    t.file.dentry = s.file.dentry ∧ InUse t.world t.file.dentry := by
  obtain ⟨r, -, hr, -, hfile, -⟩ := step_ok hs
  obtain ⟨hd, hu⟩ := x.call_inUse h hr
  have hd' : t.file.dentry = s.file.dentry := by
    rw [hfile]
    exact hd
  exact ⟨hd', hd' ▸ hu⟩

theorem step_moves (h : InUse s.world s.file.dentry) (hs : s.step x = some t) :
    t.file.pos = s.file.pos + (t.moved - s.moved) ↔ s.InFirst x := by
  cases x with
  | read len => exact read_moves h hs
  | write data => exact write_moves h hs

/-! ### Runs -/

/-- A write puts its bytes at the position. --/
theorem lands (h : InUse s.world s.file.dentry) : s.Lands s.file.pos x := by
  rintro data k t rfl hflags hin hs j hj
  obtain ⟨vn, hv⟩ := h.vnode
  obtain ⟨r, ⟨h₀, hend, -⟩, hr, hret, -, hmoved, -⟩ := step_ok hs
  dsimp only [Io.size] at hend
  obtain ⟨start, stored, hstored, hcount, -, -, hwhere⟩ := write_counts h hv rfl h₀ (by omega) hr hret
  have hjs : j < stored.length := by omega
  have hjd : j < data.length := by
    rw [hstored, List.length_take] at hjs
    omega
  have hk : s.At s.file.pos k := by
    have := hin 0 (by omega)
    rwa [Int.natCast_zero, Int.add_zero] at this
  rw [at_iff hv] at hk
  rcases hwhere with ⟨k', i, hk', hi, hplace, hdisk⟩ | ⟨hnone, -⟩
  · obtain rfl := hk.unique hk'
    rw [if_pos (Or.inl hflags)] at hplace
    have hle := (hk.copyDown h₀ (by omega)).1
    have hne : stored ≠ [] := List.ne_nil_of_length_pos (by omega)
    have hi' : t.world.disk.inode k.inode = some (i.wrote s.world.env start.toNat stored) := by
      rw [hdisk]
      exact (Disk.inode_modify_same ..).trans (congrArg _ hi)
    have hat : (s.file.pos + j - k.cd.start).toNat = start.toNat + j := by omega
    refine ⟨_, hi', by omega, ?_, ?_⟩
    · simp only [ClientInode.wrote, ClientInode.writeData, hne, ↓reduceIte]
      omega
    · rw [hat]
      simp only [ClientInode.wrote, ClientInode.writeData, hne, ↓reduceIte]
      rw [if_pos (by omega), Nat.add_sub_cancel_left, hstored]
      rw [List.getD_eq_getElem?_getD, List.getD_eq_getElem?_getD, List.getElem?_take_of_lt]
      rw [hstored, List.length_take] at hjs
      omega
  · exact absurd hk (hnone k)

/-- Reading changes neither what is stored nor where it is found. --/
theorem read_same (h : InUse s.world s.file.dentry) {len : Nat} (hs : s.step (.read len) = some t) :
    t.world.disk = s.world.disk ∧ ∀ q k, t.At q k → s.At q k := by
  obtain ⟨vn, hv⟩ := h.vnode
  obtain ⟨r, -, hr, -⟩ := step_ok hs
  have hd := (step_inUse h hs).1
  rcases read_ok h.honest hv h.live rfl hr with ⟨-, -, -, -, -, hw⟩ | ⟨k, i, -, -, hc, -⟩
  · refine ⟨hw.disk, fun q k hk => ?_⟩
    have hv' : t.world.vnode t.file.dentry.inode = some vn := by rw [hw.vnode, hd, hv]
    rw [at_iff hv', hd] at hk
    exact (at_iff hv).mpr (hk.of_later hw.sameDisk hw.caches)
  · refine ⟨hc.disk, fun q k hk => ?_⟩
    obtain ⟨vn', hv', hino, -⟩ := hc.keeps hv
    rw [← hd] at hv'
    rw [at_iff hv', hino, hd] at hk
    exact (at_iff hv).mpr (hk.of_later hc.toSameDisk hc.caches)

/-- What a run of reads has come to: the bytes it has read are those of the file, one after the other. --/
structure Reading (s t : Session) : Prop where
  inUse : InUse t.world t.file.dentry
  disk : t.world.disk = s.world.disk
  back : ∀ q k, t.At q k → s.At q k
  pos : t.file.pos = s.file.pos + t.moved
  moved : t.moved = t.got.length
  got : ∀ (j : Nat) b, t.got[j]? = some b → ∃ k, s.At (s.file.pos + j) k ∧ s.world.disk.HoldsAt k (s.file.pos + j) b

theorem Reading.step {t' : Session} (h : Reading s t) (hfits : s.Fits) {len : Nat} (hs : t.step (.read len) = some t')
    (hpos : t'.file.pos = s.file.pos + t'.moved) : Reading s t' := by
  obtain ⟨vn, hv⟩ := h.inUse.vnode
  obtain ⟨r, ⟨h₀, hend, hlen⟩, hr, hret, -, hmoved, hgot⟩ := step_ok hs
  dsimp only [Io.size] at hend hlen
  obtain ⟨hdisk, hback⟩ := read_same h.inUse hs
  have hread := read_counts h.inUse hv rfl h₀ (by omega) hlen hr
  have hcount : r.ret = r.buf.length := by
    rcases hread with ⟨-, hle, hbuf, -⟩ | ⟨k, i, -, -, -, hcount, -⟩
    · rw [hbuf, List.length_nil]
      omega
    · exact hcount
  refine ⟨(step_inUse h.inUse hs).2, hdisk.trans h.disk, fun q k hk => h.back q k (hback q k hk), hpos, ?_, ?_⟩
  · rw [hmoved, hgot, List.length_append, h.moved, hcount]
    omega
  · intro j b hj
    rw [hgot] at hj
    rcases Nat.lt_or_ge j t.got.length with hlt | hge
    · rw [List.getElem?_append_left hlt] at hj
      exact h.got j b hj
    · rw [List.getElem?_append_right hge] at hj
      rcases hread with ⟨-, -, hbuf, -⟩ | ⟨k, i, hk, hi, hbuf, -, -⟩
      · rw [hbuf] at hj
        cases hj
      · have hplace : t.file.pos = s.file.pos + t.got.length := by rw [h.pos, h.moved]
        obtain ⟨hle, -⟩ := hk.copyDown h₀ (by omega)
        rw [hbuf, ClientInode.readData, List.getElem?_map] at hj
        obtain ⟨m, hm, rfl⟩ := Option.map_eq_some_iff.mp hj
        obtain ⟨hmlt, rfl⟩ := List.getElem?_eq_some_iff.mp hm
        rw [List.length_range] at hmlt
        rw [List.getElem_range]
        have hholds : s.world.disk.HoldsAt k (s.file.pos + j) (i.byte ((t.file.pos - k.cd.start).toNat + (j - t.got.length))) := by
          refine ⟨i, h.disk ▸ hi, by omega, by omega, congrArg i.byte ?_⟩
          omega
        have hat : s.At t.file.pos k := h.back _ _ ((at_iff hv).mpr hk)
        exact ⟨k, hfits _ _ k _ hat hholds, hholds⟩

/-- What holds between the calls of a run that began at `s`. --/
structure InStep (s t : Session) : Prop where
  inUse : InUse t.world t.file.dentry
  pos : t.file.pos = s.file.pos + t.moved

theorem InStep.step {t' : Session} (h : InStep s t) (hs : t.step x = some t') (hx : t.InFirst x) : InStep s t' := by
  refine ⟨(step_inUse h.inUse hs).2, ?_⟩
  have hpos := h.pos
  have := (step_moves h.inUse hs).mpr hx
  omega

theorem Reading.run {xs : List Io} {t₀ : Session} (h : Reading s t₀) (hfits : s.Fits) (hxs : ∀ x ∈ xs, ∃ len, x = .read len)
    (hq : Each Session.step InFirst t₀ xs) (ht : Run.run Session.step t₀ xs = some t) : Reading s t := by
  induction xs generalizing t₀ with
  | nil =>
    cases ht
    exact h
  | cons x xs ih =>
    obtain ⟨t₁, ht₁, hrest⟩ := Option.bind_eq_some_iff.mp ht
    obtain ⟨len, rfl⟩ := hxs x List.mem_cons_self
    have hstep : InStep s t₁ := InStep.step ⟨h.inUse, h.pos⟩ ht₁ hq.1
    exact ih (h.step hfits ht₁ hstep.pos) (fun y hy => hxs y (List.mem_cons_of_mem _ hy)) (hq.2 t₁ ht₁) hrest

/-- In every run of calls that return counts, reads and writes are in sequence if and only if each goes to a segment
    that begins at offset 0. --/
theorem in_sequence_iff (h : InUse s.world s.file.dentry) (hmoved : s.moved = 0) (hgot : s.got = []) {xs : List Io}
    (hrun : (run step s xs).isSome) : s.InSequence xs ↔ Each step InFirst s xs := by
  have hstart : InStep s s := ⟨h, by rw [hmoved, Int.add_zero]⟩
  have hmoves : Always step (fun t => t.file.pos = s.file.pos + t.moved) (fun t x => t.Lands (s.file.pos + t.moved) x) s xs ↔
      Each step InFirst s xs := by
    refine always_iff_each (I := InStep s) (fun t ht => ht.pos) (fun t x ht hx => ⟨ht.pos ▸ lands ht.inUse, ?_⟩) ?_ hstart hrun
    · exact fun t' ht' => ht.step ht' hx
    · intro t x t' ht ht' _ hpos'
      refine (step_moves ht.inUse ht').mp ?_
      have := ht.pos
      omega
  refine ⟨fun hseq => hmoves.mp hseq.moves, fun hfirst => ⟨hmoves.mpr hfirst, fun hreads hfits t ht => ?_⟩⟩
  have hempty : Reading s s := by
    refine ⟨h, rfl, fun _ _ hk => hk, hstart.pos, by rw [hmoved, hgot]; rfl, fun j b hj => ?_⟩
    rw [hgot] at hj
    cases hj
  exact (hempty.run hfits hreads hfirst ht).got

end Session

/-! ### A file of two segments -/

/-- The file opened for reading and writing, with its position at `pos`. --/
def twoSession (pos : Int) : Session := ⟨twoSized 40960 100, ⟨firstDentry, pos, 2⟩, 0, []⟩

theorem twoSession_vnode (pos : Int) : (twoSession pos).world.vnode (twoSession pos).file.dentry.inode =
    some { twoLinkedVnode with size := (40960 + 100 : Nat) } := by
  simp only [twoSession, twoSized, (twoLinked_vnode 0).1, Option.map_some]

theorem twoSession_inUse (pos : Int) : InUse (twoSession pos).world (twoSession pos).file.dentry :=
  ⟨Calm.honest (twoLinked_calm 0), ⟨_, twoSession_vnode pos⟩, rfl⟩

theorem in_sequence_twoSession : (twoSession 0).InSequence [.read 3] := by
  refine (Session.in_sequence_iff (twoSession_inUse 0) rfl rfl (by decide +kernel)).mpr ⟨fun k hk => ?_, fun _ _ => trivial⟩
  have hdata : (twoSession 0).world.disk.contData? firstIno = some ⟨secondIno.uino, 0, 0, segLen⟩ := by decide +kernel
  have hfirst : Locates (twoSession 0).world firstDentry twoLinkedVnode.ino 0 none
      (loaded firstIno ⟨secondIno.uino, 0, 0, segLen⟩ (uinoToChunkId twoLinkedVnode.ino)) :=
    .here (.head _ hdata (by decide +kernel)) (by decide)
  have hk' := (Session.at_iff (twoSession_vnode 0)).mp hk
  rw [← hfirst.unique hk']
  rfl

/-- A read of one byte in the second segment leaves the position near the beginning of the file. --/
theorem not_in_sequence_twoSession : InUse (twoSession 40960).world (twoSession 40960).file.dentry ∧
    (Run.run Session.step (twoSession 40960) [.read 1]).isSome ∧ ¬(twoSession 40960).InSequence [.read 1] := by
  have hrun : (Run.run Session.step (twoSession 40960) [.read 1]).isSome := by decide +kernel
  refine ⟨twoSession_inUse 40960, hrun, fun h => ?_⟩
  obtain ⟨t, ht, -⟩ := run_cons hrun
  have hpos : t.file.pos = 40960 + t.moved := h.moves.2.2 t ht
  have hvalue : ((twoSession 40960).step (.read 1)).map (fun t => (t.file.pos, t.moved)) = some (1, 1) := by decide +kernel
  rw [ht] at hvalue
  obtain ⟨h₁, h₂⟩ := Prod.mk.inj (Option.some.inj hvalue)
  omega

end Chunkfs
