import Chunkfs.Super

/-! Which device images `chunkfs_read_dev` accepts. The chunks it meets form a walk from the device
    summary's first offset: to offset 0, or to the first summary that cannot be read or does not pass. -/

namespace Chunkfs

/-! ### The walk of chunk offsets -/

/-- The chunk whose summary at an offset can be read and passes, and the next offset. --/
def Sb.summary? (sb : Sb) (o : Nat) : Option (ChunkInfo × Nat) :=
  match sb.bread (o / blkSize) with
  | none => none
  | some chunk =>
    if checkChunk chunk = 0 then some ({ flags := cFlags chunk, chunkId := cChunkId chunk }, cNextChunk chunk)
    else none

/-- The chunks from an offset on, and whether the walk comes to its end or stops at a bad summary. --/
inductive Sb.Walk (sb : Sb) : Nat → List ChunkInfo → Bool → Prop
  | last : Walk sb 0 [] true
  | bad {o} (ho : o ≠ 0) (hs : sb.summary? o = none) : Walk sb o [] false
  | more {o next ci cs whole} (ho : o ≠ 0) (hs : sb.summary? o = some (ci, next)) (h : Walk sb next cs whole) :
      Walk sb o (ci :: cs) whole

variable {sb : Sb} {pi : PoolInfo} {di : DevInfo} {ci : ChunkInfo} {cs ds : List ChunkInfo} {whole : Bool}
  {o next fuel : Nat}

theorem Sb.summary?_eq {b : Block} (hb : sb.bread (o / blkSize) = some b) (hc : checkChunk b = 0) :
    sb.summary? o = some ({ flags := cFlags b, chunkId := cChunkId b }, cNextChunk b) := by
  unfold summary?
  rw [hb]
  exact if_pos hc

/-- A device image has one walk. --/
theorem Sb.Walk.unique {whole' : Bool} (h : sb.Walk o cs whole) (h' : sb.Walk o ds whole') :
    cs = ds ∧ whole = whole' := by
  induction h generalizing ds whole' with
  | last =>
    cases h' with
    | last => exact ⟨rfl, rfl⟩
    | bad ho => exact absurd rfl ho
    | more ho => exact absurd rfl ho
  | bad ho hs =>
    cases h' with
    | last => exact absurd rfl ho
    | bad => exact ⟨rfl, rfl⟩
    | more _ hs' =>
      rw [hs] at hs'
      cases hs'
  | more ho hs _ ih =>
    cases h' with
    | last => exact absurd rfl ho
    | bad _ hs' =>
      rw [hs] at hs'
      cases hs'
    | more _ hs' h' =>
      rw [hs] at hs'
      cases hs'
      obtain ⟨hcs, hwhole⟩ := ih h'
      exact ⟨congrArg _ hcs, hwhole⟩

/-- The chunks that carry `CHUNKFS_ROOT`. --/
def roots (cs : List ChunkInfo) : Nat := cs.countP ChunkInfo.isRoot

theorem roots_cons : roots (ci :: cs) = roots cs + if ci.isRoot then 1 else 0 := List.countP_cons

theorem find_isRoot_isNone (cs : List ChunkInfo) : (cs.find? ChunkInfo.isRoot).isNone = decide (roots cs = 0) := by
  rw [Bool.eq_iff_iff, Option.isNone_iff_eq_none, decide_eq_true_iff, roots, List.find?_eq_none, List.countP_eq_zero]

/-- The identifier is short enough for the buffer its mount point is printed into. --/
def ChunkInfo.Short (ci : ChunkInfo) : Prop := ci.chunkId < 10 ^ 11

instance (ci : ChunkInfo) : Decidable ci.Short := inferInstanceAs (Decidable (ci.chunkId < 10 ^ 11))

/-- Every client file system is mounted and there is memory. --/
structure Sb.Willing (sb : Sb) : Prop where
  mounted : ∀ id, sb.kernPath (mountPath id) = none
  memory : sb.memory = []

/-- The client file systems of these chunks are mounted and there is memory. --/
structure Sb.Mounts (sb : Sb) (cs : List ChunkInfo) : Prop where
  mounted : ∀ c ∈ cs, sb.kernPath (mountPath c.chunkId) = none
  memory : sb.memory = []

theorem Sb.Willing.mounts (h : sb.Willing) (cs : List ChunkInfo) : sb.Mounts cs := ⟨fun c _ => h.mounted c.chunkId, h.memory⟩

/-! ### Reading one chunk -/

theorem Sb.Mounts.kzalloc (h : sb.Mounts cs) : kzalloc sb = .ok true sb := by
  unfold Chunkfs.kzalloc
  rw [h.memory]

theorem Sb.Willing.kzalloc (h : sb.Willing) : kzalloc sb = .ok true sb := (h.mounts []).kzalloc

theorem ChunkInfo.short_iff : ci.Short ↔ (mountPath ci.chunkId).length + 1 ≤ mountPathSize := by
  have hlen : (mountPath ci.chunkId).length = 6 + (Decimal.print ci.chunkId).length := List.length_append
  rw [hlen, ChunkInfo.Short, ← Decimal.length_print_le_iff (by decide)]
  unfold mountPathSize
  omega

theorem readClientSb_short (hci : ci.Short) :
    readClientSb ci sb = .ok (sb.kernPath (mountPath ci.chunkId)) sb := by
  unfold readClientSb
  rw [if_neg (Nat.not_lt.mpr (ChunkInfo.short_iff.mp hci))]
  rfl

theorem readClientSb_long (hci : ¬ci.Short) : readClientSb ci sb = .error .oops sb := by
  unfold readClientSb
  rw [if_pos (Nat.not_le.mp fun hle => hci (ChunkInfo.short_iff.mpr hle))]
  rfl

section Chunk
variable {sb' : Sb}

theorem readChunk_bad (hk : kzalloc sb = .ok true sb') (hs : sb'.summary? o = none) :
    readChunk o sb = .ok (.error .eio) sb' := by
  unfold readChunk
  rw [Exec.bind_ok hk]
  unfold Sb.summary? at hs
  cases hb : sb'.bread (o / blkSize) with
  | none => simp [Exec.bind_apply, hb]
  | some chunk =>
    rw [hb] at hs
    have hc : checkChunk chunk ≠ 0 := fun hc => by simp [hc] at hs
    simp [Exec.bind_apply, hb, hc]

/-- The summary passes: what is left to do is to find the client file system. --/
theorem readChunk_of_summary (hk : kzalloc sb = .ok true sb') (hs : sb'.summary? o = some (ci, next)) :
    readChunk o sb = (readClientSb ci >>= fun r => match r with
      | some e => pure (.error e)
      | none => pure (.ok (ci, next))) sb' := by
  unfold readChunk
  rw [Exec.bind_ok hk]
  unfold Sb.summary? at hs
  cases hb : sb'.bread (o / blkSize) with
  | none => simp [hb] at hs
  | some chunk =>
    simp only [hb, Option.ite_none_right_eq_some, Option.some.injEq, Prod.mk.injEq] at hs
    obtain ⟨hc, rfl, rfl⟩ := hs
    refine (Exec.bind_ok (Exec.get_apply sb')).trans ?_
    rw [hb]
    exact (congrFun (if_neg (not_not.mpr hc)) sb').trans rfl

theorem readChunk_unmounted {e : Errno} (hk : kzalloc sb = .ok true sb') (hs : sb'.summary? o = some (ci, next))
    (hci : ci.Short) (hm : sb'.kernPath (mountPath ci.chunkId) = some e) : readChunk o sb = .ok (.error e) sb' := by
  rw [readChunk_of_summary hk hs, Exec.bind_ok (readClientSb_short hci), hm]
  rfl

theorem readChunk_short (hk : kzalloc sb = .ok true sb') (hs : sb'.summary? o = some (ci, next)) (hci : ci.Short)
    (hm : sb'.kernPath (mountPath ci.chunkId) = none) : readChunk o sb = .ok (.ok (ci, next)) sb' := by
  rw [readChunk_of_summary hk hs, Exec.bind_ok (readClientSb_short hci), hm]
  rfl

theorem readChunk_long (hk : kzalloc sb = .ok true sb') (hs : sb'.summary? o = some (ci, next)) (hci : ¬ci.Short) :
    readChunk o sb = .error .oops sb' := by
  rw [readChunk_of_summary hk hs, Exec.bind_error (readClientSb_long hci)]

end Chunk

/-! ### The loop -/

/-- The device once the chunks of a walk are in its list. --/
def DevInfo.withChunks (di : DevInfo) (cs : List ChunkInfo) : DevInfo :=
  { di with chunks := di.chunks ++ cs, rootChunk := di.rootChunk.or (cs.find? ChunkInfo.isRoot) }

/-- The pool agrees with its device on whether the root chunk was found. --/
def PoolInfo.rooted (pi : PoolInfo) (di : DevInfo) : PoolInfo := { pi with rootDev := di.rootChunk.isSome }

theorem DevInfo.withChunks_nil (di : DevInfo) : di.withChunks [] = di := by
  cases di
  simp [withChunks]

theorem DevInfo.withChunks_root (hr : ci.isRoot = true) (hd : di.rootChunk = none) :
    di.withChunks (ci :: cs) =
      ({ di with chunks := di.chunks ++ [ci], rootChunk := some ci } : DevInfo).withChunks cs := by
  simp [withChunks, hd, hr]

theorem DevInfo.withChunks_plain (hr : ci.isRoot = false) :
    di.withChunks (ci :: cs) = ({ di with chunks := di.chunks ++ [ci] } : DevInfo).withChunks cs := by
  simp [withChunks, hr]

/-- The root chunks met when the loop has read `cs` more. --/
def DevInfo.rootsWith (di : DevInfo) (cs : List ChunkInfo) : Nat := (if di.rootChunk.isSome then 1 else 0) + roots cs

namespace DevInfo

theorem rootsWith_plain (hr : ci.isRoot = false) :
    di.rootsWith (ci :: cs) = ({ di with chunks := di.chunks ++ [ci] } : DevInfo).rootsWith cs := by
  simp [rootsWith, roots_cons, hr]

theorem rootsWith_first (hr : ci.isRoot = true) (hd : di.rootChunk = none) :
    di.rootsWith (ci :: cs) =
      ({ di with chunks := di.chunks ++ [ci], rootChunk := some ci } : DevInfo).rootsWith cs := by
  simp [rootsWith, roots_cons, hr, hd, Nat.add_comm]

/-- Where at most one root chunk is met, one that comes now is the first. --/
theorem rootsWith_root (hr : ci.isRoot = true) (h : di.rootsWith (ci :: cs) ≤ 1) : di.rootChunk = none ∧
    ({ di with chunks := di.chunks ++ [ci], rootChunk := some ci } : DevInfo).rootsWith cs ≤ 1 := by
  cases hd : di.rootChunk with
  | some c =>
    unfold rootsWith at h
    rw [roots_cons, hd, hr] at h
    simp only [Option.isSome_some, ↓reduceIte] at h
    omega
  | none => exact ⟨rfl, rootsWith_first hr hd ▸ h⟩

theorem not_bad_nil (di : DevInfo) : ¬((∃ c ∈ ([] : List ChunkInfo), ¬c.Short) ∨ 2 ≤ di.rootsWith []) := by
  rintro (⟨c, hc, -⟩ | htwo)
  · exact absurd hc List.not_mem_nil
  · have : di.rootsWith [] ≤ 1 := by
      unfold rootsWith
      split <;> simp [roots]
    omega

end DevInfo

section Loop
variable {r : Int}

theorem readChunks_zero : readChunks (fuel + 1) pi di 0 r sb = .ok (.ok r, pi, di) sb := rfl

section Step
variable {sb' : Sb}

/-- The loop goes to its `out:` label. --/
theorem readChunks_out {e : Errno} (ho : o ≠ 0) (h : readChunk o sb = .ok (.error e) sb') :
    readChunks (fuel + 1) pi di o r sb = .ok (.error e.ret, pi, di) sb' := by
  rw [readChunks, if_neg ho, Exec.bind_ok h]
  rfl

theorem readChunks_long (hk : kzalloc sb = .ok true sb') (ho : o ≠ 0) (hs : sb'.summary? o = some (ci, next))
    (hci : ¬ci.Short) : readChunks (fuel + 1) pi di o r sb = .error .oops sb' := by
  rw [readChunks, if_neg ho, Exec.bind_error (readChunk_long hk hs hci)]

theorem readChunks_plain (ho : o ≠ 0) (h : readChunk o sb = .ok (.ok (ci, next)) sb') (hr : ci.isRoot = false) :
    readChunks (fuel + 1) pi di o r sb = readChunks fuel pi { di with chunks := di.chunks ++ [ci] } next 0 sb' := by
  rw [readChunks, if_neg ho, Exec.bind_ok h]
  simp [hr]

theorem readChunks_root (ho : o ≠ 0) (h : readChunk o sb = .ok (.ok (ci, next)) sb') (hr : ci.isRoot = true)
    (hp : pi.rootDev = false) (hd : di.rootChunk = none) :
    readChunks (fuel + 1) pi di o r sb =
      readChunks fuel { pi with rootDev := true } { di with chunks := di.chunks ++ [ci], rootChunk := some ci } next 0
        sb' := by
  rw [readChunks, if_neg ho, Exec.bind_ok h]
  simp [hr, hp, hd]

/-- `BUG_ON(di->di_pool->pi_root_dev)`. --/
theorem readChunks_two (ho : o ≠ 0) (h : readChunk o sb = .ok (.ok (ci, next)) sb') (hr : ci.isRoot = true)
    (hp : pi.rootDev = true) : readChunks (fuel + 1) pi di o r sb = .error .bug sb' := by
  rw [readChunks, if_neg ho, Exec.bind_ok h]
  simp [hr, hp, Exec.bind_apply]

end Step

/-- With short identifiers and at most one root chunk the loop reads the whole walk. --/
theorem readChunks_mounted (h : sb.Mounts cs) (hw : sb.Walk o cs whole) (hfuel : cs.length < fuel)
    (hshort : ∀ c ∈ cs, c.Short) (hroots : di.rootsWith cs ≤ 1) :
    readChunks fuel (pi.rooted di) di o r sb =
      .ok (if whole then .ok (if cs = [] then r else 0) else .error Errno.eio.ret,
        pi.rooted (di.withChunks cs), di.withChunks cs) sb := by
  induction hw generalizing fuel di r with
  | last =>
    obtain ⟨fuel, rfl⟩ := Nat.exists_eq_add_of_lt hfuel
    rw [readChunks_zero, DevInfo.withChunks_nil]
    rfl
  | bad ho hs =>
    obtain ⟨fuel, rfl⟩ := Nat.exists_eq_add_of_lt hfuel
    rw [readChunks_out ho (readChunk_bad h.kzalloc hs), DevInfo.withChunks_nil]
    rfl
  | @more o next ci cs whole ho hs hw ih =>
    obtain ⟨fuel, rfl⟩ : ∃ f, fuel = f + 1 := ⟨fuel - 1, by omega⟩
    have hci := hshort ci List.mem_cons_self
    have hcs : ∀ c ∈ cs, c.Short := fun c hc => hshort c (List.mem_cons_of_mem ci hc)
    have hlen : cs.length < fuel := Nat.lt_of_succ_lt_succ hfuel
    have hrest : sb.Mounts cs := ⟨fun c hc => h.mounted c (List.mem_cons_of_mem ci hc), h.memory⟩
    have hchunk := readChunk_short h.kzalloc hs hci (h.mounted ci List.mem_cons_self)
    rw [if_neg (List.cons_ne_nil ci cs)]
    cases hr : ci.isRoot with
    | false =>
      rw [readChunks_plain ho hchunk hr, DevInfo.withChunks_plain hr]
      rw [DevInfo.rootsWith_plain hr] at hroots
      refine (ih hrest hlen hcs hroots).trans ?_
      rw [ite_self]
    | true =>
      obtain ⟨hd, hroots⟩ := DevInfo.rootsWith_root hr hroots
      have hp : (pi.rooted di).rootDev = false := by
        rw [PoolInfo.rooted, hd]
        rfl
      rw [readChunks_root ho hchunk hr hp hd, DevInfo.withChunks_root hr hd]
      refine (ih hrest hlen hcs hroots).trans ?_
      rw [ite_self]

/-- A long identifier overruns the buffer, and a second root chunk is an assertion: the loop does not return. --/
theorem readChunks_stops (h : sb.Willing) (hw : sb.Walk o cs whole)
    (hbad : (∃ c ∈ cs, ¬c.Short) ∨ 2 ≤ di.rootsWith cs) :
    ∃ e, readChunks fuel (pi.rooted di) di o r sb = .error e sb := by
  induction hw generalizing fuel di r with
  | last => exact absurd hbad (DevInfo.not_bad_nil di)
  | bad => exact absurd hbad (DevInfo.not_bad_nil di)
  | @more o next ci cs whole ho hs hw ih =>
    rcases fuel with _ | fuel
    · exact ⟨_, rfl⟩
    by_cases hci : ci.Short
    swap
    · exact ⟨_, readChunks_long h.kzalloc ho hs hci⟩
    have hrest : (∃ c ∈ cs, ¬c.Short) ∨ 2 ≤ di.rootsWith (ci :: cs) := by
      rcases hbad with ⟨c, hc, hlong⟩ | htwo
      · rcases List.mem_cons.mp hc with rfl | hc
        · exact absurd hci hlong
        · exact Or.inl ⟨c, hc, hlong⟩
      · exact Or.inr htwo
    cases hr : ci.isRoot with
    | false =>
      rw [DevInfo.rootsWith_plain hr] at hrest
      obtain ⟨e, he⟩ := ih (r := 0) hrest
      exact ⟨e, (readChunks_plain ho (readChunk_short h.kzalloc hs hci (h.mounted _)) hr).trans he⟩
    | true =>
      have hp : (pi.rooted di).rootDev = di.rootChunk.isSome := rfl
      cases hd : di.rootChunk with
      | some c =>
        rw [hd] at hp
        exact ⟨_, readChunks_two ho (readChunk_short h.kzalloc hs hci (h.mounted _)) hr hp⟩
      | none =>
        rw [DevInfo.rootsWith_first hr hd] at hrest
        obtain ⟨e, he⟩ := ih (r := 0) hrest
        rw [hd] at hp
        exact ⟨e, (readChunks_root ho (readChunk_short h.kzalloc hs hci (h.mounted _)) hr hp hd).trans he⟩

end Loop

/-! ### The device -/

/-- The first chunk offset, when the device summary can be read and passes. --/
def Sb.innards? (sb : Sb) : Option Nat :=
  match sb.bread devBlk with
  | none => none
  | some dev => if checkDev dev = 0 then some (dInnardsBegin dev) else none

theorem Sb.innards?_eq {b : Block} (hb : sb.bread devBlk = some b) (hc : checkDev b = 0) :
    sb.innards? = some (dInnardsBegin b) := by
  unfold innards?
  rw [hb]
  exact if_pos hc

section Device
variable {sb' : Sb}

theorem readDev_bad (hk : kzalloc sb = .ok true sb') (hd : sb'.innards? = none) :
    readDev fuel pi sb = .ok (Errno.eio.ret, pi, none) sb' := by
  unfold readDev
  rw [Exec.bind_ok hk]
  unfold Sb.innards? at hd
  cases hb : sb'.bread devBlk with
  | none => simp [Exec.bind_apply, hb]
  | some dev =>
    rw [hb] at hd
    have hc : checkDev dev ≠ 0 := fun hc => by simp [hc] at hd
    simp [Exec.bind_apply, hb, hc]

theorem readDev_of_innards (hk : kzalloc sb = .ok true sb') (hd : sb'.innards? = some o) :
    ∃ flags, ∀ fuel pi, readDev fuel pi sb =
      (readChunks fuel pi { flags := flags, chunks := [], rootChunk := none } o Errno.eio.ret >>= fun r =>
        match r with
        | (.error retval, pi, _) => pure (retval, pi, none)
        | (.ok retval, pi, di) =>
          if di.rootChunk.isNone then pure (retval, pi, none) else pure (0, pi, some di)) sb' := by
  unfold Sb.innards? at hd
  cases hb : sb'.bread devBlk with
  | none => simp [hb] at hd
  | some dev =>
    simp only [hb, Option.ite_none_right_eq_some, Option.some.injEq] at hd
    obtain ⟨hc, rfl⟩ := hd
    refine ⟨dFlags dev, fun fuel pi => ?_⟩
    unfold readDev
    rw [Exec.bind_ok hk]
    refine (Exec.bind_ok (Exec.get_apply sb')).trans ?_
    rw [hb]
    exact (congrFun (if_neg (not_not.mpr hc)) sb').trans rfl

end Device

/-- `retval` is still what it was before the loop when no chunk was read, and 0 when the last one was. --/
theorem readDev_mounted (h : sb.Mounts cs) (hd : sb.innards? = some o) (hw : sb.Walk o cs whole)
    (hfuel : cs.length < fuel) (hshort : ∀ c ∈ cs, c.Short) (hroots : roots cs ≤ 1) (flags : Nat) :
    ∃ pi di, pi.devs = [] ∧ di.chunks = cs ∧ di.rootChunk = cs.find? ChunkInfo.isRoot ∧
      readDev fuel (newPool flags) sb =
        .ok (if whole = true ∧ cs ≠ [] then 0 else Errno.eio.ret, pi,
          if whole = true ∧ roots cs = 1 then some di else none) sb := by
  obtain ⟨dflags, hdev⟩ := readDev_of_innards h.kzalloc hd
  let di : DevInfo := { flags := dflags, chunks := [], rootChunk := none }
  have hrw : di.rootsWith cs ≤ 1 := by simpa [di, DevInfo.rootsWith] using hroots
  have hchunks : (di.withChunks cs).chunks = cs := List.nil_append cs
  have hroot : (di.withChunks cs).rootChunk = cs.find? ChunkInfo.isRoot := Option.none_or
  refine ⟨(newPool flags).rooted (di.withChunks cs), di.withChunks cs, rfl, hchunks, hroot, ?_⟩
  have hloop : readChunks fuel ((newPool flags).rooted di) di o Errno.eio.ret sb = _ :=
    readChunks_mounted h hw hfuel hshort hrw
  refine (hdev fuel ((newPool flags).rooted di)).trans ((Exec.bind_ok hloop).trans ?_)
  cases whole with
  | false => rfl
  | true =>
    by_cases hone : roots cs = 1
    · have hne : cs ≠ [] := by
        rintro rfl
        cases hone
      simp only [hroot, ↓reduceIte, find_isRoot_isNone, hone, hne, Nat.one_ne_zero, decide_false, Bool.false_eq_true,
        ne_eq, not_false_eq_true, and_self]
      rfl
    · have hzero : roots cs = 0 := by omega
      simp only [hroot, ↓reduceIte, find_isRoot_isNone, hzero, decide_true, true_and, Nat.zero_ne_one]
      rcases cs with _ | ⟨c, cs⟩ <;> rfl

theorem readDev_returns (h : sb.Willing) (hd : sb.innards? = some o) (hw : sb.Walk o cs whole)
    (hfuel : cs.length < fuel) (hshort : ∀ c ∈ cs, c.Short) (hroots : roots cs ≤ 1) (flags : Nat) :
    ∃ pi di, pi.devs = [] ∧ di.chunks = cs ∧ di.rootChunk = cs.find? ChunkInfo.isRoot ∧
      readDev fuel (newPool flags) sb =
        .ok (if whole = true ∧ cs ≠ [] then 0 else Errno.eio.ret, pi,
          if whole = true ∧ roots cs = 1 then some di else none) sb :=
  readDev_mounted (h.mounts cs) hd hw hfuel hshort hroots flags

theorem readDev_stops (h : sb.Willing) (hd : sb.innards? = some o) (hw : sb.Walk o cs whole)
    (hbad : (∃ c ∈ cs, ¬c.Short) ∨ 2 ≤ roots cs) (flags : Nat) :
    ∃ e, readDev fuel (newPool flags) sb = .error e sb := by
  obtain ⟨dflags, hdev⟩ := readDev_of_innards h.kzalloc hd
  let di : DevInfo := { flags := dflags, chunks := [], rootChunk := none }
  have hbad' : (∃ c ∈ cs, ¬c.Short) ∨ 2 ≤ di.rootsWith cs := by simpa [di, DevInfo.rootsWith] using hbad
  have hloop : ∃ e, readChunks fuel ((newPool flags).rooted di) di o Errno.eio.ret sb = .error e sb :=
    readChunks_stops h hw hbad'
  obtain ⟨e, he⟩ := hloop
  exact ⟨e, (hdev fuel ((newPool flags).rooted di)).trans (Exec.bind_error he)⟩

/-! ### Which images are accepted -/

/-- The device summary and every chunk summary of the walk pass, and one chunk carries `CHUNKFS_ROOT`. --/
structure Sb.WellFormed (sb : Sb) (cs : List ChunkInfo) : Prop where
  walk : ∃ o, sb.innards? = some o ∧ sb.Walk o cs true
  root : roots cs = 1

/-- `chunkfs_read_dev` returns 0 on the well-formed images, with the device that stands on them, and a
    negative error on all others; `chunkfs_read_pool`, which calls it, returns as well. --/
structure AcceptsExactly (sb : Sb) (fuel : Nat) : Prop where
  dev : ∀ flags, ∃ retval pi dev, readDev fuel (newPool flags) sb = .ok (retval, pi, dev) sb ∧
    (retval = 0 ↔ ∃ cs, sb.WellFormed cs) ∧
    (∀ cs, sb.WellFormed cs → ∃ di, dev = some di ∧ di.chunks = cs ∧ di.rootChunk = cs.find? ChunkInfo.isRoot) ∧
    (retval ≠ 0 → retval < 0)
  pool : ∃ retval pi, readPool fuel sb = .ok (retval, pi) sb

/-- No chunk of the walk has a long identifier, no two carry `CHUNKFS_ROOT`, and one does where the walk has
    chunks and all its summaries pass. --/
structure Acceptable (cs : List ChunkInfo) (whole : Bool) : Prop where
  short : ∀ c ∈ cs, c.Short
  one : roots cs ≤ 1
  root : whole = true → cs ≠ [] → roots cs = 1

theorem readPool_bad (h : sb.Willing) (hp : ∀ pool, sb.bread poolBlk = some pool → checkPool pool ≠ 0) :
    readPool fuel sb = .ok (Errno.eio.ret, none) sb := by
  unfold readPool
  rw [Exec.bind_ok h.kzalloc]
  cases hb : sb.bread poolBlk with
  | none => simp [Exec.bind_apply, hb]
  | some pool => simp [Exec.bind_apply, hb, hp pool hb]

theorem readPool_mounted (h : sb.Mounts cs) {pool : Block} (hb : sb.bread poolBlk = some pool) (hc : checkPool pool = 0) :
    readPool fuel sb = (readDev fuel (newPool (pFlags pool)) >>= fun r =>
      if r.1 ≠ 0 then pure (r.1, none)
      else match r.2.2 with
        | none => throw .oops
        | some di => pure (0, some { r.2.1 with devs := r.2.1.devs ++ [di] })) sb := by
  unfold readPool
  rw [Exec.bind_ok h.kzalloc]
  refine (Exec.bind_ok (Exec.get_apply sb)).trans ?_
  rw [hb]
  exact (congrFun (if_neg (not_not.mpr hc)) sb).trans rfl

theorem readPool_of_pool (h : sb.Willing) {pool : Block} (hb : sb.bread poolBlk = some pool) (hc : checkPool pool = 0) :
    readPool fuel sb = (readDev fuel (newPool (pFlags pool)) >>= fun r =>
      if r.1 ≠ 0 then pure (r.1, none)
      else match r.2.2 with
        | none => throw .oops
        | some di => pure (0, some { r.2.1 with devs := r.2.1.devs ++ [di] })) sb :=
  readPool_mounted (h.mounts []) hb hc

/-- The caller returns as long as a device comes with every 0. --/
theorem readPool_returns (h : sb.Willing)
    (hdev : ∀ flags, ∃ retval pi dev, readDev fuel (newPool flags) sb = .ok (retval, pi, dev) sb ∧
      (retval = 0 → dev ≠ none)) : ∃ retval pi, readPool fuel sb = .ok (retval, pi) sb := by
  by_cases hp : ∃ pool, sb.bread poolBlk = some pool ∧ checkPool pool = 0
  swap
  · exact ⟨Errno.eio.ret, none, readPool_bad h fun pool hb hc => hp ⟨pool, hb, hc⟩⟩
  obtain ⟨pool, hb, hc⟩ := hp
  obtain ⟨retval, pi, dev, hrun, hset⟩ := hdev (pFlags pool)
  rw [readPool_of_pool h hb hc, Exec.bind_ok hrun]
  by_cases hr : retval = 0
  · obtain ⟨di, rfl⟩ := Option.ne_none_iff_exists'.mp (hset hr)
    refine ⟨0, some { pi with devs := pi.devs ++ [di] }, ?_⟩
    rw [if_neg (not_not.mpr hr)]
    rfl
  · refine ⟨retval, none, ?_⟩
    rw [if_pos hr]
    rfl

theorem Sb.WellFormed.of_innards (h : sb.WellFormed ds) (hd : sb.innards? = some o) : sb.Walk o ds true := by
  obtain ⟨o', ho', hw⟩ := h.walk
  rw [hd] at ho'
  cases ho'
  exact hw

theorem AcceptsExactly.acceptable (hsb : sb.Willing) (h : AcceptsExactly sb fuel) (hd : sb.innards? = some o)
    (hw : sb.Walk o cs whole) (hfuel : cs.length < fuel) : Acceptable cs whole := by
  obtain ⟨retval, pi, dev, hrun, hzero, -⟩ := h.dev 0
  have hgood : ¬((∃ c ∈ cs, ¬c.Short) ∨ 2 ≤ roots cs) := by
    intro hbad
    obtain ⟨e, he⟩ := readDev_stops hsb hd hw hbad 0
    rw [hrun] at he
    cases he
  have hshort : ∀ c ∈ cs, c.Short := fun c hc => by_contra fun hlong => hgood (Or.inl ⟨c, hc, hlong⟩)
  have hone : roots cs ≤ 1 := by
    by_contra hmany
    exact hgood (Or.inr (by omega))
  refine ⟨hshort, hone, fun hwhole hne => ?_⟩
  obtain ⟨pi', di, -, -, -, hrun'⟩ := readDev_returns hsb hd hw hfuel hshort hone 0
  rw [hrun, if_pos ⟨hwhole, hne⟩] at hrun'
  cases hrun'
  obtain ⟨ds, hds⟩ := hzero.mp rfl
  obtain ⟨rfl, -⟩ := hw.unique (hds.of_innards hd)
  exact hds.root

theorem acceptsExactly_of_bad (h : sb.Willing) (hd : sb.innards? = none) : AcceptsExactly sb fuel := by
  have hrun : ∀ flags, readDev fuel (newPool flags) sb = .ok (Errno.eio.ret, newPool flags, none) sb := fun flags =>
    readDev_bad h.kzalloc hd
  have hno : ∀ ds, ¬sb.WellFormed ds := by
    rintro ds ⟨⟨o, ho, -⟩, -⟩
    rw [hd] at ho
    cases ho
  refine ⟨fun flags => ⟨_, _, _, hrun flags, ⟨fun hz => ?_, ?_⟩, fun ds hds => absurd hds (hno ds), fun _ => ?_⟩,
    readPool_returns h fun flags => ⟨_, _, _, hrun flags, fun hz => ?_⟩⟩
  · exact absurd hz Errno.eio.ret_neg.ne
  · rintro ⟨ds, hds⟩
    exact absurd hds (hno ds)
  · exact Errno.eio.ret_neg
  · exact absurd hz Errno.eio.ret_neg.ne

theorem Acceptable.accepts (hsb : sb.Willing) (h : Acceptable cs whole) (hd : sb.innards? = some o)
    (hw : sb.Walk o cs whole) (hfuel : cs.length < fuel) : AcceptsExactly sb fuel := by
  have hwf : (whole = true ∧ cs ≠ []) ↔ ∃ ds, sb.WellFormed ds := by
    constructor
    · rintro ⟨rfl, hne⟩
      exact ⟨cs, ⟨o, hd, hw⟩, h.root rfl hne⟩
    · rintro ⟨ds, hds⟩
      obtain ⟨rfl, rfl⟩ := hw.unique (hds.of_innards hd)
      refine ⟨rfl, fun hnil => ?_⟩
      have hroot := hds.root
      rw [hnil] at hroot
      cases hroot
  have hret : ∀ r : Int, r = (if whole = true ∧ cs ≠ [] then 0 else Errno.eio.ret) →
      (r = 0 ↔ whole = true ∧ cs ≠ []) := by
    rintro r rfl
    split
    · rename_i hc
      exact ⟨fun _ => hc, fun _ => rfl⟩
    · rename_i hc
      exact ⟨fun hz => absurd hz Errno.eio.ret_neg.ne, fun hc' => absurd hc' hc⟩
  refine ⟨fun flags => ?_, readPool_returns hsb fun flags => ?_⟩
  · obtain ⟨pi, di, -, hchunks, hroot, hrun⟩ := readDev_returns hsb hd hw hfuel h.short h.one flags
    refine ⟨_, _, _, hrun, (hret _ rfl).trans hwf, fun ds hds => ?_, fun hnz => ?_⟩
    · obtain ⟨rfl, rfl⟩ := hw.unique (hds.of_innards hd)
      exact ⟨di, if_pos ⟨rfl, hds.root⟩, hchunks, hroot⟩
    · rw [if_neg fun hc => hnz ((hret _ rfl).mpr hc)]
      exact Errno.eio.ret_neg
  · obtain ⟨pi, di, -, -, -, hrun⟩ := readDev_returns hsb hd hw hfuel h.short h.one flags
    refine ⟨_, _, _, hrun, fun hz => ?_⟩
    obtain ⟨hwhole, hne⟩ := (hret _ rfl).mp hz
    rw [if_pos ⟨hwhole, h.root hwhole hne⟩]
    exact Option.some_ne_none di

/-- On every image whose walk of chunk offsets is finite, mounting accepts exactly the well-formed images
    where the device summary is bad or the walk has short identifiers, no second root chunk and, if it has
    chunks that all pass, a first one. --/
theorem accepts_exactly_iff (h : sb.Willing) (hw : ∀ o, sb.innards? = some o → sb.Walk o cs whole)
    (hfuel : cs.length < fuel) : AcceptsExactly sb fuel ↔ (sb.innards? ≠ none → Acceptable cs whole) := by
  cases hd : sb.innards? with
  | none => exact ⟨fun _ hne => absurd rfl hne, fun _ => acceptsExactly_of_bad h hd⟩
  | some o =>
    exact ⟨fun ha _ => ha.acceptable h hd (hw o hd) hfuel,
      fun hc => (hc (Option.some_ne_none o)).accepts h hd (hw o hd) hfuel⟩

/-- A device with one chunk, which has identifier 1 and the given flags. --/
def oneChunk (flags : Nat) : Sb where
  bread blk :=
    if blk = poolBlk then some (writeChksum (PoolSummary.bytes ⟨superMagic, 0⟩))
    else if blk = devBlk then
      some (writeChksum (DevSummary.bytes ⟨devMagic, 0, 0, 36864, 10526719, 40960, 10526719, 40960⟩))
    else if blk = 10 then
      some (writeChksum (ChunkSummary.bytes ⟨chunkMagic, flags, 1, 40960, 10526719, 45056, 10526719, 0⟩))
    else none
  kernPath _ := none
  memory := []

theorem oneChunk_willing (flags : Nat) : (oneChunk flags).Willing := ⟨fun _ => rfl, rfl⟩

theorem oneChunk_innards : (oneChunk 0).innards? = some 40960 ∧ (oneChunk chunkfsRoot).innards? = some 40960 := by
  decide +kernel

theorem oneChunk_walk_of_summary {flags : Nat} (hs : (oneChunk flags).summary? 40960 = some (⟨flags, 1⟩, 0)) :
    (oneChunk flags).Walk 40960 [⟨flags, 1⟩] true :=
  .more (by decide) hs .last

/-- A device with two chunks, of which the first is the root chunk. --/
def twoChunkDevice : Sb where
  bread blk :=
    if blk = poolBlk then some (writeChksum (PoolSummary.bytes ⟨superMagic, 0⟩))
    else if blk = devBlk then
      some (writeChksum (DevSummary.bytes ⟨devMagic, 0, 0, 36864, 21012479, 40960, 21012479, 40960⟩))
    else if blk = 10 then
      some (writeChksum (ChunkSummary.bytes ⟨chunkMagic, chunkfsRoot, 1, 40960, 10526719, 45056, 10526719, 10526720⟩))
    else if blk = 2570 then
      some (writeChksum (ChunkSummary.bytes ⟨chunkMagic, 0, 2, 10526720, 21012479, 10530816, 21012479, 0⟩))
    else none
  kernPath _ := none
  memory := []

theorem twoChunkDevice_innards : twoChunkDevice.innards? = some 40960 := by decide +kernel

theorem twoChunkDevice_walk : twoChunkDevice.Walk 40960 [⟨chunkfsRoot, 1⟩, ⟨0, 2⟩] true :=
  .more (by decide) (show twoChunkDevice.summary? 40960 = some (⟨chunkfsRoot, 1⟩, 10526720) by decide +kernel)
    (.more (by decide) (show twoChunkDevice.summary? 10526720 = some (⟨0, 2⟩, 0) by decide +kernel) .last)

theorem accepts_twoChunks : AcceptsExactly twoChunkDevice 3 := by
  have hw : ∀ o, twoChunkDevice.innards? = some o → twoChunkDevice.Walk o [⟨chunkfsRoot, 1⟩, ⟨0, 2⟩] true := by
    intro o ho
    rw [twoChunkDevice_innards] at ho
    cases ho
    exact twoChunkDevice_walk
  exact (accepts_exactly_iff ⟨fun _ => rfl, rfl⟩ hw (by decide)).mpr fun _ => ⟨by decide, by decide, by decide⟩

/-- Without a root chunk 0 is returned and `*dev_info` is not set. --/
theorem unset_dev_of_no_root : ∃ pi, (oneChunk 0).Walk 40960 [⟨0, 1⟩] true ∧
    readDev 2 (newPool 0) (oneChunk 0) = .ok (0, pi, none) (oneChunk 0) ∧ ¬AcceptsExactly (oneChunk 0) 2 := by
  have hw := oneChunk_walk_of_summary (show (oneChunk 0).summary? 40960 = _ by decide +kernel)
  obtain ⟨pi, di, -, -, -, hrun⟩ :=
    readDev_returns (oneChunk_willing 0) oneChunk_innards.1 hw (show _ < 2 by decide) (by decide) (by decide) 0
  refine ⟨pi, hw, hrun, fun ha => ?_⟩
  have hroot := (ha.acceptable (oneChunk_willing 0) oneChunk_innards.1 hw (by decide)).root rfl (List.cons_ne_nil _ _)
  revert hroot
  decide

end Chunkfs
