import Chunkfs.Buffers
import Chunkfs.Theorems.Mount
import Chunkfs.Theorems.NewFile

/-! The fixed buffers: `get_set_cont_data` and `chunkfs_read_client_sb` on their arrays do what the functions without
    arrays do, and how long a stored attribute and a chunk identifier may be for the arrays to hold them. -/

namespace Chunkfs
open Exec

/-! ### Names and values -/

theorem ContAttr.nul_notMem_fullName (a : ContAttr) : '\x00' ∉ a.fullName := by cases a <;> decide

/-- Every full name and its terminator fit. --/
theorem ContAttr.length_fullName_lt (a : ContAttr) : a.fullName.length < fullNameSize := by cases a <;> decide

theorem nul_notMem_print (n : Nat) : '\x00' ∉ Decimal.print n := fun h =>
  absurd (Decimal.isDigit_of_mem_print h) (by decide)

/-- The digits of a value and their terminator fit. --/
theorem length_print_lt {value : Nat} (h : value < 2 ^ 64) : (Decimal.print value).length < valueStrSize := by
  have := length_attrText_le h
  rw [attrText, List.length_append, List.length_singleton] at this
  unfold valueStrSize
  omega

/-- The name that is built is the attribute's. --/
theorem named_string (a : ContAttr) (b : Buffer) :
    ContAttr.named ((b.sprintf (userPrefix ++ a.name)).string fullNameSize) = some a := by
  have hname := b.string_sprintf a.nul_notMem_fullName a.length_fullName_lt
  exact (congrArg ContAttr.named hname).trans a.named_fullName

section Calls
variable {c : ClientIno} {a : ContAttr} {f : Frame} {value : Nat}

/-- The arrays after a call that stored `text` as a string. --/
def Frame.filled (f : Frame) (a : ContAttr) (text : List Char) : Frame :=
  ⟨f.valueStr.sprintf text, f.fullName.sprintf a.fullName⟩

/-- Reading terminates the text that the client copied, and reads the number. --/
theorem getSetContDataIn_get : getSetContDataIn c a.name value 0 f = genericGetxattr c a >>= fun r => match r with
    | .error e => pure (.error e, ⟨f.valueStr, f.fullName.sprintf a.fullName⟩)
    | .ok text => pure (.ok (attrValue text), f.filled a text) := by
  unfold getSetContDataIn getxattrNamed
  simp only [↓reduceIte, named_string, Buffer.store_copy, Buffer.contents_sprintf]
  rfl

/-- Storing hands the client the digits with their terminator. --/
theorem getSetContDataIn_set (hv : value < 2 ^ 64) :
    getSetContDataIn c a.name value 1 f = genericSetxattr c a (attrText value) >>= fun r => match r with
    | .error e => pure (.error e, f.filled a (Decimal.print value))
    | .ok _ => pure (.ok value, f.filled a (Decimal.print value)) := by
  unfold getSetContDataIn setxattrNamed
  simp only [one_ne_zero, ↓reduceIte, named_string, Buffer.string_sprintf _ (nul_notMem_print value) (length_print_lt hv),
    Buffer.contents_sprintf]
  rfl

/-- On its arrays the function does what it does without them. --/
theorem getSetContDataIn_refines {type : Nat} (htype : type = 0 ∨ type = 1 ∧ value < 2 ^ 64) :
    Prod.fst <$> getSetContDataIn c a.name value type f = getSetContData c a value type := by
  rcases htype with rfl | ⟨rfl, hv⟩
  · rw [getSetContDataIn_get, getSetContData, if_pos rfl, map_bind]
    refine bind_congr fun r => ?_
    cases r <;> rfl
  · rw [getSetContDataIn_set hv, getSetContData, if_neg one_ne_zero, map_bind]
    refine bind_congr fun r => ?_
    cases r <;> rfl

/-- Whatever a call returns, nothing is stored but a string and the name, or only the name. --/
theorem getSetContDataIn_ok {type : Nat} (htype : type = 0 ∨ type = 1 ∧ value < 2 ^ 64) {r : Except Errno Nat} {g : Frame}
    {w w' : World} (h : getSetContDataIn c a.name value type f w = .ok (r, g) w') :
    g = ⟨f.valueStr, f.fullName.sprintf a.fullName⟩ ∨ (type = 0 ∧ ∃ text u, genericGetxattr c a w = .ok (.ok text) u ∧
      g = f.filled a text) ∨ type = 1 ∧ g = f.filled a (Decimal.print value) := by
  rcases htype with rfl | ⟨rfl, hv⟩
  · rw [getSetContDataIn_get] at h
    obtain ⟨r', u, hget, h⟩ := bind_eq_ok.mp h
    cases r' with
    | error e =>
      cases h
      exact .inl rfl
    | ok text =>
      cases h
      exact .inr (.inl ⟨rfl, text, _, hget, rfl⟩)
  · rw [getSetContDataIn_set hv] at h
    obtain ⟨r', u, hset, h⟩ := bind_eq_ok.mp h
    cases r' with
    | error e =>
      cases h
      exact .inr (.inr ⟨rfl, rfl⟩)
    | ok _ =>
      cases h
      exact .inr (.inr ⟨rfl, rfl⟩)

end Calls

/-! ### The mount point -/

section Path
variable {ci : ChunkInfo} {b m : Buffer} {sb sb' : Sb}

theorem nul_notMem_mountPath (chunkId : Nat) : '\x00' ∉ mountPath chunkId := by
  intro h
  rcases List.mem_append.mp h with h | h
  · exact absurd h (by decide)
  · exact nul_notMem_print chunkId h

theorem readClientSbIn_eq (ci : ChunkInfo) (b : Buffer) (sb : Sb) :
    readClientSbIn ci b sb = .ok (sb.kernPath (mountPath ci.chunkId), b.sprintf (mountPath ci.chunkId)) sb := by
  have hpath : (b.sprintf (mountPath ci.chunkId)).string ((mountPath ci.chunkId).length + 1) = mountPath ci.chunkId :=
    b.string_sprintf (nul_notMem_mountPath _) (Nat.lt_succ_self _)
  have hrun : readClientSbIn ci b sb = .ok (sb.kernPath ((b.sprintf (mountPath ci.chunkId)).string
    ((mountPath ci.chunkId).length + 1)), b.sprintf (mountPath ci.chunkId)) sb := rfl
  rw [hrun, hpath]

theorem within_mountPath (hb : b.Within mountPathSize) :
    (b.sprintf (mountPath ci.chunkId)).Within mountPathSize ↔ ci.Short := by
  rw [Buffer.within_sprintf, and_iff_left hb, ChunkInfo.short_iff]
  exact Nat.lt_iff_add_one_le

/-- The function without an array stops where its array is overrun. --/
theorem readClientSb_refines (hb : b.Within mountPathSize) {r : Option Errno} (h : readClientSbIn ci b sb = .ok (r, m) sb') :
    readClientSb ci sb = if m.Within mountPathSize then .ok r sb' else .error .oops sb' := by
  rw [readClientSbIn_eq] at h
  cases h
  by_cases hci : ci.Short
  · rw [if_pos ((within_mountPath hb).mpr hci), readClientSb_short hci]
  · rw [if_neg (mt (within_mountPath hb).mp hci), readClientSb_long hci]

end Path

/-! ### How long a stored value may be -/

/-- Every index that `get_set_cont_data` writes, called for an attribute, is one of its arrays'. --/
def ValueFits (w : World) (c : ClientIno) (a : ContAttr) : Prop :=
  ∀ value type, type = 0 ∨ type = 1 ∧ value < 2 ^ 64 → ∀ valueStr fullName r f w',
    getSetContDataIn c a.name value type (.unset valueStr fullName) w = .ok (r, f) w' →
      f.valueStr.Within valueStrSize ∧ f.fullName.Within fullNameSize

/-- Every index that `chunkfs_read_client_sb` writes for a summary that has passed its check is one of `mount_path`. --/
def PathFits (chunk : Block) : Prop :=
  ∀ sb junk r b sb', readClientSbIn (chunkInfoOf chunk) (.unset junk) sb = .ok (r, b) sb' → b.Within mountPathSize

section Fits
variable {w w' : World} {c : ClientIno} {a : ContAttr} {text : List Char}

theorem valueFits_iff (hget : genericGetxattr c a w = .ok (.ok text) w') :
    ValueFits w c a ↔ text.length < valueStrSize := by
  have hread (valueStr fullName : Nat → Char) : getSetContDataIn c a.name 0 0 (.unset valueStr fullName) w =
      .ok (.ok (attrValue text), (Frame.unset valueStr fullName).filled a text) w' := by
    rw [getSetContDataIn_get, bind_ok hget]
    rfl
  constructor
  · intro h
    have := (h 0 0 (.inl rfl) _ _ _ _ _ (hread (fun _ => 'x') fun _ => 'x')).1
    exact ((Buffer.within_sprintf _ _).mp this).1
  · intro hlen value type htype valueStr fullName r f u hcall
    have hname : ((Buffer.unset fullName).sprintf a.fullName).Within fullNameSize :=
      (Buffer.within_sprintf _ _).mpr ⟨a.length_fullName_lt, Buffer.within_unset _⟩
    rcases getSetContDataIn_ok htype hcall with rfl | ⟨-, text', _, hget', rfl⟩ | ⟨rfl, rfl⟩
    · exact ⟨Buffer.within_unset _, hname⟩
    · rw [hget] at hget'
      cases hget'
      exact ⟨(Buffer.within_sprintf _ _).mpr ⟨hlen, Buffer.within_unset _⟩, hname⟩
    · obtain ⟨-, hv⟩ := htype.resolve_left Nat.one_ne_zero
      exact ⟨(Buffer.within_sprintf _ _).mpr ⟨length_print_lt hv, Buffer.within_unset _⟩, hname⟩

theorem pathFits_iff (chunk : Block) : PathFits chunk ↔ (chunkInfoOf chunk).Short := by
  have hb (junk : Nat → Char) : (Buffer.unset junk).Within mountPathSize := Buffer.within_unset junk
  constructor
  · intro h
    exact (within_mountPath (hb _)).mp (h ⟨fun _ => none, fun _ => none, []⟩ (fun _ => 'x') _ _ _ (readClientSbIn_eq _ _ _))
  · intro hshort sb junk r b sb' h
    rw [readClientSbIn_eq] at h
    cases h
    exact (within_mountPath (hb junk)).mpr hshort

/-- A summary that passes its check stops the mount exactly when its path overruns the buffer. --/
theorem readChunk_stops_iff {sb sb' : Sb} {o : Nat} {chunk : Block} (hk : kzalloc sb = .ok true sb')
    (hb : sb'.bread (o / blkSize) = some chunk) (hc : checkChunk chunk = 0) :
    readChunk o sb = .error .oops sb' ↔ ¬PathFits chunk := by
  have hsummary : sb'.summary? o = some (chunkInfoOf chunk, cNextChunk chunk) := Sb.summary?_eq hb hc
  rw [pathFits_iff]
  constructor
  · intro h hshort
    cases hm : sb'.kernPath (mountPath (chunkInfoOf chunk).chunkId) with
    | some e => exact absurd ((readChunk_unmounted hk hsummary hshort hm).symm.trans h) (by simp)
    | none => exact absurd ((readChunk_short hk hsummary hshort hm).symm.trans h) (by simp)
  · exact readChunk_long hk hsummary

/-- An attribute that can be read fits its buffer exactly when it leaves room for a terminator, and a chunk's mount point
    fits exactly when the chunk's identifier has eleven digits at most. --/
theorem buffers_hold_iff (hget : genericGetxattr c a w = .ok (.ok text) w') (chunk : Block) :
    (ValueFits w c a ↔ text.length < 50) ∧ (PathFits chunk ↔ cChunkId chunk < 10 ^ 11) :=
  ⟨valueFits_iff hget, pathFits_iff chunk⟩

end Fits

/-! ### Examples -/

/-- The summary of a chunk that says no more than its identifier. --/
def bareSummary (chunkId : Nat) : ChunkSummary := ⟨chunkMagic, 0, chunkId, 0, 0, 0, 0, 0⟩

theorem cChunkId_bareSummary {chunkId : Nat} (h : chunkId < 2 ^ 64) :
    cChunkId (writeChksum (bareSummary chunkId).bytes) = chunkId :=
  ChunkSummary.cChunkId_bytes fun n hn => by
    simp only [ChunkSummary.words, bareSummary, List.mem_cons, List.not_mem_nil, or_false] at hn
    rcases hn with rfl | rfl | rfl | rfl | rfl | rfl | rfl <;> first | exact h | decide

/-- The attributes of a new file and the first chunk. --/
theorem buffers_hold_oneFile :
    ValueFits (oneFile [1] quietEnv) firstIno .next ∧ PathFits (writeChksum (bareSummary 1).bytes) := by
  have hget : genericGetxattr firstIno .next (oneFile [1] quietEnv) = .ok (.ok (attrText 0)) (oneFile [1] quietEnv) := rfl
  obtain ⟨hvalue, hpath⟩ := buffers_hold_iff hget (writeChksum (bareSummary 1).bytes)
  refine ⟨hvalue.mpr (by decide), hpath.mpr ?_⟩
  rw [cChunkId_bareSummary (by decide)]
  decide

/-- Fifty digits are read, and their terminator is stored behind the buffer; a summary with an identifier of twelve
    digits passes its check. --/
theorem buffers_overrun :
    (∃ w, (∃ w', genericGetxattr firstIno .next w = .ok (.ok (List.replicate 50 '1')) w') ∧ ¬ValueFits w firstIno .next) ∧
    ∃ chunk, checkChunk chunk = 0 ∧ ¬PathFits chunk := by
  refine ⟨?_, writeChksum (bareSummary (10 ^ 11)).bytes, ChunkSummary.checkChunk_bytes rfl, ?_⟩
  · let w := (oneFile [1] quietEnv).setDisk
      ((oneFile [1] quietEnv).disk.modify firstIno (·.setXattr .next (List.replicate 50 '1')))
    have hget : genericGetxattr firstIno .next w = .ok (.ok (List.replicate 50 '1')) w := rfl
    refine ⟨w, ⟨w, hget⟩, fun h => ?_⟩
    exact absurd ((valueFits_iff hget).mp h) (by decide)
  · rw [pathFits_iff, ChunkInfo.Short, chunkInfoOf, cChunkId_bareSummary (by decide)]
    decide

end Chunkfs
