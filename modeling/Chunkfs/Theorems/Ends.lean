import Chunkfs.Theorems.Mount
import Mathlib.Data.Fintype.Order
import Mathlib.Data.Set.Finite.Lattice
import Mathlib.Logic.Relation
import Mathlib.Order.WellFounded

/-! On which device images the chunk walk of a mount ends. The offsets come from the device and nothing
    remembers those that were visited, so the walk ends exactly where the image has no circle of them. -/

namespace Chunkfs
open Relation

/-- The image is as long as a device: from some block on nothing can be read. --/
def Sb.OfDevice (sb : Sb) : Prop := ∃ n, ∀ blk, n ≤ blk → sb.bread blk = none

/-- The walk reads the summary at an offset and goes on to the next. --/
def Sb.Steps (sb : Sb) (o next : Nat) : Prop :=
  o ≠ 0 ∧ ∃ ci, sb.summary? o = some (ci, next) ∧ ci.Short ∧ sb.kernPath (mountPath ci.chunkId) = none

/-- The chunk at an offset is read and carries `CHUNKFS_ROOT`. --/
def Sb.RootAt (sb : Sb) (o : Nat) : Prop :=
  o ≠ 0 ∧ ∃ ci next, sb.summary? o = some (ci, next) ∧ ci.isRoot ∧ sb.kernPath (mountPath ci.chunkId) = none

/-- The chunks met from an offset on do not point in a circle, have short identifiers, and only one is read
    that carries `CHUNKFS_ROOT`. --/
structure Sb.Sane (sb : Sb) (o : Nat) : Prop where
  acyclic : ∀ o', ReflTransGen sb.Steps o o' → ¬TransGen sb.Steps o' o'
  short : ∀ o' ci next, ReflTransGen sb.Steps o o' → o' ≠ 0 → sb.summary? o' = some (ci, next) → ci.Short
  oneRoot : ∀ o₁ o₂, ReflTransGen sb.Steps o o₁ → ReflTransGen sb.Steps o o₂ → sb.RootAt o₁ → sb.RootAt o₂ → o₁ = o₂

/-- The same image with these outcomes of the coming allocations. --/
def Sb.withMemory (sb : Sb) (memory : List Bool) : Sb := { sb with memory := memory }

/-- However the allocations turn out, `chunkfs_read_dev` returns after finitely many iterations. --/
def Sb.MountEnds (sb : Sb) : Prop :=
  ∀ memory flags, ∃ fuel v sb', readDev fuel (newPool flags) (sb.withMemory memory) = .ok v sb'

/-! ### The walks that end -/

/-- From an offset the walk comes to its end, with or without a root chunk found before. --/
inductive Sb.Passes (sb : Sb) : Bool → Nat → Prop
  | last {found} : Passes sb found 0
  | bad {found o} (ho : o ≠ 0) (hs : sb.summary? o = none) : Passes sb found o
  | unmounted {found o next ci} (ho : o ≠ 0) (hs : sb.summary? o = some (ci, next)) (hci : ci.Short)
      (hm : sb.kernPath (mountPath ci.chunkId) ≠ none) : Passes sb found o
  | plain {found o next ci} (ho : o ≠ 0) (hs : sb.summary? o = some (ci, next)) (hci : ci.Short)
      (hm : sb.kernPath (mountPath ci.chunkId) = none) (hr : ci.isRoot = false) (h : Passes sb found next) :
      Passes sb found o
  | root {o next ci} (ho : o ≠ 0) (hs : sb.summary? o = some (ci, next)) (hci : ci.Short)
      (hm : sb.kernPath (mountPath ci.chunkId) = none) (hr : ci.isRoot = true) (h : Passes sb true next) :
      Passes sb false o

variable {sb : Sb} {pi : PoolInfo} {di : DevInfo} {ci : ChunkInfo} {o next : Nat} {found : Bool} {memory : List Bool}
  {r : Int}

/-- The pool and its device, when a root chunk was or was not found before. --/
def Rooted (pi : PoolInfo) (di : DevInfo) (found : Bool) : Prop :=
  pi.rootDev = found ∧ di.rootChunk.isSome = found

theorem Rooted.first (h : Rooted pi di false) : pi.rootDev = false ∧ di.rootChunk = none :=
  ⟨h.1, Option.not_isSome_iff_eq_none.mp (Bool.not_eq_true _ ▸ h.2)⟩

theorem kzalloc_withMemory (sb : Sb) (memory : List Bool) :
    ∃ works rest, kzalloc (sb.withMemory memory) = .ok works (sb.withMemory rest) := by
  rcases memory with _ | ⟨works, rest⟩
  · exact ⟨true, [], rfl⟩
  · exact ⟨works, rest, rfl⟩

theorem readChunk_of_no_memory {sb' : Sb} (hk : kzalloc sb = .ok false sb') :
    readChunk o sb = .ok (.error .enomem) sb' := by
  unfold readChunk
  rw [Exec.bind_ok hk]
  rfl

/-- A walk that comes to its end is read to its end, or to an allocation that fails. --/
theorem Sb.Passes.returns (h : sb.Passes found o) (hf : Rooted pi di found) :
    ∃ fuel v sb', readChunks fuel pi di o r (sb.withMemory memory) = .ok v sb' := by
  induction h generalizing pi di memory r with
  | last => exact ⟨1, _, _, rfl⟩
  | @bad found o ho hs =>
    obtain ⟨works, rest, hk⟩ := kzalloc_withMemory sb memory
    cases works with
    | false => exact ⟨1, _, _, readChunks_out ho (readChunk_of_no_memory hk)⟩
    | true => exact ⟨1, _, _, readChunks_out ho (readChunk_bad hk hs)⟩
  | @unmounted found o next ci ho hs hci hm =>
    obtain ⟨works, rest, hk⟩ := kzalloc_withMemory sb memory
    obtain ⟨e, he⟩ := Option.ne_none_iff_exists'.mp hm
    cases works with
    | false => exact ⟨1, _, _, readChunks_out ho (readChunk_of_no_memory hk)⟩
    | true => exact ⟨1, _, _, readChunks_out ho (readChunk_unmounted hk hs hci he)⟩
  | @plain found o next ci ho hs hci hm hr _ ih =>
    obtain ⟨works, rest, hk⟩ := kzalloc_withMemory sb memory
    cases works with
    | false => exact ⟨1, _, _, readChunks_out ho (readChunk_of_no_memory hk)⟩
    | true =>
      have hnext : ∃ fuel v sb', readChunks fuel pi { di with chunks := di.chunks ++ [ci] } next 0
          (sb.withMemory rest) = .ok v sb' := ih hf
      obtain ⟨fuel, v, sb', hrun⟩ := hnext
      exact ⟨fuel + 1, v, sb', (readChunks_plain ho (readChunk_short hk hs hci hm) hr).trans hrun⟩
  | @root o next ci ho hs hci hm hr _ ih =>
    obtain ⟨works, rest, hk⟩ := kzalloc_withMemory sb memory
    cases works with
    | false => exact ⟨1, _, _, readChunks_out ho (readChunk_of_no_memory hk)⟩
    | true =>
      obtain ⟨hp, hd⟩ := hf.first
      have hnext : ∃ fuel v sb', readChunks fuel { pi with rootDev := true }
          { di with chunks := di.chunks ++ [ci], rootChunk := some ci } next 0 (sb.withMemory rest) = .ok v sb' :=
        ih ⟨rfl, rfl⟩
      obtain ⟨fuel, v, sb', hrun⟩ := hnext
      exact ⟨fuel + 1, v, sb', (readChunks_root ho (readChunk_short hk hs hci hm) hr hp hd).trans hrun⟩

/-- Where no allocation fails the loop returns only from a walk that comes to its end. --/
theorem Sb.Passes.of_returns {fuel : Nat} {v} {sb' : Sb} (hf : Rooted pi di found)
    (h : readChunks fuel pi di o r (sb.withMemory []) = .ok v sb') : sb.Passes found o := by
  have hk : kzalloc (sb.withMemory []) = .ok true (sb.withMemory []) := rfl
  induction fuel generalizing pi di o r found with
  | zero => cases h
  | succ fuel ih =>
    by_cases ho : o = 0
    · exact ho ▸ .last
    cases hs : sb.summary? o with
    | none => exact .bad ho hs
    | some found' =>
      obtain ⟨ci, next⟩ := found'
      by_cases hci : ci.Short
      swap
      · rw [readChunks_long hk ho hs hci] at h
        cases h
      by_cases hm : sb.kernPath (mountPath ci.chunkId) = none
      swap
      · exact .unmounted ho hs hci hm
      have hread := readChunk_short hk hs hci hm
      cases hr : ci.isRoot with
      | false =>
        rw [readChunks_plain ho hread hr] at h
        have hf' : Rooted pi { di with chunks := di.chunks ++ [ci] } found := hf
        exact .plain ho hs hci hm hr (ih hf' h)
      | true =>
        cases found with
        | true =>
          rw [readChunks_two ho hread hr hf.1] at h
          cases h
        | false =>
          obtain ⟨hp, hd⟩ := hf.first
          rw [readChunks_root ho hread hr hp hd] at h
          have hf' : Rooted { pi with rootDev := true }
              { di with chunks := di.chunks ++ [ci], rootChunk := some ci } true := ⟨rfl, rfl⟩
          exact .root ho hs hci hm hr (ih hf' h)

/-! ### A walk that comes to its end -/

theorem Sb.Steps.next_eq {o' : Nat} (h : sb.Steps o o') (hs : sb.summary? o = some (ci, next)) : o' = next := by
  obtain ⟨-, ci', hs', -⟩ := h
  rw [hs] at hs'
  cases hs'
  rfl

theorem Sb.steps_unique (sb : Sb) : Relator.RightUnique sb.Steps := by
  rintro o a b ha ⟨-, ci, hs, -⟩
  exact ha.next_eq hs

namespace Sb.Passes

theorem short (h : sb.Passes found o) (ho : o ≠ 0) (hs : sb.summary? o = some (ci, next)) : ci.Short := by
  cases h with
  | last => exact absurd rfl ho
  | bad _ hs' =>
    rw [hs'] at hs
    cases hs
  | unmounted _ hs' hci | plain _ hs' hci | root _ hs' hci =>
    rw [hs'] at hs
    cases hs
    exact hci

theorem root_first (h : sb.Passes found o) (hr : sb.RootAt o) : found = false := by
  obtain ⟨ho, ci, next, hs, hroot, hm⟩ := hr
  cases h with
  | last => exact absurd rfl ho
  | root => rfl
  | bad _ hs' =>
    rw [hs'] at hs
    cases hs
  | unmounted _ hs' _ hm' =>
    rw [hs'] at hs
    cases hs
    exact absurd hm hm'
  | plain _ hs' _ _ hplain =>
    rw [hs'] at hs
    cases hs
    rw [hplain] at hroot
    cases hroot

/-- One step later a root chunk was found before if it was, or if the step is from one. --/
theorem step (h : sb.Passes found o) (hn : sb.Steps o next) :
    ∃ found', sb.Passes found' next ∧ (found = true → found' = true) ∧ (sb.RootAt o → found' = true) := by
  cases h with
  | last => exact absurd rfl hn.1
  | bad _ hs =>
    obtain ⟨-, _, hs', -⟩ := hn
    rw [hs] at hs'
    cases hs'
  | unmounted _ hs _ hm =>
    obtain ⟨-, _, hs', -, hm'⟩ := hn
    rw [hs] at hs'
    cases hs'
    exact absurd hm' hm
  | plain ho hs hci hm hplain h =>
    obtain rfl := hn.next_eq hs
    refine ⟨found, h, id, fun hr => ?_⟩
    obtain ⟨-, _, _, hs', hroot, -⟩ := hr
    rw [hs] at hs'
    cases hs'
    rw [hplain] at hroot
    cases hroot
  | root _ hs _ _ _ h =>
    obtain rfl := hn.next_eq hs
    exact ⟨true, h, fun _ => rfl, fun _ => rfl⟩

theorem steps {o' : Nat} (h : sb.Passes found o) (hr : ReflTransGen sb.Steps o o') :
    ∃ found', sb.Passes found' o' ∧ (found = true → found' = true) := by
  induction hr with
  | refl => exact ⟨found, h, id⟩
  | tail _ hn ih =>
    obtain ⟨found₁, h₁, hkeep₁⟩ := ih
    obtain ⟨found₂, h₂, hkeep₂, -⟩ := h₁.step hn
    exact ⟨found₂, h₂, fun hf => hkeep₂ (hkeep₁ hf)⟩

/-- After one root chunk there is no other. --/
theorem root_last {o' : Nat} (h : sb.Passes found o) (hr : sb.RootAt o) (hr' : sb.RootAt o')
    (hw : ReflTransGen sb.Steps o o') : o = o' := by
  rcases hw.cases_head with heq | ⟨next, hn, hw⟩
  · exact heq
  · obtain ⟨found₁, h₁, -, hfound₁⟩ := h.step hn
    obtain ⟨found₂, h₂, hkeep⟩ := h₁.steps hw
    have htrue := hkeep (hfound₁ hr)
    rw [h₂.root_first hr'] at htrue
    cases htrue

theorem acc (h : sb.Passes found o) : Acc (fun a b => sb.Steps b a) o := by
  induction h with
  | last => exact ⟨_, fun _ hn => absurd rfl hn.1⟩
  | bad _ hs =>
    refine ⟨_, fun _ hn => ?_⟩
    obtain ⟨-, _, hs', -⟩ := hn
    rw [hs] at hs'
    cases hs'
  | unmounted _ hs _ hm =>
    refine ⟨_, fun _ hn => ?_⟩
    obtain ⟨-, _, hs', -, hm'⟩ := hn
    rw [hs] at hs'
    cases hs'
    exact absurd hm' hm
  | plain _ hs _ _ _ _ ih | root _ hs _ _ _ _ ih => exact ⟨_, fun _ hn => hn.next_eq hs ▸ ih⟩

end Sb.Passes

/-- From where all paths end there is no way into a circle. --/
theorem not_circle_of_acc {α : Type} {step : α → α → Prop} {a b : α} (h : Acc (fun x y => step y x) a)
    (hw : ReflTransGen step a b) : ¬TransGen step b b := by
  induction h with
  | intro a _ ih =>
    rcases hw.cases_head with rfl | ⟨c, hc, hw⟩
    · intro hcircle
      obtain ⟨c, hc, hback⟩ := TransGen.head'_iff.mp hcircle
      exact ih c hc hback hcircle
    · exact ih c hc hw

theorem Sb.Passes.sane (h : sb.Passes found o) : sb.Sane o := by
  refine ⟨fun o' hw => not_circle_of_acc h.acc hw, fun o' ci next hw ho hs => ?_, fun o₁ o₂ hw₁ hw₂ hr₁ hr₂ => ?_⟩
  · obtain ⟨found', h', -⟩ := h.steps hw
    exact h'.short ho hs
  · rcases hw₁.total_of_right_unique sb.steps_unique hw₂ with hw | hw
    · obtain ⟨found', h', -⟩ := h.steps hw₁
      exact h'.root_last hr₁ hr₂ hw
    · obtain ⟨found', h', -⟩ := h.steps hw₂
      exact (h'.root_last hr₂ hr₁ hw).symm

/-! ### An image without a circle -/

theorem Sb.OfDevice.finite_met (h : sb.OfDevice) (o : Nat) : {o' | ReflTransGen sb.Steps o o'}.Finite := by
  obtain ⟨n, hn⟩ := h
  refine (((Set.finite_lt_nat (n * blkSize)).image fun x => ((sb.summary? x).map Prod.snd).getD 0).insert o).subset ?_
  intro o' hw
  rcases hw.cases_tail with heq | ⟨x, -, -, ci, hs, -⟩
  · exact Or.inl heq
  · refine Or.inr ⟨x, ?_, by simp [hs]⟩
    by_contra hout
    have hblk : n ≤ x / blkSize := (Nat.le_div_iff_mul_le (by decide)).mpr (Nat.not_lt.mp hout)
    unfold summary? at hs
    rw [hn _ hblk] at hs
    cases hs

/-- Where a walk cannot come back to a chunk, it comes to its end. --/
theorem Sb.Sane.passes (hdev : sb.OfDevice) (h : sb.Sane o) : sb.Passes false o := by
  have : Finite {o' // ReflTransGen sb.Steps o o'} := (hdev.finite_met o).to_subtype
  let after (a b : {o' // ReflTransGen sb.Steps o o'}) : Prop := TransGen sb.Steps b.1 a.1
  have : IsTrans _ after := ⟨fun _ _ _ hab hbc => hbc.trans hab⟩
  have : Std.Irrefl after := ⟨fun a => h.acyclic a.1 a.2⟩
  have hwf : WellFounded after := Finite.wellFounded_of_trans_of_irrefl after
  suffices hmet : ∀ (met : {o' // ReflTransGen sb.Steps o o'}) (found : Bool),
      (found = true → ∀ o', ReflTransGen sb.Steps met.1 o' → ¬sb.RootAt o') → sb.Passes found met.1 from
    hmet ⟨o, .refl⟩ false nofun
  intro met
  induction met using hwf.induction with
  | _ met ih =>
  obtain ⟨o', hw⟩ := met
  intro found hfound
  by_cases ho : o' = 0
  · exact ho ▸ .last
  cases hs : sb.summary? o' with
  | none => exact .bad ho hs
  | some read =>
    obtain ⟨ci, next⟩ := read
    have hci := h.short o' ci next hw ho hs
    by_cases hm : sb.kernPath (mountPath ci.chunkId) = none
    swap
    · exact .unmounted ho hs hci hm
    have hstep : sb.Steps o' next := ⟨ho, ci, hs, hci, hm⟩
    have hnext := ih ⟨next, hw.tail hstep⟩ (.single hstep)
    cases hr : ci.isRoot with
    | false => exact .plain ho hs hci hm hr (hnext found fun hf o'' hw' => hfound hf o'' (hw'.head hstep))
    | true =>
      have hroot : sb.RootAt o' := ⟨ho, ci, next, hs, hr, hm⟩
      cases found with
      | true => exact absurd hroot (hfound rfl o' .refl)
      | false =>
        refine .root ho hs hci hm hr (hnext true fun _ o'' hw' hroot' => ?_)
        have hback := h.oneRoot o' o'' hw ((hw.tail hstep).trans hw') hroot hroot'
        exact h.acyclic o' hw (TransGen.head' hstep (hback ▸ hw'))

/-! ### The whole mount -/

theorem Sb.MountEnds.passes (h : sb.MountEnds) (hd : sb.innards? = some o) : sb.Passes false o := by
  obtain ⟨fuel, v, sb', hrun⟩ := h [] 0
  obtain ⟨dflags, hdev⟩ := readDev_of_innards (show kzalloc (sb.withMemory []) = .ok true (sb.withMemory []) from rfl) hd
  rw [hdev] at hrun
  obtain ⟨w, sb'', hloop, -⟩ := Exec.bind_eq_ok.mp hrun
  exact .of_returns ⟨rfl, rfl⟩ hloop

theorem readDev_ends_of_passes (hd : ∀ o, sb.innards? = some o → sb.Passes false o) : sb.MountEnds := by
  intro memory flags
  obtain ⟨works, rest, hk⟩ := kzalloc_withMemory sb memory
  cases works with
  | false =>
    refine ⟨0, (Errno.enomem.ret, newPool flags, none), sb.withMemory rest, ?_⟩
    unfold readDev
    rw [Exec.bind_ok hk]
    rfl
  | true =>
    cases hin : sb.innards? with
    | none => exact ⟨0, _, _, readDev_bad hk hin⟩
    | some o =>
      obtain ⟨dflags, hdev⟩ := readDev_of_innards hk hin
      let di : DevInfo := { flags := dflags, chunks := [], rootChunk := none }
      have hends : ∃ fuel v sb', readChunks fuel (newPool flags) di o Errno.eio.ret (sb.withMemory rest) =
          .ok v sb' := (hd o hin).returns ⟨rfl, rfl⟩
      obtain ⟨fuel, ⟨how, pi, di'⟩, sb', hloop⟩ := hends
      cases how with
      | error e => exact ⟨fuel, _, _, (hdev fuel _).trans (Exec.bind_ok hloop)⟩
      | ok retval =>
        refine ⟨fuel, if di'.rootChunk.isNone then (retval, pi, none) else (0, pi, some di'), sb', ?_⟩
        refine (hdev fuel _).trans ((Exec.bind_ok hloop).trans ?_)
        dsimp only
        split <;> rfl

/-- On every device image, mounting ends exactly where the device summary is bad or the chunks it leads to do
    not point in a circle, have short identifiers and include no second root chunk. --/
theorem mountEnds_iff (hdev : sb.OfDevice) : sb.MountEnds ↔ ∀ o, sb.innards? = some o → sb.Sane o :=
  ⟨fun h _ hd => (h.passes hd).sane, fun h => readDev_ends_of_passes fun o hd => (h o hd).passes hdev⟩

/-- A device with one chunk, without `CHUNKFS_ROOT`, that names this offset as the next chunk's. --/
def onePointing (next : Nat) : Sb where
  bread blk :=
    if blk = devBlk then
      some (writeChksum (DevSummary.bytes ⟨devMagic, 0, 0, 36864, 10526719, 40960, 10526719, 40960⟩))
    else if blk = 10 then
      some (writeChksum (ChunkSummary.bytes ⟨chunkMagic, 0, 1, 40960, 10526719, 45056, 10526719, next⟩))
    else none
  kernPath _ := none
  memory := []

theorem onePointing_ofDevice (next : Nat) : (onePointing next).OfDevice := by
  refine ⟨11, fun blk hblk => ?_⟩
  have hdev : blk ≠ devBlk := by
    have : devBlk < 11 := by decide
    omega
  exact (if_neg hdev).trans (if_neg (by omega))

theorem onePointing_innards (next : Nat) : (onePointing next).innards? = some 40960 := by
  have h : (onePointing 0).innards? = some 40960 := by decide +kernel
  exact h

theorem twoChunkDevice_ofDevice : twoChunkDevice.OfDevice := by
  refine ⟨2571, fun blk hblk => ?_⟩
  have hpool : blk ≠ poolBlk := by
    have : poolBlk < 2571 := by decide
    omega
  have hdev : blk ≠ devBlk := by
    have : devBlk < 2571 := by decide
    omega
  exact (if_neg hpool).trans ((if_neg hdev).trans ((if_neg (by omega)).trans (if_neg (by omega))))

theorem mountEnds_twoChunks : twoChunkDevice.MountEnds := by
  have hfirst : twoChunkDevice.summary? 40960 = some (⟨chunkfsRoot, 1⟩, 10526720) := by decide +kernel
  have hsecond : twoChunkDevice.summary? 10526720 = some (⟨0, 2⟩, 0) := by decide +kernel
  have hpasses : twoChunkDevice.Passes false 40960 :=
    .root (by decide) hfirst (by decide) rfl rfl (.plain (by decide) hsecond (by decide) rfl rfl .last)
  refine (mountEnds_iff twoChunkDevice_ofDevice).mpr fun o ho => ?_
  rw [twoChunkDevice_innards] at ho
  cases ho
  exact hpasses.sane

/-- A chunk that names itself as the next one is read again and again. --/
theorem onePointing_hangs : (onePointing 40960).OfDevice ∧ ¬(onePointing 40960).MountEnds ∧
    ∀ fuel, readDev fuel (newPool 0) (onePointing 40960) = .error .hang (onePointing 40960) := by
  have hk : kzalloc (onePointing 40960) = .ok true (onePointing 40960) := rfl
  have hsum : (onePointing 40960).summary? 40960 = some (⟨0, 1⟩, 40960) := by decide +kernel
  have hread := readChunk_short hk hsum (by decide) rfl
  have hloop : ∀ fuel pi di r,
      readChunks fuel pi di 40960 r (onePointing 40960) = .error .hang (onePointing 40960) := by
    intro fuel
    induction fuel with
    | zero => exact fun _ _ _ => rfl
    | succ fuel ih => exact fun _ _ _ => (readChunks_plain (by decide) hread rfl).trans (ih _ _ _)
  have hhang : ∀ fuel, readDev fuel (newPool 0) (onePointing 40960) = .error .hang (onePointing 40960) := by
    intro fuel
    obtain ⟨dflags, hdev⟩ := readDev_of_innards hk (onePointing_innards 40960)
    exact (hdev fuel _).trans (Exec.bind_error (hloop fuel _ _ _))
  refine ⟨onePointing_ofDevice 40960, fun hends => ?_, hhang⟩
  obtain ⟨fuel, v, sb', hrun⟩ := hends [] 0
  have hrun' := hhang fuel
  have hsame : (onePointing 40960).withMemory [] = onePointing 40960 := rfl
  rw [hsame, hrun'] at hrun
  cases hrun

end Chunkfs
