import Chunkfs.Theorems.Buffers
import Chunkfs.Theorems.Failures
import Chunkfs.Theorems.Inversion
import Chunkfs.Theorems.Memory
import Chunkfs.Theorems.System

/-! The continuation attributes as a store of numbers: what has been stored at an inode is read back from it, and a write
    shows neither in the inode's other attributes nor in other inodes. -/

namespace Chunkfs
open Exec

/-! ### What has been stored -/

section Stored
variable {w w' : World} {c : ClientIno}

/-- Asking takes answers from the script and leaves everything else. --/
theorem ask_scripted {r : Option Errno} (h : ask w = .ok r w') : ∃ s, w' = w.scripted s := by
  unfold ask at h
  split at h
  · cases h
    exact ⟨w.env.script, rfl⟩
  · cases h
    exact ⟨_, rfl⟩
  · cases h
    exact ⟨_, rfl⟩
  · cases h

/-- One attribute that has been stored, at an inode that is in memory. --/
theorem getSetContData_stored {a : ContAttr} {value n : Nat} (h : getSetContData c a value 1 w = .ok (.ok n) w') :
    (∃ i, w.inode? c = some i) ∧ Warm (w.setDisk (w.disk.modify c (·.setXattr a (attrText value)))) w' := by
  unfold getSetContData genericSetxattr at h
  rw [if_neg Nat.one_ne_zero] at h
  obtain ⟨r, u, hset, h⟩ := bind_eq_ok.mp h
  cases r with
  | error e => cases h
  | ok _ =>
    cases h
    obtain ⟨o, w₁, hask, hset⟩ := bind_eq_ok.mp hset
    cases o with
    | some e => cases hset
    | none =>
      dsimp only at hset
      rw [bind_ok (get_apply w₁)] at hset
      cases hi : w₁.inode? c with
      | none =>
        rw [hi] at hset
        cases hset
      | some i =>
        rw [hi] at hset
        cases hset
        have hw := ask_ok hask
        obtain ⟨s, rfl⟩ := ask_scripted hask
        exact ⟨⟨i, hi⟩, hw.setDisk _⟩

/-- Data that has been stored. --/
theorem setContData_stored {cd : ContData} (h : setContData c cd w = .ok (.ok ()) w') :
    (∃ i, w.inode? c = some i) ∧ Warm (w.stored c cd 4) w' := by
  have next : ∀ {k a n u u'}, ContAttr.order[k]? = some a → Warm (w.stored c cd k) u →
      getSetContData c a (cd.value a) 1 u = .ok (.ok n) u' → Warm (w.stored c cd (k + 1)) u' := by
    intro k a n u u' ha hu hset
    rw [stored_succ w c cd ha]
    have := hu.setDisk ((w.stored c cd k).disk.modify c (·.setXattr a (attrText (cd.value a))))
    rw [← hu.disk] at this ⊢
    exact this.trans (getSetContData_stored hset).2
  have h₀ : Warm (w.stored c cd 0) w := by
    rw [stored_zero]
    exact .refl w
  unfold setContData at h
  obtain ⟨r, w₁, hnext, h⟩ := bind_eq_ok.mp h
  cases r with
  | error e => cases h
  | ok n =>
    have h₁ := next (k := 0) (a := .next) rfl h₀ hnext
    have hi := (getSetContData_stored hnext).1
    obtain ⟨r, w₂, hprev, h⟩ := bind_eq_ok.mp h
    cases r with
    | error e => cases h
    | ok n =>
      have h₂ := next (k := 1) (a := .prev) rfl h₁ hprev
      obtain ⟨r, w₃, hstart, h⟩ := bind_eq_ok.mp h
      cases r with
      | error e => cases h
      | ok n =>
        have h₃ := next (k := 2) (a := .start) rfl h₂ hstart
        obtain ⟨r, w₄, hlen, h⟩ := bind_eq_ok.mp h
        cases r with
        | error e => cases h
        | ok n =>
          cases h
          exact ⟨hi, next (k := 3) (a := .len) rfl h₃ hlen⟩

/-- The data that has been stored is there. --/
theorem setContData_contData? {cd : ContData} (hcd : cd.Fits) (h : setContData c cd w = .ok (.ok ()) w') :
    w'.contData? c = some cd := by
  obtain ⟨⟨i, hi⟩, hw⟩ := setContData_stored h
  refine hw.contData? ?_
  unfold World.contData? World.stored
  rw [World.inode?_setDisk_modify _ hi]
  exact ClientInode.contData?_setFirst_four hcd i

end Stored

/-! ### What a write leaves alone -/

/-- `m` returns `r`, for the state that comes after. --/
def Yields {α : Type} (m : Kern α) (w : World) (r : α) : Prop := ∃ u, m w = .ok r u

/-- Whatever the clients answer, `m` returns the same in two worlds. --/
def YieldsSame {α : Type} (m : Kern α) (w w' : World) : Prop := ∀ e r, Yields m (w'.withEnv e) r ↔ Yields m (w.withEnv e) r

/-- A client inode changed on disk. --/
def World.edit (c : ClientIno) (f : ClientInode → ClientInode) (w : World) : World := w.setDisk (w.disk.modify c f)

/-- All that is between `w` and `w'` are answers of the clients and changes of `c` that keep some of its attributes. --/
def Edits (c : ClientIno) (kept : ContAttr → Prop) (w w' : World) : Prop :=
  ∃ f s, (∀ (i : ClientInode) b, kept b → (f i).xattr b = i.xattr b) ∧ w' = (w.edit c f).scripted s

section Edit
variable {w w' : World} {c x : ClientIno} {f : ClientInode → ClientInode} {kept : ContAttr → Prop}

theorem World.inode?_edit_of_ne (hx : x ≠ c) : (w.edit c f).inode? x = w.inode? x := by
  simp only [World.inode?, World.edit, World.setDisk, Disk.inode_modify_of_ne hx]

theorem World.inode?_edit_same : (w.edit c f).inode? c = (w.inode? c).map f := by
  unfold World.inode? World.edit
  cases hc : w.icache c <;> simp [World.setDisk, hc]

/-- The attributes kept, and those of other inodes, are what they were. --/
theorem World.xattr_edit {b : ContAttr} (hf : x = c → ∀ i, (f i).xattr b = i.xattr b) :
    ((w.edit c f).inode? x).map (·.xattr b) = (w.inode? x).map (·.xattr b) := by
  by_cases hx : x = c
  · subst hx
    rw [World.inode?_edit_same, Option.map_map]
    exact congrArg (Option.map · _) (funext fun i => hf rfl i)
  · rw [World.inode?_edit_of_ne hx]

instance : IsPreorder World (Edits c kept) where
  refl w := ⟨id, w.env.script, fun _ _ _ => rfl, by rw [World.edit, Disk.modify_id]; rfl⟩
  trans := by
    rintro w _ _ ⟨f, s, hf, rfl⟩ ⟨g, t, hg, rfl⟩
    refine ⟨g ∘ f, t, fun i b hb => (hg (f i) b hb).trans (hf i b hb), ?_⟩
    simp only [World.edit, World.setDisk, World.scripted, ← Disk.modify_modify]

theorem ask_edits : Stays (Edits c kept) ask := by
  intro w
  cases hask : ask w with
  | ok r u =>
    obtain ⟨s, rfl⟩ := ask_scripted hask
    exact ⟨id, s, fun _ _ _ => rfl, by rw [World.edit, Disk.modify_id]; rfl⟩
  | error e u =>
    unfold ask at hask
    split at hask <;> cases hask
    exact Std.Refl.refl w

/-- Storing an attribute keeps the other three. --/
theorem getSetContData_edits (c : ClientIno) (a : ContAttr) (value : Nat) :
    Stays (Edits c (· ≠ a)) (getSetContData c a value 1) :=
  getSetContData_stays ask_edits fun w => ⟨(·.setXattr a (attrText value)), w.env.script, fun _ _ hb => if_neg hb, rfl⟩

/-- Storing continuation data changes one inode. --/
theorem setContData_edits (c : ClientIno) (cd : ContData) : Stays (Edits c fun _ => False) (setContData c cd) :=
  setContData_stays ask_edits (fun w a text => ⟨(·.setXattr a text), w.env.script, fun _ _ hb => hb.elim, rfl⟩) cd

/-! ### Reading around a write -/

theorem ask_edit (w : World) : ask (w.edit c f) = mapResult (World.edit c f) id id (ask w) := by
  unfold ask
  rw [show (w.edit c f).env = w.env from rfl]
  split <;> rfl

theorem genericGetxattr_edit {b : ContAttr} (hf : x = c → ∀ i, (f i).xattr b = i.xattr b) (w : World) :
    genericGetxattr x b (w.edit c f) = mapResult (World.edit c f) id id (genericGetxattr x b w) := by
  refine mapResult_bind (ask_edit w) fun r w => ?_
  cases r with
  | some e => rfl
  | none =>
    dsimp only [id]
    rw [bind_ok (get_apply _), bind_ok (get_apply _)]
    have hview := World.xattr_edit (w := w) hf
    cases hi : w.inode? x with
    | none =>
      rw [hi, Option.map_none, Option.map_eq_none_iff] at hview
      rw [hview]
      rfl
    | some i =>
      rw [hi, Option.map_some, Option.map_eq_some_iff] at hview
      obtain ⟨j, hj, hx⟩ := hview
      rw [hj]
      dsimp only
      rw [hx]
      cases i.xattr b with
      | none => rfl
      | some text =>
        dsimp only
        split <;> rfl

theorem getSetContData_edit {b : ContAttr} (hf : x = c → ∀ i, (f i).xattr b = i.xattr b) (w : World) :
    getSetContData x b 0 0 (w.edit c f) = mapResult (World.edit c f) id id (getSetContData x b 0 0 w) := by
  unfold getSetContData
  rw [if_pos rfl]
  refine mapResult_bind (genericGetxattr_edit hf w) fun r w => ?_
  cases r <;> rfl

theorem getContData_edit (hx : x ≠ c) (w : World) :
    getContData x (w.edit c f) = mapResult (World.edit c f) id id (getContData x w) := by
  have hread (b : ContAttr) := getSetContData_edit (f := f) (b := b) fun h => absurd h hx
  refine mapResult_bind (hread .next w) fun r w => ?_
  cases r with
  | error e => rfl
  | ok next =>
    refine mapResult_bind (hread .prev w) fun r w => ?_
    cases r with
    | error e => rfl
    | ok prev =>
      refine mapResult_bind (hread .start w) fun r w => ?_
      cases r with
      | error e => rfl
      | ok start =>
        refine mapResult_bind (hread .len w) fun r w => ?_
        cases r <;> rfl

/-- What does not see an edit returns the same before and after it. --/
theorem yieldsSame_of_edit {α : Type} {m : Kern α} (hm : ∀ w, m (w.edit c f) = mapResult (World.edit c f) id id (m w)) (w : World)
    (s : List Outcome) : YieldsSame m w ((w.edit c f).scripted s) := by
  intro e r
  have hw : ((w.edit c f).scripted s).withEnv e = (w.withEnv e).edit c f := rfl
  unfold Yields
  rw [hw, hm]
  cases m (w.withEnv e) with
  | error e' u => exact ⟨nofun, nofun⟩
  | ok r' u =>
    constructor
    · rintro ⟨t, h⟩
      cases h
      exact ⟨u, rfl⟩
    · rintro ⟨t, h⟩
      cases h
      exact ⟨_, rfl⟩

theorem Edits.yieldsSame_attr (h : Edits c kept w w') {b : ContAttr} (hb : x = c → kept b) :
    YieldsSame (getSetContData x b 0 0) w w' := by
  obtain ⟨f, s, hf, rfl⟩ := h
  exact yieldsSame_of_edit (getSetContData_edit fun hx i => hf i b (hb hx)) w s

theorem Edits.yieldsSame_contData (h : Edits c kept w w') (hx : x ≠ c) : YieldsSame (getContData x) w w' := by
  obtain ⟨f, s, -, rfl⟩ := h
  exact yieldsSame_of_edit (getContData_edit hx) w s

theorem Edits.inode (h : Edits c kept w w') (hx : x ≠ c) : w'.disk.inode x = w.disk.inode x := by
  obtain ⟨f, s, -, rfl⟩ := h
  exact Disk.inode_modify_of_ne hx

end Edit

/-! ### The round trip -/

section RoundTrip
variable {w w' : World} {c : ClientIno} {cd : ContData}

/-- Data that is there is read when no call fails, and nothing else is read in its place. --/
theorem getContData_yields (hd : w.contData? c = some cd) (e : Env) :
    (e.script = [] → Yields (getContData c) (w.withEnv e) (.ok cd)) ∧
      ∀ got, Yields (getContData c) (w.withEnv e) (.ok got) → got = cd := by
  have hd' : (w.withEnv e).contData? c = some cd := hd
  constructor
  · intro he
    have hcalm : Calm (w.withEnv e) := he
    obtain ⟨u, hr, -⟩ := (getContData_reads hcalm.honest hd').calm hcalm
    exact ⟨u, hr⟩
  · rintro got ⟨u, hr⟩
    obtain ⟨hw, hgot⟩ := getContData_ok hr
    have := hgot got rfl
    rw [hw.contData? hd'] at this
    cases this
    rfl

/-- Four stored values are read back, whatever they are, each printed inside its buffer. A write of one attribute, whatever
    comes of it, leaves what is read under the other names, and a write of an inode leaves the other inodes. --/
theorem attributes_round_trip (hcd : cd.Fits) (h : setContData c cd w = .ok (.ok ()) w') :
    (∀ e, (e.script = [] → Yields (getContData c) (w'.withEnv e) (.ok cd)) ∧
      ∀ got, Yields (getContData c) (w'.withEnv e) (.ok got) → got = cd) ∧
    (∀ a, (attrText (cd.value a)).length ≤ valueStrSize) ∧
    (∀ a b value u, b ≠ a → b.fullName ≠ a.fullName ∧
      YieldsSame (getSetContData c b 0 0) u (final (getSetContData c a value 1 u))) ∧
    ∀ x u, x ≠ c → (final (setContData c cd u)).disk.inode x = u.disk.inode x ∧
      YieldsSame (getContData x) u (final (setContData c cd u)) := by
  refine ⟨getContData_yields (setContData_contData? hcd h), fun a => ?_, fun a b value u hb => ⟨?_, ?_⟩, fun x u hx => ?_⟩
  · exact (length_attrText_le (hcd a)).trans (by decide)
  · exact fun hname => hb (ContAttr.fullName_injective hname)
  · exact (getSetContData_edits c a value u).yieldsSame_attr fun _ => hb
  · have hedits := setContData_edits c cd u
    exact ⟨hedits.inode hx, hedits.yieldsSame_contData hx⟩

/-- The least and the greatest value at a new file. --/
theorem attributes_round_trip_oneFile :
    ∃ w', setContData firstIno ⟨2 ^ 64 - 1, 0, 2 ^ 63, 40960⟩ (oneFile [1] quietEnv) = .ok (.ok ()) w' ∧
      Yields (getContData firstIno) (w'.withEnv quietEnv) (.ok ⟨2 ^ 64 - 1, 0, 2 ^ 63, 40960⟩) := by
  have hfits : ContData.Fits ⟨2 ^ 64 - 1, 0, 2 ^ 63, 40960⟩ :=
    ContData.fits_mk (by decide) (by decide) (by decide) (by decide)
  obtain ⟨w', hw⟩ : ∃ w', setContData firstIno ⟨2 ^ 64 - 1, 0, 2 ^ 63, 40960⟩ (oneFile [1] quietEnv) = .ok (.ok ()) w' :=
    ⟨_, rfl⟩
  exact ⟨w', hw, ((attributes_round_trip hfits hw).1 quietEnv).1 rfl⟩

end RoundTrip

end Chunkfs
