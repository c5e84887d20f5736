import Chunkfs.Theorems.Append
import Chunkfs.Theorems.Removal

/-! Where the bytes on disk come from. `Adds` says of a call that the inodes that were there keep their data; `Grounded`
    says of files that what their client inodes hold has been written to them. -/

namespace Chunkfs
open Exec

/-! ### New inodes -/

/-- `w'` has the data of `w`, and inodes that are new have `data`. --/
structure Adds (data : List UInt8) (w w' : World) : Prop where
  old : ∀ x i, w.disk.inode x = some i → ∃ i', w'.disk.inode x = some i' ∧ i'.byte = i.byte
  new : ∀ x i', w.disk.inode x = none → w'.disk.inode x = some i' → ∀ k, i'.byte k = data.getD k 0

section Adds
variable {data : List UInt8} {w w' u : World} {c : ClientIno} {t : Continuation}

theorem Adds.of_disk (h : w'.disk = w.disk) : Adds data w w' where
  old x i hi := ⟨i, by rw [h]; exact hi, rfl⟩
  new x i' hn hi' := by
    rw [h, hn] at hi'
    cases hi'

theorem Adds.trans {w'' : World} (h : Adds data w w') (h' : Adds data w' w'') : Adds data w w'' where
  old x i hi := by
    obtain ⟨i₁, hi₁, hb₁⟩ := h.old x i hi
    obtain ⟨i₂, hi₂, hb₂⟩ := h'.old x i₁ hi₁
    exact ⟨i₂, hi₂, hb₂.trans hb₁⟩
  new x i' hn hi' k := by
    cases hx : w'.disk.inode x with
    | none => exact h'.new x i' hx hi' k
    | some i₁ =>
      obtain ⟨i₂, hi₂, hb₂⟩ := h'.old x i₁ hx
      rw [hi'] at hi₂
      cases hi₂
      rw [hb₂]
      exact h.new x i₁ hn hx k

instance : IsPreorder World (Adds data) where
  refl _ := .of_disk rfl
  trans _ _ _ := Adds.trans

theorem Adds.modify {f : ClientInode → ClientInode} (hf : ∀ i, (f i).byte = i.byte) (hd : w'.disk = w.disk.modify c f) :
    Adds data w w' where
  old x i hi := by
    by_cases hx : x = c
    · exact ⟨f i, by rw [hd, ← hx, Disk.inode_modify_same, hi]; rfl, hf i⟩
    · exact ⟨i, by rw [hd, Disk.inode_modify_of_ne hx]; exact hi, rfl⟩
  new x i' hn hi' := by
    rw [hd, Disk.inode_modify_eq_none.mpr hn] at hi'
    cases hi'

theorem Adds.stored (w : World) (c : ClientIno) (cd : ContData) (k : Nat) : Adds data w (w.stored c cd k) :=
  .modify (fun i => congrArg Flat.Bytes.byte (ClientInode.bytes_setFirst i k cd)) rfl

theorem Adds.withoutName (w : World) (dir : ClientIno) (name : List Char) (c : ClientIno) :
    Adds data w (w.withoutName dir name c) where
  old x i hi := by
    obtain ⟨i', hi', -, hb, -⟩ := withoutName_inode hi dir name c
    exact ⟨i', hi', hb⟩
  new x i' hn hi' := by
    have : (w.withoutName dir name c).disk.inode x = none :=
      Disk.inode_modify_eq_none.mpr (Disk.inode_modify_eq_none.mpr hn)
    rw [this] at hi'
    cases hi'

theorem Adds.withObject (hfree : w.disk.inode c = none) (dir : ClientIno) (name : List Char) (o : NewObject)
    (links : Nat) : Adds o.data w (w.withObject dir name o links c) where
  old x i hi := by
    have hx : x ≠ c := fun he => by
      rw [he, hfree] at hi
      cases hi
    have hd : (w.withObject dir name o links c).disk.inode x =
        (w.disk.modify dir fun i => i.touchDir w.env.now links).inode x := if_neg hx
    by_cases hxd : x = dir
    · exact ⟨i.touchDir w.env.now links, by rw [hd, ← hxd, Disk.inode_modify_same, hi]; rfl, rfl⟩
    · exact ⟨i, by rw [hd, Disk.inode_modify_of_ne hxd, hi], rfl⟩
  new x i' hn hi' k := by
    by_cases hx : x = c
    · obtain rfl := Option.some.inj ((if_pos hx).symm.trans hi')
      rfl
    · rw [World.withObject_inode_none hx hn] at hi'
      cases hi'

/-- A new file is empty. --/
theorem openPath_adds {path : List Char} {mode : Nat} (ho : w.openPath path mode = .ok (c, u)) : Adds [] w u := by
  rcases openPath_cases ho with ⟨-, rfl⟩ | ⟨-, -, -, hfree, rfl⟩
  · exact .of_disk (readIn_warm c).disk
  · refine ⟨fun x i hi => ⟨i, openPath_inode ho hi, rfl⟩, fun x i' hn hi' k => ?_⟩
    by_cases hx : x = c
    · simp only [World.withFile, Disk.setPath, Disk.insert, hx, ↓reduceIte, Option.some.injEq] at hi'
      rw [← hi']
      rfl
    · simp only [World.withFile, Disk.setPath, Disk.insert, hx, ↓reduceIte, hn, reduceCtorEq] at hi'

theorem growStage_adds {path : List Char} {mode : Nat} (ho : w.openPath path mode = .ok (c, u)) (t : Continuation) :
    Adds [] w (growStage u t c 4 4) :=
  (openPath_adds ho).trans ((Adds.stored u c (nextCd t) 4).trans (.stored _ t.inode (tailCd t c) 4))

theorem adds {α : Type} {m : Kern α} (h : Stays SameDisk m) : Stays (Adds data) m := h.mono fun _ _ hs => .of_disk hs.disk

theorem newInode_offDisk : Stays SameDisk newInode := by
  refine (offDisk (quiet ask_still)).bind fun r => ?_
  cases r with
  | some e => exact .throw _
  | none =>
    intro w
    exact ⟨rfl, rfl⟩

theorem clientMake_adds (dir : ClientIno) (name : List Char) (o : NewObject) (links : Nat) :
    Stays (Adds o.data) (clientMake dir name o links) := by
  refine (adds (offDisk (quiet ask_still))).bind fun r => ?_
  cases r with
  | some e => exact .pure _
  | none =>
    intro w
    dsimp only
    rw [bind_ok (get_apply w)]
    split
    · exact .of_disk rfl
    · split
      · exact .of_disk rfl
      · rename_i hfree
        exact .withObject (by simpa using hfree) dir name o links

theorem makeObject_adds (dir : Nat) (name : List Char) (o : NewObject) (links : Nat) :
    Stays (Adds o.data) (makeObject dir name o links) := by
  refine (adds (offDisk (quiet (vnodeAt_still dir)))).bind fun vn => ?_
  cases vn.client with
  | none => exact .throw _
  | some cd =>
    refine (adds newInode_offDisk).bind fun v => (copyDownNd_stays o.nd).bind fun _ => ?_
    refine (clientMake_adds cd name o links).bind fun r => ?_
    have hput : Stays (Adds o.data) (iput v) := iput_stays fun w => .of_disk rfl
    cases r with
    | error e => exact hput.bind fun _ => .pure _
    | ok c =>
      refine (setContData_stays (adds (offDisk (quiet ask_still))) (fun w a text => ?_) initCd).bind fun r => ?_
      · exact .modify (f := (·.setXattr a text)) (fun _ => rfl) rfl
      · cases r with
        | error e => exact hput.bind fun _ => .pure _
        | ok _ => exact (adds (startInode_offDisk v c _)).bind fun _ => (adds (copyUpInode_offDisk dir cd)).bind fun _ => .pure _

end Adds

/-! ### The bytes of files -/

/-- Every byte of the client inodes of a file is 0 or has been written to the file. --/
def Grounded (w : World) (files : List Dentry) (ch : Dentry → List Continuation) (written : Dentry → List UInt8) : Prop :=
  ∀ d ∈ files, ∀ x ∈ (ch d).map (·.inode), ∀ i, w.disk.inode x = some i → ∀ k, i.byte k = 0 ∨ i.byte k ∈ written d

section Grounded
variable {w w' : World} {root d : Dentry} {files files' : List Dentry} {ch ch' : Dentry → List Continuation}
  {written written' : Dentry → List UInt8}

/-- The chains may get new inodes, which are empty. --/
theorem Grounded.adds (h : Grounded w files ch written) (ha : Adds [] w w')
    (hin : ∀ d ∈ files', ∀ x ∈ (ch' d).map (·.inode),
      w.disk.inode x = none ∨ d ∈ files ∧ x ∈ (ch d).map (·.inode) ∧ written' d = written d) :
    Grounded w' files' ch' written' := by
  intro d hd x hx i' hi' k
  cases hi : w.disk.inode x with
  | none =>
    have := ha.new x i' hi hi' k
    exact Or.inl this
  | some i =>
    obtain ⟨i₁, hi₁, hb⟩ := ha.old x i hi
    rw [hi'] at hi₁
    cases hi₁
    rcases hin d hd x hx with hn | ⟨hd, hx, hw⟩
    · rw [hi] at hn
      cases hn
    · rw [hb, hw]
      exact h d hd x hx i hi k

theorem Grounded.kept (h : Grounded w files ch written) (ha : Adds [] w w') : Grounded w' files ch written :=
  h.adds ha fun _ hd _ hx => Or.inr ⟨hd, hx, rfl⟩

theorem ClientInode.byte_writeData (i : ClientInode) (pos : Nat) (data : List UInt8) (now k : Nat) :
    (i.writeData pos data now).byte k = 0 ∨ (i.writeData pos data now).byte k = i.byte k ∨
      (i.writeData pos data now).byte k ∈ data := by
  unfold writeData
  split
  · exact Or.inr (Or.inl rfl)
  · dsimp only
    split
    · rename_i hk
      refine Or.inr (Or.inr ?_)
      rw [List.getD_eq_getElem?_getD, List.getElem?_eq_getElem (show k - pos < data.length by omega), Option.getD_some]
      exact List.getElem_mem _
    · split
      · exact Or.inr (Or.inl rfl)
      · exact Or.inl rfl

theorem ClientInode.byte_wrote (i : ClientInode) (e : Env) (pos : Nat) (data : List UInt8) (k : Nat) :
    (i.wrote e pos data).byte k = 0 ∨ (i.wrote e pos data).byte k = i.byte k ∨ (i.wrote e pos data).byte k ∈ data := by
  unfold wrote
  split
  · exact Or.inr (Or.inl rfl)
  · exact byte_writeData (i.fileRemoveSuid e) pos data e.now k

/-- What a write stores has been written to the file. --/
theorem Grounded.wrote (h : Grounded w files ch written)
    (hdisjoint : ∀ d ∈ files, ∀ d' ∈ files, ∀ x ∈ (ch d).map (·.inode), x ∈ (ch d').map (·.inode) → d = d')
    (hd : d ∈ files) {c : ClientIno} (hc : c ∈ (ch d).map (·.inode)) {start : Nat} {stored data : List UInt8}
    (hsub : stored ⊆ data) (hdisk : w'.disk = (w.wrote c start stored).disk) :
    Grounded w' files ch fun x => if x = d then written x ++ data else written x := by
  intro d' hd' x hx i' hi' k
  rw [hdisk] at hi'
  by_cases hxc : x = c
  · subst hxc
    obtain rfl := hdisjoint d' hd' d hd x hx hc
    have hwrote : (w.wrote x start stored).disk.inode x =
        (w.disk.inode x).map fun i => i.wrote w.env start stored := Disk.inode_modify_same
    rw [hwrote] at hi'
    obtain ⟨i, hi, rfl⟩ := Option.map_eq_some_iff.mp hi'
    dsimp only
    rw [if_pos rfl, List.mem_append]
    rcases i.byte_wrote w.env start stored k with h₀ | hold | hnew
    · exact Or.inl h₀
    · rw [hold]
      exact (h d' hd' x hx i hi k).imp_right Or.inl
    · exact Or.inr (Or.inr (hsub hnew))
  · have hwrote : (w.wrote c start stored).disk.inode x = w.disk.inode x := Disk.inode_modify_of_ne hxc
    rw [hwrote] at hi'
    refine (h d' hd' x hx i' hi' k).imp_right fun hm => ?_
    dsimp only
    split
    · exact List.mem_append_left _ hm
    · exact hm

theorem Grounded.evict (h : Grounded w files ch written) (d : Dentry) :
    Grounded (w.evict d) (files.filter (· ≠ d)) ch written := fun x hx y hy i hi =>
  h x (List.mem_of_mem_filter hx) y hy i (inode_of_evict hi)

end Grounded

/-- The client file that a growing file gets has been made for it. --/
theorem Tidy.creates_empty {w w' : World} {root : Dentry} {files : List Dentry} {ch : Dentry → List Continuation}
    {file : File} {p : Int} {o : Opened} (h : Tidy w root files ch) (hc : Calm w) (hfuel : 16 < w.env.fuel)
    (hd : file.dentry ∈ files) (hr : createContinuation file p w = .ok (.ok o) w') :
    ∃ i, w'.disk.inode o.cont.inode = some i ∧ i.size = 0 := by
  have hf := h.chain _ hd
  have hlen := hf.length_le_fifteen
  obtain ⟨t, ht⟩ : ∃ t, (ch file.dentry).getLast? = some t := Option.isSome_iff_exists.mp (by simp [hf.ne_nil])
  cases ho : w.openPath (nextPath t) contMode with
  | error e =>
    obtain ⟨w₁, hr₁, -⟩ := (createContinuation_fails hf.walkable hc.honest (by omega) ht ho rfl p).calm hc
    rw [hr₁] at hr
    cases hr
  | ok cu =>
    obtain ⟨c, u⟩ := cu
    obtain ⟨hcan, -, hu⟩ := h.opens_new hd ht ho
    obtain ⟨init, hinit⟩ : ∃ init, ch file.dentry = init ++ [t] := ⟨_, (List.dropLast_append_getLast? t ht).symm⟩
    rw [hinit] at hf hcan hlen
    obtain ⟨w₁, hr₁, hw₁, -⟩ := createContinuation_calm hf.walkable hc (by omega) rfl ho hcan p
    rw [hr₁] at hr
    cases hr
    have hne : c ≠ t.inode := fun he => hcan.outside (by simp [he])
    have hnew : u.disk.inode c = some (w.env.newInode (w.env.fileMode contMode) 0) := by
      rw [hu]
      simp [World.withFile, Disk.setPath, Disk.insert]
    refine ⟨_, by rw [hw₁.disk]; exact inode_growStage hne hnew, ?_⟩
    rw [ClientInode.size_setFirst]
    rfl

end Chunkfs
