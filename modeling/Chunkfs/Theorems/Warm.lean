import Chunkfs.File

/-! What reading leaves alone. A walk takes references and lets the clients read inodes in, but changes
    nothing else (`Warm`). In a world whose script holds no failure (`Honest`) each call of a read works,
    or the machine halts with the disk as it was (`Halted`). -/

namespace Chunkfs
open Exec

/-- `w'` differs from `w` only in references, in client inodes read in since, in what has been synced, and in the
    answers used up. --/
structure Warm (w w' : World) : Prop where
  disk : w'.disk = w.disk
  pool : w'.pool = w.pool
  vnode : w'.vnode = w.vnode
  vnext : w'.vnext = w.vnext
  script : w'.env.script <:+ w.env.script
  env : w'.env = { w.env with script := w'.env.script }
  icache : ∀ c, w'.icache c = w.icache c ∨ w.icache c = .absent ∧ w'.icache c = .live

namespace Warm
variable {w w' w'' : World}

theorem refl (w : World) : Warm w w :=
  ⟨rfl, rfl, rfl, rfl, List.suffix_refl _, rfl, fun _ => Or.inl rfl⟩

theorem trans (h : Warm w w') (h' : Warm w' w'') : Warm w w'' where
  disk := h'.disk.trans h.disk
  pool := h'.pool.trans h.pool
  vnode := h'.vnode.trans h.vnode
  vnext := h'.vnext.trans h.vnext
  script := h'.script.trans h.script
  env := by rw [h'.env, h.env]
  icache c := by
    rcases h.icache c with h₁ | ⟨h₁, h₂⟩ <;> rcases h'.icache c with h₃ | ⟨h₃, h₄⟩
    · exact Or.inl (h₃.trans h₁)
    · exact Or.inr ⟨h₁ ▸ h₃, h₄⟩
    · exact Or.inr ⟨h₁, h₃.trans h₂⟩
    · exact Or.inr ⟨h₁, h₄⟩

/-- An inode that is in memory stays in memory. --/
theorem inode? {c : ClientIno} {i : ClientInode} (h : Warm w w') (hi : w.inode? c = some i) :
    w'.inode? c = some i := by
  unfold World.inode? at hi ⊢
  rcases h.icache c with hc | ⟨hc, -⟩
  · rw [hc, h.disk]
    exact hi
  · rw [hc] at hi
    cases hi

theorem fuel (h : Warm w w') : w'.env.fuel = w.env.fuel := by rw [h.env]

end Warm

/-- No call of the script fails. --/
def Honest (w : World) : Prop := ∀ e, Outcome.fails e ∉ w.env.script

/-- Every call works. --/
def Calm (w : World) : Prop := w.env.script = []

theorem Calm.honest {w : World} (h : Calm w) : Honest w := fun e he => by
  rw [h] at he
  cases he

theorem Honest.warm {w w' : World} (h : Honest w) (hw : Warm w w') : Honest w' := fun e he =>
  h e (hw.script.subset he)

theorem Calm.warm {w w' : World} (h : Calm w) (hw : Warm w w') : Calm w' :=
  List.suffix_nil.mp (h ▸ hw.script)

/-- The machine stopped in the middle of a read. --/
def Halted (w : World) (e : Stop) (w' : World) : Prop := e = .halt ∧ Outcome.halts ∈ w.env.script ∧ Warm w w'

theorem Halted.of_warm {w w' w'' : World} {e : Stop} (hw : Warm w w') (h : Halted w' e w'') : Halted w e w'' :=
  ⟨h.1, hw.script.subset h.2.1, hw.trans h.2.2⟩

theorem Calm.not_halted {w w' : World} {e : Stop} (h : Calm w) : ¬Halted w e w' := fun hh => by
  have := hh.2.1
  rw [h] at this
  cases this

/-- `m` reads: it returns `a` from `w`, or the machine halts. --/
def Reads {α : Type} (m : Kern α) (w : World) (a : α) : Prop :=
  Meets m w (fun r w' => r = a ∧ Warm w w') (Halted w)

theorem Reads.eq_of_ok {α : Type} {m : Kern α} {w w' : World} {a b : α} (h : Reads m w a) (hr : m w = .ok b w') :
    b = a := by
  unfold Reads Meets at h
  rw [hr] at h
  exact h.1

namespace Reads
variable {α β : Type} {m : Kern α} {f : α → Kern β} {w : World} {a : α} {b : β}

theorem of_ok {w' : World} (h : m w = .ok a w') (hw : Warm w w') : Reads m w a := meets_of_ok h ⟨rfl, hw⟩

theorem pure (a : α) (w : World) : Reads (Pure.pure a) w a := of_ok rfl (Warm.refl w)

/-- What follows a read runs in a warmer world. --/
theorem meets_bind {P : β → World → Prop} {E : Stop → World → Prop} (h : Reads m w a)
    (k : ∀ w', Warm w w' → Meets (f a) w' P E) (hE : ∀ e w', Halted w e w' → E e w') : Meets (m >>= f) w P E := by
  refine Meets.bind (h.mono (fun _ _ q => q) hE) ?_
  rintro _ w' ⟨rfl, hw⟩
  exact k w' hw

/-- A read of a warmer world, seen from the world before. --/
theorem of_warm {w' : World} (hw : Warm w w') (h : Reads m w' a) :
    Meets m w' (fun r w'' => r = a ∧ Warm w w'') (Halted w) :=
  h.mono (fun _ _ q => ⟨q.1, hw.trans q.2⟩) fun _ _ q => q.of_warm hw

theorem bind (h : Reads m w a) (k : ∀ w', Warm w w' → Reads (f a) w' b) : Reads (m >>= f) w b :=
  h.meets_bind (fun w' hw => of_warm hw (k w' hw)) fun _ _ hh => hh

/-- A read of a calm world returns. --/
theorem calm (h : Reads m w a) (hc : Calm w) : ∃ w', m w = .ok a w' ∧ Warm w w' := by
  obtain ⟨r, w', hm, rfl, hw⟩ := h.returns fun e t => hc.not_halted
  exact ⟨w', hm, hw⟩

end Reads

/-- `m` reads `a`, and the client inode `c` is in memory afterwards. --/
def Finds {α : Type} (m : Kern α) (w : World) (a : α) (c : ClientIno) : Prop :=
  Meets m w (fun r w' => r = a ∧ Warm w w' ∧ w'.icache c = .live) (Halted w)

namespace Finds
variable {α β : Type} {m : Kern α} {f : α → Kern β} {w : World} {a : α} {b : β} {c c' : ClientIno}

theorem reads (h : Finds m w a c) : Reads m w a := h.mono (fun _ _ q => ⟨q.1, q.2.1⟩) fun _ _ q => q

theorem of_warm {w' : World} (hw : Warm w w') (h : Finds m w' a c) :
    Meets m w' (fun r w'' => r = a ∧ Warm w w'' ∧ w''.icache c = .live) (Halted w) :=
  h.mono (fun _ _ q => ⟨q.1, hw.trans q.2.1, q.2.2⟩) fun _ _ q => q.of_warm hw

theorem bind (h : Finds m w a c) (k : ∀ w', Warm w w' → w'.icache c = .live → Finds (f a) w' b c') :
    Finds (m >>= f) w b c' := by
  refine Meets.bind h ?_
  rintro _ w' ⟨rfl, hw, hc⟩
  exact of_warm hw (k w' hw hc)

theorem of_reads (h : Reads m w a) (k : ∀ w', Warm w w' → Finds (f a) w' b c) : Finds (m >>= f) w b c :=
  h.meets_bind (fun w' hw => of_warm hw (k w' hw)) fun _ _ hh => hh

end Finds

/-- An inode in memory stays there. --/
theorem Warm.live {w w' : World} {c : ClientIno} (hw : Warm w w') (h : w.icache c = .live) : w'.icache c = .live := by
  rcases hw.icache c with hc | ⟨-, hc⟩
  · exact hc.trans h
  · exact hc

theorem Reads.finds {α : Type} {m : Kern α} {w : World} {a : α} {c : ClientIno} (h : Reads m w a)
    (hc : w.icache c = .live) : Finds m w a c :=
  h.mono (fun _ _ q => ⟨q.1, q.2, q.2.live hc⟩) fun _ _ q => q

/-! ### Calls -/

section Calls
variable {w : World}

theorem ask_reads (h : Honest w) : Reads ask w none := by
  unfold Reads Meets ask
  split
  · rename_i heq
    split at heq
    · cases heq
      exact ⟨rfl, Warm.refl w⟩
    · rename_i rest hs
      cases heq
      refine ⟨rfl, rfl, rfl, rfl, rfl, ?_, rfl, fun _ => Or.inl rfl⟩
      rw [hs]
      exact List.suffix_cons ..
    · rename_i e rest hs
      exact absurd (by rw [hs]; exact List.mem_cons_self) (h e)
    · cases heq
  · rename_i heq
    split at heq
    · cases heq
    · cases heq
    · cases heq
    · rename_i rest hs
      cases heq
      exact ⟨rfl, by rw [hs]; exact List.mem_cons_self, Warm.refl w⟩

/-- A change of the references only. --/
theorem modify_refs_reads (f : Refs → Refs) : Reads (modify fun w => { w with refs := f w.refs }) w ⟨⟩ :=
  .of_ok rfl ⟨rfl, rfl, rfl, rfl, List.suffix_refl _, rfl, fun _ => Or.inl rfl⟩

theorem dget_reads (c : ClientIno) : Reads (dget c) w () :=
  modify_refs_reads fun r => { r with dentry := fun x => r.dentry x + if x = c then 1 else 0 }

theorem dput_reads (c : ClientIno) : Reads (dput c) w () :=
  modify_refs_reads fun r => { r with dentry := fun x => r.dentry x - if x = c then 1 else 0 }

theorem kfreeCont_reads : Reads kfreeCont w () := modify_refs_reads fun r => { r with conts := r.conts - 1 }

theorem openFile_reads (c : ClientIno) (flags : Nat) : Reads (openFile c flags) w ⟨c, 0, flags⟩ :=
  (dget_reads c).bind fun _ _ =>
    (modify_refs_reads fun r => { r with files := fun x => r.files x + if x = c then 1 else 0 }).bind fun w' _ =>
      .pure _ w'

theorem kzallocCont_reads (h : Honest w) : Reads kzallocCont w true :=
  (ask_reads h).bind fun _ _ => (modify_refs_reads fun r => { r with conts := r.conts + 1 }).bind fun w' _ => .pure _ w'

theorem getname_reads (h : Honest w) : Reads getname w () := (ask_reads h).bind fun w' _ => .pure _ w'

theorem get_bind_reads {α : Type} {f : World → Kern α} {a : α} (h : Reads (f w) w a) : Reads (get >>= f) w a := h

theorem vnodeAt_reads {v : Nat} {vn : Vnode} (h : w.vnode v = some vn) : Reads (vnodeAt v) w vn := by
  refine get_bind_reads ?_
  rw [h]
  exact .pure _ w

theorem dentryOpen_reads (h : Honest w) (c : ClientIno) (flags : Nat) :
    Reads (dentryOpen c flags) w (.ok ⟨c, 0, flags⟩) :=
  (ask_reads h).bind fun _ _ => (openFile_reads c flags).bind fun w' _ => .pure _ w'

/-- A client inode can be read in: it is in memory, or not cached. --/
def World.Readable (w : World) (c : ClientIno) : Prop := w.icache c = .live ∨ w.icache c = .absent

theorem Warm.readable {w' : World} {c : ClientIno} (hw : Warm w w') (h : w.Readable c) : w'.Readable c := by
  rcases hw.icache c with hc | ⟨-, hc⟩
  · rcases h with h | h
    · exact Or.inl (hc.trans h)
    · exact Or.inr (hc.trans h)
  · exact Or.inl hc

theorem readIn_warm (c : ClientIno) : Warm w (w.readIn c) := by
  unfold World.readIn
  split
  · rename_i hc
    refine ⟨rfl, rfl, rfl, rfl, List.suffix_refl _, rfl, fun x => ?_⟩
    by_cases hx : x = c
    · subst hx
      exact Or.inr ⟨hc, by simp⟩
    · exact Or.inl (by simp [hx])
  · exact Warm.refl w

theorem readIn_live {c : ClientIno} (h : w.Readable c) : (w.readIn c).icache c = .live := by
  unfold World.readIn
  rcases h with h | h <;> simp [h]

/-- Looking a path up reads the inode in. --/
theorem kernPath_finds (h : Honest w) {path : List Char} {c : ClientIno} (hp : w.disk.path path = some c)
    (hc : w.Readable c) : Finds (kernPath path) w (.ok c) c := by
  refine .of_reads (ask_reads h) fun w₁ h₁ => meets_get_bind ?_
  have hp₁ : w₁.disk.path path = some c := by rw [h₁.disk]; exact hp
  rw [hp₁]
  have hr : Finds (modify (·.readIn c)) w₁ ⟨⟩ c :=
    meets_of_ok (modify_apply _ w₁) ⟨rfl, readIn_warm c, readIn_live (h₁.readable hc)⟩
  refine hr.bind fun w₂ _ hlive => .of_reads (dget_reads c) fun w₃ h₃ => ?_
  exact (Reads.pure _ w₃).finds (h₃.live hlive)

end Calls

end Chunkfs
