import Chunkfs.Theorems.Sizes

/-! Growing a file: `chunkfs_create_continuation` as a sequence of durable updates. Every state the machine
    can stop in is the state before the new file exists or a `growStage`: some of the four attributes of the
    new inode are set, then some of the four of the old tail. -/

namespace Chunkfs
open Exec

/-! ### Paths -/

theorem contPath_inj {a b c a' b' c' : Nat} (h : contPath a b c = contPath a' b' c') : a = a' ∧ b = b' ∧ c = c' := by
  unfold contPath at h
  obtain ⟨ha, h⟩ := Decimal.print_append_inj (by decide) (List.append_cancel_left h)
  obtain ⟨hb, h⟩ := Decimal.print_append_inj (by decide) h
  exact ⟨ha, hb, Decimal.print_injective h⟩

theorem contDir_inj {a b a' b' : Nat} (h : contDir a b = contDir a' b') : a = a' ∧ b = b' := by
  unfold contDir at h
  obtain ⟨ha, h⟩ := Decimal.print_append_inj (by decide) (List.append_cancel_left h)
  exact ⟨ha, (Decimal.print_append_inj (by decide) h).1⟩

theorem dirname_append {a b : List Char} (hb : '/' ∉ b) : dirname (a ++ '/' :: b) = a ++ ['/'] := by
  unfold dirname
  have hrev : (a ++ '/' :: b).reverse = b.reverse ++ ('/' :: a.reverse) := by simp
  rw [hrev, List.dropWhile_append_of_pos fun x hx => by
    have : x ≠ '/' := fun he => hb (List.mem_reverse.mp (he ▸ hx))
    simp [this]]
  simp

theorem dirname_contPath (chunkId fromChunk fromIno : Nat) :
    dirname (contPath chunkId fromChunk fromIno) = contDir chunkId fromChunk := by
  have hb : '/' ∉ Decimal.print fromIno := fun h => by
    have := Decimal.isDigit_of_mem_print h
    simp at this
  have := dirname_append (a := "/chunk".toList ++ (Decimal.print chunkId ++ '/' :: Decimal.print fromChunk)) hb
  simp only [List.append_assoc, List.cons_append] at this
  exact this

/-! ### Storing continuation data -/

/-- The order in which `set_cont_data` stores the attributes. --/
def ContAttr.order : List ContAttr := [.next, .prev, .start, .len]

/-- The inode after the first `k` attributes of `cd` have been stored. --/
def ClientInode.setFirst (k : Nat) (cd : ContData) (i : ClientInode) : ClientInode :=
  (ContAttr.order.take k).foldl (fun i a => i.setXattr a (attrText (cd.value a))) i

theorem ClientInode.xattr_setFirst (i : ClientInode) (cd : ContData) (k : Nat) (a : ContAttr) :
    (i.setFirst k cd).xattr a = if a ∈ ContAttr.order.take k then some (attrText (cd.value a)) else i.xattr a := by
  rcases k with _ | _ | _ | _ | k <;> cases a <;>
    simp [ClientInode.setFirst, ContAttr.order, ClientInode.setXattr]

theorem ClientInode.attr?_setFirst {k : Nat} {cd : ContData} {a : ContAttr} (h : cd.value a < 2 ^ 64) (i : ClientInode) :
    (i.setFirst k cd).attr? a = if a ∈ ContAttr.order.take k then some (cd.value a) else i.attr? a := by
  have hs : (i.setXattr a (attrText (cd.value a))).attr? a = some (cd.value a) := attr?_setXattr_same h
  unfold attr? at hs ⊢
  rw [xattr_setFirst]
  by_cases ha : a ∈ ContAttr.order.take k
  · rw [if_pos ha, if_pos ha]
    simpa [setXattr] using hs
  · rw [if_neg ha, if_neg ha]

theorem ClientInode.contData?_setFirst_four {cd : ContData} (h : cd.Fits) (i : ClientInode) :
    (i.setFirst 4 cd).contData? = some cd := by
  rw [contData?_eq_some]
  intro a
  rw [attr?_setFirst (h a)]
  cases a <;> simp [ContAttr.order]

/-- Storing the data an inode has already, but for a new `next`, changes `next` with the first attribute
    and nothing after it. --/
theorem ClientInode.contData?_setFirst_next {k : Nat} {cd : ContData} {next : Nat} {i : ClientInode}
    (hi : i.contData? = some cd) (hf : ContData.Fits { cd with next := next }) :
    (i.setFirst k { cd with next := next }).contData? = some (if k = 0 then cd else { cd with next := next }) := by
  have ha := contData?_eq_some.mp hi
  rw [contData?_eq_some]
  intro a
  rw [attr?_setFirst (hf a), ha]
  rcases k with _ | _ | _ | _ | k <;> cases a <;> simp [ContAttr.order, ContData.value]

theorem ClientInode.fits_of_contData? {i : ClientInode} {cd : ContData} (h : i.contData? = some cd) : cd.Fits := by
  intro a
  have ha := contData?_eq_some.mp h a
  unfold attr? at ha
  split at ha
  · cases ha
  · simp only [Option.ite_none_right_eq_some, Option.some.injEq] at ha
    rw [← ha.2]
    exact Decimal.parse_lt 64 _

section Disk
variable {d : Disk} {c x : ClientIno} {f g : ClientInode → ClientInode}

theorem Disk.inode_modify_of_ne (h : x ≠ c) : (d.modify c f).inode x = d.inode x := by simp [modify, h]

@[simp] theorem Disk.inode_modify_same : (d.modify c f).inode c = (d.inode c).map f := by simp [modify]

theorem Disk.inode_modify_eq_none : (d.modify c f).inode x = none ↔ d.inode x = none := by
  by_cases h : x = c <;> simp [modify, h]

@[simp] theorem Disk.path_modify : (d.modify c f).path = d.path := rfl

theorem Disk.contData?_modify_of_ne (h : x ≠ c) : (d.modify c f).contData? x = d.contData? x := by
  simp only [contData?, inode_modify_of_ne h]

theorem Disk.contData?_modify_same {i : ClientInode} (h : d.inode c = some i) :
    (d.modify c f).contData? c = (f i).contData? := by
  simp [contData?, h]

theorem Disk.modify_modify : (d.modify c f).modify c g = d.modify c (g ∘ f) := by
  simp only [modify, mk.injEq, and_true]
  funext x
  by_cases hx : x = c
  · simp [hx]
  · simp [hx]

theorem Disk.modify_id : d.modify c id = d := by
  cases d with
  | mk inode path dir entry =>
    simp only [modify, mk.injEq, and_true]
    funext x
    by_cases hx : x = c <;> simp [hx]

end Disk

/-- The machine stopped in one of the first `n` states of a sequence of durable updates of `w`. --/
def HaltedIn (w : World) (stage : Nat → World) (n : Nat) (e : Stop) (w' : World) : Prop :=
  e = .halt ∧ Outcome.halts ∈ w.env.script ∧ ∃ k, k < n ∧ Warm (stage k) w'

/-- The world after the first `k` attributes of `cd` have been stored at `c`. --/
def World.stored (w : World) (c : ClientIno) (cd : ContData) (k : Nat) : World :=
  w.setDisk (w.disk.modify c (·.setFirst k cd))

theorem World.inode?_setDisk_modify {w : World} {c : ClientIno} {i : ClientInode} (f : ClientInode → ClientInode)
    (h : w.inode? c = some i) : (w.setDisk (w.disk.modify c f)).inode? c = some (f i) := by
  unfold inode? at h ⊢
  split at h
  · rename_i hc
    simp [setDisk, hc, h]
  · cases h

theorem World.inode?_stored_of_ne {w : World} {c x : ClientIno} (hx : x ≠ c) (cd : ContData) (k : Nat) :
    (w.stored c cd k).inode? x = w.inode? x := by
  simp only [World.inode?, World.stored, World.setDisk, Disk.inode_modify_of_ne hx]

/-- Storing one attribute. --/
theorem getSetContData_stores {w : World} (h : Honest w) {c : ClientIno} {i : ClientInode} (hi : w.inode? c = some i)
    (a : ContAttr) (value : Nat) :
    Meets (getSetContData c a value 1) w
      (fun r w' => r = .ok value ∧ Warm (w.setDisk (w.disk.modify c (·.setXattr a (attrText value)))) w')
      (Halted w) := by
  unfold getSetContData
  rw [if_neg (by decide)]
  refine Meets.bind
    (R := fun r w' => r = .ok () ∧ Warm (w.setDisk (w.disk.modify c (·.setXattr a (attrText value)))) w') ?_ ?_
  · refine (ask_reads h).meets_bind (fun w₁ h₁ => ?_) fun _ _ hh => hh
    refine meets_get_bind ?_
    rw [h₁.inode? hi]
    refine meets_of_ok rfl ⟨rfl, ?_⟩
    have := h₁.setDisk (w.disk.modify c (·.setXattr a (attrText value)))
    rwa [← h₁.disk] at this ⊢
  · rintro _ w' ⟨rfl, hw⟩
    exact meets_of_ok rfl ⟨rfl, hw⟩

/-- The world after the first attributes of `cd` at `c`, one more stored. --/
theorem stored_succ (w : World) (c : ClientIno) (cd : ContData) {k : Nat} {a : ContAttr}
    (ha : ContAttr.order[k]? = some a) :
    w.stored c cd (k + 1) = (w.stored c cd k).setDisk
      ((w.stored c cd k).disk.modify c (·.setXattr a (attrText (cd.value a)))) := by
  have hf : (fun i : ClientInode => i.setFirst (k + 1) cd) =
      (fun i => i.setXattr a (attrText (cd.value a))) ∘ fun i => i.setFirst k cd := by
    funext i
    simp only [ClientInode.setFirst, List.take_add_one, ha, Option.toList_some, List.foldl_append, List.foldl_cons,
      List.foldl_nil, Function.comp_apply]
  unfold World.stored
  rw [hf]
  simp only [World.setDisk, ← Disk.modify_modify]

theorem stored_zero (w : World) (c : ClientIno) (cd : ContData) : w.stored c cd 0 = w := by
  have : (fun i : ClientInode => i.setFirst 0 cd) = id := rfl
  unfold World.stored
  rw [this, Disk.modify_id]
  rfl

/-- One more attribute is stored, from a world warmer than the one with `k` stored. --/
theorem stores_next {w w' : World} (h : Honest w) {c : ClientIno} {i : ClientInode} (hi : w.inode? c = some i)
    (cd : ContData) {k : Nat} {a : ContAttr} (ha : ContAttr.order[k]? = some a) (hw : Warm (w.stored c cd k) w') :
    Meets (getSetContData c a (cd.value a) 1) w'
      (fun r w'' => r = .ok (cd.value a) ∧ Warm (w.stored c cd (k + 1)) w'') (HaltedIn w (w.stored c cd) 4) := by
  have hk : k < 4 := (List.getElem?_eq_some_iff.mp ha).1
  have hi' : w'.inode? c = some (i.setFirst k cd) := hw.inode? (World.inode?_setDisk_modify _ hi)
  have hh : Honest w' := fun e he => h e (hw.script.subset he)
  refine (getSetContData_stores hh hi' a (cd.value a)).mono ?_ ?_
  · rintro r w'' ⟨rfl, hw''⟩
    refine ⟨rfl, ?_⟩
    rw [stored_succ w c cd ha]
    have := hw.setDisk ((w.stored c cd k).disk.modify c (·.setXattr a (attrText (cd.value a))))
    rw [← hw.disk] at this ⊢
    exact this.trans hw''
  · rintro e w'' ⟨rfl, hs, hw''⟩
    exact ⟨rfl, hw.script.subset hs, k, hk, hw.trans hw''⟩

/-- `set_cont_data` stores the four attributes in order. --/
theorem setContData_stores {w : World} (h : Honest w) {c : ClientIno} {i : ClientInode} (hi : w.inode? c = some i)
    (cd : ContData) : Meets (setContData c cd) w (fun r w' => r = .ok () ∧ Warm (w.stored c cd 4) w')
      (HaltedIn w (w.stored c cd) 4) := by
  have hw : Warm (w.stored c cd 0) w := by
    rw [stored_zero]
    exact Warm.refl w
  unfold setContData
  refine Meets.bind (stores_next h hi cd (k := 0) (a := .next) rfl hw) ?_
  rintro _ w₁ ⟨rfl, h₁⟩
  refine Meets.bind (stores_next h hi cd (k := 1) (a := .prev) rfl h₁) ?_
  rintro _ w₂ ⟨rfl, h₂⟩
  refine Meets.bind (stores_next h hi cd (k := 2) (a := .start) rfl h₂) ?_
  rintro _ w₃ ⟨rfl, h₃⟩
  refine Meets.bind (stores_next h hi cd (k := 3) (a := .len) rfl h₃) ?_
  rintro _ w₄ ⟨rfl, h₄⟩
  exact meets_of_ok rfl ⟨rfl, h₄⟩

/-- Data that has been stored, in a world whose script holds no failure. --/
theorem setContData_ok {w w' : World} (h : Honest w) {c : ClientIno} {i : ClientInode} (hi : w.inode? c = some i)
    {cd : ContData} {r : Except Errno Unit} (hr : setContData c cd w = .ok r w') : Warm (w.stored c cd 4) w' := by
  have hstores := setContData_stores h hi cd
  unfold Meets at hstores
  rw [hr] at hstores
  exact hstores.2

/-! ### Opening the file of a continuation -/

section Open
variable {w w' : World} {path : List Char} {mode : Nat}

theorem Warm.readIn (h : Warm w w') (c : ClientIno) : Warm (w.readIn c) (w'.readIn c) := by
  have hkeep : ∀ u : World, (u.readIn c).disk = u.disk ∧ (u.readIn c).pool = u.pool ∧ (u.readIn c).vnode = u.vnode ∧
      (u.readIn c).vnext = u.vnext ∧ (u.readIn c).env = u.env := fun u => by
    unfold World.readIn
    split <;> exact ⟨rfl, rfl, rfl, rfl, rfl⟩
  obtain ⟨a1, a2, a3, a4, a5⟩ := hkeep w
  obtain ⟨b1, b2, b3, b4, b5⟩ := hkeep w'
  refine ⟨by rw [a1, b1, h.disk], by rw [a2, b2, h.pool], by rw [a3, b3, h.vnode], by rw [a4, b4, h.vnext],
    by rw [a5, b5]; exact h.script, by rw [a5, b5]; exact h.env, fun x => ?_⟩
  have hx := h.icache x
  unfold World.readIn
  by_cases hxc : x = c
  · subst hxc
    rcases hx with hx | ⟨hx, hx'⟩
    · left
      by_cases ha : w.icache x = .absent
      · simp [ha, hx]
      · simp [ha, hx]
    · left
      simp [hx, hx']
  · by_cases ha : w.icache c = .absent <;> by_cases hb : w'.icache c = .absent <;> simpa [ha, hb, hxc] using hx

theorem Warm.withFile (h : Warm w w') (c : ClientIno) : Warm (w.withFile path c mode) (w'.withFile path c mode) := by
  refine ⟨?_, h.pool, h.vnode, h.vnext, h.script, h.env, fun x => ?_⟩
  · have he : w'.env.newInode (w'.env.fileMode mode) 0 = w.env.newInode (w.env.fileMode mode) 0 := by
      rw [h.env]
      rfl
    simp only [World.withFile, h.disk, he]
  · by_cases hx : x = c
    · exact Or.inl (by simp [World.withFile, hx])
    · have := h.icache x
      simpa [World.withFile, hx] using this

/-- Opening a file at a path changes at most its inode: either it was there, or it is new and empty. --/
theorem openPath_cases {c : ClientIno} {u : World} (ho : w.openPath path mode = .ok (c, u)) :
    (w.disk.path path = some c ∧ u = w.readIn c) ∨
      (w.disk.path path = none ∧ w.disk.dir (dirname path) = some c.chunk ∧ c.ino = w.env.ialloc c.chunk ∧
        w.disk.inode c = none ∧ u = w.withFile path c mode) := by
  unfold World.openPath at ho
  cases hp : w.disk.path path with
  | some x =>
    simp only [hp, Except.ok.injEq, Prod.mk.injEq] at ho
    obtain ⟨rfl, rfl⟩ := ho
    exact Or.inl ⟨rfl, rfl⟩
  | none =>
    cases hdir : w.disk.dir (dirname path) with
    | none => simp [hp, hdir] at ho
    | some chunk =>
      by_cases hs : (w.disk.inode ⟨chunk, w.env.ialloc chunk⟩).isSome = true
      · simp [hp, hdir, hs] at ho
      · simp only [hp, hdir, hs] at ho
        obtain ⟨rfl, rfl⟩ := Prod.mk.inj (Except.ok.inj ho)
        exact Or.inr ⟨rfl, rfl, rfl, by simpa using hs, rfl⟩

theorem openPath_env {c : ClientIno} {u : World} (ho : w.openPath path mode = .ok (c, u)) :
    u.env = w.env ∧ u.pool = w.pool := by
  rcases openPath_cases ho with ⟨-, rfl⟩ | ⟨-, -, -, -, rfl⟩
  · unfold World.readIn
    split <;> exact ⟨rfl, rfl⟩
  · exact ⟨rfl, rfl⟩

theorem openPath_vnode {c : ClientIno} {u : World} (ho : w.openPath path mode = .ok (c, u)) : u.vnode = w.vnode := by
  rcases openPath_cases ho with ⟨-, rfl⟩ | ⟨-, -, -, -, rfl⟩
  · exact (readIn_warm c).vnode
  · rfl

theorem openPath_refs {c : ClientIno} {u : World} (ho : w.openPath path mode = .ok (c, u)) : u.refs = w.refs := by
  rcases openPath_cases ho with ⟨-, rfl⟩ | ⟨-, -, -, -, rfl⟩
  · unfold World.readIn
    split <;> rfl
  · rfl

/-- Only a new inode is added by opening a file. --/
theorem openPath_inode {c x : ClientIno} {u : World} {i : ClientInode} (ho : w.openPath path mode = .ok (c, u))
    (hi : w.disk.inode x = some i) : u.disk.inode x = some i := by
  rcases openPath_cases ho with ⟨-, rfl⟩ | ⟨-, -, -, hfree, rfl⟩
  · rw [(readIn_warm c).disk]
    exact hi
  · have hx : x ≠ c := fun h => by
      rw [h, hfree] at hi
      cases hi
    simp only [World.withFile, Disk.setPath, Disk.insert, hx, ↓reduceIte]
    exact hi

theorem openPath_live {c x : ClientIno} {u : World} (ho : w.openPath path mode = .ok (c, u))
    (hx : w.icache x = .live) : u.icache x = .live := by
  rcases openPath_cases ho with ⟨-, rfl⟩ | ⟨-, -, -, -, rfl⟩
  · exact (readIn_warm c).live hx
  · by_cases hc : x = c <;> simp [World.withFile, hc, hx]

theorem openPath_inode? {c x : ClientIno} {u : World} {i : ClientInode} (ho : w.openPath path mode = .ok (c, u))
    (hi : w.inode? x = some i) : u.inode? x = some i :=
  inode?_of_live (openPath_live ho (live_of_inode? hi)) (openPath_inode ho (disk_of_inode? hi))

/-- A warmer world opens the same file at a path. --/
theorem Warm.openPath (h : Warm w w') (path : List Char) (mode : Nat) :
    (∃ e, w.openPath path mode = .error e ∧ w'.openPath path mode = .error e) ∨
      ∃ c u u', w.openPath path mode = .ok (c, u) ∧ w'.openPath path mode = .ok (c, u') ∧ Warm u u' := by
  have hal : w'.env.ialloc = w.env.ialloc := by rw [h.env]
  unfold World.openPath
  rw [h.disk, hal]
  cases hp : w.disk.path path with
  | some c => exact Or.inr ⟨c, _, _, rfl, rfl, h.readIn c⟩
  | none =>
    cases hdir : w.disk.dir (dirname path) with
    | none => exact Or.inl ⟨_, rfl, rfl⟩
    | some chunk =>
      by_cases hs : (w.disk.inode ⟨chunk, w.env.ialloc chunk⟩).isSome = true
      · exact Or.inl ⟨.enospc, by simp [hs], by simp [hs]⟩
      · refine Or.inr ⟨⟨chunk, w.env.ialloc chunk⟩, w.withFile path ⟨chunk, w.env.ialloc chunk⟩ mode,
          w'.withFile path ⟨chunk, w.env.ialloc chunk⟩ mode, by simp [hs], by simp [hs], h.withFile _⟩

theorem Warm.openPath_error (h : Warm w w') {e : Errno} (ho : w.openPath path mode = .error e) :
    w'.openPath path mode = .error e := by
  rcases h.openPath path mode with ⟨e', he, he'⟩ | ⟨c, u, u', hu, -, -⟩
  · rw [he] at ho
    cases ho
    exact he'
  · rw [hu] at ho
    cases ho

theorem Warm.openPath_ok (h : Warm w w') {c : ClientIno} {u : World} (ho : w.openPath path mode = .ok (c, u)) :
    ∃ u', w'.openPath path mode = .ok (c, u') ∧ Warm u u' := by
  rcases h.openPath path mode with ⟨e, he, -⟩ | ⟨c', u₁, u', hu, hu', hw⟩
  · rw [he] at ho
    cases ho
  · rw [hu] at ho
    cases ho
    exact ⟨u', hu', hw⟩

theorem filpOpen_fails (h : Honest w) {path : List Char} {mode : Nat} {e : Errno} (ho : w.openPath path mode = .error e)
    (flags : Nat) : Reads (filpOpen path flags mode) w (.error e) := by
  refine (ask_reads h).bind fun w₁ h₁ => get_bind_reads ?_
  rw [h₁.openPath_error ho]
  exact .pure _ w₁

theorem filpOpen_opens (h : Honest w) {path : List Char} {mode : Nat} {c : ClientIno} {u : World}
    (ho : w.openPath path mode = .ok (c, u)) (flags : Nat) :
    Meets (filpOpen path flags mode) w (fun r w' => r = .ok ⟨c, 0, flags⟩ ∧ Warm u w') (Halted w) := by
  refine (ask_reads h).meets_bind (fun w₁ h₁ => meets_get_bind ?_) fun _ _ hh => hh
  obtain ⟨u', hu', hw⟩ := h₁.openPath_ok ho
  rw [hu']
  refine Meets.bind (meets_of_ok (Q := fun _ t => t = u') (set_apply u' w₁) rfl) ?_
  rintro _ t ht
  rw [ht]
  obtain ⟨u'', hr, hw''⟩ : ∃ u'', openFile c flags u' = .ok ⟨c, 0, flags⟩ u'' ∧ Warm u' u'' :=
    ⟨_, rfl, ⟨rfl, rfl, rfl, rfl, List.suffix_refl _, rfl, fun _ => Or.inl rfl⟩⟩
  exact meets_of_ok (bind_ok hr) ⟨rfl, hw.trans hw''⟩

end Open

/-! ### A new continuation -/

/-- The data of the old tail once it names the new continuation. --/
def tailCd (t : Continuation) (c : ClientIno) : ContData := { t.cd with next := c.uino }

/-- The new continuation. --/
def appended (t : Continuation) (c : ClientIno) : Continuation := loaded c (nextCd t) c.chunk

/-- A client file opened on a continuation for the caller's position. --/
def openedAt (cont : Continuation) (flags : Nat) (ppos : Int) : Opened :=
  let pos := copyDownFile ppos cont.cd.start
  { ppos := pos, file := { inode := cont.inode, pos := pos, flags := flags }, cont := cont }

@[simp] theorem openedAt_cont (cont : Continuation) (flags : Nat) (ppos : Int) :
    (openedAt cont flags ppos).cont = cont := rfl

@[simp] theorem openedAt_inode (cont : Continuation) (flags : Nat) (ppos : Int) :
    (openedAt cont flags ppos).file.inode = cont.inode := rfl

@[simp] theorem openedAt_flags (cont : Continuation) (flags : Nat) (ppos : Int) :
    (openedAt cont flags ppos).file.flags = flags := rfl

/-- The world after `j` attributes of the new inode `c` and `k` of the old tail `t` have been stored. --/
def growStage (u : World) (t : Continuation) (c : ClientIno) (j k : Nat) : World :=
  (u.stored c (nextCd t) j).stored t.inode (tailCd t c) k

/-- The states in which growing a file can be cut short: nothing has happened yet, or the file is there and
    the attributes have been stored in order up to some point. --/
def GrowHalted (w u : World) (t : Continuation) (c : ClientIno) (e : Stop) (w' : World) : Prop :=
  e = .halt ∧ Outcome.halts ∈ w.env.script ∧
    (Warm w w' ∨ (∃ j, j ≤ 4 ∧ Warm (growStage u t c j 0) w') ∨ ∃ k, k ≤ 4 ∧ Warm (growStage u t c 4 k) w')

/-- The path of the continuation after `t`. --/
def nextPath (t : Continuation) : List Char := contPath (t.chunkId + 1) t.chunkId t.inode.ino

theorem putContinuation_reads {w : World} (cont : Continuation) : Reads (putContinuation cont) w () :=
  (dput_reads cont.inode).bind fun _ _ => kfreeCont_reads

section Create
variable {w u : World} {d : Dentry} {cs : List Continuation} {t : Continuation} {c : ClientIno}

theorem Linked.last_onDisk (h : Linked w d cs) (ht : cs.getLast? = some t) : OnDisk w t :=
  h.elem t (List.mem_of_getLast? ht)

/-- Where the new file cannot be opened, growing fails and changes nothing. --/
theorem createContinuation_fails (h : Walkable w d cs) (hh : Honest w) (hf : cs.length < w.env.fuel)
    (ht : cs.getLast? = some t) {e : Errno} (ho : w.openPath (nextPath t) contMode = .error e) {file : File}
    (hfile : file.dentry = d) (ppos : Int) : Reads (createContinuation file ppos) w (.error e) := by
  have hto := h.last_onDisk ht
  have hchunk : (t.chunkId + 1) % 2 ^ 64 = t.chunkId + 1 := by
    have := hto.range.chunk_le
    rw [hto.chunk]
    omega
  have hino : uinoToIno t.uino = t.inode.ino := by rw [hto.uino, hto.range.ino_uino]
  unfold createContinuation
  refine get_bind_reads ?_
  rw [hfile]
  refine (lastCont_finds (h.follows hh) hf ht w (Warm.refl w)).reads.bind fun w₁ h₁ => ?_
  simp only [hchunk, hino]
  refine (getname_reads (hh.warm h₁)).bind fun w₂ h₂ => ?_
  have h₂ := h₁.trans h₂
  refine (filpOpen_fails (hh.warm h₂) (h₂.openPath_error ho) _).bind fun w₃ _ => ?_
  refine (putContinuation_reads t).bind fun w₄ _ => ?_
  exact .pure _ w₄

theorem Warm.stored (hw : Warm w u) (c : ClientIno) (cd : ContData) (k : Nat) :
    Warm (w.stored c cd k) (u.stored c cd k) := by
  have := hw.setDisk (w.disk.modify c (·.setFirst k cd))
  unfold World.stored
  rwa [hw.disk]

theorem growStage_zero (u : World) (t : Continuation) (c : ClientIno) (j : Nat) :
    growStage u t c j 0 = u.stored c (nextCd t) j := stored_zero _ _ _

theorem growStage_zero_zero (u : World) (t : Continuation) (c : ClientIno) : growStage u t c 0 0 = u := by
  rw [growStage_zero, stored_zero]

theorem nextCd_fits (ht : t.uino < 2 ^ 64) : (nextCd t).Fits := by
  intro a
  cases a
  · simp [nextCd, ContData.value]
  · exact ht
  · exact Nat.mod_lt _ (by decide)
  · simp [nextCd, ContData.value, segLen]

/-- The new inode gets its data. --/
theorem stores_new {x : World} (hx : Warm u x) (hh : Honest x) (hs : u.env.script ⊆ w.env.script) {i : ClientInode}
    (hi : x.inode? c = some i) :
    Meets (setContData c (nextCd t)) x
      (fun r w' => r = .ok () ∧ Warm (growStage u t c 4 0) w' ∧ ∀ y, x.icache y = .live → w'.icache y = .live)
      (GrowHalted w u t c) := by
  refine (setContData_stores hh hi (nextCd t)).mono ?_ ?_
  · rintro r w' ⟨rfl, hw⟩
    rw [growStage_zero]
    exact ⟨rfl, (hx.stored _ _ _).trans hw, fun y hy => hw.live hy⟩
  · rintro e w' ⟨rfl, hhalt, j, hj, hw⟩
    refine ⟨rfl, hs (hx.script.subset hhalt), Or.inr (Or.inl ⟨j, by omega, ?_⟩)⟩
    rw [growStage_zero]
    exact (hx.stored _ _ _).trans hw

/-- The old tail gets its data again, with `next` naming the new inode. --/
theorem stores_tail {x : World} (hx : Warm (growStage u t c 4 0) x) (hh : Honest x)
    (hs : u.env.script ⊆ w.env.script) {i : ClientInode} (hi : x.inode? t.inode = some i) :
    Meets (setContData t.inode (tailCd t c)) x (fun r w' => r = .ok () ∧ Warm (growStage u t c 4 4) w')
      (GrowHalted w u t c) := by
  have stage (k : Nat) : Warm (growStage u t c 4 k) (x.stored t.inode (tailCd t c) k) := by
    have := hx.stored t.inode (tailCd t c) k
    rwa [growStage_zero] at this
  refine (setContData_stores hh hi (tailCd t c)).mono ?_ ?_
  · rintro r w' ⟨rfl, hw⟩
    exact ⟨rfl, (stage 4).trans hw⟩
  · rintro e w' ⟨rfl, hhalt, k, hk, hw⟩
    exact ⟨rfl, hs (hx.script.subset hhalt), Or.inr (Or.inr ⟨k, by omega, (stage k).trans hw⟩)⟩

/-- The new inode's data once both inodes are written. --/
theorem contData?_growStage {k : Nat} (hlive : u.icache c = .live) {i : ClientInode} (hi : u.disk.inode c = some i)
    (hne : c ≠ t.inode) (htu : t.uino < 2 ^ 64) : (growStage u t c 4 k).contData? c = some (nextCd t) := by
  have hl : (growStage u t c 4 k).icache c = .live := hlive
  rw [contData?_of_live hl]
  show ((u.stored c (nextCd t) 4).disk.modify t.inode _).contData? c = some (nextCd t)
  rw [Disk.contData?_modify_of_ne hne]
  show (u.disk.modify c _).contData? c = some (nextCd t)
  rw [Disk.contData?_modify_same hi, ClientInode.contData?_setFirst_four (nextCd_fits htu)]

/-- Growing a file stores the data of the new continuation, then links it to the old tail. --/
theorem createContinuation_grows (h : Walkable w d cs) (hh : Honest w) (hf : cs.length < w.env.fuel)
    (ht : cs.getLast? = some t) (ho : w.openPath (nextPath t) contMode = .ok (c, u)) (hlive : u.icache c = .live)
    {i : ClientInode} (hi : u.disk.inode c = some i) (hne : c ≠ t.inode) (hk : c.chunk = t.chunkId + 1)
    (hpool : c.chunk ∈ w.pool) {file : File} (hfile : file.dentry = d) (ppos : Int) :
    Meets (createContinuation file ppos) w (fun r w' => r = .ok (openedAt (appended t c) oCreatRdwr ppos) ∧ Warm (growStage u t c 4 4) w')
      (GrowHalted w u t c) := by
  have hto := h.last_onDisk ht
  have hchunk : (t.chunkId + 1) % 2 ^ 64 = c.chunk := by
    have := hto.range.chunk_le
    rw [hk, hto.chunk]
    omega
  have hino : uinoToIno t.uino = t.inode.ino := by rw [hto.uino, hto.range.ino_uino]
  have htu : t.uino < 2 ^ 64 := by rw [hto.uino]; exact hto.range.uino_lt
  have early : ∀ e w', Halted w e w' → GrowHalted w u t c e w' := fun e w' q => ⟨q.1, q.2.1, Or.inl q.2.2⟩
  unfold createContinuation
  refine meets_get_bind ?_
  rw [hfile]
  refine Meets.bind ((lastCont_finds (h.follows hh) hf ht w (Warm.refl w)).mono (fun _ _ q => q) early) ?_
  rintro _ w₁ ⟨rfl, h₁, ht₁⟩
  simp only [hchunk, hino]
  have hpath : contPath c.chunk t.chunkId t.inode.ino = nextPath t := by rw [hk]; rfl
  rw [hpath]
  refine (getname_reads (hh.warm h₁)).meets_bind (fun w₂ h₂ => ?_) fun e w' q => early e w' (q.of_warm h₁)
  have ht₂ := h₂.live ht₁
  have h₂ := h₁.trans h₂
  -- The file is opened in a warmer world, which opens the same one.
  obtain ⟨u₂, ho₂, hu₂⟩ := h₂.openPath_ok ho
  refine Meets.bind ((filpOpen_opens (hh.warm h₂) ho₂ oCreatRdwr).mono (fun _ _ q => q)
    fun e w' q => early e w' (q.of_warm h₂)) ?_
  rintro _ w₃ ⟨rfl, h₃⟩
  have hu₃ := hu₂.trans h₃
  have hs : u.env.script ⊆ w.env.script := by
    rw [(openPath_env ho).1]
    exact List.Subset.refl _
  have hon {y : World} (hy : Warm u y) : Honest y := fun e he => hh e (hs (hy.script.subset he))
  refine (dget_reads c).meets_bind (fun w₄ h₄ => ?_) fun e w' q =>
    ⟨q.1, hs (hu₃.script.subset q.2.1), Or.inr (Or.inl ⟨0, by omega, ?_⟩)⟩
  · have hu₄ := hu₃.trans h₄
    have ht₄ : w₄.icache t.inode = .live := (h₃.trans h₄).live (openPath_live ho₂ ht₂)
    refine Meets.bind (stores_new hu₄ (hon hu₄) hs (hu₄.inode? (inode?_of_live hlive hi))) ?_
    rintro _ w₅ ⟨rfl, h₅, hlive₅⟩
    obtain ⟨it, hit, -⟩ := hto.allocated
    have hit₅ : w₅.disk.inode t.inode = some it := by
      rw [h₅.disk, growStage_zero]
      show (u.disk.modify c _).inode t.inode = some it
      rw [Disk.inode_modify_of_ne hne.symm]
      exact openPath_inode ho hit
    have hon₅ : Honest w₅ := fun e he => hh e (hs (h₅.script.subset he))
    refine Meets.bind (stores_tail h₅ hon₅ hs (inode?_of_live (hlive₅ _ ht₄) hit₅)) ?_
    rintro _ w₆ ⟨rfl, h₆⟩
    have hon₆ : Honest w₆ := fun e he => hh e (hs (h₆.script.subset he))
    have hd₆ : w₆.contData? c = some (nextCd t) := h₆.contData? (contData?_growStage hlive hi hne htu)
    have hp₆ : c.chunk ∈ w₆.pool := by
      rw [h₆.pool]
      show c.chunk ∈ u.pool
      rw [(openPath_env ho).2]
      exact hpool
    refine (loadContinuation_reads hon₆ hp₆ hd₆).meets_bind (fun w₇ h₇ => ?_) fun e w' q =>
      ⟨q.1, hs (h₆.script.subset q.2.1), Or.inr (Or.inr ⟨4, by omega, h₆.trans q.2.2⟩)⟩
    exact meets_of_ok rfl ⟨rfl, h₆.trans h₇⟩
  · rw [growStage_zero_zero]
    exact hu₃.trans q.2.2

end Create

end Chunkfs
