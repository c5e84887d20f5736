import Mathlib.Logic.Function.Basic
import Chunkfs.Theorems.Finding

/-! The files of a pool together. `Tidy` couples the chains of all files: each is a chain as chunkfs makes it, no
    client inode is in two of them, and the continuation files on disk are exactly named by neighbours in them. Making
    an object adds a chain of one element, a write keeps all chains or grows one of them, and so the invariant holds in
    every state of a run. -/

namespace Chunkfs
open Exec

structure Tidy (w : World) (root : Dentry) (files : List Dentry) (ch : Dentry → List Continuation) : Prop where
  sound : Sound w
  fresh : Fresh w
  top : ∃ c, Chain w root [c]
  chain : ∀ d ∈ files, FileChain w d (ch d)
  address : ∀ d ∈ files, ∀ d' ∈ files, d.inode = d'.inode → d = d'
  rootAddress : ∀ d ∈ files, d.inode ≠ root.inode
  disjoint : ∀ d ∈ files, ∀ d' ∈ files, ∀ x ∈ (ch d).map (·.inode), x ∈ (ch d').map (·.inode) → d = d'
  rootDisjoint : ∀ d ∈ files, root.client ∉ (ch d).map (·.inode)
  names : ∀ k f i c, w.disk.path (contPath k f i) = some c → ∃ d ∈ files, [⟨f, i⟩, c] <:+: (ch d).map (·.inode)

/-- An element that another one follows is not the last. --/
theorem not_infix_of_getLast? {α : Type} {l : List α} {x y : α} (hn : l.Nodup) (hl : l.getLast? = some x) :
    ¬[x, y] <:+: l := by
  rintro ⟨l₁, l₂, rfl⟩
  rw [List.append_assoc, List.getLast?_append_of_ne_nil _ (by simp)] at hl
  rw [List.append_assoc, List.nodup_append] at hn
  have hx : x ∈ y :: l₂ := List.mem_of_getLast? (by simpa [List.getLast?_cons_cons] using hl)
  exact (List.nodup_cons.mp hn.2.1).1 hx

namespace Tidy
variable {w w' : World} {root d dir : Dentry} {files : List Dentry} {ch : Dentry → List Continuation}

theorem kept (h : Tidy w root files ch) (hk : Kept w w') : Tidy w' root files ch where
  sound := h.sound.kept hk
  fresh := hk.fresh h.fresh
  top := by
    obtain ⟨c, hc⟩ := h.top
    exact ⟨c, hc.kept hk⟩
  chain d hd := (h.chain d hd).kept hk
  address := h.address
  rootAddress := h.rootAddress
  disjoint := h.disjoint
  rootDisjoint := h.rootDisjoint
  names k f i c hc := h.names k f i c (by rwa [hk.path] at hc)

/-- The inodes of chains are allocated. --/
theorem allocated (h : Tidy w root files ch) (hd : d ∈ files) {x : ClientIno} (hx : x ∈ (ch d).map (·.inode)) :
    ∃ i, w.disk.inode x = some i := by
  obtain ⟨c, hc, rfl⟩ := List.mem_map.mp hx
  obtain ⟨i, hi, -⟩ := ((h.chain d hd).elem c hc).allocated
  exact ⟨i, hi⟩

/-- No continuation file is named after the tail of a chain. --/
theorem tail_unnamed (h : Tidy w root files ch) (hd : d ∈ files) {t : Continuation} (ht : (ch d).getLast? = some t) :
    w.disk.path (nextPath t) = none := by
  cases hp : w.disk.path (nextPath t) with
  | none => rfl
  | some c =>
    exfalso
    have htd := (h.chain d hd).last_onDisk ht
    unfold nextPath at hp
    rw [htd.chunk] at hp
    obtain ⟨d', hd', hin⟩ := h.names _ _ _ _ hp
    have hmem : t.inode ∈ (ch d).map (·.inode) := List.mem_map_of_mem (List.mem_of_getLast? ht)
    have hmem' : t.inode ∈ (ch d').map (·.inode) := hin.subset (by simp)
    have heq := h.disjoint d hd d' hd' _ hmem hmem'
    subst heq
    exact not_infix_of_getLast? (h.chain d hd).nodup (by rw [List.getLast?_map, ht]; rfl) hin

/-- The file opened behind the tail of a chain is new, and can follow it. --/
theorem opens_new (h : Tidy w root files ch) (hd : d ∈ files) {t : Continuation} {c : ClientIno} {u : World}
    (ht : (ch d).getLast? = some t) (ho : w.openPath (nextPath t) contMode = .ok (c, u)) :
    CanFollow u d (ch d) t c ∧ w.disk.inode c = none ∧ u = w.withFile (nextPath t) c contMode := by
  have hnone := h.tail_unnamed hd ht
  have hf := h.chain d hd
  refine ⟨h.sound.canFollow hf.toLinked ht (fun hp => by rw [hnone] at hp; cases hp) hf.number ho, ?_⟩
  rcases openPath_cases ho with ⟨hp, -⟩ | ⟨-, -, -, hfree, hu⟩
  · rw [hnone] at hp
    cases hp
  · exact ⟨hfree, hu⟩

/-- Growing a file: its chain gets one element, and the others stay as they are. --/
theorem grown (h : Tidy w root files ch) (hd : d ∈ files) {init : List Continuation} {t : Continuation} {c : ClientIno}
    {u : World} (hch : ch d = init ++ [t]) (ho : w.openPath (nextPath t) contMode = .ok (c, u)) :
    Tidy (growStage u t c 4 4) root files (Function.update ch d (init ++ [relinked t c, appended t c])) := by
  have ht : (ch d).getLast? = some t := by rw [hch]; simp
  obtain ⟨hcan, hfree, hu⟩ := h.opens_new hd ht ho
  have hmem : t.inode ∈ (ch d).map (·.inode) := List.mem_map_of_mem (List.mem_of_getLast? ht)
  have hmap : (init ++ [relinked t c, appended t c]).map (·.inode) = (ch d).map (·.inode) ++ [c] := by
    rw [hch]
    simp [relinked, appended, loaded]
  -- The new inode is in no chain.
  have hnew : ∀ d' ∈ files, c ∉ (ch d').map (·.inode) := fun d' hd' hc => by
    obtain ⟨i, hi⟩ := h.allocated hd' hc
    rw [hfree] at hi
    cases hi
  have hin : ∀ d' ∈ files, ∀ x ∈ (Function.update ch d (init ++ [relinked t c, appended t c]) d').map (·.inode),
      x ∈ (ch d').map (·.inode) ∨ d' = d ∧ x = c := fun d' hd' x hx => by
    by_cases hdd : d' = d
    · subst hdd
      rw [Function.update_self, hmap, List.mem_append, List.mem_singleton] at hx
      exact hx.imp_right fun hx => ⟨rfl, hx⟩
    · rw [Function.update_of_ne hdd] at hx
      exact Or.inl hx
  have outside : ∀ {d' : Dentry} {l : List Continuation}, FileChain w d' l → c ∉ l.map (·.inode) →
      t.inode ∉ l.map (·.inode) → FileChain (growStage u t c 4 4) d' l := fun hl hc htl =>
    ((hl.openPath ho).stored_outside hc _ 4).stored_outside htl _ 4
  refine ⟨(h.sound.openPath ho).growStage t c 4 4, ?_, ?_, fun d' hd' => ?_, h.address, h.rootAddress,
    fun d₁ hd₁ d₂ hd₂ x hx₁ hx₂ => ?_, fun d' hd' hr => ?_, fun k f i x hx => ?_⟩
  · subst hu
    exact h.fresh
  · obtain ⟨r, hr⟩ := h.top
    obtain ⟨y, rest, hy, hyd⟩ := hr.first
    obtain ⟨rfl, -⟩ := List.cons.inj hy
    have hne : ∀ x, x ≠ root.client → x ∉ [r].map (·.inode) := fun x hx hm => by
      rw [List.map_singleton, List.mem_singleton, hyd] at hm
      exact hx hm
    have hcr : c ≠ root.client := fun he => by
      obtain ⟨i, hi, -⟩ := (hr.elem r (by simp)).allocated
      rw [hyd, ← he, hfree] at hi
      cases hi
    have htr : t.inode ≠ root.client := fun he => h.rootDisjoint d hd (he ▸ hmem)
    have hlink := ((hr.toLinked.openPath ho).stored_outside (hne c hcr) (nextCd t) 4).stored_outside (hne _ htr)
      (tailCd t c) 4
    have hlive : ∀ x ∈ [r], u.icache x.inode = .live := fun x hx => openPath_live ho (hr.live x hx)
    exact ⟨r, hlink, hlive⟩
  · by_cases hdd : d' = d
    · subst hdd
      rw [Function.update_self]
      have hf := h.chain d' hd'
      rw [hch] at hf hcan
      exact (hf.openPath ho).grown hcan
    · rw [Function.update_of_ne hdd]
      exact outside (h.chain d' hd') (hnew d' hd') fun hm => hdd (h.disjoint d' hd' d hd _ hm hmem)
  · rcases hin d₁ hd₁ x hx₁ with h₁ | ⟨rfl, rfl⟩ <;> rcases hin d₂ hd₂ x hx₂ with h₂ | ⟨rfl, hx⟩
    · exact h.disjoint d₁ hd₁ d₂ hd₂ x h₁ h₂
    · exact absurd (hx ▸ h₁) (hnew d₁ hd₁)
    · exact absurd h₂ (hnew d₂ hd₂)
    · rfl
  · rcases hin d' hd' _ hr with hr | ⟨-, hr⟩
    · exact h.rootDisjoint d' hd' hr
    · obtain ⟨r, hrc⟩ := h.top
      obtain ⟨y, rest, hy, hyd⟩ := hrc.first
      obtain ⟨rfl, -⟩ := List.cons.inj hy
      obtain ⟨i, hi, -⟩ := (hrc.elem r (by simp)).allocated
      rw [hyd, hr, hfree] at hi
      cases hi
  · -- The one new name is that of the new inode behind the old tail.
    have hpath : u.disk.path (contPath k f i) = some x := hx
    rw [hu] at hpath
    by_cases heq : contPath k f i = nextPath t
    · obtain ⟨-, hf, hi⟩ := contPath_inj heq
      simp only [World.withFile, Disk.setPath, heq, ↓reduceIte, Option.some.injEq] at hpath
      refine ⟨d, hd, ?_⟩
      have hti : t.inode = ⟨f, i⟩ := by rw [hf, hi, ((h.chain d hd).last_onDisk ht).chunk]
      rw [Function.update_self, hmap, ← hti, ← hpath, hch]
      exact ⟨init.map (·.inode), [], by simp⟩
    · simp only [World.withFile, Disk.setPath, heq, ↓reduceIte] at hpath
      obtain ⟨d', hd', hin'⟩ := h.names k f i x hpath
      refine ⟨d', hd', ?_⟩
      by_cases hdd : d' = d
      · subst hdd
        rw [Function.update_self, hmap]
        exact hin'.trans (List.prefix_append _ _).isInfix
      · rw [Function.update_of_ne hdd]
        exact hin'

/-- A new object adds a chain of one element. --/
theorem made (h : Tidy w root files ch) {o : NewObject} (hdir : dir ∈ root :: files) (hk : Kept w w')
    (hm : Made w dir o d w') : Tidy w' root (d :: files) (Function.update ch d [headOf d]) := by
  have old := h.kept hk
  have hrange : d.client.InRange ∧ d.client.chunk ∈ w.pool := by
    have hchunk : d.client.chunk = dir.client.chunk := by rw [hm.client]
    have hpool : dir.client.chunk ∈ w.pool := by
      rcases List.mem_cons.mp hdir with rfl | hdir
      · obtain ⟨r, hr⟩ := h.top
        obtain ⟨y, rest, hy, hyd⟩ := hr.first
        rw [← hyd]
        exact (hr.elem y (by rw [hy]; simp)).pool
      · obtain ⟨y, rest, hy, hyd⟩ := (h.chain dir hdir).first
        rw [← hyd]
        exact ((h.chain dir hdir).elem y (by rw [hy]; simp)).pool
    rw [← hchunk] at hpool
    exact ⟨⟨(h.sound.pool _ hpool).1, (h.sound.pool _ hpool).2, by rw [hm.client]; exact h.sound.ialloc _⟩, hpool⟩
  have hfiles : ∀ d' ∈ files, d'.inode ≠ d.inode := fun d' hd' he => by
    obtain ⟨vn, hv, -⟩ := (h.chain d' hd').head.vnode
    rw [he, hm.inode, h.fresh _ (Nat.le_refl _)] at hv
    cases hv
  have hne : ∀ d' ∈ files, d' ≠ d := fun d' hd' he => hfiles d' hd' (by rw [he])
  have hout : ∀ d' ∈ files, d.client ∉ (ch d').map (·.inode) := fun d' hd' hc => by
    obtain ⟨i, hi⟩ := h.allocated hd' hc
    rw [hm.free] at hi
    cases hi
  have hself : (Function.update ch d [headOf d] d).map (·.inode) = [d.client] := by
    rw [Function.update_self]
    rfl
  refine ⟨old.sound, old.fresh, old.top, fun d' hd' => ?_, fun d₁ h₁ d₂ h₂ he => ?_, fun d' hd' he => ?_,
    fun d₁ h₁ d₂ h₂ x hx₁ hx₂ => ?_, fun d' hd' hr => ?_, fun k f i c hc => ?_⟩
  · rcases List.mem_cons.mp hd' with rfl | hd'
    · rw [Function.update_self]
      obtain ⟨vn, hv, hc, hn, -⟩ := hm.vnode
      obtain ⟨i, hi, hcd, -⟩ := hm.disk
      exact chain_of_head hrange.1 (by rw [hk.pool]; exact hrange.2) hm.live hi hcd hv hc hn
    · rw [Function.update_of_ne (hne d' hd')]
      exact old.chain d' hd'
  · rcases List.mem_cons.mp h₁ with e₁ | m₁ <;> rcases List.mem_cons.mp h₂ with e₂ | m₂
    · rw [e₁, e₂]
    · exact absurd (e₁ ▸ he.symm) (hfiles d₂ m₂)
    · exact absurd (e₂ ▸ he) (hfiles d₁ m₁)
    · exact h.address d₁ m₁ d₂ m₂ he
  · rcases List.mem_cons.mp hd' with rfl | hd'
    · obtain ⟨r, hr⟩ := h.top
      obtain ⟨vn, hv, -⟩ := hr.head.vnode
      rw [← he, hm.inode, h.fresh _ (Nat.le_refl _)] at hv
      cases hv
    · exact h.rootAddress d' hd' he
  · rcases List.mem_cons.mp h₁ with e₁ | m₁ <;> rcases List.mem_cons.mp h₂ with e₂ | m₂
    · rw [e₁, e₂]
    · rw [e₁, hself, List.mem_singleton] at hx₁
      rw [Function.update_of_ne (hne d₂ m₂)] at hx₂
      exact absurd (hx₁ ▸ hx₂) (hout d₂ m₂)
    · rw [e₂, hself, List.mem_singleton] at hx₂
      rw [Function.update_of_ne (hne d₁ m₁)] at hx₁
      exact absurd (hx₂ ▸ hx₁) (hout d₁ m₁)
    · rw [Function.update_of_ne (hne d₁ m₁)] at hx₁
      rw [Function.update_of_ne (hne d₂ m₂)] at hx₂
      exact h.disjoint d₁ m₁ d₂ m₂ x hx₁ hx₂
  · rcases List.mem_cons.mp hd' with rfl | hd'
    · rw [hself, List.mem_singleton] at hr
      obtain ⟨r, hrc⟩ := h.top
      obtain ⟨y, rest, hy, hyd⟩ := hrc.first
      obtain ⟨i, hi, -⟩ := (hrc.elem y (by rw [hy]; simp)).allocated
      rw [hyd, hr, hm.free] at hi
      cases hi
    · rw [Function.update_of_ne (hne d' hd')] at hr
      exact h.rootDisjoint d' hd' hr
  · obtain ⟨d', hd', hin⟩ := old.names k f i c hc
    exact ⟨d', List.mem_cons_of_mem _ hd', by rw [Function.update_of_ne (hne d' hd')]; exact hin⟩

end Tidy

/-! ### Runs -/

/-- Every call works, new inode numbers fit a unified number, and walks are followed far enough. --/
structure Obliging (e : Env) : Prop where
  script : e.script = []
  ialloc : ∀ k, e.ialloc k < 2 ^ 28
  fuel : 16 < e.fuel

def World.withEnv (w : World) (e : Env) : World := { w with env := e }

theorem Kept.withEnv (w : World) {e : Env} (he : Obliging e) : Kept w (w.withEnv e) where
  pool := rfl
  dir := rfl
  path := rfl
  inode _ i hi := ⟨i, hi, rfl⟩
  live _ hc := hc
  vnode _ vn hv := ⟨vn, hv, rfl, rfl⟩
  vnext := Nat.le_refl _
  fresh h := h
  ialloc _ := he.ialloc

/-- An operation on the objects made so far. --/
inductive Op where
  | create (dir : Dentry) (name : List Char) (mode : Nat)
  | mkdir (dir : Dentry) (name : List Char) (mode : Nat)
  | symlink (dir : Dentry) (name : List Char) (oldname : List UInt8)
  | mknod (dir : Dentry) (name : List Char) (mode dev : Nat)
  | write (file : File) (data : List UInt8) (ppos : Int)
  | read (file : File) (len : Nat) (ppos : Int)
  | fsync (file : File) (first last : Int)

/-- The objects after one more has been made, if it could be. The kernel calls chunkfs only on objects it has. --/
def inDir (root dir : Dentry) (files : List Dentry) (m : Kern (Except Errno Dentry)) : Kern (List Dentry) :=
  if dir ∈ root :: files then do
    match ← m with
    | .error _ => return files
    | .ok d => return d :: files
  else return files

def onFile {α : Type} (d : Dentry) (files : List Dentry) (m : Kern α) : Kern (List Dentry) :=
  if d ∈ files then do
    let _ ← m
    return files
  else return files

/-- The objects after an operation. --/
def Op.run (root : Dentry) (files : List Dentry) : Op → Kern (List Dentry)
  | .create dir name mode => inDir root dir files (Chunkfs.create dir.inode name mode)
  | .mkdir dir name mode => inDir root dir files (Chunkfs.mkdir dir.inode name mode)
  | .symlink dir name oldname => inDir root dir files (Chunkfs.symlink dir.inode name oldname)
  | .mknod dir name mode dev => inDir root dir files (Chunkfs.mknod dir.inode name mode dev)
  | .write file data ppos => onFile file.dentry files (Chunkfs.write file data ppos)
  | .read file len ppos => onFile file.dentry files (Chunkfs.read file len ppos)
  | .fsync file first last => onFile file.dentry files (fsyncFile file first last)

/-- Operations one after the other, each in an environment of its own. --/
def runOps (root : Dentry) : List (Env × Op) → List Dentry → Kern (List Dentry)
  | [], files => return files
  | (e, op) :: rest, files => do
    modify (·.withEnv e)
    let files ← op.run root files
    runOps root rest files

section Steps
variable {w : World} {root : Dentry} {files : List Dentry} {ch : Dentry → List Continuation} {file : File}

/-- The root and every file have a chain. --/
theorem Tidy.chain_of_mem {d : Dentry} (h : Tidy w root files ch) (hd : d ∈ root :: files) :
    ∃ cs, Chain w d cs ∧ cs.length ≤ 15 := by
  rcases List.mem_cons.mp hd with rfl | hd
  · obtain ⟨c, hc⟩ := h.top
    exact ⟨_, hc, by simp⟩
  · exact ⟨_, (h.chain d hd).toChain, (h.chain d hd).length_le_fifteen⟩

theorem Tidy.inDir (h : Tidy w root files ch) (he : Obliging w.env) (dir : Dentry) (name : List Char) (o : NewObject)
    (links : Nat) :
    Meets (Chunkfs.inDir root dir files (makeObject dir.inode name o links)) w
      (fun files' w' => ∃ ch', Tidy w' root files' ch') w.env.Stops := by
  unfold Chunkfs.inDir
  by_cases hdir : dir ∈ root :: files
  · obtain ⟨cs, hcs, hlen⟩ := h.chain_of_mem hdir
    have hfuel := he.fuel
    rw [if_pos hdir]
    refine (makeObject_meets hcs h.sound h.fresh he.script (by omega) (by omega) name o links).bind ?_
    rintro (e | d) w' ⟨hk, hmade⟩
    · exact ⟨ch, h.kept hk⟩
    · exact ⟨_, h.made hdir hk (hmade d rfl)⟩
  · rw [if_neg hdir]
    exact ⟨ch, h⟩

theorem Tidy.onFile {α : Type} {m : Kern α} {d : Dentry} (h : Tidy w root files ch)
    {E : Stop → World → Prop} (hm : d ∈ files → ∃ r w' ch', m w = .ok r w' ∧ Tidy w' root files ch') :
    Meets (Chunkfs.onFile d files m) w (fun files' w' => ∃ ch', Tidy w' root files' ch') E := by
  unfold Chunkfs.onFile
  by_cases hd : d ∈ files
  · obtain ⟨r, w', ch', hr, ht⟩ := hm hd
    rw [if_pos hd]
    exact meets_bind_ok hr ⟨ch', ht⟩
  · rw [if_neg hd]
    exact ⟨ch, h⟩

theorem Tidy.write (h : Tidy w root files ch) (he : Obliging w.env) (hd : file.dentry ∈ files) (data : List UInt8)
    (p : Int) : ∃ r w' ch', Chunkfs.write file data p w = .ok r w' ∧ Tidy w' root files ch' := by
  have hfuel := he.fuel
  have hf := h.chain _ hd
  have hlen := hf.length_le_fifteen
  obtain ⟨r, w', hr, hk | ⟨-, t, c, ht, u, ho, hk⟩⟩ := write_kept (p := p) hf.toChain he.script (by omega) rfl
    (fun t c u ht ho => (h.opens_new hd ht ho).1) data
  · exact ⟨r, w', ch, hr, h.kept hk⟩
  · obtain ⟨init, hinit⟩ : ∃ init, ch file.dentry = init ++ [t] := ⟨_, (List.dropLast_append_getLast? t ht).symm⟩
    exact ⟨r, w', _, hr, (h.grown hd hinit ho).kept hk⟩

/-- One operation keeps the files tidy. --/
theorem Tidy.step (h : Tidy w root files ch) (he : Obliging w.env) (op : Op) :
    Meets (op.run root files) w (fun files' w' => ∃ ch', Tidy w' root files' ch') w.env.Stops := by
  have hfuel := he.fuel
  cases op with
  | create dir name mode => exact h.inDir he dir name _ _
  | mkdir dir name mode => exact h.inDir he dir name _ _
  | symlink dir name oldname => exact h.inDir he dir name _ _
  | mknod dir name mode dev => exact h.inDir he dir name _ _
  | write file data p => exact h.onFile fun hd => h.write he hd data p
  | read file len p =>
    refine h.onFile fun hd => ?_
    have hlen := (h.chain _ hd).length_le_fifteen
    obtain ⟨r, w', hr, hk⟩ := read_kept (p := p) (h.chain _ hd).toChain he.script (by omega) rfl len
    exact ⟨r, w', ch, hr, h.kept hk⟩
  | fsync file first last =>
    refine h.onFile fun hd => ?_
    have hlen := (h.chain _ hd).length_le_fifteen
    obtain ⟨w', hr, hk⟩ := fsyncFile_kept (h.chain _ hd).toChain.walkable he.script (by omega) rfl first last
    exact ⟨_, w', ch, hr, h.kept hk⟩

/-- A run keeps the files tidy. --/
theorem Tidy.runOps {ops : List (Env × Op)} (h : Tidy w root files ch) (he : ∀ x ∈ ops, Obliging x.1) :
    Meets (Chunkfs.runOps root ops files) w (fun files' w' => ∃ ch', Tidy w' root files' ch') (Stopped ops) := by
  induction ops generalizing w files ch with
  | nil => exact ⟨ch, h⟩
  | cons x ops ih =>
    obtain ⟨e, op⟩ := x
    have hx : Obliging e := he (e, op) List.mem_cons_self
    have hfirst := ((h.kept (.withEnv w hx)).step hx op).mono (fun _ _ hq => hq) (stopped_head (e, op) ops)
    refine meets_bind_ok (modify_apply _ w) (hfirst.bind fun files₁ w₁ ⟨ch₁, h₁⟩ => ?_)
    exact (ih h₁ fun x hm => he x (List.mem_cons_of_mem _ hm)).mono (fun _ _ hq => hq) (stopped_tail (e, op))

end Steps

/-! ### A pool that has been mounted -/

/-- The root directory is there, and the continuation directories are empty. --/
structure Mounted (w : World) (root : Dentry) : Prop where
  sound : Sound w
  fresh : Fresh w
  top : ∃ c, Chain w root [c]
  empty : ∀ k f i, w.disk.path (contPath k f i) = none

theorem Mounted.tidy {w : World} {root : Dentry} (h : Mounted w root) : Tidy w root [] fun _ => [] where
  sound := h.sound
  fresh := h.fresh
  top := h.top
  chain d hd := by cases hd
  address d hd := by cases hd
  rootAddress d hd := by cases hd
  disjoint d hd := by cases hd
  rootDisjoint d hd := by cases hd
  names k f i c hc := by
    rw [h.empty] at hc
    cases hc

/-- The root directory of a prepared pool. --/
def rootIno : ClientIno := ⟨1, 12⟩

theorem prepared_sound {pool : List Nat} {e : Env} (hpool : ∀ k ∈ pool, 1 ≤ k ∧ k ≤ 15)
    (halloc : ∀ k, e.ialloc k < 2 ^ 28) : Sound (prepared pool e) where
  pool := hpool
  ialloc := halloc
  dir k f n hn := preparedDisk_dir (e := e) hn
  file k f i c hc := by
    rw [show (prepared pool e).disk.path = (preparedDisk pool e).path from rfl, preparedDisk_path] at hc
    cases hc

/-- `chunkfs_read_root` on a prepared pool, whose chunks and directories stay as they are. --/
theorem readRoot_prepared (pool : List Nat) {e : Env} (hpool : ∀ k ∈ pool, 1 ≤ k ∧ k ≤ 15) (hroot : 1 ∈ pool)
    (he : Obliging e) :
    ∃ w', readRoot 1 (prepared pool e) = .ok (.ok ⟨0, rootIno⟩) w' ∧ w'.env = e ∧ Mounted w' ⟨0, rootIno⟩ ∧
      w'.pool = pool ∧ w'.disk.dir = (preparedDisk pool e).dir := by
  have hfuel := he.fuel
  have hc : Calm (prepared pool e) := he.script
  have hpath : (prepared pool e).disk.path rootPath = some rootIno := by
    show (if rootPath = rootPath then some rootIno else none) = some rootIno
    rw [if_pos rfl]
  obtain ⟨i, hi⟩ : ∃ i, (prepared pool e).disk.inode rootIno = some i := ⟨_, rfl⟩
  obtain ⟨w', hr, hw, hl⟩ := readRoot_finds hc (by show 1 < e.fuel; omega) rfl hpath (Or.inr rfl) hroot hi
  have hfresh : Fresh (prepared pool e) := fun _ _ => rfl
  have hcalm : Calm ((prepared pool e).withFound rootIno i) := hc
  have hchain := FileChain.found hw hl ⟨by decide, by decide, by decide⟩ hroot hi
  refine ⟨w', hr, hcalm.env_eq hw, ⟨((prepared_sound hpool he.ialloc).withFound rootIno i).kept hw.kept,
    hw.kept.fresh (hfresh.withFound rootIno i), ⟨_, hchain.toChain⟩, fun k f j => ?_⟩, hw.pool, by rw [hw.disk]; rfl⟩
  rw [hw.disk]
  exact preparedDisk_path pool e k f j

/-- `chunkfs_read_root` on a prepared pool. --/
theorem readRoot_mounts (pool : List Nat) {e : Env} (hpool : ∀ k ∈ pool, 1 ≤ k ∧ k ≤ 15) (hroot : 1 ∈ pool)
    (he : Obliging e) :
    ∃ w', readRoot 1 (prepared pool e) = .ok (.ok ⟨0, rootIno⟩) w' ∧ w'.env = e ∧ Mounted w' ⟨0, rootIno⟩ := by
  obtain ⟨w', hr, henv, hm, -⟩ := readRoot_prepared pool hpool hroot he
  exact ⟨w', hr, henv, hm⟩

/-- A file made in a mounted pool whose chunks behind the root have their directories and a free inode is new. --/
theorem Mounted.create_newFile {w : World} {root : Dentry} (h : Mounted w root) (he : Obliging w.env) (name : List Char)
    (mode : Nat) (hsupply : ∀ k, root.client.chunk < k → k ∈ w.pool →
      w.disk.dir (contDir k (k - 1)) = some k ∧ w.disk.inode ⟨k, w.env.ialloc k⟩ = none) :
    Meets (create root.inode name mode) w (fun r w' => ∀ d, r = .ok d → NewFile w' d) w.env.Stops := by
  obtain ⟨c, hc⟩ := h.top
  have hfuel := he.fuel
  refine (makeObject_meets hc h.sound h.fresh he.script (by simp; omega) (by omega) name
    { mode := mode, rdev := 0, nlink := 1, data := [], size := 0, nd := true } 0).mono ?_ fun _ _ hs => hs
  rintro r w' ⟨hk, hmade⟩ d hd
  have hm := hmade d hd
  have ht := h.tidy.made (by simp) hk hm
  have hf := ht.chain d (by simp)
  obtain ⟨y, rest, hy, hyd⟩ := hf.first
  have hy' := hf.elem y (by rw [hy]; simp)
  obtain ⟨vn, hv, hvc, hvi, hvs⟩ := hm.vnode
  refine ⟨ht.sound, hyd ▸ hy'.range, hyd ▸ hy'.pool, hm.live,
    ⟨vn, hv, hvc, hvi, hvs.trans (show Word.s64 ((0 : Nat) : Int) = 0 by decide)⟩, hm.disk, fun x _ => ?_,
    fun k hlt hkp => ?_⟩
  · unfold Unnamed
    rw [hk.path]
    exact h.empty _ _ _
  · have hchunk : d.client.chunk = root.client.chunk := by rw [hm.client]
    obtain ⟨hdir, hnone⟩ := hsupply k (by omega) (by rwa [hk.pool] at hkp)
    refine ⟨by rw [hk.dir]; exact hdir, hm.others _ (fun he => ?_) (by rw [hm.env]; exact hnone)⟩
    have : k = d.client.chunk := congrArg ClientIno.chunk he
    omega

/-! ### The chains in every run -/

/-- The chain of a file on disk: byte ranges without gaps, pointers in both directions, neighbouring chunks, and names
    made from the predecessor. --/
structure ChainOnDisk (w : World) (d : Dentry) (cs : List Continuation) : Prop where
  head : ∃ c rest, cs = c :: rest ∧ c.inode = d.client ∧ c.cd.start = 0 ∧ c.cd.prev = 0
  data : ∀ c ∈ cs, w.disk.contData? c.inode = some c.cd ∧ c.cd.len = 40960
  next : cs.IsChain fun a b => b.cd.start = a.cd.start + a.cd.len ∧ a.cd.next = b.inode.uino ∧
    b.cd.prev = a.inode.uino ∧ b.inode.chunk = a.inode.chunk + 1 ∧
    w.disk.path (contPath b.inode.chunk a.inode.chunk a.inode.ino) = some b.inode
  last : ∀ c ∈ cs.getLast?, c.cd.next = 0
  nodup : (cs.map (·.inode)).Nodup

theorem FileChain.chainOnDisk {w : World} {d : Dentry} {cs : List Continuation} (h : FileChain w d cs) :
    ChainOnDisk w d cs := by
  refine ⟨?_, fun c hc => ⟨(h.elem c hc).data, h.len c hc⟩, ?_, h.last, h.nodup⟩
  · obtain ⟨c, rest, rfl, hc⟩ := h.first
    exact ⟨c, rest, rfl, hc, h.origin c (by simp)⟩
  · refine List.isChain_iff_getElem.mpr fun i hi => ?_
    have hlink := List.isChain_iff_getElem.mp h.links i hi
    have hadj := List.isChain_iff_getElem.mp h.adjoins i hi
    have ha := h.elem cs[i] (List.getElem_mem _)
    have hb := h.elem cs[i + 1] (List.getElem_mem _)
    refine ⟨?_, ?_, ?_, hadj.chunk, hlink.path⟩
    · rw [h.len cs[i] (List.getElem_mem _)]
      exact hadj.start
    · rw [hlink.next, hb.uino]
    · rw [hadj.prev, ha.uino]

/-- In every state of a run of operations on any number of files, each file has its chain on disk, no client inode is
    in two chains, and the walks by path and by inode number give the chain. Only memory that was never set can stop a
    run. --/
theorem chains_in_every_run {w : World} {root : Dentry} (h : Mounted w root) (ops : List (Env × Op))
    (he : ∀ x ∈ ops, Obliging x.1) :
    (∀ files w', runOps root ops [] w = .ok files w' → ∃ ch : Dentry → List Continuation,
      (∀ d ∈ files, ChainOnDisk w' d (ch d)) ∧
      (∀ d ∈ files, ∀ d' ∈ files, ∀ x ∈ (ch d).map (·.inode), x ∈ (ch d').map (·.inode) → d = d') ∧
      ∀ d ∈ files, ∀ e, Obliging e → ∀ fuel, (ch d).length < fuel →
        (∃ w'', walkConts fuel d none (w'.withEnv e) = .ok (.ok (ch d)) w'') ∧
        ∃ w'', walkInodes fuel d.inode none (w'.withEnv e) = .ok (.ok ((ch d).map (·.inode))) w'') ∧
      ((∀ x ∈ ops, x.1.Tame) → ∃ files w', runOps root ops [] w = .ok files w') := by
  have hmeets := h.tidy.runOps he
  constructor
  · intro files w' hr
    obtain ⟨ch, ht⟩ := hmeets.ok hr
    refine ⟨ch, fun d hd => (ht.chain d hd).chainOnDisk, ht.disjoint, fun d hd e hob fuel hf => ?_⟩
    have hc := ((ht.chain d hd).kept (.withEnv w' hob)).toChain
    have hcalm : Calm (w'.withEnv e) := hob.script
    obtain ⟨w₁, hr₁, -⟩ := (walkConts_reads (hc.walkable.follows hcalm.honest) hf _ (Warm.refl _)).calm hcalm
    obtain ⟨w₂, hr₂, -⟩ := (walkInodes_reads (hc.followsInodes hcalm.honest) (by simpa using hf) _ (Warm.refl _)).calm
      hcalm
    exact ⟨⟨w₁, hr₁⟩, w₂, hr₂⟩
  · intro htame
    obtain ⟨files, w', hr, -⟩ := hmeets.returns fun f u ⟨x, hx, hs⟩ => hs.2 (htame x hx)
    exact ⟨files, w', hr⟩

theorem quietEnv_obliging : Obliging quietEnv :=
  ⟨rfl, fun _ => by show 30 < 2 ^ 28; decide, by show 16 < 20; decide⟩

/-- A chain whose head points on has a second element. --/
theorem ChainOnDisk.one_lt_length {w : World} {d : Dentry} {cs : List Continuation} {cd : ContData}
    (h : ChainOnDisk w d cs) (hcd : w.disk.contData? d.client = some cd) (hnext : cd.next ≠ 0) : 1 < cs.length := by
  obtain ⟨c, rest, rfl, hc, -⟩ := h.head
  have hdata := (h.data c List.mem_cons_self).1
  rw [hc, hcd] at hdata
  cases rest with
  | nil => exact absurd (Option.some.inj hdata ▸ h.last c rfl) hnext
  | cons y ys => exact Nat.succ_lt_succ (Nat.succ_pos _)

/-- A pool is mounted; a file is made, grows, is read and synced. --/
theorem chains_in_every_run_of_one_file :
    let file : File := ⟨⟨1, ⟨1, 30⟩⟩, 0, 2⟩
    let ops : List (Env × Op) := [(quietEnv, .create ⟨0, rootIno⟩ "a".toList 0o100644), (quietEnv, .write file [1, 2] 0),
      (quietEnv, .write file [3] 40960), (quietEnv, .read file 2 40960), (quietEnv, .fsync file 0 81919)]
    ∃ w, readRoot 1 (prepared [1, 2] quietEnv) = .ok (.ok ⟨0, rootIno⟩) w ∧
      ∃ (w' : World) (ch : Dentry → List Continuation), runOps ⟨0, rootIno⟩ ops [] w = .ok [file.dentry] w' ∧
        ChainOnDisk w' file.dentry (ch file.dentry) ∧ 1 < (ch file.dentry).length := by
  intro file ops
  obtain ⟨w, hr, -, hm⟩ := readRoot_mounts [1, 2] (by decide) (by decide) quietEnv_obliging
  have hops : ∀ x ∈ ops, Obliging x.1 := by
    simp [ops, quietEnv_obliging]
  have hvalue : (do
      let _ ← readRoot 1
      let files ← runOps ⟨0, rootIno⟩ ops []
      return (files, (← get).disk.contData? ⟨1, 30⟩) : Kern _).run' (prepared [1, 2] quietEnv) =
        some ([⟨1, ⟨1, 30⟩⟩], some ⟨(⟨2, 30⟩ : ClientIno).uino, 0, 0, 40960⟩) := by decide +kernel
  obtain ⟨t, ht⟩ := of_run' hvalue
  rw [bind_ok hr] at ht
  obtain ⟨files, w', hrun, ht⟩ := bind_eq_ok.mp ht
  obtain ⟨hpair, -⟩ := EStateM.Result.ok.inj ht
  obtain ⟨rfl, hcd⟩ := Prod.mk.inj hpair
  obtain ⟨ch, hchain, -⟩ := (chains_in_every_run hm ops hops).1 _ w' hrun
  have hfile := hchain file.dentry List.mem_cons_self
  exact ⟨w, hr, w', ch, hrun, hfile, hfile.one_lt_length hcd (by decide +kernel)⟩

end Chunkfs
