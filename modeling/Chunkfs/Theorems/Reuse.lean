import Chunkfs.Lib.Run
import Chunkfs.Theorems.Locate
import Chunkfs.Theorems.Origins

/-! Files that come and go. Continuations are named after the chunk and the inode number of their predecessor, and
    both are used again when a file is gone. What a deleted file leaves behind is found by the next file that gets its
    numbers; nothing is left behind, and nothing of another file is read, exactly where only files without
    continuations are deleted. -/

namespace Chunkfs
open Exec

/-! ### Runs -/

/-- The objects in memory, those of them whose last name is gone, and all that has been written to each object. --/
structure Files where
  world : World
  objects : List Dentry
  removed : List Dentry
  written : Dentry → List UInt8

/-- An operation on names or data, or the last use of an object without a name. --/
inductive Change where
  | create (dir : Dentry) (name : List Char) (mode : Nat)
  | mkdir (dir : Dentry) (name : List Char) (mode : Nat)
  | write (file : File) (data : List UInt8) (ppos : Int)
  | unlink (dir : Dentry) (name : List Char) (d : Dentry)
  | release (d : Dentry)

/-- An environment in which every call works. --/
abbrev Willing := { e : Env // Obliging e }

namespace Files

/-- In memory there is the root directory alone. --/
def start (w : World) : Files := ⟨w, [], [], fun _ => []⟩

/-- Nothing has been written to an object that has just been made. --/
def made (s : Files) : EStateM.Result Stop World (Except Errno Dentry) → Option Files
  | .ok (.ok d) w =>
    some { s with world := w, objects := d :: s.objects, written := fun x => if x = d then [] else s.written x }
  | .ok (.error _) w => some { s with world := w }
  | .error _ _ => none

def wrote (s : Files) (d : Dentry) (data : List UInt8) : EStateM.Result Stop World IoResult → Option Files
  | .ok _ w => some { s with world := w, written := fun x => if x = d then s.written x ++ data else s.written x }
  | .error _ _ => none

/-- The link count of the client inode of an object. --/
def links (w : World) (d : Dentry) : Nat :=
  match w.disk.inode d.client with
  | none => 0
  | some i => i.attrs.nlink

def unlinked (s : Files) (d : Dentry) : EStateM.Result Stop World (Except Errno Unit) → Option Files
  | .ok (.ok _) w => some { s with world := w, removed := if links w d = 0 then d :: s.removed else s.removed }
  | .ok (.error _) w => some { s with world := w }
  | .error _ _ => none

def released (s : Files) (d : Dentry) : Files :=
  { s with
    world := s.world.evict d
    objects := s.objects.filter (· ≠ d)
    removed := s.removed.filter (· ≠ d) }

def withEnv (s : Files) (e : Env) : Files := { s with world := s.world.withEnv e }

/-- The VFS calls chunkfs on objects it has, removes a name that is there, and lets go of objects without a name. --/
def step (root : Dentry) (s : Files) (x : Willing × Change) : Option Files :=
  let s := s.withEnv x.1
  match x.2 with
  | .create dir name mode => if dir ∈ root :: s.objects then s.made (create dir.inode name mode s.world) else none
  | .mkdir dir name mode => if dir ∈ root :: s.objects then s.made (mkdir dir.inode name mode s.world) else none
  | .write file data p =>
    if file.dentry ∈ s.objects then s.wrote file.dentry data (write file data p s.world) else none
  | .unlink dir name d =>
    if dir ∈ root :: s.objects ∧ d ∈ s.objects ∧ s.world.disk.entry dir.client name = some d.client then
      s.unlinked d (unlink dir.inode name d s.world)
    else none
  | .release d => if d ∈ s.removed then some (s.released d) else none

/-! ### What is claimed of a run -/

/-- No continuation is left behind, and no read gives bytes of another file. --/
structure Clean (s : Files) : Prop where
  /-- A continuation file belongs to the chain of an object with a name. -/
  owned : ∀ k f i c, s.world.disk.path (contPath k f i) = some c →
    ∃ d ∈ s.objects, d ∉ s.removed ∧ ∃ cs, FileChain s.world d cs ∧ [⟨f, i⟩, c] <:+: cs.map (·.inode)
  /-- No continuation file is one of an object without a name. -/
  gone : ∀ d ∈ s.removed, ∀ cs, FileChain s.world d cs → ∀ c ∈ cs.tail, ∀ k f i,
    s.world.disk.path (contPath k f i) ≠ some c.inode
  /-- What is read has been written to the object. -/
  own : ∀ file : File, file.dentry ∈ s.objects → ∀ (e : Willing) (len : Nat) (p : Int) r w',
    read file len p (s.world.withEnv e) = .ok r w' → ∀ b ∈ r.buf, b = 0 ∨ b ∈ s.written file.dentry

/-- What `chunkfs_create_continuation` links into a chain is empty. --/
def LinksEmpty (s : Files) (x : Willing × Change) : Prop :=
  match x.2 with
  | .write file _ p => file.dentry ∈ s.objects → ∀ w₁ o w₂,
    openContFile file p (s.world.withEnv x.1) = .ok (.error .enoent) w₁ →
      createContinuation file p w₁ = .ok (.ok o) w₂ → ∃ i, w₂.disk.inode o.cont.inode = some i ∧ i.size = 0
  | _ => True

/-- An object that loses its last name has no continuation, and one without a name gets none: its first segment holds
    the position of a write, or no next file can be opened. --/
def Alone (s : Files) (x : Willing × Change) : Prop :=
  match x.2 with
  | .unlink _ _ d => links s.world d ≤ 1 → ∀ cd ∈ s.world.disk.contData? d.client, cd.next = 0
  | .write file _ p => file.dentry ∈ s.removed → initCd.covers p = true ∨
    ((s.world.withEnv x.1).openPath (nextPath (headOf file.dentry)) contMode).isOk = false
  | _ => True

instance decidableAlone (s : Files) : ∀ x, Decidable (s.Alone x)
  | (_, .unlink _ _ d) =>
    inferInstanceAs (Decidable (links s.world d ≤ 1 → ∀ cd ∈ s.world.disk.contData? d.client, cd.next = 0))
  | (e, .write file _ p) => inferInstanceAs (Decidable (file.dentry ∈ s.removed → initCd.covers p = true ∨
      ((s.world.withEnv e).openPath (nextPath (headOf file.dentry)) contMode).isOk = false))
  | (_, .create _ _ _) => inferInstanceAs (Decidable True)
  | (_, .mkdir _ _ _) => inferInstanceAs (Decidable True)
  | (_, .release _) => inferInstanceAs (Decidable True)

/-! ### What every step keeps -/

/-- The objects are tidy, what their client inodes hold has been written to them, and those without a name have no
    continuation. --/
structure Neat (root : Dentry) (s : Files) (ch : Dentry → List Continuation) : Prop where
  tidy : Tidy s.world root s.objects ch
  grounded : Grounded s.world s.objects ch s.written
  removed : ∀ d ∈ s.removed, d ∈ s.objects ∧ (ch d).length = 1

section Steps
variable {root d dir : Dentry} {s t : Files} {ch : Dentry → List Continuation} {e : Env} {file : File} {name : List Char}

theorem start_neat {w : World} (h : Mounted w root) : (start w).Neat root fun _ => [] where
  tidy := h.tidy
  grounded _ hd := nomatch hd
  removed _ hd := nomatch hd

theorem Neat.withEnv (h : s.Neat root ch) (he : Obliging e) : (s.withEnv e).Neat root ch where
  tidy := h.tidy.kept (.withEnv s.world he)
  grounded := h.grounded.kept (.of_disk rfl)
  removed := h.removed

/-- The chain of an object is what its client inodes say. --/
theorem Neat.chain_eq (h : s.Neat root ch) (hd : d ∈ s.objects) {cs : List Continuation} (hcs : FileChain s.world d cs) :
    cs = ch d :=
  (hcs.kept (.withEnv s.world quietEnv_obliging)).toChain.unique
    ((h.tidy.chain d hd).kept (.withEnv s.world quietEnv_obliging)).toChain rfl

theorem Neat.clean (h : s.Neat root ch) : s.Clean where
  owned k f i c hc := by
    obtain ⟨d, hd, hin⟩ := h.tidy.names k f i c hc
    refine ⟨d, hd, fun hr => ?_, ch d, h.tidy.chain d hd, hin⟩
    have := hin.length_le
    rw [List.length_map, (h.removed d hr).2] at this
    simp at this
  gone d hr cs hcs c hc := by
    obtain ⟨hd, hone⟩ := h.removed d hr
    obtain ⟨x, hx⟩ := List.length_eq_one_iff.mp hone
    rw [h.chain_eq hd hcs, hx] at hc
    cases hc
  own file hfile e len p r w' hr b hb := by
    have hc := ((h.tidy.kept (.withEnv s.world e.2)).chain _ hfile)
    have hlen := hc.length_le_fifteen
    have hfuel : 16 < (s.world.withEnv e).env.fuel := e.2.fuel
    obtain ⟨r', w₁, hr', -, hbytes⟩ := read_gives (p := p) hc.toChain e.2.script (by omega) rfl len
    rw [hr'] at hr
    cases hr
    obtain ⟨c, hmem, i, k, hi, rfl⟩ := hbytes b hb
    exact h.grounded _ hfile c.inode (List.mem_map_of_mem hmem) i hi k

/-! ### Making an object -/

theorem Neat.make (h : s.Neat root ch) (he : Obliging s.world.env) (hdir : dir ∈ root :: s.objects) {o : NewObject}
    (ho : o.data = []) {links : Nat} (ht : s.made (makeObject dir.inode name o links s.world) = some t) :
    ∃ ch', t.Neat root ch' := by
  obtain ⟨cs, hcs, hlen⟩ := h.tidy.chain_of_mem hdir
  have hfuel := he.fuel
  have hmeets := makeObject_meets hcs h.tidy.sound h.tidy.fresh he.script (by omega) (by omega) name o links
  cases hr : makeObject dir.inode name o links s.world with
  | error f u =>
    rw [hr] at ht
    cases ht
  | ok r w' =>
    obtain ⟨hk, hmade⟩ := hmeets.ok hr
    have hadds : Adds [] s.world w' := ho ▸ (makeObject_adds dir.inode name o links).of_ok hr
    rw [hr] at ht
    cases r with
    | error e =>
      cases ht
      exact ⟨ch, h.tidy.kept hk, h.grounded.kept hadds, h.removed⟩
    | ok d =>
      cases ht
      have hm := hmade d rfl
      have hnew : d ∉ s.objects := fun hd => by
        obtain ⟨i, hi⟩ := h.tidy.allocated hd (h.tidy.head_mem hd)
        rw [hm.free] at hi
        cases hi
      refine ⟨_, h.tidy.made hdir hk hm, h.grounded.adds hadds fun x hx y hy => ?_, fun x hx => ?_⟩
      · by_cases hxd : x = d
        · subst hxd
          rw [Function.update_self] at hy
          obtain rfl := List.mem_singleton.mp hy
          exact Or.inl hm.free
        · rw [Function.update_of_ne hxd] at hy
          exact Or.inr ⟨(List.mem_cons.mp hx).resolve_left hxd, hy, if_neg hxd⟩
      · obtain ⟨hxo, hone⟩ := h.removed x hx
        refine ⟨List.mem_cons_of_mem _ hxo, ?_⟩
        rw [Function.update_of_ne (show x ≠ d from fun he => hnew (he ▸ hxo))]
        exact hone

/-! ### Writing -/

/-- The only segment of an object without a name. --/
theorem Neat.lone (h : s.Neat root ch) (hr : d ∈ s.removed) : ∃ c, ch d = [c] ∧ nextPath c = nextPath (headOf d) ∧
    ∀ p, c.cd.covers p = initCd.covers p := by
  obtain ⟨hd, hone⟩ := h.removed d hr
  obtain ⟨c, hc⟩ := List.length_eq_one_iff.mp hone
  have hf := h.tidy.chain d hd
  obtain ⟨x, rest, hx, hxd⟩ := hf.first
  rw [hc] at hf hx
  obtain ⟨rfl, -⟩ := List.cons.inj hx
  have hchunk := (hf.elem c (by simp)).chunk
  have hstart := (hf.origin c (by simp)).1
  have hlen := hf.len c (by simp)
  refine ⟨c, hc, ?_, fun p => ?_⟩
  · unfold nextPath
    rw [hchunk, hxd]
    rfl
  · unfold ContData.covers
    rw [hstart, hlen]
    rfl

theorem Neat.write_ends (h : s.Neat root ch) (he : Obliging s.world.env) (hd : file.dentry ∈ s.objects) (p : Int)
    (data : List UInt8) :
    ∃ r w', write file data p s.world = .ok r w' ∧ WriteEnds s.world (ch file.dentry) p data w' := by
  have hfuel := he.fuel
  have hf := h.tidy.chain _ hd
  have hlen := hf.length_le_fifteen
  exact Chunkfs.write_ends hf.toChain he.script (by omega) rfl (fun t c u ht ho => (h.tidy.opens_new hd ht ho).1) data

theorem Neat.write (h : s.Neat root ch) (he : Obliging s.world.env) (hd : file.dentry ∈ s.objects) {p : Int}
    {data : List UInt8} (hq : file.dentry ∈ s.removed → initCd.covers p = true ∨
      (s.world.openPath (nextPath (headOf file.dentry)) contMode).isOk = false)
    (ht : s.wrote file.dentry data (write file data p s.world) = some t) : ∃ ch', t.Neat root ch' := by
  obtain ⟨r, w', hr, hends⟩ := h.write_ends he hd p data
  rw [hr] at ht
  cases ht
  have hchain := h.tidy.chain _ hd
  cases hends with
  | found c hfind hfed =>
    obtain ⟨start, stored, hsub, hdisk⟩ := hfed.disk
    exact ⟨ch, h.tidy.kept hfed.toKept, h.grounded.wrote h.tidy.disjoint hd
      (List.mem_map_of_mem (List.mem_of_find?_eq_some hfind)) hsub hdisk, h.removed⟩
  | fails t e hfind ht ho hw =>
    obtain ⟨c, rest, hc, -⟩ := hchain.first
    have hmem : c.inode ∈ (ch file.dentry).map (·.inode) := by
      rw [hc]
      simp
    have hdisk : w'.disk = (s.world.wrote c.inode 0 []).disk := by
      rw [World.wrote_nil]
      exact hw.disk
    exact ⟨ch, h.tidy.kept hw.kept, h.grounded.wrote h.tidy.disjoint hd hmem (List.nil_subset data) hdisk, h.removed⟩
  | grown t c u hfind ht ho hfed =>
    obtain ⟨init, hinit⟩ : ∃ init, ch file.dentry = init ++ [t] := ⟨_, (List.dropLast_append_getLast? t ht).symm⟩
    have hgrown := h.tidy.grown hd hinit ho
    obtain ⟨-, hfree, -⟩ := h.tidy.opens_new hd ht ho
    have hmap : (init ++ [relinked t c, appended t c]).map (·.inode) = (ch file.dentry).map (·.inode) ++ [c] := by
      rw [hinit]
      simp [relinked, appended, loaded]
    obtain ⟨start, stored, hsub, hdisk⟩ := hfed.disk
    have hground : Grounded (growStage u t c 4 4) s.objects
        (Function.update ch file.dentry (init ++ [relinked t c, appended t c])) s.written := by
      refine h.grounded.adds (growStage_adds ho t) fun x hx y hy => ?_
      by_cases hxd : x = file.dentry
      · subst hxd
        rw [Function.update_self, hmap, List.mem_append, List.mem_singleton] at hy
        rcases hy with hy | rfl
        · exact Or.inr ⟨hx, hy, rfl⟩
        · exact Or.inl hfree
      · rw [Function.update_of_ne hxd] at hy
        exact Or.inr ⟨hx, hy, rfl⟩
    refine ⟨_, hgrown.kept hfed.toKept, hground.wrote hgrown.disjoint hd ?_ hsub hdisk, fun x hx => ?_⟩
    · rw [Function.update_self, hmap]
      simp
    · obtain ⟨hxo, hone⟩ := h.removed x hx
      refine ⟨hxo, ?_⟩
      -- An object without a name has not grown.
      have hxd : x ≠ file.dentry := fun he => by
        obtain ⟨k, hk, hpath, hcov⟩ := h.lone (he ▸ hx)
        rw [hk] at hfind ht
        obtain rfl : k = t := by simpa using ht
        rcases hq (he ▸ hx) with hp | ho'
        · rw [List.find?_cons_of_pos (by rw [hcov]; exact hp)] at hfind
          cases hfind
        · rw [← hpath, ho] at ho'
          cases ho'
      rw [Function.update_of_ne hxd]
      exact hone

/-- What a write links to a chain is a new file. --/
theorem Neat.linksEmpty (h : s.Neat root ch) (e : Willing) (x : Change) : s.LinksEmpty (e, x) := by
  unfold LinksEmpty
  cases x with
  | write file data p =>
    intro hd w₁ o w₂ hopen hcreate
    have ht := h.tidy.kept (.withEnv s.world e.2)
    obtain ⟨vn, hv, -⟩ := (ht.chain _ hd).head.vnode
    obtain ⟨hw, -⟩ := openContFile_ok hv rfl hopen
    have hc : Calm (s.world.withEnv e) := e.2.script
    exact (ht.kept hw.kept).creates_empty (hc.warm hw) (by rw [hw.fuel]; exact e.2.fuel) hd hcreate
  | create dir name mode => trivial
  | mkdir dir name mode => trivial
  | unlink dir name d => trivial
  | release d => trivial

/-! ### Removing a name -/

theorem Neat.unlink_returns (h : s.Neat root ch) (he : Obliging s.world.env) (hdir : dir ∈ root :: s.objects)
    (hd : d ∈ s.objects) (name : List Char) : ∃ w', unlink dir.inode name d s.world = .ok (.ok ()) w' ∧
      Kept s.world w' ∧ Adds [] s.world w' ∧ links w' d = links s.world d - 1 := by
  obtain ⟨cs, hcs, hlen⟩ := h.tidy.chain_of_mem hdir
  have hf := h.tidy.chain d hd
  have hlen' := hf.length_le_fifteen
  have hfuel := he.fuel
  obtain ⟨w', hr, hk, hdisk⟩ := unlink_removes hcs hf.toChain he.script (by omega) (by omega) name
  obtain ⟨i, hi⟩ := h.tidy.allocated hd (h.tidy.head_mem hd)
  obtain ⟨i', hi', -, -, hlinks⟩ := withoutName_inode hi dir.client name d.client
  refine ⟨w', hr, hk, (Adds.withoutName s.world dir.client name d.client).trans (.of_disk hdisk), ?_⟩
  unfold links
  rw [hdisk, hi', hi]
  simpa using hlinks

theorem Neat.unlink (h : s.Neat root ch) (he : Obliging s.world.env) (hdir : dir ∈ root :: s.objects)
    (hd : d ∈ s.objects)
    (hq : links s.world d ≤ 1 → ∀ cd ∈ s.world.disk.contData? d.client, cd.next = 0)
    (ht : s.unlinked d (unlink dir.inode name d s.world) = some t) : t.Neat root ch := by
  obtain ⟨w', hr, hk, hadds, hlinks⟩ := h.unlink_returns he hdir hd name
  rw [hr] at ht
  cases ht
  refine ⟨h.tidy.kept hk, h.grounded.kept hadds, fun x hx => ?_⟩
  dsimp only at hx
  split at hx
  · rename_i hzero
    rcases List.mem_cons.mp hx with rfl | hx
    · have hf := h.tidy.chain x hd
      obtain ⟨i, hi⟩ := h.tidy.allocated hd (h.tidy.head_mem hd)
      obtain ⟨a, rest, ha, hax⟩ := hf.first
      have hcd := (hf.elem a (by rw [ha]; simp)).data
      rw [hax] at hcd
      exact ⟨hd, (hf.next_eq_zero_iff hcd).mp (hq (by omega) _ hcd)⟩
    · exact h.removed x hx
  · exact h.removed x hx

theorem Neat.release (h : s.Neat root ch) (hr : d ∈ s.removed) : (s.released d).Neat root ch where
  tidy := h.tidy.evicted (h.removed d hr).1 (h.removed d hr).2
  grounded := h.grounded.evict d
  removed x hx := by
    obtain ⟨hx, hne⟩ : x ∈ s.removed ∧ x ≠ d := by simpa [released] using hx
    obtain ⟨hxo, hone⟩ := h.removed x hx
    exact ⟨by simpa [released] using ⟨hxo, hne⟩, hone⟩

end Steps

section Runs
variable {root : Dentry} {s t : Files} {ch : Dentry → List Continuation} {x : Willing × Change}

/-- A step that leaves no continuation without a name keeps the objects neat. --/
theorem Neat.step (h : s.Neat root ch) (hq : s.Alone x) (ht : s.step root x = some t) : ∃ ch', t.Neat root ch' := by
  obtain ⟨e, x⟩ := x
  have hn := h.withEnv e.2
  have he : Obliging (s.withEnv e).world.env := e.2
  cases x with
  | create dir name mode =>
    obtain ⟨hdir, ht⟩ := Option.ite_none_right_eq_some.mp ht
    exact hn.make he hdir rfl ht
  | mkdir dir name mode =>
    obtain ⟨hdir, ht⟩ := Option.ite_none_right_eq_some.mp ht
    exact hn.make he hdir rfl ht
  | write file data p =>
    obtain ⟨hd, ht⟩ := Option.ite_none_right_eq_some.mp ht
    exact hn.write he hd hq ht
  | unlink dir name d =>
    obtain ⟨⟨hdir, hd, -⟩, ht⟩ := Option.ite_none_right_eq_some.mp ht
    exact ⟨ch, hn.unlink he hdir hd hq ht⟩
  | release d =>
    obtain ⟨hr, ht⟩ := Option.ite_none_right_eq_some.mp ht
    cases ht
    exact ⟨ch, hn.release hr⟩

/-- A step after which no object without a name has a continuation was such a step. --/
theorem Neat.alone (h : s.Neat root ch) (ht : s.step root x = some t) (hclean : t.Clean) : s.Alone x := by
  obtain ⟨e, x⟩ := x
  have hn := h.withEnv e.2
  have he : Obliging (s.withEnv e).world.env := e.2
  unfold Alone
  cases x with
  | create dir name mode => trivial
  | mkdir dir name mode => trivial
  | write file data p =>
    intro hr
    obtain ⟨hd, ht⟩ := Option.ite_none_right_eq_some.mp ht
    obtain ⟨k, hk, hpath, hcov⟩ := h.lone hr
    obtain ⟨r, w', hr', hends⟩ := hn.write_ends he hd p data
    rw [hr'] at ht
    cases ht
    rw [hk] at hends
    cases hends with
    | found c hfind hfed =>
      obtain rfl : c = k := by simpa using List.mem_of_find?_eq_some hfind
      have hcovers := List.find?_some hfind
      exact Or.inl (hcov p ▸ hcovers)
    | fails l e' hfind hl ho hw =>
      obtain rfl : k = l := by simpa using hl
      refine Or.inr ?_
      show ((s.world.withEnv e).openPath _ _).isOk = false
      rw [← hpath, show (s.world.withEnv e).openPath (nextPath k) contMode = .error e' from ho]
      rfl
    | grown l c u hfind hl ho hfed =>
      -- The new file is a continuation of the object.
      obtain rfl : k = l := by simpa using hl
      have hcan := (hn.tidy.opens_new hd (by rw [hk]; rfl) ho).1
      have hone : ch file.dentry = [] ++ [k] := hk
      have hchain := ((hn.tidy.grown hd hone ho).kept hfed.toKept).chain _ hd
      rw [Function.update_self] at hchain
      refine absurd ?_ (hclean.gone _ hr _ hchain (appended k c) (by simp) (k.chunkId + 1) k.chunkId k.inode.ino)
      show w'.disk.path (nextPath k) = some c
      rw [hfed.path]
      exact hcan.path
  | unlink dir name d =>
    intro hlinks cd hcd
    obtain ⟨⟨hdir, hd, -⟩, ht⟩ := Option.ite_none_right_eq_some.mp ht
    obtain ⟨w', hr, hk, -, hlinks'⟩ := hn.unlink_returns he hdir hd name
    rw [hr] at ht
    cases ht
    have hzero : links w' d = 0 := by
      rw [hlinks']
      exact Nat.sub_eq_zero_of_le hlinks
    have hf := hn.tidy.chain d hd
    refine (hf.next_eq_zero_iff hcd).mpr ?_
    obtain ⟨a, rest, ha, -⟩ := hf.first
    cases rest with
    | nil => rw [ha]; rfl
    | cons b rest =>
      rw [ha] at hf
      have hlink := (List.isChain_cons_cons.mp hf.links).1
      refine absurd ?_ (hclean.gone d (by simp [hzero]) _ (hf.kept hk) b (by simp) b.inode.chunk a.inode.chunk a.inode.ino)
      show w'.disk.path _ = _
      rw [hk.path]
      exact hlink.path
  | release d => trivial

end Runs

/-- The runs in which no continuation is left behind by a deleted file and none is found by another are those in which
    only objects without continuations lose their last name, and get none after it. --/
theorem clean_iff_alone {w : World} {root : Dentry} (h : Mounted w root) {es : List (Willing × Change)}
    (hrun : (Run.run (step root) (start w) es).isSome) :
    Run.Always (step root) Clean LinksEmpty (start w) es ↔ Run.Each (step root) Alone (start w) es :=
  Run.always_iff_each (I := fun s => ∃ ch, s.Neat root ch) (fun _ ⟨_, hn⟩ => hn.clean)
    (fun _ x ⟨_, hn⟩ hq => ⟨hn.linksEmpty x.1 x.2, fun _ ht => hn.step hq ht⟩)
    (fun _ _ _ ⟨_, hn⟩ ht _ hc => hn.alone ht hc) ⟨_, start_neat h⟩ hrun

/-! ### A number used again -/

/-- Two chunks, just mounted. --/
def twoChunks : World := final (readRoot 1 (prepared [1, 2] quietEnv))

def topDir : Dentry := ⟨0, rootIno⟩

theorem twoChunks_mounted : Mounted twoChunks topDir := by
  obtain ⟨w, hr, -, hm⟩ := readRoot_mounts [1, 2] (by decide) (by decide) quietEnv_obliging
  unfold twoChunks
  rw [hr]
  exact hm

/-- An open file, the one or the other, on the client inode that every new file gets. --/
def opened (v : Nat) : File := ⟨⟨v, ⟨1, 30⟩⟩, 0, 2⟩

def willing (x : Change) : Willing × Change := (⟨quietEnv, quietEnv_obliging⟩, x)

/-- A file is made, written to at a position, and deleted; another is made and written to in its second segment. --/
def twoFiles (p : Int) : List (Willing × Change) :=
  [.create topDir "a".toList 0o100644, .write (opened 1) [3, 4] p, .unlink topDir "a".toList (opened 1).dentry,
    .release (opened 1).dentry, .create topDir "b".toList 0o100644, .write (opened 2) [7] 40960].map willing

theorem clean_iff_alone_twoFiles : Run.Always (step topDir) Clean LinksEmpty (start twoChunks) (twoFiles 0) :=
  (clean_iff_alone twoChunks_mounted (by decide +kernel)).mpr (by decide +kernel)

/-- The bytes that a read returned. --/
def bufOf : EStateM.Result Stop World IoResult → Option (List UInt8)
  | .ok r _ => some r.buf
  | .error _ _ => none

/-- What is in memory, what has been written to the second file, and what a read of its second segment gives. --/
def readBack (s : Files) : List Dentry × List UInt8 × Option (List UInt8) :=
  (s.objects, s.written (opened 2).dentry, bufOf (read (opened 2) 2 40960 (s.world.withEnv quietEnv)))

/-- A deleted file leaves its continuation, and the next file on its inode number reads a byte of it. --/
theorem reads_deleted_file : Mounted twoChunks topDir ∧
    (Run.run (step topDir) (start twoChunks) ((twoFiles 40960).take 4)).map
      (fun s => (s.objects, s.world.disk.path (contPath 2 1 30))) = some ([], some ⟨2, 30⟩) ∧
    (Run.run (step topDir) (start twoChunks) (twoFiles 40960)).map readBack =
      some ([(opened 2).dentry], [7], some [7, 4]) ∧
    ¬Run.Always (step topDir) Clean LinksEmpty (start twoChunks) (twoFiles 40960) := by
  have hread : (Run.run (step topDir) (start twoChunks) (twoFiles 40960)).map readBack =
      some ([(opened 2).dentry], [7], some [7, 4]) := by decide +kernel
  refine ⟨twoChunks_mounted, by decide +kernel, hread, fun ha => ?_⟩
  obtain ⟨t, hrun, ht⟩ := Option.map_eq_some_iff.mp hread
  obtain ⟨hobjects, ht⟩ := Prod.mk.inj ht
  obtain ⟨hwritten, hbuf⟩ := Prod.mk.inj ht
  have hown := (ha.last hrun).own (opened 2) (by rw [hobjects]; simp) ⟨quietEnv, quietEnv_obliging⟩ 2 40960
  cases hr : read (opened 2) 2 40960 (t.world.withEnv quietEnv) with
  | ok r w' =>
    rw [hr] at hbuf
    obtain hbuf : r.buf = [7, 4] := Option.some.inj hbuf
    have hfour := hown r w' hr 4 (by rw [hbuf]; simp)
    rw [hwritten] at hfour
    revert hfour
    decide
  | error e w' =>
    rw [hr] at hbuf
    cases hbuf

end Files

end Chunkfs
