import Chunkfs.Theorems.Lasting
import Chunkfs.Theorems.Lookup
import Chunkfs.Theorems.Store

/-! A pool that is unmounted and mounted again. The names a run has made are still there and so are the inodes behind
    them. A lookup after the mount stores initial continuation data, so of a file it finds the first segment: all of a
    file that has not grown behind it, which is then the same flat file in the requests that follow. -/

namespace Chunkfs
open Exec Word Flat

/-! ### The names that a run leaves -/

/-- A request of the log has made `d` under the name in the root directory. --/
def NamedIn (root : Dentry) (log : List (Request × Answer)) (name : List Char) (d : Dentry) : Prop :=
  ∃ o links, (Request.make root name o links, Answer.made (.ok d)) ∈ log

section Names
variable {w w' : World} {root dir d : Dentry} {files : List Dentry} {ch : Dentry → List Continuation} {name : List Char}
  {o : NewObject} {links : Nat} {qs : List (Env × Request)} {log : List (Request × Answer)}

/-- The name of a new object leads to its client inode, which lies in the chunk of the directory. --/
theorem Tidy.make_named (h : Tidy w root files ch) (he : Obliging w.env) (hdir : dir ∈ root :: files)
    (hr : makeObject dir.inode name o links w = .ok (.ok d) w') :
    w'.disk.entry dir.client name = some d.client ∧ d.client.chunk = dir.client.chunk := by
  obtain ⟨cs, hcs, hlen⟩ := h.chain_of_mem hdir
  have hfuel := he.fuel
  have hf : cs.length < w.env.fuel := Nat.lt_of_le_of_lt hlen (Nat.lt_of_succ_lt hfuel)
  have hf' : 1 < w.env.fuel := Nat.lt_of_le_of_lt (by decide) hfuel
  obtain ⟨-, hmade⟩ := (makeObject_meets hcs h.sound h.fresh he.script hf hf' name o links).ok hr
  refine ⟨?_, by rw [(hmade d rfl).client]⟩
  rcases (makeObject_world hcs h.sound h.fresh he.script hf hf' name o links).ok hr with
    ⟨e, hfail, -⟩ | ⟨c, vn, vd, i, -, hok, -, -, hw⟩
  · cases hfail
  · cases hok
    rw [hw.disk]
    exact if_pos ⟨rfl, rfl⟩

/-- A name that a run has made in the root directory is there at the end. --/
theorem Tidy.run_named (h : Tidy w root files ch) (he : ∀ x ∈ qs, Obliging x.1) (hq : ∀ x ∈ qs, x.2.Links)
    (hr : runRequests root qs files w = .ok log w') (hn : NamedIn root log name d) :
    w'.disk.entry root.client name = some d.client ∧ d.client.chunk = root.client.chunk ∧ d ∈ filesAfter files log := by
  obtain ⟨o, links, hmem⟩ := hn
  induction qs generalizing w files ch log with
  | nil =>
    cases hr
    cases hmem
  | cons x qs ih =>
    obtain ⟨e, q⟩ := x
    have hx : Obliging e := he (e, q) List.mem_cons_self
    have ht := h.kept (.withEnv w hx)
    unfold runRequests at hr
    rw [bind_ok (modify_apply _ w)] at hr
    obtain ⟨a, w₁, hr₁, hr⟩ := bind_eq_ok.mp hr
    obtain ⟨ch₁, hm⟩ := (ht.request hx q).ok hr₁
    obtain ⟨log₁, w₂, hr₂, hr⟩ := bind_eq_ok.mp hr
    cases hr
    rcases List.mem_cons.mp hmem with heq | hmem
    · obtain ⟨rfl, rfl⟩ := Prod.mk.inj heq
      rcases Request.run_cases hr₁ with hnone | ⟨_, _, _, _, r, hq', hmade, hdir, hmake⟩ | ⟨-, hother⟩
      · cases hnone
      · cases hq'
        cases hmade
        obtain ⟨hentry, hchunk⟩ := ht.make_named hx hdir hmake
        have hlast := (runRequests_lasting fun x hx => hq x (List.mem_cons_of_mem _ hx)).of_ok hr₂
        exact ⟨hlast.entry _ _ _ hentry, hchunk, filesAfter_subset List.mem_cons_self log₁⟩
      · exact absurd rfl (hother d)
    · have hrest := ih hm.tidy (fun x hx => he x (List.mem_cons_of_mem _ hx)) (fun x hx => hq x (List.mem_cons_of_mem _ hx))
        hr₂ hmem
      exact hrest

end Names

/-! ### Files of one segment -/

/-- A write that begins in the first segment of its file. --/
def Request.Small : Request → Prop
  | .write _ _ p => 0 ≤ p ∧ p < segLen
  | _ => True

section Small
variable {w w' : World} {root d : Dentry} {files : List Dentry} {ch : Dentry → List Continuation} {q : Request}
  {qs : List (Env × Request)} {log : List (Request × Answer)}

/-- Where every file has one segment, there is no continuation file. --/
theorem Tidy.no_continuation (h : Tidy w root files ch) (hone : ∀ d ∈ files, (ch d).length = 1) (k f i : Nat) :
    w.disk.path (contPath k f i) = none := by
  cases hp : w.disk.path (contPath k f i) with
  | none => rfl
  | some c =>
    obtain ⟨d, hd, hin⟩ := h.names k f i c hp
    have hlen := hin.length_le
    rw [List.length_map, hone d hd] at hlen
    exact absurd hlen (Nat.not_succ_le_self 1)

/-- A request that begins in the first segment leaves every file one segment. --/
theorem Tidy.request_small (h : Tidy w root files ch) (he : Obliging w.env) (hone : ∀ d ∈ files, (ch d).length = 1)
    (hq : q.Small) :
    Meets (q.run root files) w (fun a w' => ∃ ch', Tidy w' root (a.files files) ch' ∧ ∀ d ∈ a.files files, (ch' d).length = 1)
      w.env.Stops := by
  by_cases hwrite : ∃ file data p, q = .write file data p ∧ file.dentry ∈ files
  · obtain ⟨file, data, p, rfl, hd⟩ := hwrite
    obtain ⟨h₀, hlt⟩ := hq
    obtain ⟨n, rfl⟩ := Int.eq_ofNat_of_zero_le h₀
    have hn : n < segLen := Int.ofNat_lt.mp hlt
    have hf := h.chain _ hd
    obtain ⟨y, rest, hy, -⟩ := hf.first
    have hfind : (ch file.dentry).find? (·.cd.covers n) = some y := by
      rw [hf.find_covers (Nat.lt_trans hn (by decide)), Nat.div_eq_of_lt hn, hy]
      rfl
    obtain ⟨r, w', hr, hm⟩ := h.write_within he hd hfind data
    have hrun : (Request.write file data n).run root files w = .ok (.io r) w' :=
      (congrFun (if_pos hd) w).trans (bind_ok hr)
    exact meets_of_ok hrun ⟨ch, hm.tidy, hone⟩
  · refine (h.request he q).mono (fun a w' ⟨ch', hm⟩ => ?_) fun _ _ hs => hs
    have hsteady : ∀ d ∈ files, ch' d = ch d := by
      by_cases hother : ∃ file data p, q = .write file data p
      · obtain ⟨file, data, p, rfl⟩ := hother
        have hout : file.dentry ∉ files := fun hd => hwrite ⟨file, data, p, rfl, hd⟩
        exact fun d hd => (hm.others d hd fun heq => hout ((show d = file.dentry from heq) ▸ hd)).1
      · exact hm.steady fun file data p heq => hother ⟨file, data, p, heq⟩
    refine ⟨ch', hm.tidy, fun d hd => ?_⟩
    rcases a with (e | d') | _ | _ | _ | _ | _
    case made.ok =>
      rcases List.mem_cons.mp hd with rfl | hd
      · rw [(hm.new d rfl).2.1]
        rfl
      · rw [hsteady d hd]
        exact hone d hd
    all_goals
      rw [hsteady d hd]
      exact hone d hd

/-- A run of such requests makes no continuation file. --/
theorem Tidy.run_small (h : Tidy w root files ch) (he : ∀ x ∈ qs, Obliging x.1) (hone : ∀ d ∈ files, (ch d).length = 1)
    (hq : ∀ x ∈ qs, x.2.Small) (hr : runRequests root qs files w = .ok log w') (k f i : Nat) :
    w'.disk.path (contPath k f i) = none := by
  induction qs generalizing w files ch log with
  | nil =>
    cases hr
    exact h.no_continuation hone k f i
  | cons x qs ih =>
    obtain ⟨e, q⟩ := x
    have hx : Obliging e := he (e, q) List.mem_cons_self
    unfold runRequests at hr
    rw [bind_ok (modify_apply _ w)] at hr
    obtain ⟨a, w₁, hr₁, hr⟩ := bind_eq_ok.mp hr
    obtain ⟨ch₁, h₁, hone₁⟩ := ((h.kept (.withEnv w hx)).request_small hx hone (hq (e, q) List.mem_cons_self)).ok hr₁
    obtain ⟨log₁, w₂, hr₂, hr⟩ := bind_eq_ok.mp hr
    cases hr
    exact ih h₁ (fun x hx => he x (List.mem_cons_of_mem _ hx)) hone₁ (fun x hx => hq x (List.mem_cons_of_mem _ hx)) hr₂

end Small

/-! ### Unmounting and mounting -/

section Unmount
variable {w w' : World} {e : Env} {kept : ClientIno → Bool} {c : ClientIno}

/-- Where every inode has links, nothing on disk goes. --/
theorem unmount_disk (hl : w.AllLinked) (kept : ClientIno → Bool) : (w.unmount kept).disk = w.disk := by
  have hinode : (w.unmount kept).disk.inode = w.disk.inode := by
    funext x
    cases hi : w.disk.inode x with
    | none => simp only [World.unmount, hi]
    | some i => simp only [World.unmount, hi, hl.inode x i hi, and_false, ↓reduceIte]
  unfold World.unmount at hinode ⊢
  dsimp only at hinode ⊢
  rw [hinode]

/-- What was in memory can be read in again. --/
theorem unmount_readable (hl : w.icache c = .live) (kept : ClientIno → Bool) : (w.unmount kept).Readable c := by
  by_cases hk : kept c = true
  · exact Or.inl ((if_pos hk).trans hl)
  · exact Or.inr (if_neg hk)

end Unmount

/-- The world `w₁` comes from the unmounted `w` by a mount and by lookups, which have found `ds`. --/
structure Resumed (w : World) (e : Env) (root : Dentry) (ds : List Dentry) (w₁ : World) : Prop where
  sound : Sound w₁
  fresh : Fresh w₁
  env : w₁.env = e
  number : root.client = rootIno
  top : FileChain w₁ root [headOf root]
  chain : ∀ d ∈ ds, FileChain w₁ d [headOf d]
  address : ∀ d ∈ ds, ∀ d' ∈ ds, d.inode = d'.inode → d = d'
  rootAddress : ∀ d ∈ ds, d.inode ≠ root.inode
  clients : ∀ d ∈ ds, ∀ d' ∈ ds, d.client = d'.client → d = d'
  rootClient : ∀ d ∈ ds, d.client ≠ rootIno
  entry : w₁.disk.entry = w.disk.entry
  path : w₁.disk.path = w.disk.path
  pool : w₁.pool = w.pool
  others : ∀ c, c ≠ rootIno → (∀ d ∈ ds, d.client ≠ c) → w₁.disk.inode c = w.disk.inode c
  readable : ∀ c, w.icache c = .live → w₁.Readable c
  bytes : ∀ d ∈ ds, w₁.bytes? d.client = w.bytes? d.client
  size : ∀ d ∈ ds, ∀ vn, w₁.vnode d.inode = some vn → ∃ s, w.bytes? d.client = some s ∧ vn.size = s64 s.size

section Resumed
variable {w w₁ w₂ : World} {e : Env} {root d : Dentry} {ds ds' : List Dentry} {files : List Dentry}
  {ch : Dentry → List Continuation} {c : ClientIno} {i : ClientInode} {name : List Char} {f : Bytes UInt8}

theorem Resumed.of_mem (h : Resumed w e root ds w₁) (hm : ∀ d, d ∈ ds' ↔ d ∈ ds) : Resumed w e root ds' w₁ where
  sound := h.sound
  fresh := h.fresh
  env := h.env
  number := h.number
  top := h.top
  chain d hd := h.chain d ((hm d).mp hd)
  address d hd d' hd' := h.address d ((hm d).mp hd) d' ((hm d').mp hd')
  rootAddress d hd := h.rootAddress d ((hm d).mp hd)
  clients d hd d' hd' := h.clients d ((hm d).mp hd) d' ((hm d').mp hd')
  rootClient d hd := h.rootClient d ((hm d).mp hd)
  entry := h.entry
  path := h.path
  pool := h.pool
  others c hc hne := h.others c hc fun d hd => hne d ((hm d).mpr hd)
  readable := h.readable
  bytes d hd := h.bytes d ((hm d).mp hd)
  size d hd := h.size d ((hm d).mp hd)

/-- A mount of a pool that has been unmounted. --/
theorem Tidy.resumes (h : Tidy w root files ch) (hl : w.AllLinked) (hnum : root.client = rootIno)
    (hpath : w.disk.path rootPath = some rootIno) (he : Obliging e) (kept : ClientIno → Bool) :
    ∃ root' w₁, readRoot 1 ((w.unmount kept).withEnv e) = .ok (.ok root') w₁ ∧ Resumed w e root' [] w₁ := by
  obtain ⟨u, hu⟩ : ∃ u, u = (w.unmount kept).withEnv e := ⟨_, rfl⟩
  have hdisk : u.disk = w.disk := hu ▸ unmount_disk hl kept
  have hpool : u.pool = w.pool := by rw [hu]; rfl
  have henv : u.env = e := by rw [hu]; rfl
  have hcalm : Calm u := by rw [Calm, henv]; exact he.script
  have hfuel : 1 < u.env.fuel := by rw [henv]; exact Nat.lt_trans (by decide) he.fuel
  have hfresh : Fresh u := fun _ _ => by rw [hu]; rfl
  have hread : ∀ x, w.icache x = .live → u.Readable x := fun x hx => hu ▸ unmount_readable hx kept
  obtain ⟨z, hz⟩ := h.top
  obtain ⟨y, rest, hy, hyd⟩ := hz.first
  have hmem : y ∈ [z] := hy ▸ List.mem_cons_self
  obtain ⟨i, hi, -⟩ := (hz.elem y hmem).allocated
  rw [hyd, hnum] at hi
  have hroot : 1 ∈ u.pool := by
    have := (hz.elem y hmem).pool
    rwa [hyd, hnum, ← hpool] at this
  obtain ⟨w₁, hr, hw, hlive⟩ := readRoot_finds (c := rootIno) hcalm hfuel rfl (by rw [hdisk]; exact hpath)
    (hread rootIno (hnum ▸ hz.head.live)) hroot (by rw [hdisk]; exact hi)
  rw [← hu]
  have hsound : Sound u := h.sound.frame hpool (fun _ => henv ▸ he.ialloc) (by rw [hdisk]) (by rw [hdisk]) fun x hx => by
    rwa [hdisk]
  refine ⟨⟨u.vnext, rootIno⟩, w₁, hr, (hsound.withFound _ _).kept hw.kept, hw.kept.fresh (hfresh.withFound _ _),
    (Calm.env_eq (w := u.withFound rootIno i) hcalm hw).trans henv, rfl,
    .found hw hlive ⟨by decide, by decide, by decide⟩ hroot (by rw [hdisk]; exact hi), List.forall_mem_nil _,
    List.forall_mem_nil _, List.forall_mem_nil _, List.forall_mem_nil _, List.forall_mem_nil _, ?_, ?_, hw.pool.trans hpool,
    fun x hx _ => ?_, fun x hx => hw.readable (hread x hx), List.forall_mem_nil _, List.forall_mem_nil _⟩
  · rw [hw.disk, withFound_entry, hdisk]
  · rw [hw.disk, withFound_path, hdisk]
  · rw [hw.disk, withFound_inode u hx i, hdisk]

/-- One more lookup. --/
theorem Resumed.lookup (h : Resumed w e root ds w₁) (he : Obliging e) (hentry : w.disk.entry rootIno name = some c)
    (hr : c.InRange) (hchunk : c.chunk = 1) (hlive : w.icache c = .live) (hi : w.disk.inode c = some i)
    (hroot : c ≠ rootIno) (hnew : ∀ d ∈ ds, d.client ≠ c) :
    ∃ d w₂, Chunkfs.lookup root.inode name w₁ = .ok (.ok (some d)) w₂ ∧ d.client = c ∧
      Resumed w e root (d :: ds) w₂ := by
  have hcalm : Calm w₁ := by rw [Calm, h.env]; exact he.script
  have hfuel : 1 < w₁.env.fuel := by rw [h.env]; exact Nat.lt_trans (by decide) he.fuel
  have hi₁ : w₁.disk.inode c = some i := (h.others c hroot hnew).trans hi
  obtain ⟨vn, hv, hclient, hk⟩ := h.top.head.vnode
  rw [h.number] at hclient hk
  have hp : c.chunk ∈ w₁.pool := by
    have := (h.top.elem _ List.mem_cons_self).pool
    rw [hchunk]
    rwa [show (headOf root).inode = rootIno from h.number] at this
  obtain ⟨w₂, hlook, hw, hlive₂⟩ := lookup_finds hcalm hfuel hv hclient (hk.trans hchunk.symm) hp
    (by rw [h.entry]; exact hentry) hr (h.readable c hlive) hi₁
  -- The chunkfs inodes that were there are at other addresses.
  have hold : ∀ {d cs}, FileChain w₁ d cs → d.inode ≠ w₁.vnext := fun hd he => by
    obtain ⟨vn, hvn, -⟩ := hd.head.vnode
    rw [he, h.fresh _ (Nat.le_refl _)] at hvn
    cases hvn
  have hkeeps : ∀ {d}, FileChain w₁ d [headOf d] → d.client ≠ c → FileChain w₂ d [headOf d] := fun hd hne =>
    (hd.withFound h.fresh (fun hm => hne (List.mem_singleton.mp hm).symm) i).kept hw.kept
  have hother : ∀ {x}, x ≠ c → w₂.disk.inode x = w₁.disk.inode x := fun hx => by rw [hw.disk, withFound_inode w₁ hx i]
  refine ⟨⟨w₁.vnext, c⟩, w₂, hlook, rfl, (h.sound.withFound c i).kept hw.kept, hw.kept.fresh (h.fresh.withFound c i),
    (Calm.env_eq (w := w₁.withFound c i) hcalm hw).trans h.env, h.number, hkeeps h.top (h.number ▸ hroot.symm),
    fun d hd => ?_, fun d hd d' hd' heq => ?_, fun d hd => ?_, fun d hd d' hd' heq => ?_, fun d hd => ?_,
    by rw [hw.disk, withFound_entry, h.entry], by rw [hw.disk, withFound_path, h.path], hw.pool.trans h.pool,
    fun x hx hne => ?_, fun x hx => hw.readable (h.readable x hx), fun d hd => ?_, fun d hd vn hvn => ?_⟩
  · rcases List.mem_cons.mp hd with rfl | hd
    · exact .found hw hlive₂ hr hp hi₁
    · exact hkeeps (h.chain d hd) (hnew d hd)
  · rcases List.mem_cons.mp hd with rfl | hd <;> rcases List.mem_cons.mp hd' with rfl | hd'
    · rfl
    · exact absurd heq.symm (hold (h.chain d' hd'))
    · exact absurd heq (hold (h.chain d hd))
    · exact h.address d hd d' hd' heq
  · rcases List.mem_cons.mp hd with rfl | hd
    · exact (hold h.top).symm
    · exact h.rootAddress d hd
  · rcases List.mem_cons.mp hd with rfl | hd <;> rcases List.mem_cons.mp hd' with rfl | hd'
    · rfl
    · exact absurd heq.symm (hnew d' hd')
    · exact absurd heq (hnew d hd)
    · exact h.clients d hd d' hd' heq
  · rcases List.mem_cons.mp hd with rfl | hd
    · exact hroot
    · exact h.rootClient d hd
  · rw [hother (hne _ List.mem_cons_self).symm]
    exact h.others x hx fun d hd => hne d (List.mem_cons_of_mem _ hd)
  · rcases List.mem_cons.mp hd with rfl | hd
    · have hsame : w₂.disk.inode c = some (i.setFirst 4 initCd) := by
        rw [hw.disk]
        exact withFound_inode_same hi₁
      rw [World.bytes?, World.bytes?, hsame, hi, Option.map_some, Option.map_some, ClientInode.bytes_setFirst]
    · rw [World.bytes?, hother (hnew d hd)]
      exact h.bytes d hd
  · rw [hw.vnode] at hvn
    rcases List.mem_cons.mp hd with rfl | hd
    · rw [withFound_vnode_same] at hvn
      cases hvn
      exact ⟨i.bytes, by rw [World.bytes?, hi]; rfl, rfl⟩
    · rw [withFound_vnode (hold (h.chain d hd))] at hvn
      exact h.size d hd vn hvn

/-- The name in the root directory leads to a client inode that can be looked up. --/
structure Findable (w : World) (name : List Char) (c : ClientIno) : Prop where
  entry : w.disk.entry rootIno name = some c
  range : c.InRange
  chunk : c.chunk = 1
  live : w.icache c = .live
  allocated : ∃ i, w.disk.inode c = some i
  notRoot : c ≠ rootIno

/-- Lookups of names that lead to different inodes. --/
theorem Resumed.lookups (h : Resumed w e root ds w₁) (he : Obliging e) {found : List (List Char × Dentry)}
    (hf : ∀ x ∈ found, Findable w x.1 x.2.client) (hnodup : (found.map (·.2.client)).Nodup)
    (hnew : ∀ x ∈ found, ∀ d ∈ ds, d.client ≠ x.2.client) :
    ∃ ds' w₂, (found.map Prod.fst).mapM (Chunkfs.lookup root.inode) w₁ = .ok (ds'.map fun d => .ok (some d)) w₂ ∧
      ds'.map (·.client) = found.map (·.2.client) ∧ Resumed w e root (ds' ++ ds) w₂ := by
  induction found generalizing ds w₁ with
  | nil => exact ⟨[], w₁, rfl, rfl, h⟩
  | cons x found ih =>
    obtain ⟨name, d₀⟩ := x
    have hx := hf (name, d₀) List.mem_cons_self
    obtain ⟨i, hi⟩ := hx.allocated
    obtain ⟨hfirst, hnodup⟩ := List.nodup_cons.mp hnodup
    obtain ⟨d, w₂, hr, hclient, h₂⟩ := h.lookup he hx.entry hx.range hx.chunk hx.live hi hx.notRoot
      (hnew (name, d₀) List.mem_cons_self)
    obtain ⟨ds', w₃, hr₃, hclients, h₃⟩ := ih h₂ (fun x hm => hf x (List.mem_cons_of_mem _ hm)) hnodup
      fun x hm d' hd' => by
        rcases List.mem_cons.mp hd' with rfl | hd'
        · refine fun he => hfirst (List.mem_map.mpr ⟨x, hm, ?_⟩)
          rw [← he, hclient]
        · exact hnew x (List.mem_cons_of_mem _ hm) d' hd'
    refine ⟨d :: ds', w₃, ?_, ?_, h₃.of_mem fun x => ?_⟩
    · rw [List.map_cons, List.mapM_cons, bind_ok hr, bind_ok hr₃]
      rfl
    · rw [List.map_cons, List.map_cons, hclient, hclients]
    · simp only [List.cons_append, List.mem_cons, List.mem_append]
      exact or_left_comm

/-- An object that has been looked up holds what its client inode held. --/
theorem Resumed.contents (h : Resumed w e root ds w₁) (hd : d ∈ ds) {s : Bytes UInt8} (hs : w.bytes? d.client = some s)
    (hp : Piece segLen f 0 s) (hf : f.size ≤ segLen) : Contents w₁ d [headOf d] f where
  pieces := by
    refine .of_bytes? fun i x hx => ?_
    obtain ⟨hi, rfl⟩ := List.getElem?_eq_some_iff.mp hx
    obtain rfl : i = 0 := Nat.lt_one_iff.mp hi
    exact ⟨s, (h.bytes d hd).trans hs, hp⟩
  fits := by rwa [List.length_singleton, Nat.mul_one]
  size vn hvn := by
    obtain ⟨s', hs', hsize⟩ := h.size d hd vn hvn
    obtain rfl : s = s' := Option.some.inj (hs.symm.trans hs')
    rw [hsize, hp.size, Nat.mul_zero, Nat.sub_zero, Nat.min_eq_right hf]
    have hbound : segLen < 2 ^ 63 := by decide
    exact s64_of_mem (by omega) (by omega)

/-- Where no continuation file is there, the objects that have been looked up are tidy. --/
theorem Resumed.tidy (h : Resumed w e root ds w₁) (hnone : ∀ k f i, w.disk.path (contPath k f i) = none) :
    Tidy w₁ root ds fun d => [headOf d] where
  sound := h.sound
  fresh := h.fresh
  top := ⟨_, h.top.toChain⟩
  chain := h.chain
  address := h.address
  rootAddress := h.rootAddress
  disjoint d hd d' hd' x hx hx' := h.clients d hd d' hd' ((List.mem_singleton.mp hx).symm.trans (List.mem_singleton.mp hx'))
  rootDisjoint d hd hm := h.rootClient d hd ((List.mem_singleton.mp hm).symm.trans h.number)
  names k f i c hc := by
    rw [h.path, hnone] at hc
    cases hc

/-- What a run has made in the root directory can be looked up after it. --/
theorem Tidy.findable (h : Tidy w root files ch) (hnum : root.client = rootIno) (hd : d ∈ files)
    (hentry : w.disk.entry root.client name = some d.client) (hchunk : d.client.chunk = root.client.chunk) :
    Findable w name d.client := by
  obtain ⟨y, rest, hy, hyd⟩ := (h.chain d hd).first
  have hmem : d.client ∈ (ch d).map (·.inode) := by
    rw [hy, ← hyd]
    exact List.mem_cons_self
  have hrange := ((h.chain d hd).elem y (by rw [hy]; exact List.mem_cons_self)).range
  exact ⟨hnum ▸ hentry, hyd ▸ hrange, hchunk.trans (by rw [hnum]; rfl), (h.chain d hd).head.live, h.allocated hd hmem,
    fun he => h.rootDisjoint d hd (hnum.trans he.symm ▸ hmem)⟩

/-- Different files have different client inodes. --/
theorem Tidy.client_inj (h : Tidy w root files ch) (hd : d ∈ files) {d' : Dentry} (hd' : d' ∈ files)
    (he : d.client = d'.client) : d = d' := by
  have hhead : ∀ {x}, x ∈ files → x.client ∈ (ch x).map (·.inode) := fun hx => by
    obtain ⟨y, rest, hy, hyd⟩ := (h.chain _ hx).first
    rw [hy, ← hyd]
    exact List.mem_cons_self
  exact h.disjoint d hd d' hd' d.client (hhead hd) (he ▸ hhead hd')

/-- The head client inode holds the first segment. --/
theorem Contents.head {cs : List Continuation} (h : Contents w d cs f) (hf : FileChain w d cs) :
    ∃ s, w.bytes? d.client = some s ∧ Piece segLen f 0 s := by
  obtain ⟨y, rest, rfl, hyd⟩ := hf.first
  exact hyd ▸ h.pieces.bytes? List.getElem?_cons_zero

/-- Where no continuation file is there, each file lies in its first segment. --/
theorem Tidy.one_segment (h : Tidy w root files ch) (hnone : ∀ k f i, w.disk.path (contPath k f i) = none) (hd : d ∈ files)
    (hc : Contents w d (ch d) f) : f.size ≤ segLen := by
  have hfits := hc.fits
  have hf := h.chain d hd
  obtain ⟨y, rest, hy, -⟩ := hf.first
  rw [hy] at hfits
  cases rest with
  | nil => rwa [List.length_singleton, Nat.mul_one] at hfits
  | cons z rest =>
    have hlinks := hf.links
    rw [hy] at hlinks
    have hpath := (List.isChain_cons_cons.mp hlinks).1.path
    rw [hnone] at hpath
    cases hpath

end Resumed

/-! ### Runs before and after a mount -/

/-- A pool that has just been mounted, with the root directory at its path and no inode without links. --/
structure Settled (w : World) (root : Dentry) : Prop extends Mounted w root where
  number : root.client = rootIno
  path : w.disk.path rootPath = some rootIno
  linked : w.AllLinked

/-- A file cut off behind its first segment. --/
def firstSegment (f : Bytes UInt8) : Bytes UInt8 := f.resize (min segLen f.size)

/-- The object is a file of the bytes `f`: that is its size, and what is read from it. --/
def ReadsAs (w : World) (d : Dentry) (f : Bytes UInt8) : Prop :=
  (∃ vn, w.vnode d.inode = some vn ∧ vn.size = f.size) ∧
    ∀ (file : File) (len p : Nat), file.dentry = d → p < 2 ^ 63 → ∃ r w', read file len p w = .ok r w' ∧
      r.ret = r.buf.length ∧ r.buf = f.read p len

/-- Looking the names up one after the other finds objects on the same client inodes. --/
def LooksUpAll (root : Dentry) (found : List (List Char × Dentry)) (w : World) (ds : List Dentry) (w' : World) : Prop :=
  (found.map Prod.fst).mapM (lookup root.inode) w = .ok (ds.map fun d => .ok (some d)) w' ∧
    ds.map (·.client) = found.map (·.2.client)

section Runs
variable {w : World} {root : Dentry} {e : Env}

/-- `chunkfs_read_root` on a prepared pool. --/
theorem readRoot_settles (pool : List Nat) (hpool : ∀ k ∈ pool, 1 ≤ k ∧ k ≤ 15) (hroot : 1 ∈ pool) (he : Obliging e) :
    ∃ w', readRoot 1 (prepared pool e) = .ok (.ok ⟨0, rootIno⟩) w' ∧ Settled w' ⟨0, rootIno⟩ := by
  obtain ⟨w', hr, -, hm⟩ := readRoot_mounts pool hpool hroot he
  have hlast := (readRoot_lasting 1).of_ok hr
  have hpath : (prepared pool e).disk.path rootPath = some rootIno := by
    show (if rootPath = rootPath then some rootIno else none) = some rootIno
    rw [if_pos rfl]
  refine ⟨w', hr, hm, rfl, hlast.path _ _ hpath, hlast.linked ⟨fun c i hi => ?_, nofun⟩⟩
  have hi : (if c = ⟨1, 12⟩ then some _ else none) = some i := hi
  split at hi
  · cases hi
    exact Nat.succ_ne_zero 1
  · cases hi

/-- A run, an unmount, a mount, and lookups of names the run has made in the root directory. --/
theorem Settled.resumes (h : Settled w root) {qs : List (Env × Request)} (he : ∀ x ∈ qs, Generous x.1)
    (hq : ∀ x ∈ qs, x.2.Links) {log : List (Request × Answer)} {w' : World} (hr : runRequests root qs [] w = .ok log w')
    (kept : ClientIno → Bool) (hE : Obliging e) :
    ∃ (ch : Dentry → List Continuation) (root' : Dentry) (w₁ : World), Tidy w' root (filesAfter [] log) ch ∧
      (∀ d ∈ filesAfter [] log, AllFitFlat d Bytes.empty log →
        Contents w' d (ch d) (log.foldl (flatStep d) Bytes.empty)) ∧
      readRoot 1 ((w'.unmount kept).withEnv e) = .ok (.ok root') w₁ ∧
      ∀ found : List (List Char × Dentry), (∀ x ∈ found, NamedIn root log x.1 x.2) → (found.map Prod.snd).Nodup →
        ∃ (ds : List Dentry) (w₂ : World), LooksUpAll root' found w₁ ds w₂ ∧ Resumed w' e root' ds w₂ ∧
          ∀ x ∈ found, x.2 ∈ filesAfter [] log := by
  obtain ⟨ch, ht, hflat⟩ := (h.tidy.requests_flat he).ok hr
  have hlast := (runRequests_lasting hq).of_ok hr
  obtain ⟨root', w₁, hmount, h₁⟩ := ht.resumes (hlast.linked h.linked) h.number (hlast.path _ _ h.path) hE kept
  refine ⟨ch, root', w₁, ht, fun d hd hfit => ?_, hmount, fun found hnamed hnodup => ?_⟩
  · exact (hflat d Bytes.empty (fun hd => absurd hd List.not_mem_nil) hfit).2 hd
  · have hmade : ∀ x ∈ found, w'.disk.entry root.client x.1 = some x.2.client ∧ x.2.client.chunk = root.client.chunk ∧
        x.2 ∈ filesAfter [] log := fun x hx =>
      h.tidy.run_named (fun x hx => (he x hx).toObliging) hq hr (hnamed x hx)
    have hclients : ((found.map Prod.snd).map Dentry.client).Nodup := by
      refine hnodup.map_on fun d hd d' hd' heq => ?_
      obtain ⟨x, hx, rfl⟩ := List.mem_map.mp hd
      obtain ⟨y, hy, rfl⟩ := List.mem_map.mp hd'
      exact ht.client_inj (hmade x hx).2.2 (hmade y hy).2.2 heq
    rw [List.map_map] at hclients
    obtain ⟨ds, w₂, hlook, hds, h₂⟩ := h₁.lookups hE (fun x hx => ht.findable h.number (hmade x hx).2.2 (hmade x hx).1
      (hmade x hx).2.1) hclients fun _ _ _ hd => absurd hd List.not_mem_nil
    rw [List.append_nil] at h₂
    exact ⟨ds, w₂, ⟨hlook, hds⟩, h₂, fun x hx => (hmade x hx).2.2⟩

end Runs

/-- After every run on a mounted pool that returns, an unmount, a mount and lookups of what the run has made in the root
    directory, each object that is found holds the first segment of the flat file it was, and no more: that is its size
    and what is read from it. --/
theorem first_segment_outlives_mount {w : World} {root : Dentry} (h : Settled w root) (qs : List (Env × Request))
    (he : ∀ x ∈ qs, Generous x.1) (hq : ∀ x ∈ qs, x.2.Links) (kept : ClientIno → Bool) {e : Env} (hE : Generous e) :
    (∀ log w', runRequests root qs [] w = .ok log w' →
      ∃ (root' : Dentry) (w₁ : World), readRoot 1 ((w'.unmount kept).withEnv e) = .ok (.ok root') w₁ ∧
        ∀ found : List (List Char × Dentry), (∀ x ∈ found, NamedIn root log x.1 x.2) → (found.map Prod.snd).Nodup →
          ∃ (ds : List Dentry) (w₂ : World), LooksUpAll root' found w₁ ds w₂ ∧
            ∀ x ∈ found, ∀ d ∈ ds, d.client = x.2.client → AllFitFlat x.2 Bytes.empty log →
              ReadsAs w₂ d (firstSegment (log.foldl (flatStep x.2) Bytes.empty))) ∧
      ((∀ x ∈ qs, x.1.Tame) → ∃ log w', runRequests root qs [] w = .ok log w') := by
  refine ⟨fun log w' hr => ?_, h.tidy.requests_return fun x hx => (he x hx).toObliging⟩
  obtain ⟨ch, root', w₁, ht, hcont, hmount, hfound⟩ := h.resumes he hq hr kept hE.toObliging
  refine ⟨root', w₁, hmount, fun found hnamed hnodup => ?_⟩
  obtain ⟨ds, w₂, hlook, h₂, hmade⟩ := hfound found hnamed hnodup
  refine ⟨ds, w₂, hlook, fun x hx d hd hdx hfit => ?_⟩
  generalize hf : log.foldl (flatStep x.2) Bytes.empty = f
  obtain ⟨s, hs, hp⟩ := (hf ▸ hcont x.2 (hmade x hx) hfit).head (ht.chain _ (hmade x hx))
  have hle : (firstSegment f).size ≤ segLen := Nat.min_le_left _ _
  have hc := h₂.contents hd (hdx ▸ hs) hp.first hle
  have hchain := h₂.chain d hd
  obtain ⟨vn, hv, -⟩ := hchain.head.vnode
  refine ⟨⟨vn, hv, hc.size vn hv⟩, fun file len p hfile hlt => ?_⟩
  have hcalm : Calm w₂ := by rw [Calm, h₂.env]; exact hE.script
  have hfuel : 1 < w₂.env.fuel := by rw [h₂.env]; exact Nat.lt_trans (by decide) hE.fuel
  obtain ⟨r, w₃, hread, hbuf, hret, -⟩ := hc.reads hchain hcalm hfuel hfile hlt len
  have htransfer : w₂.env.transfer len = len := by simp only [Env.transfer, h₂.env, hE.whole]
  -- Where the segment ends the file has ended.
  have hend : (firstSegment f).size ≤ segLen * (p / segLen) + segLen := hle.trans (Nat.le_add_left _ _)
  refine ⟨r, w₃, hread, hret, hbuf.trans (Bytes.read_min _ _ _ _ ?_)⟩
  rw [htransfer, Nat.min_assoc]
  exact congrArg (min len) (Nat.min_eq_right (Nat.sub_le_sub_right hend p))

/-- A file is written across the end of its first segment, and looked up after a mount. --/
theorem first_segment_outlives_mount_two_segments :
    let root : Dentry := ⟨0, rootIno⟩
    let file : File := ⟨⟨1, ⟨1, 30⟩⟩, 0, 2⟩
    let qs : List (Env × Request) := [(quietEnv, .create root "a".toList 0o100644), (quietEnv, .write file [1, 2] 40958),
      (quietEnv, .write file [3] 40960)]
    let found := [("a".toList, file.dentry)]
    ∃ w, readRoot 1 (prepared [1, 2] quietEnv) = .ok (.ok root) w ∧
      ∃ (log : List (Request × Answer)) (w' : World) (root' : Dentry) (w₁ : World) (ds : List Dentry) (w₂ : World),
        runRequests root qs [] w = .ok log w' ∧ (log.foldl (flatStep file.dentry) Bytes.empty).size = 40961 ∧
        readRoot 1 ((w'.unmount fun _ => false).withEnv quietEnv) = .ok (.ok root') w₁ ∧ LooksUpAll root' found w₁ ds w₂ ∧
        ∀ d ∈ ds, d.client = file.dentry.client →
          ReadsAs w₂ d (firstSegment (log.foldl (flatStep file.dentry) Bytes.empty)) := by
  intro root file qs found
  obtain ⟨w, hr, h⟩ := readRoot_settles [1, 2] (by decide) (by decide) quietEnv_obliging
  obtain ⟨hall, -⟩ := first_segment_outlives_mount h qs (by simp [qs, quietEnv_generous])
    (by simp [qs, Request.Links, Request.create]) (fun _ => false) quietEnv_generous
  have hvalue : (do
      let _ ← readRoot 1
      runRequests root qs [] : Kern _).run' (prepared [1, 2] quietEnv) = some ((qs.map (·.2)).zip [.made (.ok file.dentry),
        .io ⟨2, [], 40960, { file with pos := 40958 }⟩, .io ⟨1, [], 1, { file with pos := 40960 }⟩]) := by
    decide +kernel
  obtain ⟨w', hrun⟩ := of_run' hvalue
  rw [bind_ok hr] at hrun
  obtain ⟨root', w₁, hmount, hfound⟩ := hall _ w' hrun
  obtain ⟨ds, w₂, hlook, hreads⟩ := hfound found
    (List.forall_mem_singleton.mpr ⟨⟨0o100644, 0, 1, [], 0, true⟩, 0, List.mem_cons_self⟩) (List.nodup_singleton _)
  refine ⟨w, hr, _, w', root', w₁, ds, w₂, hrun, by decide +kernel, hmount, hlook, fun d hd hclient => ?_⟩
  exact hreads _ List.mem_cons_self d hd hclient
    ⟨fun _ => Nat.zero_le _, fun _ => by decide +kernel, fun _ => by decide +kernel, trivial⟩

/-- After every run on a mounted pool that returns and in which each write begins in the first segment of its file, an
    unmount, a mount and lookups of what the run has made in the root directory, each object that is found is the flat
    file it was: in every run of requests that follows, its answers are those of that flat file, and so is its size in
    the end. --/
theorem files_outlive_mount {w : World} {root : Dentry} (h : Settled w root) (qs : List (Env × Request))
    (he : ∀ x ∈ qs, Generous x.1) (hq : ∀ x ∈ qs, x.2.Links ∧ x.2.Small) (kept : ClientIno → Bool) {e : Env}
    (hE : Generous e) :
    (∀ log w', runRequests root qs [] w = .ok log w' →
      ∃ (root' : Dentry) (w₁ : World), readRoot 1 ((w'.unmount kept).withEnv e) = .ok (.ok root') w₁ ∧
        ∀ found : List (List Char × Dentry), (∀ x ∈ found, NamedIn root log x.1 x.2) → (found.map Prod.snd).Nodup →
          ∃ (ds : List Dentry) (w₂ : World), LooksUpAll root' found w₁ ds w₂ ∧
            ∀ qs' : List (Env × Request), (∀ x ∈ qs', Generous x.1) →
              (∀ log' w₃, runRequests root' qs' ds w₂ = .ok log' w₃ →
                ∀ x ∈ found, ∀ d ∈ ds, d.client = x.2.client → AllFitFlat x.2 Bytes.empty log →
                  AllFitFlat d (log.foldl (flatStep x.2) Bytes.empty) log' →
                  AllAgreeFlat d (log.foldl (flatStep x.2) Bytes.empty) log' ∧ ∃ vn, w₃.vnode d.inode = some vn ∧
                    vn.size = (log'.foldl (flatStep d) (log.foldl (flatStep x.2) Bytes.empty)).size) ∧
                ((∀ x ∈ qs', x.1.Tame) → ∃ log' w₃, runRequests root' qs' ds w₂ = .ok log' w₃)) ∧
      ((∀ x ∈ qs, x.1.Tame) → ∃ log w', runRequests root qs [] w = .ok log w') := by
  refine ⟨fun log w' hr => ?_, h.tidy.requests_return fun x hx => (he x hx).toObliging⟩
  obtain ⟨ch, root', w₁, ht, hcont, hmount, hfound⟩ := h.resumes he (fun x hx => (hq x hx).1) hr kept hE.toObliging
  have hnone := h.tidy.run_small (fun x hx => (he x hx).toObliging) (fun _ hd => absurd hd List.not_mem_nil)
    (fun x hx => (hq x hx).2) hr
  refine ⟨root', w₁, hmount, fun found hnamed hnodup => ?_⟩
  obtain ⟨ds, w₂, hlook, h₂, hmade⟩ := hfound found hnamed hnodup
  have ht₂ := h₂.tidy hnone
  refine ⟨ds, w₂, hlook, fun qs' he' => ⟨fun log' w₃ hr' x hx d hd hdx hfit hfit' => ?_,
    ht₂.requests_return fun x hx => (he' x hx).toObliging⟩⟩
  obtain ⟨ch', ht', hflat⟩ := (ht₂.requests_flat he').ok hr'
  have hc := hcont x.2 (hmade x hx) hfit
  obtain ⟨s, hs, hp⟩ := hc.head (ht.chain _ (hmade x hx))
  have hfits := ht.one_segment hnone (hmade x hx) hc
  obtain ⟨hagree, hend⟩ := hflat d _ (fun hd => h₂.contents hd (hdx ▸ hs) hp hfits) hfit'
  have hin : d ∈ filesAfter ds log' := filesAfter_subset hd log'
  obtain ⟨vn, hv, -⟩ := (ht'.chain d hin).head.vnode
  exact ⟨hagree, vn, hv, (hend hin).size vn hv⟩

/-- Two files are made and written, looked up after a mount, and then the first is read. --/
theorem files_outlive_mount_two_files :
    let root : Dentry := ⟨0, rootIno⟩
    let first : File := ⟨⟨1, ⟨1, 30⟩⟩, 0, 2⟩
    let second : File := ⟨⟨2, ⟨1, 31⟩⟩, 0, 2⟩
    let e : Env := { quietEnv with ialloc := fun _ => 31 }
    let qs : List (Env × Request) := [(quietEnv, .create root "a".toList 0o100644), (e, .create root "b".toList 0o100644),
      (quietEnv, .write first [1, 2] 0), (quietEnv, .write second [3] 0)]
    let found := [("b".toList, second.dentry), ("a".toList, first.dentry)]
    ∃ w, readRoot 1 (prepared [1, 2] quietEnv) = .ok (.ok root) w ∧
      ∃ (log : List (Request × Answer)) (w' : World) (root' : Dentry) (w₁ : World) (ds : List Dentry) (w₂ : World),
        runRequests root qs [] w = .ok log w' ∧
        readRoot 1 ((w'.unmount fun _ => true).withEnv quietEnv) = .ok (.ok root') w₁ ∧ LooksUpAll root' found w₁ ds w₂ ∧
        ∀ d ∈ ds, d.client = first.dentry.client →
          ∃ a w₃, let log' := [(Request.read ⟨d, 0, 2⟩ 9 0, a)]
            runRequests root' [(quietEnv, .read ⟨d, 0, 2⟩ 9 0)] ds w₂ = .ok log' w₃ ∧
              AllAgreeFlat d (log.foldl (flatStep first.dentry) Bytes.empty) log' ∧ ∃ vn, w₃.vnode d.inode = some vn ∧
                vn.size = (log'.foldl (flatStep d) (log.foldl (flatStep first.dentry) Bytes.empty)).size := by
  intro root first second e qs found
  have he : Generous e := ⟨⟨rfl, fun _ => show 31 < 2 ^ 28 by decide, by decide⟩, rfl⟩
  obtain ⟨w, hr, h⟩ := readRoot_settles [1, 2] (by decide) (by decide) quietEnv_obliging
  obtain ⟨hall, -⟩ := files_outlive_mount h qs (by simp [qs, he, quietEnv_generous])
    (by simp [qs, Request.Links, Request.Small, Request.create, segLen]) (fun _ => true) quietEnv_generous
  have hvalue : (do
      let _ ← readRoot 1
      runRequests root qs [] : Kern _).run' (prepared [1, 2] quietEnv) = some ((qs.map (·.2)).zip [.made (.ok first.dentry),
        .made (.ok second.dentry), .io ⟨2, [], 2, first⟩, .io ⟨1, [], 1, second⟩]) := by decide +kernel
  obtain ⟨w', hrun⟩ := of_run' hvalue
  rw [bind_ok hr] at hrun
  obtain ⟨root', w₁, hmount, hfound⟩ := hall _ w' hrun
  have hnamed : ∀ x ∈ found, NamedIn root ((qs.map (·.2)).zip [.made (.ok first.dentry), .made (.ok second.dentry),
      .io ⟨2, [], 2, first⟩, .io ⟨1, [], 1, second⟩]) x.1 x.2 :=
    List.forall_mem_cons.mpr ⟨⟨⟨0o100644, 0, 1, [], 0, true⟩, 0, List.mem_cons_of_mem _ List.mem_cons_self⟩,
      List.forall_mem_singleton.mpr ⟨⟨0o100644, 0, 1, [], 0, true⟩, 0, List.mem_cons_self⟩⟩
  obtain ⟨ds, w₂, hlook, hlater⟩ := hfound found hnamed (by decide)
  refine ⟨w, hr, _, w', root', w₁, ds, w₂, hrun, hmount, hlook, fun d hd hclient => ?_⟩
  obtain ⟨hagrees, hreturns⟩ := hlater [(quietEnv, .read ⟨d, 0, 2⟩ 9 0)]
    (List.forall_mem_singleton.mpr quietEnv_generous)
  obtain ⟨log', w₃, hr'⟩ := hreturns (List.forall_mem_singleton.mpr quietEnv_tame)
  obtain ⟨a, rfl⟩ := runRequests_single hr'
  refine ⟨a, w₃, hr', hagrees _ w₃ hr' _ (List.mem_cons_of_mem _ List.mem_cons_self) d hd hclient ?_ ⟨trivial, trivial⟩⟩
  exact ⟨fun _ => Nat.zero_le _, fun h => absurd h (by decide), fun _ => by decide +kernel, fun h => absurd h (by decide),
    trivial⟩

end Chunkfs
