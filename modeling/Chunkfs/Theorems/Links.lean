import Chunkfs.Theorems.Store

/-! Symbolic links. A link keeps the text it was made with, whatever is done to the other objects of the pool, and
    following it through the nameidata of its dentry is following it in the client. -/

namespace Chunkfs
open Exec Word Flat

/-! ### The text of a link -/

/-- The request leaves the bytes of `d`. --/
def Request.Leaves (d : Dentry) : Request → Prop
  | .write file _ _ => file.dentry ≠ d
  | .setattr own d' attr => d' = d → attr.newSize own = none
  | _ => True

section Text
variable {w w' : World} {root d : Dentry} {files : List Dentry} {ch ch' : Dentry → List Continuation} {f : Bytes UInt8}
  {q : Request} {a : Answer}

/-- A request that leaves the bytes fits the flat file, and leaves that. --/
theorem Request.Leaves.flat (h : q.Leaves d) (hnew : a ≠ .made (.ok d)) :
    FitsFlat d f (q, a) ∧ flatStep d f (q, a) = f := by
  cases q with
  | make dir name o links =>
    rcases a with (_ | d') | _ | _ | _ | _ | _
    case made.ok =>
      have hne : d' ≠ d := fun he => hnew (by rw [he])
      exact ⟨fun he => absurd he hne, if_neg hne⟩
    all_goals exact ⟨trivial, rfl⟩
  | write file data p =>
    refine ⟨fun he => absurd he h, ?_⟩
    rcases a with _ | _ | r | _ | _ | _
    case io => exact if_neg fun he => h he.1
    all_goals rfl
  | setattr own d' attr =>
    refine ⟨fun he size hsize => absurd ((h he).symm.trans hsize) nofun, ?_⟩
    rcases a with _ | _ | _ | (_ | _) | _ | _
    case done.ok =>
      by_cases he : d' = d
      · exact (if_pos he).trans (by rw [h he]; rfl)
      · exact if_neg he
    all_goals rfl
  | «open» _ => exact ⟨trivial, rfl⟩
  | read _ _ _ => exact ⟨trivial, rfl⟩
  | fsync _ _ _ => exact ⟨trivial, rfl⟩
  | writeInode _ => exact ⟨trivial, rfl⟩
  | readlink _ _ => exact ⟨trivial, rfl⟩

theorem Contents.step_left (h : Contents w d (ch d) f) (ht : Tidy w root files ch) (hd : d ∈ files) (he : Generous w.env)
    (hq : q.Leaves d) (hr : q.run root files w = .ok a w') (hm : Answered w root files ch q a w' ch') :
    AgreesFlat d f (q, a) ∧ Contents w' d (ch' d) f := by
  have hnew : a ≠ .made (.ok d) := fun hmade => (hm.new d hmade).1 hd
  obtain ⟨hfit, hflat⟩ := hq.flat (f := f) hnew
  by_cases htarget : q.target = d
  · have := h.request ht hd he htarget hr hm hfit
    rwa [hflat] at this
  · obtain ⟨hch, hu⟩ := hm.others d hd fun he => htarget he.symm
    rw [hch]
    exact ⟨(flat_of_other htarget hnew).2, h.untouched hu⟩

/-- A run that leaves the bytes of a file, which answers as the flat file all along. --/
theorem Contents.left {qs : List (Env × Request)} (h : Contents w d (ch d) f) (ht : Tidy w root files ch) (hd : d ∈ files)
    (he : ∀ x ∈ qs, Generous x.1 ∧ x.2.Leaves d) :
    Meets (runRequests root qs files) w (fun log w' => ∃ ch', Tidy w' root (filesAfter files log) ch' ∧
      Contents w' d (ch' d) f ∧ ∀ x ∈ log, AgreesFlat d f x) (Stopped qs) := by
  induction qs generalizing w files ch with
  | nil => exact ⟨ch, ht, h, fun _ hx => absurd hx List.not_mem_nil⟩
  | cons x qs ih =>
    obtain ⟨e, q⟩ := x
    obtain ⟨hx, hq⟩ := he (e, q) List.mem_cons_self
    have ht₀ := ht.kept (.withEnv w hx.toObliging)
    have hfirst := (ht₀.request (w := w.withEnv e) hx.toObliging q).run.mono (fun _ _ hq => hq) (stopped_head (e, q) qs)
    refine meets_bind_ok (modify_apply _ w) (hfirst.bind ?_)
    rintro a w₁ ⟨hr₁, ch₁, hm⟩
    obtain ⟨hagree, h₁⟩ := (h.untouched (.withEnv w e d (ch d))).step_left ht₀ hd (w := w.withEnv e) hx hq hr₁ hm
    have hrest := (ih h₁ hm.tidy (a.mem_files hd) fun x hx => he x (List.mem_cons_of_mem _ hx)).mono (fun _ _ hq => hq)
      (stopped_tail (e, q))
    refine hrest.bind fun log w₂ ⟨ch₂, ht₂, h₂, hagrees⟩ => ⟨ch₂, ht₂, h₂, fun x hx => ?_⟩
    rcases List.mem_cons.mp hx with rfl | hx
    · exact hagree
    · exact hagrees x hx

end Text

/-- `PATH_MAX`: the kernel takes no longer name from userland. --/
def pathMax : Nat := 4096

/-- A link made after any run on a mounted pool reads as its old name from then on, up to the length of the buffer,
    whatever is asked of the other objects. What is asked is answered, unless memory that was never set stops it. --/
theorem link_reads_back {w : World} {root : Dentry} (h : Mounted w root) (qs : List (Env × Request))
    (he : ∀ x ∈ qs, Generous x.1) {e : Env} (he' : Generous e) (dir : Dentry) (name : List Char) (oldname : List UInt8)
    (hlen : oldname.length < pathMax) (htext : 0 ∉ oldname) {log : List (Request × Answer)} {w₁ w₂ : World} {d : Dentry}
    (hr₁ : runRequests root qs [] w = .ok log w₁)
    (hr₂ : (Request.symlink dir name oldname).run root (filesAfter [] log) (w₁.withEnv e) = .ok (.made (.ok d)) w₂)
    (qs' : List (Env × Request)) (he'' : ∀ x ∈ qs', Generous x.1 ∧ x.2.Leaves d) :
    (∀ log' w₃, runRequests root qs' (d :: filesAfter [] log) w₂ = .ok log' w₃ →
      ∀ buflen r, (.readlink d buflen, .link r) ∈ log' → r = .ok (oldname.take buflen)) ∧
      ((∀ x ∈ qs', x.1.Tame) → ∃ log' w₃, runRequests root qs' (d :: filesAfter [] log) w₂ = .ok log' w₃) := by
  have hsize : oldname.length ≤ segLen := Nat.le_of_lt (Nat.lt_of_lt_of_le hlen (by decide))
  obtain ⟨ch₁, ht₁, -⟩ := (h.tidy.requests_flat he).ok hr₁
  obtain ⟨ch₂, ht₂, hmade⟩ := ((ht₁.kept (.withEnv w₁ he'.toObliging)).make_flat (w := w₁.withEnv e) he' dir name
    ⟨0o120777, 0, 1, oldname, oldname.length, false⟩ 0 hsize).ok hr₂
  refine ⟨fun log' w₃ hr₃ buflen r hmem => ?_, ht₂.requests_return fun x hx => (he'' x hx).1.toObliging⟩
  obtain ⟨-, h₂⟩ := hmade d rfl
  obtain ⟨-, -, -, hagrees⟩ := (h₂.left ht₂ List.mem_cons_self he'').ok hr₃
  have hbytes : (NewObject.bytes ⟨0o120777, 0, 1, oldname, oldname.length, false⟩).text = oldname := by
    rw [Bytes.text_eq]
    refine List.ext_getElem (by simp [NewObject.bytes]) fun k _ hk => ?_
    simp [NewObject.bytes, hk]
  have hread := hagrees _ hmem rfl hsize
  have hwhole : oldname.takeWhile (· ≠ 0) = oldname := List.takeWhile_eq_self_iff.mpr fun b hb =>
    decide_eq_true (ne_of_mem_of_not_mem hb htext)
  rwa [show ∀ f : Bytes UInt8, f.read 0 f.size = f.text from fun _ => rfl, hbytes, hwhole] at hread

/-- A link in the root directory, read after another object has been made. --/
theorem link_reads_back_in_root :
    let root : Dentry := ⟨0, rootIno⟩
    let link : Dentry := ⟨1, ⟨1, 30⟩⟩
    let e : Env := { quietEnv with ialloc := fun _ => 31 }
    let qs' : List (Env × Request) := [(e, .create root "f".toList 0o100644), (quietEnv, .readlink link 2)]
    ∃ w, readRoot 1 (prepared [1, 2] quietEnv) = .ok (.ok root) w ∧
      ∃ (w₂ : World) (log' : List (Request × Answer)) (w₃ : World),
        (Request.symlink root "l".toList [97, 98, 99]).run root [] (w.withEnv quietEnv) = .ok (.made (.ok link)) w₂ ∧
        runRequests root qs' [link] w₂ = .ok log' w₃ ∧ (.readlink link 2, .link (.ok [97, 98])) ∈ log' ∧
        ∀ buflen r, (.readlink link buflen, .link r) ∈ log' → r = .ok ([97, 98, 99].take buflen) := by
  intro root link e qs'
  obtain ⟨w, hr, -, hm⟩ := readRoot_mounts [1, 2] (by decide) (by decide) quietEnv_obliging
  have hvalue : (do
      let _ ← readRoot 1
      modify (·.withEnv quietEnv)
      let a ← (Request.symlink root "l".toList [97, 98, 99]).run root []
      return (a, ← runRequests root qs' [link]) : Kern _).run' (prepared [1, 2] quietEnv) =
        some (.made (.ok link), (qs'.map (·.2)).zip [.made (.ok ⟨2, ⟨1, 31⟩⟩), .link (.ok [97, 98])]) := by decide +kernel
  obtain ⟨t, ht⟩ := of_run' hvalue
  rw [bind_ok hr, bind_ok (modify_apply _ w)] at ht
  obtain ⟨a, w₂, hlink, ht⟩ := bind_eq_ok.mp ht
  obtain ⟨log', w₃, hlog, ht⟩ := bind_eq_ok.mp ht
  obtain ⟨hpair, -⟩ := EStateM.Result.ok.inj ht
  obtain ⟨rfl, hsame⟩ := Prod.mk.inj hpair
  have he : Generous e := ⟨⟨rfl, fun _ => show 31 < 2 ^ 28 by decide, by decide⟩, rfl⟩
  have hgenerous : ∀ x ∈ qs', Generous x.1 ∧ x.2.Leaves link := by
    simp [qs', he, quietEnv_generous, Request.Leaves, Request.create]
  obtain ⟨hreads, -⟩ := link_reads_back hm [] (fun _ hx => absurd hx List.not_mem_nil) quietEnv_generous root "l".toList
    [97, 98, 99] (by decide) (by decide) rfl hlink qs' hgenerous
  exact ⟨w, hr, w₂, log', w₃, hlink, hlog, by rw [hsame]; decide, hreads log' w₃ hlog⟩

/-! ### Following links -/

section Following
variable {Name Cookie ι : Type}

/-- What a client's operation on a nameidata may do, as `namei.c` has it: it looks at the four fields that are copied,
    keeps the depth, and sets no saved name but the one at that depth. --/
structure Respects (op : Nameidata Name → Nameidata Name × Cookie) : Prop where
  reads : ∀ nd nd', nd.flags = nd'.flags → nd.seq = nd'.seq → nd.depth = nd'.depth →
    nd.savedNames nd.depth = nd'.savedNames nd.depth →
    (op nd).1.flags = (op nd').1.flags ∧ (op nd).1.seq = (op nd').1.seq ∧
      (op nd).1.savedNames nd.depth = (op nd').1.savedNames nd.depth ∧ (op nd).2 = (op nd').2
  depth : ∀ nd, (op nd).1.depth = nd.depth
  keeps : ∀ nd k, k ≠ nd.depth → (op nd).1.savedNames k = nd.savedNames k

theorem Nameidata.ext_fields {nd nd' : Nameidata Name} (hf : nd.flags = nd'.flags) (hs : nd.seq = nd'.seq)
    (hd : nd.depth = nd'.depth) (hn : nd.savedNames = nd'.savedNames) : nd = nd' := by
  cases nd
  cases nd'
  cases hf
  cases hs
  cases hd
  cases hn
  rfl

/-- Copied down, worked on and copied up: the caller's nameidata becomes what the client would have made of it, whatever
    the dentry's own held. --/
theorem Respects.copies {op : Nameidata Name → Nameidata Name × Cookie} (h : Respects op) (nd own : Nameidata Name) :
    copyNd nd (op (copyNd own nd)).1 = (op nd).1 ∧ (op (copyNd own nd)).2 = (op nd).2 := by
  obtain ⟨hflags, hseq, hname, hcookie⟩ := h.reads (copyNd own nd) nd rfl rfl rfl (if_pos rfl)
  have hdepth : (op (copyNd own nd)).1.depth = nd.depth := h.depth _
  refine ⟨Nameidata.ext_fields hflags hseq (hdepth.trans (h.depth nd).symm) (funext fun k => ?_), hcookie⟩
  by_cases hk : k = nd.depth
  · subst hk
    exact (if_pos hdepth.symm).trans hname
  · exact (if_neg fun he => hk (he.trans hdepth)).trans (h.keeps nd k hk).symm

/-- What happens to the nameidata of a lookup: the client's operations of a link, and what the kernel does to it between
    them. --/
inductive Follow (Name Cookie ι : Type) where
  | follow (link : ι)
  | put (link : ι) (cookie : Cookie)
  | kernel (g : Nameidata Name → Nameidata Name)

/-- The link operations of the clients. --/
structure LinkOps (Name Cookie ι : Type) where
  follow : ι → Nameidata Name → Nameidata Name × Cookie
  put : ι → Option (Nameidata Name → Cookie → Nameidata Name)

/-- The clients' operations respect what is copied. --/
structure LinkOps.Respect (ops : LinkOps Name Cookie ι) : Prop where
  follow : ∀ i, Respects (ops.follow i)
  put : ∀ i p, ops.put i = some p → ∀ cookie, Respects fun nd => (p nd cookie, cookie)

/-- A lookup through chunkfs: each link has a nameidata of its own, in which earlier calls have left what they have. --/
def followThrough (ops : LinkOps Name Cookie ι) [DecidableEq ι] :
    List (Follow Name Cookie ι) → Nameidata Name → (ι → Nameidata Name) → Nameidata Name × List Cookie
  | [], nd, _ => (nd, [])
  | .follow i :: rest, nd, own =>
    let (nd, own', cookie) := followLink (ops.follow i) nd (own i)
    let (nd, cookies) := followThrough ops rest nd (Function.update own i own')
    (nd, cookie :: cookies)
  | .put i cookie :: rest, nd, own =>
    let (nd, own') := putLink (ops.put i) nd (own i) cookie
    followThrough ops rest nd (Function.update own i own')
  | .kernel g :: rest, nd, own => followThrough ops rest (g nd) own

/-- The same lookup with the clients called on the caller's nameidata itself. --/
def followDirect (ops : LinkOps Name Cookie ι) : List (Follow Name Cookie ι) → Nameidata Name → Nameidata Name × List Cookie
  | [], nd => (nd, [])
  | .follow i :: rest, nd =>
    let (nd, cookie) := ops.follow i nd
    let (nd, cookies) := followDirect ops rest nd
    (nd, cookie :: cookies)
  | .put i cookie :: rest, nd =>
    followDirect ops rest (match ops.put i with | none => nd | some put => put nd cookie)
  | .kernel g :: rest, nd => followDirect ops rest (g nd)

/-- Any number of links followed and put, nested in any way, through chunkfs and in the clients: the caller's nameidata
    and the cookies are the same, whatever the nameidatas of the dentries held. --/
theorem followThrough_eq (ops : LinkOps Name Cookie ι) [DecidableEq ι] (h : ops.Respect) (steps : List (Follow Name Cookie ι))
    (nd : Nameidata Name) (own : ι → Nameidata Name) : followThrough ops steps nd own = followDirect ops steps nd := by
  induction steps generalizing nd own with
  | nil => rfl
  | cons x steps ih =>
    cases x with
    | follow i =>
      obtain ⟨hnd, hcookie⟩ := (h.follow i).copies nd (own i)
      simp only [followThrough, followDirect, followLink, hnd, hcookie, ih]
    | put i cookie =>
      cases hput : ops.put i with
      | none => simp only [followThrough, followDirect, putLink, hput, ih]
      | some put =>
        have hnd := ((h.put i put hput cookie).copies nd (own i)).1
        simp only [followThrough, followDirect, putLink, hput, hnd, ih]
    | kernel g => exact ih (g nd) own

end Following

/-- `nd_set_link` of a link whose text is in the inode. --/
def ndSetLink (text : List Char) (nd : Nameidata (List Char)) : Nameidata (List Char) × Unit :=
  ({ nd with savedNames := fun k => if k = nd.depth then text else nd.savedNames k }, ())

/-- Two links, one of which has nothing to put, followed one inside the other; the nameidatas of their dentries hold
    names of earlier lookups. --/
theorem followThrough_eq_nested :
    let ops : LinkOps (List Char) Unit Bool :=
      { follow := fun i => ndSetLink (if i then "a/b".toList else "c".toList)
        put := fun i => if i then some fun nd _ => nd else none }
    let deeper : Nameidata (List Char) → Nameidata (List Char) := fun nd => { nd with depth := nd.depth + 1 }
    let nd : Nameidata (List Char) := ⟨1, 2, 0, fun _ => []⟩
    let own : Bool → Nameidata (List Char) := fun i => ⟨0, 7, 1, fun _ => if i then "old".toList else []⟩
    let steps := [.kernel deeper, .follow true, .kernel deeper, .follow false, .put false (), .put true ()]
    followThrough ops steps nd own = followDirect ops steps nd := by
  intro ops deeper nd own steps
  refine followThrough_eq ops ⟨fun i => ⟨fun nd nd' hf hs hd _ => ⟨hf, hs, ?_, rfl⟩, fun _ => rfl, fun nd k hk => if_neg hk⟩,
    fun i p hp cookie => ?_⟩ steps nd own
  · exact (if_pos rfl).trans (if_pos hd).symm
  · cases i with
    | false => cases hp
    | true =>
      cases hp
      exact ⟨fun nd nd' hf hs _ hn => ⟨hf, hs, hn, rfl⟩, fun _ => rfl, fun _ _ _ => rfl⟩

end Chunkfs
