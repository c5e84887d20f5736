import Chunkfs.Seek
import Chunkfs.Theorems.Positional
import Chunkfs.Theorems.Store

/-! Files that are only appended to, and links. The end that a seek finds is the end of the flat file, so records of a
    length that divides a segment follow one another, and a link reads as it was made. -/

namespace Chunkfs
open Exec Word Flat

/-! ### Records -/

/-- What happens between two records: one is appended to the file, or there is a request on another object. --/
inductive Turn where
  | append (data : List UInt8)
  | other (q : Request)

/-- Turns one after the other, with the records and what `write(2)` returned for each. --/
def runTurns (root : Dentry) : File → List (Env × Turn) → List Dentry → Kern (List (List UInt8 × Int))
  | _, [], _ => return []
  | file, (e, .append data) :: rest, files => do
    modify (·.withEnv e)
    let r ← appendRecord file data
    let out ← runTurns root r.file rest files
    return (data, r.ret) :: out
  | file, (e, .other q) :: rest, files => do
    modify (·.withEnv e)
    let a ← q.run root files
    runTurns root file rest (a.files files)

/-- The records whose write did not fail. --/
def acknowledged (out : List (List UInt8 × Int)) : List UInt8 := (out.filter fun x => 0 ≤ x.2).flatMap (·.1)

/-- The turn appends a record of `n` bytes to `d`, or is on another object. --/
def Turn.Keeps (d : Dentry) (n : Nat) : Turn → Prop
  | .append data => data.length = n
  | .other q => q.target ≠ d

section Records
variable {w : World} {root d : Dentry} {files : List Dentry} {ch : Dentry → List Continuation} {f : Bytes UInt8} {n : Nat}
  {file : File}

/-- A record at a multiple of its length does not cross a border. --/
theorem record_in_segment {p : Nat} (hn : n ∣ segLen) (hp : n ∣ p) :
    p + n ≤ segLen * (p / segLen) + segLen := by
  have hlt := Nat.lt_div_mul_add (a := p) (show 0 < segLen by decide)
  rw [Nat.mul_comm] at hlt
  have hdvd : n ∣ segLen * (p / segLen) + segLen - p := Nat.dvd_sub (Nat.dvd_add (hn.mul_right _) hn) hp
  have hle := Nat.le_of_dvd (Nat.sub_pos_of_lt hlt) hdvd
  omega

/-- Appending: the seek finds the end of the flat file, and the write is there. --/
theorem Contents.append (h : Contents w d (ch d) f) (ht : Tidy w root files ch) (hd : d ∈ files) (he : Generous w.env)
    (hfile : file.dentry = d) (hflags : file.flags &&& oAppend = 0) (hn : n ∣ segLen) (hf : n ∣ f.size)
    {data : List UInt8} (hdata : data.length = n) :
    ∃ r w' ch', appendRecord file data w = .ok r w' ∧ r.file.dentry = d ∧ r.file.flags = file.flags ∧
      Tidy w' root files ch' ∧
      (0 ≤ r.ret ∧ Contents w' d (ch' d) (f.write f.size data) ∨ r.ret < 0 ∧ Contents w' d (ch' d) f) := by
  subst hfile hdata
  obtain ⟨vn, hv, -⟩ := (ht.chain _ hd).head.vnode
  have hsize := h.size vn hv
  have hlen := (ht.chain _ hd).length_le_fifteen
  have hfits := h.fits
  have hsmall : f.size < 2 ^ 62 := by
    unfold segLen at hfits
    omega
  have hseek : llseekFile file 0 .fromEnd w = .ok ((f.size : Int), { file with pos := (f.size : Int) }) w := by
    unfold llseekFile
    rw [bind_ok (vnodeAt_used hv), hsize]
    have hend : s64 (0 + (f.size : Int)) = f.size := by
      rw [Int.zero_add]
      exact s64_of_mem (Int.le_trans (by decide) (Int.natCast_nonneg _)) (by omega)
    simp only [defaultLlseek, File.setpos, hend, if_pos (Int.natCast_nonneg f.size)]
    rfl
  have hdiv := Nat.mul_div_le f.size segLen
  obtain ⟨ended, hended⟩ : ∃ x : File, x = { file with pos := (f.size : Int) } := ⟨_, rfl⟩
  have hdentry : ended.dentry = file.dentry := by rw [hended]
  have hmode : ended.flags = file.flags := by rw [hended]
  obtain ⟨r, w', ch', hw, hm⟩ := ht.write_moves he.toObliging (hdentry ▸ hd) data (f.size : Int)
  obtain ⟨r', w'', cs, hw', hchain, hends⟩ := h.write ht hd he.toObliging he.whole hdentry (hmode ▸ hflags) (p := f.size)
    (by omega) (fun _ => record_in_segment hn hf) fun _ => hdiv
  subst hended
  cases hw.symm.trans hw'
  obtain rfl := hchain.only (hm.tidy.chain _ hd).toChain he.toObliging
  have hopen : r.file.dentry = file.dentry ∧ r.file.flags = file.flags := by
    rcases write_file rfl (Int.natCast_nonneg _) (by omega) hw with hfile | ⟨hfile, -⟩ <;> rw [hfile] <;> exact ⟨rfl, rfl⟩
  refine ⟨{ r with file := { r.file with pos := r.ppos } }, w', ch', ?_, hopen.1, hopen.2, hm.tidy, ?_⟩
  · unfold appendRecord
    rw [bind_ok hseek]
    exact bind_ok hw
  · rcases hends with ⟨hret, hh⟩ | ⟨hret, hh⟩
    · exact Or.inl ⟨hret ▸ Int.natCast_nonneg _, hh⟩
    · exact Or.inr ⟨hret, hh⟩

theorem acknowledged_cons (x : List UInt8 × Int) (out : List (List UInt8 × Int)) :
    acknowledged (x :: out) = (if 0 ≤ x.2 then x.1 else []) ++ acknowledged out := by
  unfold acknowledged
  by_cases hx : 0 ≤ x.2
  · rw [List.filter_cons_of_pos (by simpa using hx), List.flatMap_cons, if_pos hx]
  · rw [List.filter_cons_of_neg (by simpa using hx), if_neg hx, List.nil_append]

/-- A run of turns appends the records that were acknowledged, in their order. --/
theorem Contents.turns {turns : List (Env × Turn)} (h : Contents w d (ch d) f) (ht : Tidy w root files ch) (hd : d ∈ files)
    (hfile : file.dentry = d) (hflags : file.flags &&& oAppend = 0) (hn : n ∣ segLen) (hf : n ∣ f.size)
    (he : ∀ x ∈ turns, Generous x.1 ∧ x.2.Keeps d n) :
    Meets (runTurns root file turns files) w (fun out w' => ∃ files' ch' f', Tidy w' root files' ch' ∧ d ∈ files' ∧
      Contents w' d (ch' d) f' ∧ f'.text = f.text ++ acknowledged out) (Stopped turns) := by
  induction turns generalizing w files ch f file with
  | nil => exact ⟨files, ch, f, ht, hd, h, (List.append_nil _).symm⟩
  | cons x turns ih =>
    obtain ⟨e, turn⟩ := x
    obtain ⟨hx, hkeep⟩ := he (e, turn) List.mem_cons_self
    have hrest := fun x hm => he x (List.mem_cons_of_mem _ hm)
    have ht₀ := ht.kept (.withEnv w hx.toObliging)
    have h₀ := h.untouched (.withEnv w e d (ch d))
    cases turn with
    | append data =>
      obtain ⟨r, w₁, ch₁, hr, hfile₁, hflags₁, ht₁, hends⟩ := h₀.append ht₀ hd (w := w.withEnv e) hx hfile hflags hn hf hkeep
      refine meets_bind_ok (modify_apply _ w) (meets_bind_ok hr ?_)
      rcases hends with ⟨hret, h₁⟩ | ⟨hret, h₁⟩
      · have hsize : (f.write f.size data).size = f.size + n := by
          rw [← Bytes.length_text, Bytes.text_write_end, List.length_append, Bytes.length_text,
            show data.length = n from hkeep]
        have hlater := (ih h₁ ht₁ hd hfile₁ (hflags₁ ▸ hflags) (hsize ▸ Nat.dvd_add hf (Nat.dvd_refl n)) hrest).mono
          (fun _ _ hq => hq) (stopped_tail (e, Turn.append data))
        refine hlater.bind fun out w₂ ⟨files₂, ch₂, f₂, ht₂, hd₂, h₂, htext⟩ => ⟨files₂, ch₂, f₂, ht₂, hd₂, h₂, ?_⟩
        rw [htext, Bytes.text_write_end, acknowledged_cons, if_pos hret, List.append_assoc]
      · have hlater := (ih h₁ ht₁ hd hfile₁ (hflags₁ ▸ hflags) hf hrest).mono (fun _ _ hq => hq)
          (stopped_tail (e, Turn.append data))
        refine hlater.bind fun out w₂ ⟨files₂, ch₂, f₂, ht₂, hd₂, h₂, htext⟩ => ⟨files₂, ch₂, f₂, ht₂, hd₂, h₂, ?_⟩
        rw [htext, acknowledged_cons, if_neg (Int.not_le.mpr hret), List.nil_append]
    | other q =>
      have hfirst := (ht₀.request (w := w.withEnv e) hx.toObliging q).mono (fun _ _ hq => hq)
        (stopped_head (e, Turn.other q) turns)
      refine meets_bind_ok (modify_apply _ w) (hfirst.bind fun a w₁ ⟨ch₁, hm⟩ => ?_)
      obtain ⟨hch, hu⟩ := hm.others d hd fun he => hkeep he.symm
      have h₁ := h₀.untouched hu
      rw [← hch] at h₁
      exact (ih h₁ hm.tidy (a.mem_files hd) hfile hflags hf hrest).mono (fun _ _ hq => hq) (stopped_tail (e, Turn.other q))

/-- What is read of a file that holds a text. --/
theorem Contents.read_text (h : Contents w d (ch d) f) (ht : Tidy w root files ch) (hd : d ∈ files) (hfile : file.dentry = d)
    {e : Env} (he : Generous e) {p : Nat} (hp : p < 2 ^ 63) (len : Nat) :
    ∃ r w', Chunkfs.read file len p (w.withEnv e) = .ok r w' ∧ r.ret = r.buf.length ∧
      r.buf = (f.text.drop p).take (min len (segLen * (p / segLen) + segLen - p)) := by
  obtain ⟨r, w', hr, hbuf, hret, -⟩ := (h.untouched (.withEnv w e d (ch d))).read
    (ht.kept (.withEnv w he.toObliging)) hd (w := w.withEnv e) he.toObliging he.whole hfile hp len
  exact ⟨r, w', hr, hret, by rw [hbuf, Bytes.read_eq_text]⟩

end Records

/-- The file is made after any run on a mounted pool; then records of a length that divides a segment are appended to it,
    between requests on other objects. It holds the acknowledged records one after the other, and nothing else. The turns
    are gone through, unless memory that was never set stops one. --/
theorem records_follow_one_another {w : World} {root : Dentry} (h : Mounted w root) (qs : List (Env × Request))
    (he : ∀ x ∈ qs, Generous x.1) {e : Env} (he' : Generous e) (dir : Dentry) (name : List Char) (mode : Nat) {n : Nat}
    (hn : n ∣ segLen) {log : List (Request × Answer)} {w₁ w₂ : World} {d : Dentry}
    (hr₁ : runRequests root qs [] w = .ok log w₁)
    (hr₂ : (Request.create dir name mode).run root (filesAfter [] log) (w₁.withEnv e) = .ok (.made (.ok d)) w₂)
    {flags : Nat} (hflags : flags &&& oAppend = 0) (turns : List (Env × Turn))
    (hturns : ∀ x ∈ turns, Generous x.1 ∧ x.2.Keeps d n) :
    (∀ out w₃, runTurns root ⟨d, 0, flags⟩ turns (d :: filesAfter [] log) w₂ = .ok out w₃ →
      (∃ vn, w₃.vnode d.inode = some vn ∧ vn.size = (acknowledged out).length) ∧
        ∀ (file : File) (p len : Nat) (e₃ : Env), file.dentry = d → p < 2 ^ 63 → Generous e₃ →
          ∃ (r : IoResult) (w₄ : World), read file len p (w₃.withEnv e₃) = .ok r w₄ ∧ r.ret = r.buf.length ∧
            r.buf = ((acknowledged out).drop p).take (min len (segLen * (p / segLen) + segLen - p))) ∧
      ((∀ x ∈ turns, x.1.Tame) → ∃ out w₃, runTurns root ⟨d, 0, flags⟩ turns (d :: filesAfter [] log) w₂ = .ok out w₃) := by
  obtain ⟨ch₁, ht₁, -⟩ := (h.tidy.requests_flat he).ok hr₁
  obtain ⟨ch₂, ht₂, hmade⟩ := ((ht₁.kept (.withEnv w₁ he'.toObliging)).make_flat (w := w₁.withEnv e) he' dir name
    ⟨mode, 0, 1, [], 0, true⟩ 0 (Nat.zero_le _)).ok hr₂
  obtain ⟨-, h₂⟩ := hmade d rfl
  have hmeets := h₂.turns ht₂ List.mem_cons_self (show (⟨d, 0, flags⟩ : File).dentry = d from rfl) hflags hn (Nat.dvd_zero n)
    hturns
  constructor
  · intro out w₃ hr₃
    obtain ⟨files₃, ch₃, f₃, ht₃, hd₃, h₃, htext⟩ := hmeets.ok hr₃
    have htext₃ : f₃.text = acknowledged out := by
      rw [htext, Bytes.text_eq]
      rfl
    refine ⟨?_, fun file p len e₃ hfile hp he₃ => ?_⟩
    · obtain ⟨vn, hv, -⟩ := (ht₃.chain d hd₃).head.vnode
      exact ⟨vn, hv, by rw [h₃.size vn hv, ← htext₃, Bytes.length_text]⟩
    · rw [← htext₃]
      exact h₃.read_text ht₃ hd₃ hfile he₃ hp len
  · intro htame
    obtain ⟨out, w₃, hr₃, -⟩ := hmeets.returns (not_stopped htame)
    exact ⟨out, w₃, hr₃⟩

/-- Two pages are appended, with a directory made between them. --/
theorem records_follow_one_another_pages :
    let root : Dentry := ⟨0, rootIno⟩
    let d : Dentry := ⟨1, ⟨1, 30⟩⟩
    let e : Env := { quietEnv with ialloc := fun _ => 31 }
    let turns : List (Env × Turn) := [(quietEnv, .append (List.replicate 4096 7)),
      (e, .other (.mkdir root "d".toList 0o755)), (quietEnv, .append (List.replicate 4096 8))]
    ∃ w, readRoot 1 (prepared [1, 2] quietEnv) = .ok (.ok root) w ∧
      ∃ (w₂ : World) (out : List (List UInt8 × Int)) (w₃ : World),
        (Request.create root "f".toList 0o100644).run root [] (w.withEnv quietEnv) = .ok (.made (.ok d)) w₂ ∧
        runTurns root ⟨d, 0, 2⟩ turns [d] w₂ = .ok out w₃ ∧ out.map (·.2) = [4096, 4096] ∧
        ∃ vn, w₃.vnode d.inode = some vn ∧ vn.size = (acknowledged out).length := by
  intro root d e turns
  obtain ⟨w, hr, -, hm⟩ := readRoot_mounts [1, 2] (by decide) (by decide) quietEnv_obliging
  have hvalue : (do
      let _ ← readRoot 1
      modify (·.withEnv quietEnv)
      let a ← (Request.create root "f".toList 0o100644).run root []
      let out ← runTurns root ⟨d, 0, 2⟩ turns [d]
      return (a, out.map (·.2)) : Kern _).run' (prepared [1, 2] quietEnv) = some (.made (.ok d), [4096, 4096]) := by
    decide +kernel
  obtain ⟨t, ht⟩ := of_run' hvalue
  rw [bind_ok hr, bind_ok (modify_apply _ w)] at ht
  obtain ⟨a, w₂, hmake, ht⟩ := bind_eq_ok.mp ht
  obtain ⟨out, w₃, hout, ht⟩ := bind_eq_ok.mp ht
  have hpair := (EStateM.Result.ok.inj ht).1
  have hmade : a = .made (.ok d) := congrArg Prod.fst hpair
  have hrets : out.map (·.2) = [4096, 4096] := congrArg Prod.snd hpair
  rw [hmade] at hmake
  have he : Generous e := ⟨⟨rfl, fun _ => show 31 < 2 ^ 28 by decide, by decide⟩, rfl⟩
  have hlast : Turn.Keeps d 4096 (.other (.mkdir root "d".toList 0o755)) := show root ≠ d by decide
  have hpage : ∀ b, Turn.Keeps d 4096 (.append (List.replicate 4096 b)) := fun b => List.length_replicate
  obtain ⟨hrec, -⟩ := records_follow_one_another hm [] (fun _ hx => absurd hx List.not_mem_nil) quietEnv_generous root
    "f".toList 0o100644 (show 4096 ∣ segLen by decide) rfl hmake (show 2 &&& oAppend = 0 by decide) turns fun x hx => by
      rcases List.mem_cons.mp hx with rfl | hx
      · exact ⟨quietEnv_generous, hpage 7⟩
      rcases List.mem_cons.mp hx with rfl | hx
      · exact ⟨he, hlast⟩
      rcases List.mem_singleton.mp hx with rfl
      exact ⟨quietEnv_generous, hpage 8⟩
  exact ⟨w, hr, w₂, out, w₃, hmake, hout, hrets, (hrec out w₃ hout).1⟩

end Chunkfs
