import Chunkfs.Theorems.Isolation

/-! How long a file can become. A continuation lies in the directory that the next chunk has for the chunk before it, so
    a file begins in the chunk of the root and ends where such a directory is missing: `test.sh` makes those from 0 to 9. -/

namespace Chunkfs
open Exec

/-- The directory of every continuation file is there, and every file begins in the root's chunk. --/
structure Stemmed (w : World) (root : Dentry) (files : List Dentry) : Prop where
  named : ∀ k f i c, w.disk.path (contPath k f i) = some c → (w.disk.dir (contDir k f)).isSome = true
  begins : ∀ d ∈ files, d.client.chunk = root.client.chunk

section Stemmed
variable {w w' : World} {root d : Dentry} {files : List Dentry} {ch ch' : Dentry → List Continuation}

theorem Mounted.stemmed (h : Mounted w root) : Stemmed w root [] where
  named k f i c hc := by
    rw [h.empty] at hc
    cases hc
  begins _ hd := absurd hd List.not_mem_nil

/-- A request keeps the files in the directories there are. --/
theorem Stemmed.answered {q : Request} {a : Answer} (h : Stemmed w root files)
    (ha : Answered w root files ch q a w' ch') : Stemmed w' root (a.files files) where
  named k f i c hc := by
    rw [ha.ground.dir]
    rcases ha.ground.path k f i c hc with hc | hdir
    · exact h.named k f i c hc
    · exact hdir
  begins d hd := by
    have hbegins : ∀ dir ∈ root :: files, dir.client.chunk = root.client.chunk := fun dir hdir => by
      rcases List.mem_cons.mp hdir with rfl | hdir
      · rfl
      · exact h.begins dir hdir
    rcases a with (_ | d') | _ | _ | _ | _ | _
    case made.ok =>
      rcases List.mem_cons.mp hd with rfl | hd
      · obtain ⟨-, -, dir, hdir, hchunk⟩ := ha.new d rfl
        exact hchunk.trans (hbegins dir hdir)
      · exact h.begins d hd
    all_goals exact h.begins d hd

/-- A run keeps them there, and makes no directory of continuations. --/
theorem Stemmed.requests {qs : List (Env × Request)} (h : Stemmed w root files) (ht : Tidy w root files ch)
    (he : ∀ x ∈ qs, Obliging x.1) :
    Meets (runRequests root qs files) w (fun log w' => ∃ ch', Tidy w' root (filesAfter files log) ch' ∧
      Stemmed w' root (filesAfter files log) ∧ w'.disk.dir = w.disk.dir) (Stopped qs) :=
  ht.requests_keep he (I := fun u files _ => Stemmed u root files ∧ u.disk.dir = w.disk.dir) ⟨h, rfl⟩
    fun x _ _ ⟨hr, hdir⟩ ha => ⟨(⟨hr.named, hr.begins⟩ : Stemmed (World.withEnv _ x.1) root _).answered ha,
      ha.ground.dir.trans hdir⟩

/-- Behind each element but the last there is a directory for the next one. --/
theorem Stemmed.directories (h : Stemmed w root files) (ht : Tidy w root files ch) (hd : d ∈ files) {i : Nat}
    (hi : i + 1 < (ch d).length) :
    (w.disk.dir (contDir (root.client.chunk + (i + 1)) (root.client.chunk + i))).isSome = true := by
  have hf := ht.chain d hd
  have ha := hf.chunk (List.getElem?_eq_getElem (Nat.lt_of_succ_lt hi))
  have hb := hf.chunk (List.getElem?_eq_getElem hi)
  have hlink := (List.isChain_iff_getElem.mp hf.links i hi).path
  rw [ha, hb, h.begins d hd] at hlink
  exact h.named _ _ _ _ hlink

end Stemmed

section Ends
variable {w : World} {root : Dentry} {files : List Dentry} {ch : Dentry → List Continuation} {file : File}

/-- The name of the continuation behind the last one of a file. --/
theorem FileChain.dir_next {d : Dentry} {cs : List Continuation} {t : Continuation} (h : FileChain w d cs)
    (ht : cs.getLast? = some t) :
    dirname (nextPath t) = contDir (d.client.chunk + cs.length) (d.client.chunk + (cs.length - 1)) := by
  have hpos := List.length_pos_of_ne_nil h.ne_nil
  unfold nextPath
  rw [dirname_contPath, (h.last_onDisk ht).chunk, (h.last_eq ht).2.1, Nat.add_assoc, Nat.sub_add_cancel hpos]

theorem FileChain.find_behind {d : Dentry} {cs : List Continuation} (h : FileChain w d cs) {p : Nat}
    (hp : segLen * cs.length ≤ p) (hp' : p < 2 ^ 63) : cs.find? (·.cd.covers p) = none := by
  rw [h.find_covers hp']
  exact List.getElem?_eq_none ((Nat.le_div_iff_mul_le (by decide)).mpr (by rwa [Nat.mul_comm]))

/-- Where the directory is missing, a write behind the file fails and leaves everything on disk. --/
theorem Tidy.write_ends (h : Tidy w root files ch) (he : Obliging w.env) (hd : file.dentry ∈ files) {n : Nat}
    (hn : file.dentry.client.chunk + ((ch file.dentry).length - 1) = n)
    (hdir : w.disk.dir (contDir (file.dentry.client.chunk + (ch file.dentry).length) n) = none) {p : Nat}
    (hp : segLen * (ch file.dentry).length ≤ p) (hp' : p < 2 ^ 63) (data : List UInt8) :
    ∃ w', Chunkfs.write file data p w = .ok ⟨Errno.enoent.ret, [], p, file⟩ w' ∧ Warm w w' := by
  have hf := h.chain _ hd
  obtain ⟨t, ht⟩ : ∃ t, (ch file.dentry).getLast? = some t := Option.isSome_iff_exists.mp (by simp [hf.ne_nil])
  refine write_fails hf.toChain he.script (Nat.lt_of_succ_lt (h.length_lt_fuel he hd)) rfl (hf.find_behind hp hp') ht
    ?_ data
  unfold World.openPath
  rw [h.tail_unnamed hd ht, hf.dir_next ht, hn, hdir]

/-- Where the directory is there and its chunk has an inode for it, the file gets one more element. --/
theorem Tidy.write_extends (h : Tidy w root files ch) (he : Obliging w.env) (hd : file.dentry ∈ files) {n k : Nat}
    (hn : file.dentry.client.chunk + ((ch file.dentry).length - 1) = n)
    (hdir : w.disk.dir (contDir (file.dentry.client.chunk + (ch file.dentry).length) n) = some k)
    (hfree : w.disk.inode ⟨k, w.env.ialloc k⟩ = none) {p : Nat}
    (hp : segLen * (ch file.dentry).length ≤ p) (hp' : p < 2 ^ 63) (data : List UInt8) :
    ∃ r w' cs, Chunkfs.write file data p w = .ok r w' ∧ ChainOnDisk w' file.dentry cs ∧
      cs.length = (ch file.dentry).length + 1 := by
  have hf := h.chain _ hd
  obtain ⟨t, ht⟩ : ∃ t, (ch file.dentry).getLast? = some t := Option.isSome_iff_exists.mp (by simp [hf.ne_nil])
  obtain ⟨init, hinit⟩ : ∃ init, ch file.dentry = init ++ [t] := ⟨_, (List.dropLast_append_getLast? t ht).symm⟩
  have ho : w.openPath (nextPath t) contMode = .ok (⟨k, w.env.ialloc k⟩, w.withFile (nextPath t) ⟨k, w.env.ialloc k⟩
      contMode) := by
    unfold World.openPath
    rw [h.tail_unnamed hd ht, hf.dir_next ht, hn, hdir]
    exact if_neg (by simp [hfree])
  obtain ⟨r, w', hr, hm⟩ := h.write_grown he hd (hf.find_behind hp hp') hinit ho data
  refine ⟨r, w', _, hr, (hm.tidy.chain _ hd).chainOnDisk, ?_⟩
  rw [Function.update_self, List.length_append, hinit, List.length_append]
  rfl

end Ends

/-- `test.sh` has made the directory for the continuation behind `n` elements of a file in chunk 1. --/
def Extensible (pool : List Nat) (n : Nat) : Prop := n < 10 ∧ n + 1 ∈ pool

theorem preparedDisk_dir_iff {pool : List Nat} {e : Env} {k f : Nat} :
    ((preparedDisk pool e).dir (contDir k f)).isSome = true ↔ k ∈ pool ∧ f < 10 := by
  refine ⟨fun h => ?_, fun ⟨hk, hf⟩ => by rw [preparedDisk_dir_of_mem hk hf]; rfl⟩
  obtain ⟨n, hn⟩ := Option.isSome_iff_exists.mp h
  refine ⟨(preparedDisk_dir hn).2, ?_⟩
  have hp := List.find?_some hn
  simp only [List.any_eq_true, List.mem_range, decide_eq_true_eq] at hp
  obtain ⟨f', hf', he⟩ := hp
  rw [(contDir_inj he).2]
  exact hf'

/-- After every run on a pool as `test.sh` prepares it that returns, a file has at most ten segments, which lie in the
    chunks from 1 on. A write behind its end makes the next segment where `Extensible` says so and the chunk has a free
    inode, and fails with ENOENT where it does not. --/
theorem file_ends_at_directories (pool : List Nat) {e : Env} (hpool : ∀ k ∈ pool, 1 ≤ k ∧ k ≤ 15) (hroot : 1 ∈ pool)
    (he : Obliging e) (qs : List (Env × Request)) (hqs : ∀ x ∈ qs, Obliging x.1) :
    ∃ w, readRoot 1 (prepared pool e) = .ok (.ok ⟨0, rootIno⟩) w ∧
      ∀ log w', runRequests ⟨0, rootIno⟩ qs [] w = .ok log w' →
        ∃ ch : Dentry → List Continuation, ∀ d ∈ filesAfter [] log, ChainOnDisk w' d (ch d) ∧ d.client.chunk = 1 ∧
        (ch d).length ≤ 10 ∧ (∀ k, 1 ≤ k → k ≤ (ch d).length → k ∈ pool) ∧
        ∀ (e' : Env) (file : File) (data : List UInt8) (p : Nat), Obliging e' → file.dentry = d →
          segLen * (ch d).length ≤ p → p < 2 ^ 63 →
          (¬Extensible pool (ch d).length →
            ∃ w'', write file data p (w'.withEnv e') = .ok ⟨Errno.enoent.ret, [], p, file⟩ w'' ∧
              w''.disk = w'.disk ∧ w''.vnode = w'.vnode) ∧
          (Extensible pool (ch d).length →
            w'.disk.inode ⟨(ch d).length + 1, e'.ialloc ((ch d).length + 1)⟩ = none →
            ∃ r w'' cs, write file data p (w'.withEnv e') = .ok r w'' ∧ ChainOnDisk w'' d cs ∧
              cs.length = (ch d).length + 1) := by
  obtain ⟨w, hr, -, hm, -, hdir₀⟩ := readRoot_prepared pool hpool hroot he
  refine ⟨w, hr, fun log w' hrun => ?_⟩
  obtain ⟨ch, ht, hrooted, hdir⟩ := (hm.stemmed.requests hm.tidy hqs).ok hrun
  have hdirs : ∀ n, (w'.disk.dir (contDir (1 + (n + 1)) (1 + n))).isSome = true ↔ Extensible pool (n + 1) := fun n => by
    rw [hdir, hdir₀, preparedDisk_dir_iff, Nat.add_comm 1 n, Nat.add_comm 1 (n + 1), and_comm]
    rfl
  have hext : ∀ d ∈ filesAfter [] log, ∀ n, n + 1 < (ch d).length → Extensible pool (n + 1) := fun d hd n hn =>
    (hdirs n).mp (hrooted.directories ht hd hn)
  refine ⟨ch, fun d hd => ⟨(ht.chain d hd).chainOnDisk, hrooted.begins d hd, ?_, fun k h₁ hk => ?_, ?_⟩⟩
  · by_contra hlen
    exact absurd (hext d hd 9 (Nat.lt_of_not_le hlen)).1 (Nat.lt_irrefl 10)
  · obtain ⟨n, rfl⟩ := Nat.exists_eq_add_of_le' h₁
    cases n with
    | zero => exact hroot
    | succ n => exact (hext d hd n hk).2
  · rintro e' file data p he' rfl hp hp'
    have hbegins : file.dentry.client.chunk = 1 := hrooted.begins _ hd
    have ht' := ht.kept (.withEnv w' he')
    obtain ⟨m, hm⟩ := Nat.exists_eq_succ_of_ne_zero (List.length_pos_of_ne_nil (ht.chain _ hd).ne_nil).ne'
    have hn : file.dentry.client.chunk + ((ch file.dentry).length - 1) = 1 + m := by rw [hbegins, hm]; rfl
    constructor
    · intro hno
      have hnone : w'.disk.dir (contDir (file.dentry.client.chunk + (ch file.dentry).length) (1 + m)) = none := by
        rw [hm] at hno
        rw [hbegins, hm]
        exact Option.not_isSome_iff_eq_none.mp (mt (hdirs m).mp hno)
      obtain ⟨w'', hw, hwarm⟩ := ht'.write_ends (w := w'.withEnv e') he' hd hn hnone hp hp' data
      exact ⟨w'', hw, hwarm.disk, hwarm.vnode⟩
    · intro hyes hfree
      have hsome : w'.disk.dir (contDir (file.dentry.client.chunk + (ch file.dentry).length) (1 + m)) =
          some ((ch file.dentry).length + 1) := by
        rw [hm] at hyes
        rw [hdir, hdir₀, hbegins, hm, Nat.add_comm 1 (m + 1)]
        exact preparedDisk_dir_of_mem hyes.2 (Nat.add_comm 1 m ▸ hyes.1)
      exact ht'.write_extends (w := w'.withEnv e') he' hd hn hsome hfree hp hp' data

/-- In a pool of two chunks a file is made and grows by one segment, and then it grows no more. --/
theorem file_ends_at_directories_two_chunks :
    let file : File := ⟨⟨1, ⟨1, 30⟩⟩, 0, 2⟩
    let qs : List (Env × Request) := [(quietEnv, .create ⟨0, rootIno⟩ "f".toList 0o100644),
      (quietEnv, .write file [1, 2] 40960)]
    ∃ (w : World) (log : List (Request × Answer)) (w' : World) (cs : List Continuation),
      readRoot 1 (prepared [1, 2] quietEnv) = .ok (.ok ⟨0, rootIno⟩) w ∧
      runRequests ⟨0, rootIno⟩ qs [] w = .ok log w' ∧ filesAfter [] log = [file.dentry] ∧
      ChainOnDisk w' file.dentry cs ∧ cs.length = 2 ∧
      ∃ w'', write file [3] 81920 (w'.withEnv quietEnv) = .ok ⟨Errno.enoent.ret, [], 81920, file⟩ w'' := by
  intro file qs
  have hqs : ∀ x ∈ qs, Obliging x.1 := by simp [qs, quietEnv_obliging]
  obtain ⟨w, hr, hall⟩ := file_ends_at_directories [1, 2] (by decide) (by decide) quietEnv_obliging qs hqs
  have hvalue : (do
      let _ ← readRoot 1
      let log ← runRequests ⟨0, rootIno⟩ qs []
      return (filesAfter [] log, (← get).disk.contData? ⟨1, 30⟩) : Kern _).run' (prepared [1, 2] quietEnv) =
        some ([file.dentry], some ⟨(⟨2, 30⟩ : ClientIno).uino, 0, 0, 40960⟩) := by decide +kernel
  obtain ⟨t, ht⟩ := of_run' hvalue
  rw [bind_ok hr] at ht
  obtain ⟨log, w', hrun, ht⟩ := bind_eq_ok.mp ht
  obtain ⟨hpair, -⟩ := EStateM.Result.ok.inj ht
  obtain ⟨hfiles, hcd⟩ := Prod.mk.inj hpair
  obtain ⟨ch, hch⟩ := hall log w' hrun
  obtain ⟨hchain, -, -, hin, hwrite⟩ := hch file.dentry (by rw [hfiles]; exact List.mem_cons_self)
  have hlt := hchain.one_lt_length hcd (by decide +kernel)
  have hlen : (ch file.dentry).length = 2 := by
    refine Nat.le_antisymm (Nat.le_of_not_lt fun hgt => ?_) hlt
    exact absurd (hin 3 (by decide) hgt) (by decide)
  rw [hlen] at hwrite
  obtain ⟨w'', hw'', -⟩ := (hwrite quietEnv file [3] 81920 quietEnv_obliging rfl (by decide) (by decide)).1
    fun hext => absurd hext.2 (by decide)
  exact ⟨w, log, w', ch file.dentry, hr, hrun, hfiles, hchain, hlen, w'', hw''⟩

end Chunkfs
