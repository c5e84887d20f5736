import Chunkfs.Theorems.Misread
import Chunkfs.Theorems.Truncate

/-! What `chunkfs_fsync_file` makes durable, whatever the clients' `fsync` calls return. -/

namespace Chunkfs
open Exec

/-- The error that the `n`-th of the coming calls is going to return. --/
def failureAt (script : List Outcome) (n : Nat) : Option Errno :=
  match script[n]? with
  | some (.fails e) => some e
  | _ => none

/-- The calls of `fsync` for the elements of a chain, each behind the seven calls of its step; the first one is the
    `n`-th of the coming calls. --/
def fsyncCalls (script : List Outcome) (first last : Int) (n : Nat) (cs : List Continuation) : List Fsync :=
  cs.mapIdx fun i c => ⟨c.inode, first, last, failureAt script (n + 8 * i)⟩

/-- The `k`-th byte of an element lies in the file from `first` to `last`. --/
def Continuation.Holds (c : Continuation) (i : ClientInode) (first last : Int) (k : Nat) : Prop :=
  k < c.cd.len ∧ k < i.size ∧ first ≤ c.cd.start + k ∧ c.cd.start + k ≤ last

/-- Every byte of the file from `first` to `last` lies, at its place in its client inode, in a range that was passed to
    an `fsync` of this inode that succeeded. --/
def Durable (w : World) (cs : List Continuation) (calls : List Fsync) (first last : Int) : Prop :=
  ∀ c ∈ cs, ∀ i, w.disk.inode c.inode = some i → ∀ k : Nat, c.Holds i first last k →
    ∃ f ∈ calls, f.inode = c.inode ∧ f.first ≤ k ∧ k ≤ f.last ∧ f.err = none

section Log
variable {w w' w₁ : World} {d : Dentry} {prev : Option Continuation} {cs : List Continuation} {first last : Int}

theorem failureAt_drop (script : List Outcome) (m n : Nat) :
    failureAt (script.drop m) n = failureAt script (m + n) := by
  unfold failureAt
  rw [List.getElem?_drop]

theorem fsyncCalls_drop (script : List Outcome) (m n : Nat) (cs : List Continuation) :
    fsyncCalls (script.drop m) first last n cs = fsyncCalls script first last (m + n) cs := by
  unfold fsyncCalls
  simp only [failureAt_drop, Nat.add_assoc]

theorem fsyncCalls_cons (script : List Outcome) (n : Nat) (c : Continuation) (cs : List Continuation) :
    fsyncCalls script first last n (c :: cs) =
      ⟨c.inode, first, last, failureAt script n⟩ :: fsyncCalls script first last (n + 8) cs := by
  have hplace : ∀ i, n + 8 * (i + 1) = n + 8 + 8 * i := by omega
  unfold fsyncCalls
  simp only [List.mapIdx_cons, Nat.mul_zero, Nat.add_zero, hplace]

theorem mem_fsyncCalls {script : List Outcome} {n : Nat} {f : Fsync} :
    f ∈ fsyncCalls script first last n cs ↔
      ∃ i c, cs[i]? = some c ∧ f = ⟨c.inode, first, last, failureAt script (n + 8 * i)⟩ := by
  unfold fsyncCalls
  rw [List.mem_mapIdx]
  constructor
  · rintro ⟨i, hi, rfl⟩
    exact ⟨i, cs[i], List.getElem?_eq_getElem hi, rfl⟩
  · rintro ⟨i, c, hc, rfl⟩
    obtain ⟨hi, rfl⟩ := List.getElem?_eq_some_iff.mp hc
    exact ⟨i, hi, rfl⟩

/-- A call of a client's `fsync` that returns has used up one answer and is logged with it. --/
theorem clientFsync_log {c : ClientIno} {r : Option Errno} (hrun : clientFsync c first last w = .ok r w') :
    Warm w w' ∧ w'.env.script = w.env.script.drop 1 ∧
      w'.fsyncs = w.fsyncs ++ [⟨c, first, last, failureAt w.env.script 0⟩] := by
  unfold clientFsync at hrun
  obtain ⟨e, w₁, hask, hrest⟩ := bind_eq_ok.mp hrun
  rw [bind_ok (modify_apply _ w₁)] at hrest
  cases hrest
  have answered : ∀ {o : Outcome} {rest : List Outcome} (err : Option Errno), w.env.script = o :: rest →
      Warm w { w with env := { w.env with script := rest }, fsyncs := w.fsyncs ++ [⟨c, first, last, err⟩] } := by
    intro o rest err hs
    refine ⟨rfl, rfl, rfl, rfl, ?_, rfl, fun _ => Or.inl rfl⟩
    rw [hs]
    exact List.suffix_cons ..
  unfold ask at hask
  split at hask
  · rename_i hs
    cases hask
    exact ⟨⟨rfl, rfl, rfl, rfl, List.suffix_refl _, rfl, fun _ => Or.inl rfl⟩, by rw [hs]; rfl, by rw [hs]; rfl⟩
  · rename_i rest hs
    cases hask
    exact ⟨answered _ hs, by rw [hs]; rfl, by rw [hs]; rfl⟩
  · rename_i e' rest hs
    cases hask
    exact ⟨answered _ hs, by rw [hs]; rfl, by rw [hs]; rfl⟩
  · cases hask

/-- A step that gives an element has met no failure. --/
theorem Asks.step_ok {c : Continuation}
    (h : Asks (getNextCont d prev) w (stepCost prev) (fun k e => (walkErr prev k e).map .error)
      fun r _ => r = .ok (some c)) {r : Option Continuation} (hrun : getNextCont d prev w = .ok (.ok r) w') :
    r = some c ∧ Used (stepCost prev) w w' := by
  unfold Asks at h
  split at h
  · obtain ⟨r', w'', hr, hu, rfl⟩ := h
    cases hrun.symm.trans hr
    exact ⟨rfl, hu⟩
  · rename_i k e _
    dsimp only at h
    cases herr : walkErr prev k e with
    | error s =>
      rw [herr] at h
      obtain ⟨w'', hr⟩ := h
      cases hrun.symm.trans hr
    | ok e' =>
      rw [herr] at h
      obtain ⟨w'', hr, -⟩ := h
      cases hrun.symm.trans hr
  · obtain ⟨w'', hr⟩ := h
    cases hrun.symm.trans hr

/-- A loop that returns 0 has called the `fsync` of every element; what these calls returned is not looked at. --/
theorem fsyncLoop_log (h : Visits w d prev cs) {fuel : Nat} (hf : cs.length < fuel) : ∀ w₁, Warm w w₁ →
    fsyncLoop fuel d first last prev w₁ = .ok (.ok ()) w' →
    w'.fsyncs = w₁.fsyncs ++ fsyncCalls w₁.env.script first last (stepCost prev) cs := by
  induction h generalizing fuel with
  | nil stop =>
    intro w₁ h₁ hrun
    obtain ⟨n, rfl, -⟩ := fuel_succ hf
    obtain ⟨w₂, hr₂, hu₂⟩ := stop w₁ h₁
    unfold fsyncLoop at hrun
    rw [bind_ok hr₂] at hrun
    cases hrun
    rw [hu₂.fsyncs]
    exact (List.append_nil _).symm
  | @cons prev c cs next rest ih =>
    intro w₁ h₁ hrun
    obtain ⟨n, rfl, hn⟩ := fuel_succ hf
    unfold fsyncLoop at hrun
    obtain ⟨r, w₂, hr₂, hrun⟩ := bind_eq_ok.mp hrun
    cases r with
    | error e => cases hrun
    | ok r =>
      obtain ⟨rfl, hu₂⟩ := (next w₁ h₁).step_ok hr₂
      obtain ⟨r, w₃, hr₃, hrun⟩ := bind_eq_ok.mp hrun
      obtain ⟨hw₃, hs₃, hlog₃⟩ := clientFsync_log hr₃
      have hlog := ih (Nat.lt_of_succ_le hn) w₃ ((h₁.trans hu₂.toWarm).trans hw₃) hrun
      have hscript : w₃.env.script = w₁.env.script.drop (stepCost prev + 1) := by
        rw [hs₃, hu₂.rest, List.drop_drop]
      rw [hlog, hlog₃, hu₂.fsyncs, hu₂.rest, hscript, failureAt_drop, fsyncCalls_drop, fsyncCalls_cons, List.append_assoc]
      rfl

theorem fsyncFile_log {file : File} {vn : Vnode} (h : Traced w file.dentry vn cs) (hf : cs.length < w.env.fuel)
    (hrun : fsyncFile file first last w = .ok (.ok ()) w') :
    w'.fsyncs.drop w.fsyncs.length = fsyncCalls w.env.script first last 5 cs := by
  unfold fsyncFile at hrun
  rw [bind_ok (get_apply w)] at hrun
  rw [fsyncLoop_log h.visits hf w (Warm.refl w) hrun, List.drop_left]
  rfl

/-- After an `fsync` that returned 0 the bytes from `first` to `last` are durable if and only if, for every element that
    holds some of them, the range starts at 0 or the element does, and the element's own `fsync` did not fail. --/
theorem durable_iff {file : File} {vn : Vnode} (h : Traced w file.dentry vn cs) (hnodup : (cs.map (·.inode)).Nodup)
    (hf : cs.length < w.env.fuel) (h₀ : 0 ≤ first) (hrun : fsyncFile file first last w = .ok (.ok ()) w') :
    Durable w cs (w'.fsyncs.drop w.fsyncs.length) first last ↔
      ∀ n c, cs[n]? = some c → ∀ i, w.disk.inode c.inode = some i → (∃ k, c.Holds i first last k) →
        (first = 0 ∨ c.cd.start = 0) ∧ ∀ e, w.env.script[5 + 8 * n]? ≠ some (.fails e) := by
  rw [fsyncFile_log h hf hrun]
  have hworks : ∀ n, failureAt w.env.script n = none ↔ ∀ e, w.env.script[n]? ≠ some (.fails e) := by
    intro n
    unfold failureAt
    split
    · rename_i e hs
      exact ⟨nofun, fun hne => absurd hs (hne e)⟩
    · rename_i hne
      exact ⟨fun _ => hne, fun _ => rfl⟩
  constructor
  · intro hdur n c hc i hi hbyte
    obtain ⟨k, hlen, hsize, hfirst, hlast⟩ := hbyte
    -- The first byte of the element in the range lies farthest to the left.
    have hleft : c.Holds i first last (first - c.cd.start).toNat := by
      unfold Continuation.Holds
      omega
    obtain ⟨f, hmem, hinode, hlo, -, herr⟩ := hdur c (List.mem_of_getElem? hc) i hi _ hleft
    obtain ⟨m, x, hx, rfl⟩ := mem_fsyncCalls.mp hmem
    have hplace : m = n := by
      have hxi : (cs.map (·.inode))[m]? = some c.inode := by rw [List.getElem?_map, hx]; exact congrArg some hinode
      have hci : (cs.map (·.inode))[n]? = some c.inode := by rw [List.getElem?_map, hc]; rfl
      exact (List.getElem?_inj (List.getElem?_eq_some_iff.mp hxi).1 hnodup).mp (hxi.trans hci.symm)
    subst hplace
    refine ⟨?_, (hworks _).mp herr⟩
    dsimp only at hlo
    omega
  · intro hcond c hmem i hi k hbyte
    obtain ⟨n, hn, hc⟩ := List.getElem_of_mem hmem
    have hc' : cs[n]? = some c := hc ▸ List.getElem?_eq_getElem hn
    obtain ⟨hstart, hok⟩ := hcond n c hc' i hi ⟨k, hbyte⟩
    refine ⟨_, mem_fsyncCalls.mpr ⟨n, c, hc', rfl⟩, rfl, ?_, ?_, (hworks _).mpr hok⟩
    all_goals
      obtain ⟨-, -, hfirst, hlast⟩ := hbyte
      dsimp only
      omega

end Log

/-! ### A file of two segments -/

theorem twoSized_traced (first second : Nat) (script : List Outcome) :
    ∃ vn, Traced ((twoSized first second).scripted script) twoFile.dentry vn (twoChain 0) := by
  obtain ⟨vn, h⟩ := (twoSized_chain first second).walkable.traced
  exact ⟨vn, h.scripted script⟩

/-- The call returned 0. --/
def returnsZero : EStateM.Result Stop World (Except Errno Unit) → Bool
  | .ok (.ok _) _ => true
  | _ => false

theorem exists_of_returnsZero {r : EStateM.Result Stop World (Except Errno Unit)} (h : returnsZero r = true) :
    ∃ w', r = .ok (.ok ()) w' := by
  unfold returnsZero at h
  split at h
  · exact ⟨_, rfl⟩
  · cases h

theorem durable_twoSized : ∃ w', fsyncFile twoFile 0 50000 (twoSized 40960 9040) = .ok (.ok ()) w' ∧
    Durable (twoSized 40960 9040) (twoChain 0) (w'.fsyncs.drop (twoSized 40960 9040).fsyncs.length) 0 50000 := by
  obtain ⟨vn, htraced⟩ : ∃ vn, Traced (twoSized 40960 9040) twoFile.dentry vn (twoChain 0) :=
    (twoSized_chain 40960 9040).walkable.traced
  obtain ⟨w', hrun⟩ := exists_of_returnsZero
    (show returnsZero (fsyncFile twoFile 0 50000 (twoSized 40960 9040)) = true by decide +kernel)
  refine ⟨w', hrun, (durable_iff htraced (by decide) (by decide) (Int.le_refl 0) hrun).mpr ?_⟩
  exact fun n c _ i _ _ => ⟨Or.inl rfl, nofun⟩

/-- The first client's `fsync` fails, and `fsync` of the file returns 0; and a range in the second segment is handed to
    its client as it is. --/
theorem not_durable_twoSized :
    (∃ w w', w = (twoSized 40960 9040).scripted (failsAt 5 .eio) ∧ fsyncFile twoFile 0 100 w = .ok (.ok ()) w' ∧
      ¬Durable w (twoChain 0) (w'.fsyncs.drop w.fsyncs.length) 0 100) ∧
    ∃ w w', w = twoSized 40960 9040 ∧ fsyncFile twoFile 45000 46000 w = .ok (.ok ()) w' ∧
      ¬Durable w (twoChain 0) (w'.fsyncs.drop w.fsyncs.length) 45000 46000 := by
  obtain ⟨i, hi, hsize⟩ : ∃ i, (twoSized 40960 9040).disk.inode firstIno = some i ∧ i.size = 40960 := ⟨_, rfl, rfl⟩
  obtain ⟨j, hj, hsize'⟩ : ∃ j, (twoSized 40960 9040).disk.inode secondIno = some j ∧ j.size = 9040 := ⟨_, rfl, rfl⟩
  constructor
  · obtain ⟨vn, htraced⟩ := twoSized_traced 40960 9040 (failsAt 5 .eio)
    obtain ⟨w', hrun⟩ := exists_of_returnsZero
      (show returnsZero (fsyncFile twoFile 0 100 ((twoSized 40960 9040).scripted (failsAt 5 .eio))) = true by
        decide +kernel)
    refine ⟨_, w', rfl, hrun, fun hdur => ?_⟩
    rw [fsyncFile_log htraced (by decide) hrun] at hdur
    obtain ⟨f, hmem, hinode, -, -, herr⟩ := hdur _ List.mem_cons_self i hi 0 ⟨by decide, by omega, by decide, by decide⟩
    rcases List.mem_pair.mp hmem with rfl | rfl
    · exact nomatch (show some Errno.eio = none from herr)
    · exact absurd hinode (by decide)
  · obtain ⟨vn, htraced⟩ : ∃ vn, Traced (twoSized 40960 9040) twoFile.dentry vn (twoChain 0) :=
      (twoSized_chain 40960 9040).walkable.traced
    obtain ⟨w', hrun⟩ := exists_of_returnsZero
      (show returnsZero (fsyncFile twoFile 45000 46000 (twoSized 40960 9040)) = true by decide +kernel)
    refine ⟨_, w', rfl, hrun, fun hdur => ?_⟩
    rw [fsyncFile_log htraced (by decide) hrun] at hdur
    obtain ⟨f, hmem, -, hlo, -⟩ := hdur _ (List.mem_cons_of_mem _ List.mem_cons_self) j hj 4040
      ⟨by decide, by omega, by decide, by decide⟩
    rcases List.mem_pair.mp hmem with rfl | rfl
    · exact absurd hlo (by decide)
    · exact absurd hlo (by decide)

end Chunkfs
