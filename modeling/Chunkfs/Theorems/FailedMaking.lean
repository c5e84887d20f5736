import Chunkfs.Make
import Chunkfs.Theorems.Directories
import Chunkfs.Theorems.Making

/-! Making an object that fails. What is undone is the chunkfs inode; the object that the client has made stays. -/

namespace Chunkfs
open Exec

namespace Naming
variable {s s' t : Naming} {w w' : World} {dir : Nat} {name : List Char} {o : NewObject} {links : Nat} {bad : Bool}
  {vn : Vnode} {cd c : ClientIno} {e : Errno}

theorem onWorld_ok {α : Type} {m : Kern α} {a : α} (h : onWorld m s = .ok a s') :
    m s.world = .ok a s'.world ∧ s'.inode = s.inode ∧ s'.client = s.client := by
  unfold onWorld at h
  split at h
  · rename_i hm
    cases h
    exact ⟨hm, rfl, rfl⟩
  · cases h

/-- A call that leaves the world leaves everything. --/
theorem onWorld_same {α : Type} {m : Kern α} {a : α} (hm : ∀ w, m s.world = .ok a w → w = s.world)
    (h : onWorld m s = .ok a s') : s' = s := by
  unfold onWorld at h
  split at h
  · rename_i hr
    cases h
    rw [hm _ hr]
  · cases h

/-- Both end alike and leave the same world, with `P` of what they return. --/
def Agrees {α β : Type} (P : α → β → Naming → Prop) : EStateM.Result Stop Naming α → EStateM.Result Stop World β → Prop
  | .ok a t, .ok b w => t.world = w ∧ P a b t
  | .error e t, .error f w => e = f ∧ t.world = w
  | _, _ => False

theorem agrees_onWorld {α β γ : Type} {P : β → γ → Naming → Prop} {m : Kern α} {f : α → Name β} {g : α → Kern γ}
    (h : ∀ a w, Agrees P (f a { s with world := w }) (g a w)) : Agrees P ((onWorld m >>= f) s) ((m >>= g) s.world) := by
  rw [bind_apply, bind_apply]
  unfold onWorld
  cases m s.world with
  | ok a w => exact h a w
  | error e w => exact ⟨rfl, rfl⟩

/-- The world is that of an operation that does not look at the dentries; an object that is made is in both. --/
theorem make_makeObject (s : Naming) : Agrees (fun r r' t => match r, r' with
      | .ok _, .ok d => t.inode = some d.inode ∧ t.client = some d.client
      | .error e, .error e' => e = e'
      | _, _ => False) (make dir name o links false s) (makeObject dir name o links s.world) := by
  unfold make makeObject
  refine agrees_onWorld fun vn w => ?_
  cases vn.client with
  | none => exact ⟨rfl, rfl⟩
  | some cd =>
    unfold newInode
    dsimp only
    rw [bind_assoc]
    refine agrees_onWorld fun v w => ?_
    rw [if_neg nofun, pure_bind]
    dsimp only
    refine agrees_onWorld fun _ w => ?_
    unfold clientMake
    dsimp only
    rw [bind_assoc]
    refine agrees_onWorld fun r w => ?_
    cases r with
    | error e =>
      rw [pure_bind]
      exact agrees_onWorld fun _ w => ⟨rfl, rfl⟩
    | ok c =>
      dsimp only
      rw [bind_assoc, bind_ok (modify_apply _ _), pure_bind]
      refine agrees_onWorld fun r w => ?_
      cases r with
      | error e => exact agrees_onWorld fun _ w => ⟨rfl, rfl⟩
      | ok _ => exact agrees_onWorld fun _ w => agrees_onWorld fun _ w => ⟨rfl, rfl, rfl⟩

/-! ### What the calls have done -/

theorem ask_answer {r : Option Errno} (h : ask w = .ok r w') :
    w' = { w with env := { w.env with script := w.env.script.tail } } ∧
      ∀ e, r = some e ↔ w.env.script.head? = some (.fails e) := by
  unfold ask at h
  split at h
  · rename_i hs
    cases h
    refine ⟨?_, fun e => ?_⟩
    · rw [hs]
      exact congrArg (fun l => { w with env := { w.env with script := l } }) hs
    · rw [hs]
      exact ⟨nofun, nofun⟩
  · rename_i rest hs
    cases h
    rw [hs]
    exact ⟨rfl, fun e => ⟨nofun, nofun⟩⟩
  · rename_i e' rest hs
    cases h
    rw [hs]
    exact ⟨rfl, fun e => by simp⟩
  · cases h

/-- What `chunkfs_new_inode` has used and added. --/
theorem newInode_added {v : Nat} (h : Chunkfs.newInode w = .ok v w') : v = w.vnext ∧ w'.disk = w.disk ∧
    w'.env = { w.env with script := w.env.script.tail } ∧
      w'.vnode = fun x => if x = w.vnext then some ⟨0, zeroAttrs, 0, none⟩ else w.vnode x := by
  unfold Chunkfs.newInode at h
  obtain ⟨r, w₁, hask, h⟩ := bind_eq_ok.mp h
  obtain ⟨rfl, -⟩ := ask_answer hask
  cases r with
  | some e => cases h
  | none =>
    cases h
    exact ⟨rfl, rfl, rfl, rfl⟩

/-- The client cannot make the object: its operation fails, or the name or the inode is taken. --/
def Refuses (w : World) (dir : ClientIno) (name : List Char) : Prop :=
  (∃ e, w.env.script.head? = some (.fails e)) ∨ (w.disk.entry dir name).isSome ∨
    (w.disk.inode ⟨dir.chunk, w.env.ialloc dir.chunk⟩).isSome

theorem clientMake_error (h : Chunkfs.clientMake cd name o links w = .ok (.error e) w') :
    Refuses w cd name ∧ w'.disk = w.disk ∧ w'.vnode = w.vnode := by
  unfold Chunkfs.clientMake at h
  obtain ⟨r, w₁, hask, h⟩ := bind_eq_ok.mp h
  obtain ⟨rfl, hr⟩ := ask_answer hask
  cases r with
  | some e' =>
    cases h
    exact ⟨Or.inl ⟨e, (hr e).mp rfl⟩, rfl, rfl⟩
  | none =>
    dsimp only at h
    rw [bind_ok (get_apply _)] at h
    split at h
    · rename_i he
      cases h
      exact ⟨Or.inr (Or.inl he), rfl, rfl⟩
    · split at h
      · rename_i hi
        cases h
        exact ⟨Or.inr (Or.inr hi), rfl, rfl⟩
      · cases h

theorem clientMake_made (h : Chunkfs.clientMake cd name o links w = .ok (.ok c) w') :
    ¬Refuses w cd name ∧ w'.disk.entry cd name = some c := by
  unfold Chunkfs.clientMake at h
  obtain ⟨r, w₁, hask, h⟩ := bind_eq_ok.mp h
  obtain ⟨rfl, hr⟩ := ask_answer hask
  cases r with
  | some e' => cases h
  | none =>
    dsimp only at h
    rw [bind_ok (get_apply _)] at h
    split at h
    · cases h
    · rename_i he
      split at h
      · cases h
      · rename_i hi
        cases h
        refine ⟨?_, by simp [Disk.setEntry]⟩
        rintro (⟨e, hfails⟩ | he' | hi')
        · cases (hr e).mpr hfails
        · exact he he'
        · exact hi hi'

theorem initContData_entry {r : Except Errno Unit} (h : initContData c w = .ok r w') : w'.disk.entry = w.disk.entry := by
  let R : World → World → Prop := fun w w' => w'.disk.entry = w.disk.entry
  have : IsPreorder World R := { refl := fun _ => rfl, trans := fun _ _ _ h h' => h'.trans h }
  have hask : Stays R ask := ask_still.mono fun _ _ h => congrArg Disk.entry h.disk
  have hstays : Stays R (setContData c initCd) := setContData_stays hask (fun _ _ _ => rfl) initCd
  exact hstays.of_ok h

/-! ### All or nothing -/

/-- A chunkfs inode has the attributes of its client inode. --/
def Mirrors (w : World) (v : Nat) (c : ClientIno) : Prop :=
  ∀ vn i, w.vnode v = some vn → w.disk.inode c = some i → vn.attrs = i.attrs

/-- Nothing has come of a call: the client directory has the entries it had, there is no new inode, both dentries are
    negative and the directory's attributes are the client's. --/
structure AllOrNothing (s s' : Naming) (dir : Nat) (cd : ClientIno) : Prop where
  entries : ∀ name, s'.world.disk.entry cd name = s.world.disk.entry cd name
  inodes : ∀ c, s.world.disk.inode c = none → s'.world.disk.inode c = none
  negative : s'.inode = none ∧ s'.client = none
  parent : Mirrors s'.world dir cd

/-- Making an object for a negative dentry of the directory. --/
structure Begins (s : Naming) (dir : Nat) (cd : ClientIno) : Prop where
  directory : ∃ vn, s.world.vnode dir = some vn ∧ vn.client = some cd
  fresh : Fresh s.world
  negative : s.inode = none ∧ s.client = none
  parent : Mirrors s.world dir cd

/-- What is left where the disk and the other inodes are as they were. --/
theorem Begins.allOrNothing (h : Begins s dir cd) (hdisk : s'.world.disk = s.world.disk)
    (hvnode : ∀ x, x ≠ s.world.vnext → s'.world.vnode x = s.world.vnode x) (hinode : s'.inode = s.inode)
    (hclient : s'.client = s.client) : AllOrNothing s s' dir cd := by
  obtain ⟨vn, hv, -⟩ := h.directory
  have hne : dir ≠ s.world.vnext := fun he => by
    rw [he, h.fresh _ (Nat.le_refl _)] at hv
    cases hv
  refine ⟨fun _ => by rw [hdisk], fun c hc => by rw [hdisk, hc], ⟨hinode.trans h.negative.1, hclient.trans h.negative.2⟩, ?_⟩
  intro vn' i hv' hi
  rw [hvnode dir hne] at hv'
  rw [hdisk] at hi
  exact h.parent vn' i hv' hi

theorem iput_done {v : Nat} {u : Unit} (h : iput v w = .ok u w') :
    w'.disk = w.disk ∧ ∀ x, x ≠ v → w'.vnode x = w.vnode x := by
  rw [iput_ok h]
  exact ⟨rfl, fun x hx => if_neg hx⟩

/-- The world when the client is asked: one call has been answered. --/
def asked (w : World) : World := { w with env := { w.env with script := w.env.script.tail } }

/-- How a call fails: before the client has made the object, or after. --/
inductive Fails (s : Naming) (cd : ClientIno) (name : List Char) (bad : Bool) (s' : Naming) : Prop
  | early (hdisk : s'.world.disk = s.world.disk) (hvnode : ∀ x, x ≠ s.world.vnext → s'.world.vnode x = s.world.vnode x)
      (hinode : s'.inode = s.inode) (hclient : s'.client = s.client) (h : bad = true ∨ Refuses (asked s.world) cd name)
  | late (c : ClientIno) (hentry : s'.world.disk.entry cd name = some c) (hbad : bad = false)
      (h : ¬Refuses (asked s.world) cd name)

theorem make_fails (hv : s.world.vnode dir = some vn) (hcd : vn.client = some cd)
    (hr : make dir name o links bad s = .ok (.error e) s') : Fails s cd name bad s' := by
  unfold make at hr
  obtain ⟨vn', s₁, hvn, hr⟩ := bind_eq_ok.mp hr
  obtain ⟨hvnodeAt, hi₁, hc₁⟩ := onWorld_ok hvn
  obtain ⟨hvn', hw₁⟩ := vnodeAt_ok hvnodeAt
  rw [hv] at hvn'
  cases hvn'
  rw [hcd] at hr
  obtain ⟨r, s₂, hnew, hr⟩ := bind_eq_ok.mp hr
  unfold newInode at hnew
  obtain ⟨v, s₂', hnew, hbad⟩ := bind_eq_ok.mp hnew
  obtain ⟨hnew, hi₂, hc₂⟩ := onWorld_ok hnew
  rw [hw₁] at hnew
  obtain ⟨rfl, hdisk₂, henv₂, hvnode₂⟩ := newInode_added hnew
  have hothers : ∀ x, x ≠ s.world.vnext → s₂'.world.vnode x = s.world.vnode x := fun x hx => by
    rw [hvnode₂]
    exact if_neg hx
  have hrefuses : Refuses s₂'.world cd name ↔ Refuses (asked s.world) cd name := by
    unfold Refuses
    rw [hdisk₂, henv₂]
    rfl
  cases bad with
  | true =>
    cases hbad
    cases hr
    exact .early hdisk₂ hothers (hi₂.trans hi₁) (hc₂.trans hc₁) (Or.inl rfl)
  | false =>
    cases hbad
    obtain ⟨_, s₃, hnd, hrest⟩ := bind_eq_ok.mp hr
    obtain rfl := onWorld_same (fun _ => copyDownNd_ok) hnd
    obtain ⟨r, s₃, hmake, hr⟩ := bind_eq_ok.mp hrest
    unfold clientMake at hmake
    obtain ⟨r', s₃', hasked, hput⟩ := bind_eq_ok.mp hmake
    obtain ⟨hclientMake, hi₃, hc₃⟩ := onWorld_ok hasked
    cases r' with
    | error e' =>
      cases hput
      obtain ⟨_, s₄, hiput, hr⟩ := bind_eq_ok.mp hr
      obtain ⟨hiput, hi₄, hc₄⟩ := onWorld_ok hiput
      cases hr
      obtain ⟨href, hdisk₃, hvnode₃⟩ := clientMake_error hclientMake
      obtain ⟨hdisk₄, hvnode₄⟩ := iput_done hiput
      refine .early ((hdisk₄.trans hdisk₃).trans hdisk₂) (fun x hx => ?_) (((hi₄.trans hi₃).trans hi₂).trans hi₁)
        (((hc₄.trans hc₃).trans hc₂).trans hc₁) (Or.inr (hrefuses.mp href))
      rw [hvnode₄ x hx, hvnode₃]
      exact hothers x hx
    | ok c =>
      obtain ⟨_, s₄, hset, hret⟩ := bind_eq_ok.mp hput
      cases hset
      cases hret
      obtain ⟨hmade, hentry⟩ := clientMake_made hclientMake
      obtain ⟨r, s₅, hinit, hr⟩ := bind_eq_ok.mp hr
      obtain ⟨hinit, -, -⟩ := onWorld_ok hinit
      cases r with
      | ok _ =>
        obtain ⟨_, s₆, -, hr⟩ := bind_eq_ok.mp hr
        obtain ⟨_, s₇, -, hr⟩ := bind_eq_ok.mp hr
        obtain ⟨_, s₈, -, hr⟩ := bind_eq_ok.mp hr
        cases hr
      | error e' =>
        obtain ⟨_, s₆, hiput, hr⟩ := bind_eq_ok.mp hr
        obtain ⟨hiput, -, -⟩ := onWorld_ok hiput
        cases hr
        refine .late c ?_ rfl (fun href => hmade (hrefuses.mpr href))
        rw [(iput_done hiput).1, initContData_entry hinit]
        exact hentry

/-- A call that fails leaves nothing if and only if it fails before the client has made the object. --/
theorem make_allOrNothing (h : Begins s dir cd) (hr : make dir name o links bad s = .ok (.error e) s') :
    AllOrNothing s s' dir cd ↔ bad = true ∨ Refuses (asked s.world) cd name := by
  obtain ⟨vn, hv, hcd⟩ := h.directory
  cases make_fails hv hcd hr with
  | early hdisk hvnode hinode hclient hearly =>
    exact ⟨fun _ => hearly, fun _ => h.allOrNothing hdisk hvnode hinode hclient⟩
  | late c hentry hbad hmade =>
    constructor
    · intro ha
      have hnone : s.world.disk.entry cd name = none := by
        cases hn : s.world.disk.entry cd name with
        | none => rfl
        | some c' => exact absurd (Or.inr (Or.inl (Option.isSome_iff_exists.mpr ⟨c', hn⟩))) hmade
      rw [ha.entries, hnone] at hentry
      cases hentry
    · rintro (htrue | href)
      · rw [hbad] at htrue
        cases htrue
      · exact absurd href hmade

/-- Each of the four operations is all or nothing if and only if it fails before the client has made the object. --/
theorem all_or_nothing_iff (h : Begins s dir cd) (x : Making) (hr : x.call dir name bad s = .ok (.error e) s') :
    AllOrNothing s s' dir cd ↔ bad = true ∨ Refuses (asked s.world) cd name := by
  cases x with
  | create mode => exact make_allOrNothing h hr
  | mkdir mode => exact make_allOrNothing h hr
  | symlink oldname => exact make_allOrNothing h hr
  | mknod mode dev => exact make_allOrNothing h hr

end Naming

/-! ### A new directory -/

/-- A name in a new directory, where the calls turn out as the script says. --/
def newName (script : List Outcome) : Naming :=
  ⟨{ oneDir 1 with env := { (oneDir 1).env with script := script } }, none, none⟩

theorem newName_begins (script : List Outcome) : Naming.Begins (newName script) 1 firstIno where
  directory := ⟨_, rfl, rfl⟩
  fresh v hv := if_neg fun h => by
    rw [h] at hv
    exact absurd hv (show ¬2 ≤ 1 by decide)
  negative := ⟨rfl, rfl⟩
  parent vn i hv hi := by
    cases hv
    have hdir : (newName script).world.disk.inode firstIno =
        some ((NewObject.inode ⟨0o040755, 0, 2, [], 4096 * 1, false⟩ quietEnv).setFirst 4 initCd) := by
      simp [newName, oneDir, Disk.insert]
    rw [hdir] at hi
    cases hi
    rfl

/-- A call whose client refuses. --/
theorem all_or_nothing_refused : ∃ s', (Making.create 0o100644).call 1 ['a'] false (newName [.works, .fails .enospc]) =
      .ok (.error .enospc) s' ∧ Naming.AllOrNothing (newName [.works, .fails .enospc]) s' 1 firstIno := by
  have hvalue : (failed ((Making.create 0o100644).call 1 ['a'] false (newName [.works, .fails .enospc]))).map (·.1) =
      some .enospc := by decide +kernel
  obtain ⟨⟨e, s'⟩, hr, rfl⟩ := Option.map_eq_some_iff.mp hvalue
  have hr := of_failed hr
  exact ⟨s', hr, (Naming.all_or_nothing_iff (newName_begins _) (.create 0o100644) hr).mpr (Or.inr (Or.inl ⟨_, rfl⟩))⟩

/-- Without space for the third attribute the file is there, and nothing in chunkfs knows of it. --/
theorem not_all_or_nothing_unfinished :
    Naming.Begins (newName [.works, .works, .works, .works, .fails .enospc]) 1 firstIno ∧
      ∃ s', (Making.create 0o100644).call 1 ['a'] false (newName [.works, .works, .works, .works, .fails .enospc]) =
        .ok (.error .enospc) s' ∧
        ¬Naming.AllOrNothing (newName [.works, .works, .works, .works, .fails .enospc]) s' 1 firstIno := by
  refine ⟨newName_begins _, ?_⟩
  have hvalue : (failed ((Making.create 0o100644).call 1 ['a'] false
        (newName [.works, .works, .works, .works, .fails .enospc]))).map
      (fun p => (p.1, p.2.world.disk.entry firstIno ['a'])) = some (.enospc, some ⟨1, 30⟩) := by decide +kernel
  obtain ⟨⟨e, s'⟩, hr, heq⟩ := Option.map_eq_some_iff.mp hvalue
  obtain ⟨rfl, hentry⟩ := Prod.mk.inj heq
  refine ⟨s', of_failed hr, fun ha => ?_⟩
  rw [ha.entries ['a']] at hentry
  cases hentry

end Chunkfs
