import OSLab.Fs.Proof.Inodes
import OSLab.Lib.Ledger
import Mathlib.Algebra.Group.Pi.Lemmas
import Mathlib.Data.List.Nodup

/-!
# Reference counts of inodes

Between two commands the shell holds one reference, to its current directory.
`Testfs.surplus` is what the in-memory inodes count beyond it.

* `command_balanced`: a command leaves the surplus as it was, unless it is an `ls` or `lsr`
  of something that is not a directory, which leaves one reference behind.
* `counts_balance`: so in every run without such a command the current directory is the
  only in-memory inode after each command, with the count 1, and the table is empty after
  the end.
-/

namespace OSLab.Fs

open Prog

variable {s t : Testfs} {nr nr' : ℤ} {α β : Type} {ls : List Event}

/-! ### The table of inodes -/

/-- How many references are held to an inode. -/
def Testfs.refs (s : Testfs) (nr : ℤ) : ℤ := (s.find nr).elim 0 (·.iCount)

/-- Each in-memory inode is there once, and somebody holds it. -/
structure Counted (s : Testfs) : Prop where
  nodup : (s.inodes.map (·.iNr)).Nodup
  pos : ∀ ino ∈ s.inodes, 0 < ino.iCount

/-- The references that are held beyond the shell's own. -/
def Testfs.surplus (s : Testfs) : ℤ → ℤ := s.refs - Pi.single s.curDir 1

/-- The program gives back as many references as it takes. -/
abbrev Balanced (c : Prog Testfs α) : Prop := Adds Counted Testfs.surplus c fun _ => 0

section Assigns

variable {n : ℤ} {g : Inode → Inode}

theorem surplus_update (hg : Assigns n g) (hf : n = 0 ∨ (s.find nr).isSome = true) :
    (s.updateInode nr g).surplus = s.surplus + Pi.single nr n := by
  have hr : (s.updateInode nr g).refs = s.refs + Pi.single nr n := by
    funext x
    unfold Testfs.refs
    rw [find_update hg, Pi.add_apply]
    by_cases h : x = nr
    · subst h
      rw [Pi.single_eq_same]
      cases hx : s.find x with
      | none =>
        obtain rfl : n = 0 := by simpa [hx] using hf
        rfl
      | some ino => simp [(find_mem hx).2, hg.iCount]
    · rw [Pi.single_eq_of_ne h, add_zero]
      cases hx : s.find x with
      | none => rfl
      | some ino =>
        have hne : ino.iNr ≠ nr := by
          rw [(find_mem hx).2]
          exact h
        simp [hne]
  unfold Testfs.surplus
  rw [hr]
  exact add_sub_right_comm ..

theorem Counted.update (h : Counted s) (hg : Assigns n g)
    (hc : ∀ ino ∈ s.inodes, ino.iNr = nr → 0 < ino.iCount + n) : Counted (s.updateInode nr g) := by
  constructor
  · have hmap : (s.updateInode nr g).inodes.map (·.iNr) = s.inodes.map (·.iNr) := by
      unfold Testfs.updateInode inodeHashUpdate
      rw [List.map_map]
      refine List.map_congr_left ?_
      intro ino _
      simp only [Function.comp]
      split
      · exact hg.iNr ino
      · rfl
    rw [hmap]
    exact h.nodup
  · intro ino hm
    obtain ⟨ino', hm', rfl⟩ := List.mem_map.1 hm
    split
    · rw [hg.iCount]
      exact hc ino' hm' ‹_›
    · exact h.pos ino' hm'

theorem Counted.assign (h : Counted s) (hg : Assigns 0 g) : Counted (s.updateInode nr g) := by
  refine h.update hg ?_
  intro ino hm _
  rw [add_zero]
  exact h.pos ino hm

theorem surplus_assign (hg : Assigns 0 g) : (s.updateInode nr g).surplus = s.surplus := by
  rw [surplus_update hg (Or.inl rfl), Pi.single_zero, add_zero]

end Assigns

/-- Two in-memory inodes with one number are the same. -/
theorem Counted.unique {ino : Inode} (h : Counted s) (hm : ino ∈ s.inodes) :
    s.find ino.iNr = some ino := by
  unfold Testfs.find inodeHashFind
  cases hf : s.inodes.find? fun x => x.iNr = ino.iNr with
  | none =>
    have := List.find?_eq_none.1 hf ino hm
    simp at this
  | some ino' =>
    have hn : ino'.iNr = ino.iNr := by simpa using List.find?_some hf
    rw [List.inj_on_of_nodup_map h.nodup (List.mem_of_find?_eq_some hf) hm hn]

/-! ### The functions of the table -/

theorem getInode_adds (nr : ℤ) :
    Adds Counted Testfs.surplus (testfsGetInode nr) fun _ => Pi.single nr 1 := by
  intro s hs
  simp only [testfsGetInode, wp_bind, wp_getState]
  cases hf : s.find nr with
  | some ino =>
    have hg : Assigns 1 fun ino : Inode => { ino with iCount := ino.iCount + 1 } :=
      ⟨fun _ => rfl, fun _ => rfl⟩
    simp only [wp_modify]
    refine ⟨hs.update hg ?_, surplus_update hg (Or.inr (by rw [hf]; rfl))⟩
    intro ino' hm _
    have := hs.pos ino' hm
    omega
  | none =>
    simp only [testfsReadInodeBlock, wp_bind, wp_getState]
    refine wp_reads_of ?_
    intro k _
    rw [wp_onSb, readBlock]
    refine wp_reads_of ?_
    intro b _
    rw [wp_modify]
    generalize DInode.decode _ = din
    constructor
    · constructor
      · rw [List.map_cons, List.nodup_cons]
        refine ⟨?_, hs.nodup⟩
        intro hm
        obtain ⟨ino, hm, hn⟩ := List.mem_map.1 hm
        have := hs.unique hm
        rw [hn, hf] at this
        simp at this
      · intro ino hm
        rcases List.mem_cons.1 hm with rfl | hm
        · exact Int.one_pos
        · exact hs.pos ino hm
    · unfold Testfs.surplus
      have hr : Testfs.refs { s with inodes := ⟨din, false, nr, 1⟩ :: s.inodes } =
          s.refs + Pi.single nr 1 := by
        funext x
        by_cases h : x = nr
        · subst h
          have h0 : s.refs x = 0 := by simp [Testfs.refs, hf]
          rw [Pi.add_apply, h0]
          simp [Testfs.refs, Testfs.find, inodeHashFind]
        · rw [Pi.add_apply, Pi.single_eq_of_ne h, add_zero]
          simp [Testfs.refs, Testfs.find, inodeHashFind, Ne.symm h]
      rw [hr]
      exact add_sub_right_comm ..

theorem putInode_adds (nr : ℤ) :
    Adds Counted Testfs.surplus (testfsPutInode nr) fun _ => -Pi.single nr 1 := by
  intro s hs
  simp only [testfsPutInode, inode, wp_bind]
  refine wp_reads_of ?_
  intro ino hf
  obtain ⟨hm, hn⟩ := find_mem hf
  have hc := hs.pos ino hm
  simp only [wp_require, wp_ite, wp_modify]
  refine ⟨fun _ => ⟨fun hlast => ?_, fun hmore => ?_⟩, fun _ => trivial⟩
  · constructor
    · have hsub := List.eraseP_sublist (p := fun x : Inode => decide (x.iNr = nr)) (l := s.inodes)
      exact ⟨(hsub.map _).nodup hs.nodup, fun ino' hm' => hs.pos ino' (hsub.subset hm')⟩
    · have hr : Testfs.refs { s with inodes := inodeHashRemove s.inodes nr } =
          s.refs + -Pi.single nr 1 := by
        funext x
        have hx := find_remove nr x hs.nodup
        unfold Testfs.refs Testfs.find
        rw [hx, Pi.add_apply, Pi.neg_apply]
        by_cases h : x = nr
        · subst h
          rw [if_pos rfl, Pi.single_eq_same]
          have hf' : inodeHashFind s.inodes x = some ino := hf
          rw [hf']
          show (0 : ℤ) = ino.iCount + -1
          omega
        · rw [if_neg h, Pi.single_eq_of_ne h]
          simp
      unfold Testfs.surplus
      rw [hr]
      exact add_sub_right_comm ..
  · have hg : Assigns (-1) fun ino : Inode => { ino with iCount := ino.iCount - 1 } :=
      ⟨fun _ => rfl, fun _ => rfl⟩
    have hs' := surplus_update (s := s) hg (Or.inr (by rw [hf]; rfl))
    refine ⟨hs.update hg ?_, ?_⟩
    · intro ino' hm' hn'
      have := hs.unique hm'
      rw [hn', hf] at this
      obtain rfl := Option.some.inj this
      omega
    · rw [hs', Pi.single_neg]

/-- Assigning to fields other than the count. -/
theorem assign_balanced {g : Inode → Inode} (hg : Assigns 0 g) :
    Balanced (modify (·.updateInode nr g)) := by
  refine .modify ?_ ?_
  · intro s hs
    exact hs.assign hg
  · intro s _
    rw [surplus_assign hg, add_zero]

theorem onSb_balanced (c : Prog SuperBlock α) : Balanced (onSb c) :=
  .zoom (fun _ _ hs => ⟨hs.nodup, hs.pos⟩) fun _ _ => rfl

theorem onInode_balanced (nr : ℤ) (c : Prog FileState α) : Balanced (onInode nr c) := by
  have hg : ∀ f : FileState, Assigns 0 fun ino : Inode =>
      { ino with din := f.ino.din, dirty := f.ino.dirty } :=
    fun f => ⟨fun _ => rfl, fun _ => (add_zero _).symm⟩
  refine .zoom ?_ ?_
  · intro f s hs
    have ht : Counted (s.updateInode nr _) := hs.assign (hg f)
    exact ⟨ht.nodup, ht.pos⟩
  · intro f s
    exact surplus_assign (hg f)

theorem reads_balanced (g : Testfs → Option α) : Balanced (reads g) := .reads fun _ => rfl

theorem syncInode_balanced (nr : ℤ) : Balanced (testfsSyncInode nr) := by
  unfold testfsSyncInode
  refine .bind_zero (reads_balanced _) fun ino => .ite (fun _ => ?_) fun _ => .pure rfl
  unfold testfsReadInodeBlock testfsWriteInodeBlock
  refine .bind_zero ?_ fun block => .bind_zero ?_ fun _ => assign_balanced ?_
  · exact .bind_zero (reads_balanced _) fun _ => .getState_bind fun _ => onSb_balanced _
  · exact .bind_zero (reads_balanced _) fun _ => .getState_bind fun _ => onSb_balanced _
  · exact ⟨fun _ => rfl, fun _ => (add_zero _).symm⟩

theorem putInode_curDir (s : Testfs) (nr : ℤ) :
    wp True (testfsPutInode nr) (fun _ t => t.curDir = s.curDir) s := by
  simp only [testfsPutInode, inode, wp_bind]
  refine wp_reads_of ?_
  intro ino _
  simp only [wp_require, wp_ite, wp_modify]
  exact ⟨fun _ => ⟨fun _ => trivial, fun _ => rfl⟩, fun _ => trivial⟩

theorem inode_balanced (nr : ℤ) : Balanced (inode nr) := reads_balanced _

theorem createInode_adds (type : ℤ) : Adds Counted Testfs.surplus (testfsCreateInode type)
    fun | .error _ => 0 | .ok nr => Pi.single (nr : ℤ) 1 := by
  unfold testfsCreateInode
  refine .bind_zero (onSb_balanced _) fun r => ?_
  cases r with
  | error e => exact .pure rfl
  | ok nr =>
    refine .ite (fun _ => ?_) fun _ => ?_
    · exact .bind_zero (onSb_balanced _) fun _ => .pure rfl
    · refine .bind (getInode_adds nr) fun _ => .bind_zero (onInode_balanced _ _) fun _ => ?_
      exact .pure (sub_self _)

theorem removeInode_adds (nr : ℤ) :
    Adds Counted Testfs.surplus (testfsRemoveInode nr) fun _ => -Pi.single nr 1 := by
  unfold testfsRemoveInode
  refine .bind_zero (onInode_balanced _ _) fun _ => .bind_zero (inode_balanced _) fun ino => ?_
  refine .bind_zero (.require rfl) fun _ => .bind_zero (onInode_balanced _ _) fun _ => ?_
  refine .bind_zero (onSb_balanced _) fun _ => .bind_zero (syncInode_balanced _) fun _ => ?_
  exact putInode_adds nr

/-! ### Directories -/

theorem removeDirentAllowed_balanced (nr : ℤ) : Balanced (testfsRemoveDirentAllowed nr) := by
  unfold testfsRemoveDirentAllowed
  refine .bind (getInode_adds nr) fun _ => .bind (inode_balanced _) fun dir => ?_
  refine .bind (reads_balanced _) fun ret => .bind (putInode_adds nr) fun _ => ?_
  exact .pure (by simp)

theorem removeDirent_balanced (dir : ℤ) (name : CString) :
    Balanced (testfsRemoveDirent dir name) := by
  unfold testfsRemoveDirent
  refine .ite (fun _ => .pure rfl) fun _ => .bind_zero (inode_balanced _) fun ino => ?_
  refine .bind_zero (reads_balanced _) fun r => ?_
  cases r with
  | inr _ => exact .pure rfl
  | inl e =>
    refine .bind_zero (removeDirentAllowed_balanced _) fun ret => .ite (fun _ => .pure rfl) fun _ => ?_
    exact .bind_zero (onInode_balanced _ _) fun ret => .ite (fun _ => .pure rfl) fun _ => .pure rfl

theorem createEmptyDir_balanced (pInodeNr cdir : ℤ) :
    Balanced (testfsCreateEmptyDir pInodeNr cdir) := by
  unfold testfsCreateEmptyDir
  refine .bind_zero (onInode_balanced _ _) fun ret => .ite (fun _ => .pure rfl) fun _ => ?_
  refine .bind_zero (onInode_balanced _ _) fun ret => .ite (fun _ => ?_) fun _ => .pure rfl
  exact .bind_zero (removeDirent_balanced _ _) fun _ => .pure rfl

theorem createUndo_adds (nr : ℕ) (ret : ℤ) :
    Adds Counted Testfs.surplus (createUndo nr ret) fun _ => -Pi.single (nr : ℤ) 1 := by
  unfold createUndo
  exact .bind (removeInode_adds nr) fun _ => .pure (sub_self _)

theorem createEntry_adds (dir : Option (ℤ × CString)) (nr : ℕ) :
    Adds Counted Testfs.surplus (createEntry dir nr) fun _ => -Pi.single (nr : ℤ) 1 := by
  unfold createEntry
  rcases dir with _ | ⟨dir, name⟩
  · refine .bind_zero (syncInode_balanced _) fun _ => .bind (putInode_adds _) fun _ => ?_
    exact .pure (sub_self _)
  · refine .bind_zero (onInode_balanced _ _) fun ret => .ite (fun _ => createUndo_adds nr ret) fun _ => ?_
    refine .bind_zero (syncInode_balanced _) fun _ => .bind_zero (syncInode_balanced _) fun _ => ?_
    exact .bind (putInode_adds _) fun _ => .pure (sub_self _)

theorem createInode_balanced (dir : Option (ℤ × CString)) (type : ℤ) :
    Balanced (createInode dir type) := by
  unfold createInode
  refine .bind (createInode_adds type) fun r => ?_
  cases r with
  | error e => exact .pure (sub_self _)
  | ok nr =>
    refine .ite (fun _ => .bind_zero (createEmptyDir_balanced _ _) fun ret => ?_) fun _ => ?_
    · refine .ite (fun _ => ?_) fun _ => ?_
      · exact (createUndo_adds nr ret).congr fun _ => (zero_sub _).symm
      · exact (createEntry_adds dir nr).congr fun _ => (zero_sub _).symm
    · exact (createEntry_adds dir nr).congr fun _ => (zero_sub _).symm

theorem createFileOrDir_balanced (dir : Option (ℤ × CString)) (type : ℤ) :
    Balanced (testfsCreateFileOrDir dir type) := by
  unfold testfsCreateFileOrDir
  rcases dir with _ | ⟨d, name⟩
  · exact createInode_balanced none type
  · refine .bind_zero (inode_balanced _) fun ino => .bind_zero (reads_balanced _) fun nr => ?_
    exact .ite (fun _ => .pure rfl) fun _ => createInode_balanced _ _

theorem pwd_balanced (fuel : ℕ) (nr : ℤ) : Balanced (testfsPwd fuel nr) := by
  induction fuel generalizing nr with
  | zero => exact .abort
  | succ fuel ih =>
    unfold testfsPwd
    refine .bind_zero (inode_balanced _) fun ino => .bind_zero (reads_balanced _) fun pnr => ?_
    refine .bind_zero (.require rfl) fun _ => .ite (fun _ => .pure rfl) fun _ => ?_
    refine .bind (getInode_adds pnr) fun _ => .bind (inode_balanced _) fun pin => ?_
    refine .bind (reads_balanced _) fun d => ?_
    cases d with
    | none => exact .abort
    | some d =>
      refine .bind (ih pnr) fun r => .bind (putInode_adds pnr) fun _ => .pure ?_
      simp

theorem ls_balanced (fuel : ℕ) (nr : ℤ) (recursive : Bool) (offset : ℤ) :
    Balanced (testfsLs fuel nr recursive offset) := by
  induction fuel generalizing nr offset with
  | zero => exact .abort
  | succ fuel ih =>
    unfold testfsLs
    refine .bind_zero (inode_balanced _) fun ino => .bind_zero (reads_balanced _) fun r => ?_
    rcases r with _ | ⟨d, offset'⟩
    · exact .pure rfl
    refine .ite (fun _ => ih _ _) fun _ => ?_
    refine .bind (getInode_adds _) fun _ => .bind (inode_balanced _) fun cin => ?_
    refine .bind (reads_balanced _) fun descend => ?_
    refine .bind (e := fun _ => 0) (.ite (fun _ => ih _ _) fun _ => .pure rfl) fun below => ?_
    refine .bind (putInode_adds _) fun _ => .bind (ih _ _) fun rest => .pure ?_
    simp

/-! ### Commands -/

theorem lookupCur_balanced (name : CString) : Balanced (lookupCur name) := by
  unfold lookupCur
  exact .getState_bind fun _ => .bind_zero (inode_balanced _) fun _ => reads_balanced _

theorem getFileInode_adds (name : CString) : Adds Counted Testfs.surplus (testfsGetFileInode name)
    fun ret => if ret < 0 then 0 else Pi.single ret 1 := by
  unfold testfsGetFileInode
  refine .bind_zero (lookupCur_balanced _) fun nr => .ite (fun hn => .pure (if_pos hn)) fun hn => ?_
  refine .bind (getInode_adds nr) fun _ => .bind (inode_balanced _) fun ino => .ite (fun _ => ?_) fun _ => ?_
  · refine .bind (putInode_adds nr) fun _ => .pure ?_
    simp [eisdir]
  · exact .pure (by simp [hn])

theorem cmdPwd_balanced (fuel : ℕ) (args : List CString) : Balanced (cmdPwd fuel args) := by
  unfold cmdPwd
  split
  · exact .getState_bind fun s => .bind_zero (pwd_balanced _ _) fun r => .pure rfl
  · exact .pure rfl

theorem cmdCreateType_balanced (type : ℤ) (args : List CString) :
    Balanced (cmdCreateType type args) := by
  unfold cmdCreateType
  split
  · exact .getState_bind fun s => .bind_zero (createFileOrDir_balanced _ _) fun r => .pure rfl
  · exact .pure rfl

theorem cmdRm_balanced (args : List CString) : Balanced (cmdRm args) := by
  unfold cmdRm
  split
  · refine .getState_bind fun s => .bind_zero (removeDirent_balanced _ _) fun nr => ?_
    refine .ite (fun _ => .pure rfl) fun _ => .bind (getInode_adds nr) fun _ => ?_
    refine .bind (removeInode_adds nr) fun _ => .bind (syncInode_balanced _) fun _ => .pure ?_
    simp
  · exact .pure rfl

theorem cmdStat_balanced (args : List CString) : Balanced (cmdStat args) := by
  unfold cmdStat
  split
  · refine .bind_zero (lookupCur_balanced _) fun nr => .ite (fun _ => .pure rfl) fun _ => ?_
    refine .bind (getInode_adds nr) fun _ => .bind (inode_balanced _) fun ino => ?_
    refine .bind (putInode_adds nr) fun _ => .pure ?_
    simp
  · exact .pure rfl

theorem readFile_balanced (nr offset size : ℤ) : Balanced (readFile nr offset size) := by
  unfold readFile
  refine .bind_zero (inode_balanced _) fun ino => .bind_zero (.require rfl) fun _ => ?_
  refine .ite (fun _ => .pure rfl) fun _ => .ite (fun _ => .pure rfl) fun _ => ?_
  refine .bind_zero (reads_balanced _) fun r => .ite (fun _ => ?_) fun _ => .pure rfl
  exact .bind_zero (.require rfl) fun _ => .pure rfl

theorem cmdRead_balanced (args : List CString) : Balanced (cmdRead args) := by
  unfold cmdRead
  split
  · split
    · exact .pure rfl
    · refine .ite (fun _ => .pure rfl) fun _ => ?_
      split
      · exact .pure rfl
      · refine .bind (getFileInode_adds _) fun nr => .ite (fun hn => .pure (by simp [hn])) fun hn => ?_
        refine .bind (readFile_balanced _ _ _) fun r => .bind (putInode_adds nr) fun _ => .pure ?_
        simp [hn]
  · exact .pure rfl

theorem cmdWrite_balanced (args : List CString) : Balanced (cmdWrite args) := by
  unfold cmdWrite
  split
  · split
    · exact .pure rfl
    · refine .ite (fun _ => .pure rfl) fun _ => ?_
      refine .bind (getFileInode_adds _) fun nr => .ite (fun hn => .pure (by simp [hn])) fun hn => ?_
      refine .bind (onInode_balanced _ _) fun r => .bind (syncInode_balanced _) fun _ => ?_
      refine .bind (putInode_adds nr) fun _ => .pure ?_
      simp [hn]
  · exact .pure rfl

theorem cmdFsstat_balanced (args : List CString) : Balanced (cmdFsstat args) := by
  unfold cmdFsstat
  split
  · exact .getState_bind fun s => .pure rfl
  · exact .pure rfl

/-- `cd` takes a reference to the new directory and gives up the one to the old. -/
theorem cmdCd_balanced (args : List CString) : Balanced (cmdCd args) := by
  unfold cmdCd
  split
  · refine .bind_zero (lookupCur_balanced _) fun nr => .ite (fun _ => .pure rfl) fun _ => ?_
    refine .bind (getInode_adds nr) fun _ => .bind (inode_balanced _) fun dir => .ite (fun _ => ?_) fun _ => ?_
    · refine .bind (putInode_adds nr) fun _ => .pure ?_
      simp
    · intro s hs
      rw [wp_bind, wp_getState, wp_bind]
      refine wp_mono (wp_and (putInode_adds s.curDir s hs) (putInode_curDir s s.curDir)) ?_
      rintro _ t ⟨⟨ht, hsur⟩, hcur⟩
      rw [wp_bind, wp_modify, wp_pure]
      refine ⟨⟨ht.nodup, ht.pos⟩, ?_⟩
      -- the shell's own reference moves to the new directory
      have h1 : Testfs.surplus { t with curDir := nr } =
          t.surplus + Pi.single s.curDir 1 - Pi.single nr 1 := by
        show t.refs - Pi.single nr 1 = _
        unfold Testfs.surplus
        rw [hcur, sub_add_cancel]
      rw [h1, hsur, neg_add_cancel_right]
      simp [sub_eq_add_neg]
  · exact .pure rfl

/-- The name of an `ls` is found, and is not a directory. -/
def ListsFile (s : Testfs) (args : List CString) : Prop :=
  ∃ name dir nr, args = [name] ∧ s.find s.curDir = some dir ∧
    testfsDirNameToInodeNr s.sb dir name = some nr ∧ 0 ≤ nr ∧ (s.dinode nr).iType ≠ iDir

/-- The command lists something that is not a directory. -/
def Command.Leaks (c : Command) (s : Testfs) : Prop :=
  (c.cmd = .ls ∨ c.cmd = .lsr) ∧ ListsFile s c.args

/-- The references after a command: one too many if it leaks. -/
def Leaves (leaks : Prop) (s t : Testfs) : Prop :=
  Counted t ∧ (¬leaks ∧ t.surplus = s.surplus ∨ leaks ∧ ∃ nr, t.surplus = s.surplus + Pi.single nr 1)

theorem cmdLsInternal_leaves (hs : Counted s) (fuel : ℕ) (args : List CString) (recursive : Bool) :
    wp True (cmdLsInternal fuel args recursive) (fun _ t => Leaves (ListsFile s args) s t) s := by
  unfold cmdLsInternal
  split
  · rename_i name
    simp only [lookupCur, inode, wp_bind, wp_getState]
    refine wp_reads_of ?_
    intro dir hdir
    refine wp_reads_of ?_
    intro nr hnr
    have hiff : ListsFile s [name] ↔ 0 ≤ nr ∧ (s.dinode nr).iType ≠ iDir := by
      constructor
      · rintro ⟨name', dir', nr', hn, hd, hl, h0, ht⟩
        obtain rfl : name = name' := by simpa using hn
        obtain rfl := Option.some.inj (hdir.symm.trans hd)
        obtain rfl := Option.some.inj (hnr.symm.trans hl)
        exact ⟨h0, ht⟩
      · rintro ⟨h0, ht⟩
        exact ⟨name, dir, nr, rfl, hdir, hnr, h0, ht⟩
    simp only [wp_ite, wp_pure, wp_bind]
    refine ⟨fun hneg => ⟨hs, Or.inl ⟨fun hl => ?_, rfl⟩⟩, fun hpos => ?_⟩
    · have := (hiff.1 hl).1
      omega
    refine wp_mono (wp_and (getInode_adds nr s hs) (getInode_found s nr)) ?_
    rintro _ s₁ ⟨⟨hs₁, hsur⟩, -, -, ⟨ino, hino, hdin⟩, -⟩
    refine wp_reads _ hino ?_
    rw [hdin]
    refine ⟨fun hd => ?_, fun hnd => ⟨hs₁, Or.inr ⟨hiff.2 ⟨not_lt.1 hpos, hnd⟩, nr, hsur⟩⟩⟩
    refine wp_mono (ls_balanced fuel nr recursive 0 s₁ hs₁) ?_
    rintro out s₂ ⟨hs₂, hsur₂⟩
    refine wp_mono (putInode_adds nr s₂ hs₂) ?_
    rintro _ t ⟨ht, hsur₃⟩
    refine ⟨ht, Or.inl ⟨fun hl => (hiff.1 hl).2 hd, ?_⟩⟩
    rw [hsur₃, hsur₂, hsur, add_zero, add_neg_cancel_right]
  · rename_i hne
    rw [wp_pure]
    refine ⟨hs, Or.inl ⟨?_, rfl⟩⟩
    rintro ⟨name, dir, nr, rfl, -⟩
    exact hne name rfl

/-- **What a command does to the references.** -/
theorem command_leaves (hs : Counted s) {fuel : ℕ} {c : Command} {r : Reply}
    (hr : c.run fuel s = some (r, t)) : Leaves (c.Leaks s) s t := by
  have hbal : ∀ {p : Prog Testfs Reply}, Balanced p → c.cmd ≠ .ls → c.cmd ≠ .lsr →
      p s = some (r, t) → Leaves (c.Leaks s) s t := by
    intro p hp h1 h2 hrun
    obtain ⟨ht, hsur⟩ := hp.of_run hs hrun
    refine ⟨ht, Or.inl ⟨?_, by rw [hsur, add_zero]⟩⟩
    rintro ⟨h | h, -⟩
    · exact h1 h
    · exact h2 h
  have hls : ∀ {recursive}, (c.cmd = .ls ∨ c.cmd = .lsr) →
      cmdLsInternal fuel c.args recursive s = some (r, t) → Leaves (c.Leaks s) s t := by
    intro recursive hc hrun
    have hleak : c.Leaks s ↔ ListsFile s c.args := by simp [Command.Leaks, hc]
    rw [hleak]
    exact (cmdLsInternal_leaves hs fuel c.args recursive).of_run hrun
  unfold Command.run at hr
  cases hc : c.cmd with
  | cd => rw [hc] at hr; exact hbal (cmdCd_balanced _) (by simp [hc]) (by simp [hc]) hr
  | pwd => rw [hc] at hr; exact hbal (cmdPwd_balanced _ _) (by simp [hc]) (by simp [hc]) hr
  | ls => rw [hc] at hr; exact hls (Or.inl hc) hr
  | lsr => rw [hc] at hr; exact hls (Or.inr hc) hr
  | create => rw [hc] at hr; exact hbal (cmdCreateType_balanced _ _) (by simp [hc]) (by simp [hc]) hr
  | stat => rw [hc] at hr; exact hbal (cmdStat_balanced _) (by simp [hc]) (by simp [hc]) hr
  | rm => rw [hc] at hr; exact hbal (cmdRm_balanced _) (by simp [hc]) (by simp [hc]) hr
  | mkdir => rw [hc] at hr; exact hbal (cmdCreateType_balanced _ _) (by simp [hc]) (by simp [hc]) hr
  | read => rw [hc] at hr; exact hbal (cmdRead_balanced _) (by simp [hc]) (by simp [hc]) hr
  | write => rw [hc] at hr; exact hbal (cmdWrite_balanced _) (by simp [hc]) (by simp [hc]) hr
  | fsstat => rw [hc] at hr; exact hbal (cmdFsstat_balanced _) (by simp [hc]) (by simp [hc]) hr

/-! ### Runs -/

/-- The current directory is the only in-memory inode, and is held once. -/
def OneInode (s : Testfs) : Prop := ∃ ino, s.inodes = [ino] ∧ ino.iNr = s.curDir ∧ ino.iCount = 1

theorem oneInode_iff : OneInode s ↔ Counted s ∧ s.surplus = 0 := by
  constructor
  · rintro ⟨ino, hl, hn, hc⟩
    refine ⟨⟨by simp [hl], ?_⟩, ?_⟩
    · intro ino' hm
      rw [hl, List.mem_singleton] at hm
      rw [hm, hc]
      exact Int.one_pos
    · unfold Testfs.surplus
      rw [sub_eq_zero]
      funext x
      unfold Testfs.refs Testfs.find inodeHashFind
      rw [hl]
      by_cases h : x = s.curDir
      · subst h
        simp [hn, hc]
      · have hne : ino.iNr ≠ x := by
          rw [hn]
          exact Ne.symm h
        simp [hne, h]
  · rintro ⟨hs, hsur⟩
    have hrefs : s.refs = Pi.single s.curDir 1 := sub_eq_zero.1 hsur
    -- only the current directory is held, so only it is in the table
    have hall : ∀ ino ∈ s.inodes, ino.iNr = s.curDir ∧ ino.iCount = 1 := by
      intro ino hm
      have hr : s.refs ino.iNr = ino.iCount := by
        unfold Testfs.refs
        rw [hs.unique hm]
        rfl
      have hpos := hs.pos ino hm
      rw [hrefs] at hr
      by_cases h : ino.iNr = s.curDir
      · rw [h, Pi.single_eq_same] at hr
        exact ⟨h, hr.symm⟩
      · rw [Pi.single_eq_of_ne h] at hr
        omega
    cases hl : s.inodes with
    | nil =>
      have h0 : s.refs s.curDir = 0 := by simp [Testfs.refs, Testfs.find, inodeHashFind, hl]
      rw [hrefs, Pi.single_eq_same] at h0
      omega
    | cons ino rest =>
      obtain ⟨hn, hc⟩ := hall ino (by simp [hl])
      refine ⟨ino, ?_, hn, hc⟩
      cases rest with
      | nil => exact hl
      | cons ino' rest =>
        have hnd := hs.nodup
        have hn' := (hall ino' (by simp [hl])).1
        rw [hl] at hnd
        simp [hn, hn'] at hnd

theorem mount_oneInode {dev : Device} (h : mount dev = some s) : OneInode s := by
  unfold mount at h
  split at h
  · simp at h
  rename_i s₀ h₀
  split at h
  · simp at h
  rename_i s₁ h₁
  obtain rfl := Option.some.inj h
  obtain ⟨sb, -, rfl⟩ := Option.map_eq_some_iff.1 h₀
  have hs₀ : Counted ⟨sb, [], 0⟩ := ⟨List.nodup_nil, by simp⟩
  have hsur₀ : Testfs.surplus ⟨sb, [], 0⟩ = -Pi.single 0 1 := by
    unfold Testfs.surplus
    rw [sub_eq_neg_self]
    rfl
  obtain ⟨hs₁, hsur₁⟩ := (getInode_adds 0).of_run hs₀ h₁
  have hcur : s₁.curDir = 0 := ((getInode_found _ 0).of_run h₁).2.1
  refine oneInode_iff.2 ⟨⟨hs₁.nodup, hs₁.pos⟩, ?_⟩
  have hsame : Testfs.surplus { s₁ with curDir := 0 } = s₁.surplus := by
    unfold Testfs.surplus
    rw [hcur]
    rfl
  rw [hsame, hsur₁, hsur₀, neg_add_cancel]

/-- A command that does not list a file. -/
def tidyStep (s : Testfs) (e : Event) (t : Testfs) : Prop := ¬e.command.Leaks s ∧ step s e t

/-- **The references balance after a command exactly if it did not list a file.** -/
theorem oneInode_step {e : Event} (hs : OneInode s) (hst : step s e t) :
    OneInode t ↔ ¬e.command.Leaks s := by
  obtain ⟨fuel, hrun⟩ := hst
  obtain ⟨hcount, hsur⟩ := oneInode_iff.1 hs
  obtain ⟨ht, h⟩ := command_leaves hcount hrun
  rw [hsur] at h
  constructor
  · intro hone hleak
    rcases h with ⟨hno, -⟩ | ⟨-, nr, hnr⟩
    · exact hno hleak
    · rw [(oneInode_iff.1 hone).2, zero_add] at hnr
      have := congrFun hnr nr
      rw [Pi.single_eq_same] at this
      simp at this
  · intro hno
    rcases h with ⟨-, h0⟩ | ⟨hleak, -⟩
    · exact oneInode_iff.2 ⟨ht, h0⟩
    · exact absurd hleak hno

theorem OneInode.unmount (h : OneInode s) (hu : unmount s = some ((), t)) : t.inodes = [] := by
  obtain ⟨ino, hl, hn, hc⟩ := h
  have hw : wp True Fs.unmount (fun _ t => t.inodes = []) s := by
    simp only [Fs.unmount, testfsPutInode, inode, wp_bind, wp_getState]
    have hf : s.find s.curDir = some ino := by simp [Testfs.find, inodeHashFind, hl, hn]
    refine wp_reads _ hf ?_
    simp only [wp_require, wp_ite, wp_modify, hc]
    refine ⟨fun _ => ⟨fun _ => ?_, fun hne => absurd (sub_self 1) hne⟩, fun _ => trivial⟩
    simp [inodeHashRemove, hl, hn]
  exact hw.of_run hu

/-- **Reference counts balance.** In every run of commands on a file system that was opened, in
which no `ls` or `lsr` names a file, the current directory is the only in-memory inode after
each command and is held once; after the end the table is empty. -/
theorem counts_balance {dev : Device} (hm : mount dev = some s) (hr : Run tidyStep s ls t) :
    (∃ ino, t.inodes = [ino] ∧ ino.iNr = t.curDir ∧ ino.iCount = 1) ∧
    ∀ u, unmount t = some ((), u) → u.inodes = [] ∧ inodeHashDestroy u = some ((), u) := by
  have hone : OneInode t := by
    refine run_inv ?_ hr (mount_oneInode hm)
    intro s e t hs hst
    exact (oneInode_step hs hst.2).2 hst.1
  refine ⟨hone, fun u hu => ?_⟩
  have hnil := hone.unmount hu
  refine ⟨hnil, ?_⟩
  have hw : wp False inodeHashDestroy (fun _ t => t = u) u := by simp [inodeHashDestroy, hnil]
  obtain ⟨_, _, hd, rfl⟩ := hw.returns
  exact hd

/-- Run an event's command, when it gives the event's reply. -/
def Event.next (e : Event) (s : Testfs) : Option Testfs :=
  (e.command.run 8 s).bind fun p => if p.1 = e.reply then some p.2 else none

theorem Event.next_step {e : Event} (h : e.next s = some t) : step s e t := by
  obtain ⟨⟨r, t'⟩, hr, h⟩ := Option.bind_eq_some_iff.1 h
  by_cases hre : r = e.reply
  · rw [if_pos hre] at h
    have ht : t' = t := Option.some.inj h
    exact ⟨8, by rw [hr, hre, ht]⟩
  · rw [if_neg hre] at h
    simp at h

/-- `"a"` and `"b"`. -/
def nameA : CString := ⟨[0x61], by decide⟩
def nameB : CString := ⟨[0x62], by decide⟩

/-- The smallest file system that `mktestfs` makes, opened. -/
def smallFs : Option Testfs := (mktestfs 1).bind mount

/-- Create a file and a directory, go there, and print where that is. -/
def tidyRun : List Event :=
  [⟨⟨.create, [nameA]⟩, (0, [])⟩, ⟨⟨.mkdir, [nameB]⟩, (0, [])⟩, ⟨⟨.cd, [nameB]⟩, (0, [])⟩,
    ⟨⟨.pwd, []⟩, (0, [slash, 0x62, newline])⟩]

theorem tidyRun_ends : (smallFs.bind fun s => runAll (fun s e => e.next s) s tidyRun).any
    (fun t => t.curDir = 2 && (unmount t).isSome) = true := by decide +kernel

theorem counts_balance_sample : ∃ dev s t u, mount dev = some s ∧ Run tidyStep s tidyRun t ∧
    t.curDir = 2 ∧ t.inodes.length = 1 ∧ unmount t = some ((), u) ∧ u.inodes = [] := by
  obtain ⟨t, ht, hgood⟩ := (Option.any_eq_true _ _).1 tidyRun_ends
  obtain ⟨s, hs, hrun⟩ := Option.bind_eq_some_iff.1 ht
  obtain ⟨dev, -, hm⟩ := Option.bind_eq_some_iff.1 hs
  simp only [Bool.and_eq_true, decide_eq_true_eq] at hgood
  obtain ⟨⟨_, u⟩, hu⟩ := Option.isSome_iff_exists.1 hgood.2
  have hr : Run (fun s e t => e.next s = some t) s tidyRun t := runAll_run (.nil s) hrun
  have hall : ∀ e ∈ tidyRun, ∀ s : Testfs, ¬e.command.Leaks s := by
    simp [tidyRun, Command.Leaks]
  have hr' : Run tidyStep s tidyRun t := (hr.guard hall).mono fun _ _ _ h => ⟨h.1, Event.next_step h.2⟩
  obtain ⟨⟨ino, hl, -, -⟩, hend⟩ := counts_balance hm hr'
  exact ⟨dev, s, t, u, hm, hr', hgood.1, by rw [hl]; rfl, hu, (hend u hu).1⟩

/-- Create a file and list it. -/
def leakRun : List Event :=
  [⟨⟨.create, [nameA]⟩, (0, [])⟩, ⟨⟨.ls, [nameA]⟩, (-enotdir, [])⟩]

theorem leakRun_ends : (smallFs.bind fun s => runAll (fun s e => e.next s) s leakRun).any
    (fun t => t.inodes.length = 2) = true := by decide +kernel

/-- After an `ls` of a file its inode stays in memory. -/
theorem ls_leaks : ¬∀ (fsSizeMb : ℕ) (dev : Device) (s : Testfs) (ls : List Event) (t : Testfs),
    mktestfs fsSizeMb = some dev → mount dev = some s → Run step s ls t →
    ∃ ino, t.inodes = [ino] ∧ ino.iNr = t.curDir ∧ ino.iCount = 1 := by
  intro h
  obtain ⟨t, ht, hgood⟩ := (Option.any_eq_true _ _).1 leakRun_ends
  obtain ⟨s, hs, hrun⟩ := Option.bind_eq_some_iff.1 ht
  obtain ⟨dev, hdev, hm⟩ := Option.bind_eq_some_iff.1 hs
  have hr : Run (fun s e t => e.next s = some t) s leakRun t := runAll_run (.nil s) hrun
  obtain ⟨ino, hl, -, -⟩ := h 1 dev s leakRun t hdev hm (hr.mono fun _ _ _ => Event.next_step)
  have hlen := of_decide_eq_true hgood
  rw [hl] at hlen
  simp at hlen

end OSLab.Fs
