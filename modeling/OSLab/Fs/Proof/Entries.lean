import OSLab.Fs.Proof.Inodes
import Mathlib.Data.List.TakeWhile

/-!
# The live entries of a directory

`direntsFrom` are the entries that the loop over `testfs_next_dirent` meets, and `Testfs.dir` the
names and numbers of the live ones of a directory.

* `scan_dirents`: a loop of `fs/dir.c` is a search in this list.
* `dirNameToInodeNr_mem`: a live name is found with its number.
* `findDirent_mem`: a number is found with one of its live names.
-/

namespace OSLab.Fs

open Prog

variable {β : Type} {sb : SuperBlock} {s t : Testfs} {a b ino : Inode} {buf : Buf} {d : Dirent}
  {ds : List Dirent} {c name : CString} {l : List (CString × ℤ)} {nr off size left inc ix blockNr n : ℤ}

/-! ### Reading depends on the inode on disk only -/

theorem readBlock_congr (h : a.din = b.din) (n : ℤ) : testfsReadBlock sb a n = testfsReadBlock sb b n := by
  unfold testfsReadBlock
  rw [h]

theorem readChunk_congr (h : a.din = b.din) : readChunk sb a blockNr inc buf off ix n =
    readChunk sb b blockNr inc buf off ix n := by
  unfold readChunk
  rw [readBlock_congr h]

theorem readRest_congr (h : a.din = b.din) (buf : Buf) (left inc : ℤ) :
    readRest sb a blockNr ix buf left inc = readRest sb b blockNr ix buf left inc := by
  obtain ⟨m, hm⟩ : ∃ m : ℕ, m = left.toNat := ⟨_, rfl⟩
  induction m using Nat.strong_induction_on generalizing left inc buf with
  | _ m ih =>
    unfold readRest
    simp only [readChunk_congr h]
    split
    · rename_i hbig
      have hlt : (left - blockSize).toNat < m := by
        unfold blockSize at hbig ⊢
        omega
      simp only [ih _ hlt _ _ _ rfl]
    · rfl

theorem readData_congr (h : a.din = b.din) (start : ℤ) :
    testfsReadData sb a buf start size = testfsReadData sb b buf start size := by
  unfold testfsReadData
  simp only [h, readChunk_congr h, readRest_congr h]

theorem nextDirent_congr (h : a.din = b.din) (off : ℤ) :
    testfsNextDirent sb a off = testfsNextDirent sb b off := by
  unfold testfsNextDirent
  simp only [h, readData_congr h]

/-! ### The entries -/

/-- An in-memory inode to read a directory with. -/
def DInode.inode (d : DInode) : Inode := ⟨d, false, 0, 0⟩

/-- The entries from an offset on, if every call of `testfs_next_dirent` returns. -/
def direntsFrom (sb : SuperBlock) (din : DInode) : ℕ → ℤ → Option (List Dirent)
  | 0, _ => none
  | fuel + 1, offset =>
    match testfsNextDirent sb din.inode offset with
    | none => none
    | some none => some []
    | some (some (d, offset')) => (direntsFrom sb din fuel offset').map (d :: ·)

/-- The first result of `visit`. -/
def firstHit (visit : Dirent → Option (Option β)) : List Dirent → Option (Option β)
  | [] => some none
  | d :: ds =>
    match visit d with
    | none => none
    | some (some b) => some (some b)
    | some none => firstHit visit ds

/-- **A loop over `testfs_next_dirent`** is a search in the list of the entries. -/
theorem scan_dirents {visit : Dirent → Option (Option β)} {f : ℕ}
    (h : direntsFrom sb ino.din f off = some ds) :
    (testfsScan sb ino (fun _ => visit) off).map Sum.getLeft? = firstHit visit ds := by
  induction f generalizing off ds with
  | zero => cases h
  | succ f ih =>
    unfold direntsFrom at h
    have hdin : ino.din.inode.din = ino.din := rfl
    simp only [nextDirent_congr hdin] at h
    unfold testfsScan
    split
    · rename_i hn
      rw [hn] at h
      cases h
    · rename_i hn
      rw [hn] at h
      cases h
      rfl
    · rename_i d off' hn
      rw [hn] at h
      obtain ⟨ds', hds', rfl⟩ := Option.map_eq_some_iff.1 h
      unfold firstHit
      cases visit d with
      | none => rfl
      | some o =>
        cases o with
        | none => exact ih hds'
        | some b => rfl

/-- An entry as it is on the device. -/
def direntBytes (name : CString) (inodeNr : ℤ) : List Byte :=
  (List.range direntSize).map (direntHeader (name.length + 1) inodeNr) ++ name.bytes

/-! ### Names -/

theorem zero_notMem_printName (d : Dirent) : (0 : Byte) ∉ printName d := by
  intro h
  have hne := List.mem_takeWhile_imp h
  simp at hne

/-- The name of an entry, if there is a string in its buffer. -/
def Dirent.cname (d : Dirent) : Option CString :=
  if d.dName.get (printName d).length = some 0 then some ⟨printName d, zero_notMem_printName d⟩
  else none

theorem cname_eq_some (h : d.cname = some c) :
    printName d = c.val ∧ d.dName.get c.val.length = some 0 := by
  unfold Dirent.cname at h
  split at h
  · rename_i hend
    cases h
    exact ⟨rfl, hend⟩
  · cases h

/-- The bytes that are printed are in the buffer. -/
theorem get_printName {i : ℕ} (hi : i < (printName d).length) :
    d.dName.get i = (printName d)[i]? := by
  have hpre : printName d <+: (List.range d.dName.cap).map fun i => (d.dName.get i).getD 0 :=
    List.takeWhile_prefix _
  have hget := hpre.getElem hi
  rw [List.getElem_map, List.getElem_range] at hget
  rw [List.getElem?_eq_getElem hi, hget]
  cases hb : d.dName.get i with
  | some b => rfl
  | none =>
    -- a byte that was not stored to would end the name
    rw [hb] at hget
    have hmem : (0 : Byte) ∈ printName d := List.mem_of_getElem hget
    exact absurd hmem (zero_notMem_printName d)

/-- `strcmp` on a string that is in the buffer. -/
theorem strcmpEq_eq {p cs : List Byte} {o : ℕ} (hp : ∀ i < p.length, buf.get (o + i) = p[i]?)
    (hend : buf.get (o + p.length) = some 0) (h0 : (0 : Byte) ∉ p) (hc : (0 : Byte) ∉ cs) :
    strcmpEq buf o cs = some (decide (p = cs)) := by
  induction cs generalizing p o with
  | nil =>
    unfold strcmpEq
    cases p with
    | nil =>
      have hz : buf.get o = some 0 := hend
      rw [hz]
      rfl
    | cons x p =>
      have hx := hp 0 (by simp)
      rw [Nat.add_zero] at hx
      have hne : x ≠ 0 := by
        intro e
        exact h0 (e ▸ List.mem_cons_self)
      rw [hx, List.getElem?_cons_zero, Option.map_some, decide_eq_false hne,
        decide_eq_false (List.cons_ne_nil x p)]
  | cons y cs ih =>
    unfold strcmpEq
    cases p with
    | nil =>
      have hz : buf.get o = some 0 := hend
      have hne : (0 : Byte) ≠ y := by
        intro e
        exact hc (e ▸ List.mem_cons_self)
      rw [hz, decide_eq_false (List.cons_ne_nil y cs).symm]
      exact if_neg hne
    | cons x p =>
      have hx := hp 0 (by simp)
      rw [Nat.add_zero] at hx
      have hrest : strcmpEq buf (o + 1) cs = some (decide (p = cs)) := by
        apply ih
        · intro i hi
          have hi' := hp (i + 1) (by simpa using hi)
          rw [List.getElem?_cons_succ] at hi'
          rw [← hi']
          congr 1
          omega
        · rw [← hend, List.length_cons]
          congr 1
          omega
        · intro hm
          exact h0 (List.mem_cons_of_mem x hm)
        · intro hm
          exact hc (List.mem_cons_of_mem y hm)
      rw [hx]
      simp only [List.getElem?_cons_zero]
      rw [hrest]
      by_cases hxy : x = y
      · simp [hxy]
      · simp [hxy]

theorem named_eq (h : d.cname = some c) (name : CString) :
    d.named name = some (decide (c = name)) := by
  obtain ⟨hprint, hend⟩ := cname_eq_some h
  have heq : strcmpEq d.dName 0 name.val = some (decide (c.val = name.val)) := by
    apply strcmpEq_eq
    · intro i hi
      rw [Nat.zero_add, ← hprint]
      rw [← hprint] at hi
      exact get_printName hi
    · rw [Nat.zero_add]
      exact hend
    · exact c.property
    · exact name.property
  unfold Dirent.named
  rw [heq]
  congr 1
  exact decide_eq_decide.2 Subtype.ext_iff.symm

/-! ### Live entries -/

/-- The names and numbers of the entries that are not removed. -/
def liveEntries : List Dirent → Option (List (CString × ℤ))
  | [] => some []
  | d :: ds =>
    if d.dInodeNr < 0 then liveEntries ds
    else do
      let c ← d.cname
      let l ← liveEntries ds
      return (c, d.dInodeNr) :: l

/-- The live entries of inode `nr`, if it is a directory. -/
def Testfs.dir (s : Testfs) (nr : ℤ) : Option (List (CString × ℤ)) :=
  if 0 ≤ nr ∧ nr < maxInodes ∧ (s.dinode nr).iType = iDir then
    (direntsFrom s.sb (s.dinode nr) ((s.dinode nr).iSize.toNat + 1) 0).bind liveEntries
  else none

theorem liveEntries_cons (h : liveEntries (d :: ds) = some l) :
    (d.dInodeNr < 0 ∧ liveEntries ds = some l) ∨
      ∃ c l', 0 ≤ d.dInodeNr ∧ d.cname = some c ∧ liveEntries ds = some l' ∧
        l = (c, d.dInodeNr) :: l' := by
  unfold liveEntries at h
  split at h
  · rename_i hneg
    exact Or.inl ⟨hneg, h⟩
  · rename_i hneg
    obtain ⟨c, hc, h⟩ := Option.bind_eq_some_iff.1 h
    obtain ⟨l', hl', h⟩ := Option.bind_eq_some_iff.1 h
    exact Or.inr ⟨c, l', not_lt.1 hneg, hc, hl', (Option.some.inj h).symm⟩

/-- What `testfs_dir_name_to_inode_nr` does with an entry. -/
def nameVisit (name : CString) (d : Dirent) : Option (Option ℤ) :=
  if d.dInodeNr < 0 then some none
  else (d.named name).map fun eq => if eq then some d.dInodeNr else none

theorem nameVisit_live (h : liveEntries ds = some l) (name : CString) :
    firstHit (nameVisit name) ds = some ((l.find? fun e => e.1 = name).map (·.2)) := by
  induction ds generalizing l with
  | nil =>
    cases h
    rfl
  | cons d ds ih =>
    unfold firstHit nameVisit
    rcases liveEntries_cons h with ⟨hneg, hl⟩ | ⟨c, l', hpos, hc, hl, rfl⟩
    · rw [if_pos hneg]
      exact ih hl
    · rw [if_neg (not_lt.2 hpos), named_eq hc]
      by_cases heq : c = name
      · simp [heq]
      · simp only [heq, decide_false, Option.map_some, Bool.false_eq_true, if_false]
        rw [List.find?_cons_of_neg (by simpa using heq)]
        exact ih hl

/-- What a directory of a file system is. -/
theorem dir_eq_some (h : s.dir nr = some l) : (0 ≤ nr ∧ nr < maxInodes) ∧
    (s.dinode nr).iType = iDir ∧ ∃ f ds, direntsFrom s.sb (s.dinode nr) f 0 = some ds ∧
      liveEntries ds = some l := by
  unfold Testfs.dir at h
  split at h
  · rename_i hr
    obtain ⟨ds, hds, hl⟩ := Option.bind_eq_some_iff.1 h
    exact ⟨⟨hr.1, hr.2.1⟩, hr.2.2, _, ds, hds, hl⟩
  · cases h

theorem find_of_mem (hn : (l.map Prod.fst).Nodup) (hm : (name, n) ∈ l) :
    l.find? (fun e => e.1 = name) = some (name, n) := by
  induction l with
  | nil => cases hm
  | cons e l ih =>
    rw [List.map_cons, List.nodup_cons] at hn
    rcases List.mem_cons.1 hm with rfl | hm
    · exact List.find?_cons_of_pos (by simp)
    · have hne : e.1 ≠ name := by
        intro he
        exact hn.1 (he ▸ List.mem_map_of_mem hm)
      rw [List.find?_cons_of_neg (by simpa using hne)]
      exact ih hn.2 hm

/-- **A live name is found with its number**, if the names are different. -/
theorem dirNameToInodeNr_mem (h : s.dir nr = some l) (hn : (l.map Prod.fst).Nodup)
    (hm : (name, n) ∈ l) (hdin : ino.din = s.dinode nr) :
    testfsDirNameToInodeNr s.sb ino name = some n := by
  obtain ⟨-, htype, f, ds, hds, hl⟩ := dir_eq_some h
  rw [← hdin] at htype hds
  have hfind := find_of_mem hn hm
  have hscan : (testfsScan s.sb ino (fun _ => nameVisit name) 0).map Sum.getLeft? = _ :=
    scan_dirents hds
  rw [nameVisit_live hl, hfind] at hscan
  unfold testfsDirNameToInodeNr
  rw [if_neg (not_not.2 htype)]
  have hmap : ∀ o : Option (ℤ ⊕ ℤ), o.map Sum.getLeft? = some (some n) →
      (o.map fun r => r.getLeft?.getD (-enoent)) = some n := by
    intro o ho
    obtain ⟨r, rfl, hr⟩ := Option.map_eq_some_iff.1 ho
    rw [Option.map_some, hr, Option.getD_some]
  exact hmap _ hscan

/-- What `testfs_find_dirent` does with an entry. -/
def numberVisit (inodeNr : ℤ) (d : Dirent) : Option (Option Dirent) :=
  some (if d.dInodeNr = inodeNr then some d else none)

theorem numberVisit_live (h : liveEntries ds = some l) (hm : (name, n) ∈ l) (hn : 0 ≤ n) :
    ∃ d c, firstHit (numberVisit n) ds = some (some d) ∧ d.cname = some c ∧ (c, n) ∈ l := by
  induction ds generalizing l with
  | nil =>
    cases h
    cases hm
  | cons d ds ih =>
    unfold firstHit numberVisit
    rcases liveEntries_cons h with ⟨hneg, hl⟩ | ⟨c, l', hpos, hc, hl, rfl⟩
    · rw [if_neg (by omega)]
      exact ih hl hm
    · by_cases heq : d.dInodeNr = n
      · rw [if_pos heq]
        exact ⟨d, c, rfl, hc, heq ▸ List.mem_cons_self⟩
      · rw [if_neg heq]
        rcases List.mem_cons.1 hm with he | hm
        · rw [Prod.mk.injEq] at he
          exact absurd he.2.symm heq
        · obtain ⟨d', c', hhit, hc', hmem⟩ := ih hl hm
          exact ⟨d', c', hhit, hc', List.mem_cons_of_mem _ hmem⟩

/-- **A number is found** with one of its live names. -/
theorem findDirent_mem (h : s.dir nr = some l) (hm : (name, n) ∈ l) (hn : 0 ≤ n)
    (hdin : ino.din = s.dinode nr) : ∃ d c, testfsFindDirent s.sb ino n = some (some d) ∧
      d.cname = some c ∧ (c, n) ∈ l := by
  obtain ⟨-, -, f, ds, hds, hl⟩ := dir_eq_some h
  rw [← hdin] at hds
  obtain ⟨d, c, hhit, hc, hmem⟩ := numberVisit_live hl hm hn
  have hscan : (testfsScan s.sb ino (fun _ => numberVisit n) 0).map Sum.getLeft? = _ :=
    scan_dirents hds
  rw [hhit] at hscan
  refine ⟨d, c, ?_, hc, hmem⟩
  unfold testfsFindDirent
  rw [if_neg (not_lt.2 hn)]
  exact hscan

end OSLab.Fs
