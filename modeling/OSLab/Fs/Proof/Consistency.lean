import OSLab.Fs.Proof.Sessions

/-!
# What a checker of the file system would find

`session_consistent`: after every session each block in use is held by one slot of one inode, the
counts add up, and the directories are a tree in which every inode has one entry.
-/

namespace OSLab.Fs

open Prog

variable {v : Volume} {s t : Testfs} {dev : Device} {n p : ℤ} {name : CString} {mb : ℕ}
  {as : List Action}

/-- The file of an inode, in memory or on the device. -/
def Testfs.file (s : Testfs) (n : ℤ) : FileState := fileOf s.sb (s.dinode n)

/-- Directory `p` has an entry of that name, other than `.` and `..`, for inode `n`. -/
def Testfs.Entry (s : Testfs) (p : ℤ) (name : CString) (n : ℤ) : Prop :=
  ∃ l, s.dir p = some l ∧ (name, n) ∈ l ∧ name ≠ CString.dot ∧ name ≠ CString.dotdot

/-- **A file system without faults.** -/
structure Consistent (s : Testfs) : Prop where
  /-- The super block and the freemaps agree with each other and with the device. -/
  super : SuperOK s.sb
  /-- Exactly the blocks that the freemap marks are held, each by one slot of one inode. -/
  owns : Owns (fun x : Fin maxInodes × Slot => (s.file (x.1 : ℕ)).ptr x.2) s.sb.live
  /-- The blocks of each inode are counted, and all of them add up. -/
  counts : ∀ n : Fin maxInodes, (s.dinode (n : ℕ)).blockCount = (s.file (n : ℕ)).blocks.ncard
  total : (s.sb.sb.usedBlockCount : ℤ) = ∑ n : Fin maxInodes, (s.dinode (n : ℕ)).blockCount
  /-- No block lies past the end of its file, and no table is without an entry. -/
  shaped : ∀ n : ℕ, n ∈ s.sb.inodeFreemap.members → Shaped (s.file n)
  /-- An inode that the freemap does not mark is empty. -/
  cleared : ∀ n : ℕ, n < maxInodes → n ∉ s.sb.inodeFreemap.members → s.dinode n = DInode.zero
  /-- One that it marks is a file, or a directory whose entries can be read. -/
  types : ∀ n : ℕ, n ∈ s.sb.inodeFreemap.members → (s.dinode n).iType = iFile ∨
    (s.dinode n).iType = iDir ∧ (s.dir n).isSome
  /-- The directories are a tree, with `.` and `..` in each. -/
  dirs : DirTree s.dir
  /-- Every entry leads to an inode in use, and every inode but the root has one entry. -/
  target : ∀ p name n, s.Entry p name n → ∃ k ∈ s.sb.inodeFreemap.members, n = k
  linked : ∀ n : ℕ, n ∈ s.sb.inodeFreemap.members → n ≠ 0 →
    ∃! e : ℤ × CString, s.Entry e.1 e.2 n
  /-- The device has every inode. -/
  written : ∀ n : ℤ, 0 ≤ n → n < maxInodes → s.sb.diskInode n = s.dinode n

/-! ### Directories -/

theorem length_le_dirBytes (l : List DirSlot) : l.length ≤ (dirBytes l).length := by
  induction l with
  | nil => exact Nat.zero_le _
  | cons e l ih =>
    rw [dirBytes_cons, List.length_append, length_slotBytes, List.length_cons]
    omega

/-- More fuel reads the same entries. -/
theorem direntsFrom_mono {sb : SuperBlock} {d : DInode} {f f' : ℕ} {off : ℤ} {ds : List Dirent}
    (h : direntsFrom sb d f off = some ds) (hf : f ≤ f') : direntsFrom sb d f' off = some ds := by
  induction f generalizing f' off ds with
  | zero => cases h
  | succ f ih =>
    obtain ⟨f', rfl⟩ : ∃ k, f' = k + 1 := ⟨f' - 1, by omega⟩
    unfold direntsFrom at h ⊢
    split at h
    · cases h
    · exact h
    · obtain ⟨ds', hds', rfl⟩ := Option.map_eq_some_iff.1 h
      rw [ih hds' (Nat.le_of_succ_le_succ hf)]
      rfl

namespace Rests

/-- The entries of a directory are those of the volume. -/
theorem dir_some (h : Rests v s) (hd : v.isDir n = true) :
    ∃ l, Slots v s n l ∧ s.dir n = some (liveSlots l) := by
  obtain ⟨l, hl⟩ := h.held.dirSlots hd
  refine ⟨l, hl, ?_⟩
  obtain ⟨h0, h1⟩ := h.held.stores.range n (Volume.isSome_of_isDir hd)
  have htype : (s.dinode n).iType = iDir := hl.holds.iType
  have hsize : (s.dinode n).iSize = (dirBytes l).length := hl.holds.iSize
  have hds : direntsFrom s.sb (s.dinode n) (l.length + 1) 0 = some (l.map slotDirent) :=
    direntsFrom_slots (show DirHolds _ ([] ++ l) (fileOf s.sb (s.dinode n)) from hl.holds)
  have hfuel : l.length + 1 ≤ (s.dinode n).iSize.toNat + 1 := by
    rw [hsize, Int.toNat_natCast]
    exact Nat.succ_le_succ (length_le_dirBytes l)
  unfold Testfs.dir
  rw [if_pos ⟨h0, h1, htype⟩, direntsFrom_mono hds hfuel]
  exact liveEntries_slots fun e he m hm => (hl.holds.numbers e he m hm).1

theorem dir_none (h : Rests v s) (hd : v.isDir n = false) : s.dir n = none := by
  unfold Testfs.dir
  refine if_neg ?_
  rintro ⟨h0, h1, htype⟩
  cases hn : v.node n with
  | none =>
    rw [h.held.stores.free n h0 h1 hn] at htype
    exact absurd htype (by decide)
  | some nd =>
    rw [h.held.iType hn, if_neg] at htype
    · exact absurd htype (by decide)
    · rw [← Volume.isDir_of_node hn, hd]
      exact Bool.false_ne_true

theorem mem_dir (h : Rests v s) :
    (∃ l, s.dir p = some l ∧ (name, n) ∈ l) ↔ v.entries p name = some n := by
  cases hd : v.isDir p with
  | true =>
    obtain ⟨l, hl, hdir⟩ := h.dir_some hd
    rw [← hl.find, SlotTable.find_eq_some hl.distinct, ← mem_liveSlots]
    constructor
    · rintro ⟨l', hl', hm⟩
      obtain rfl := Option.some.inj (hdir.symm.trans hl')
      exact hm
    · exact fun hm => ⟨_, hdir, hm⟩
  | false =>
    rw [h.dir_none hd]
    refine iff_of_false (fun hx => by cases hx.choose_spec.1) fun hx => ?_
    rw [Volume.isDir_of_entry hx] at hd
    cases hd

theorem entry_iff (h : Rests v s) : s.Entry p name n ↔ v.Child p name n := by
  unfold Volume.Child
  rw [← h.mem_dir]
  constructor
  · rintro ⟨l, hl, hm, hne⟩
    exact ⟨⟨l, hl, hm⟩, hne⟩
  · rintro ⟨⟨l, hl, hm⟩, hne⟩
    exact ⟨l, hl, hm, hne⟩

theorem dir_isSome (h : Rests v s) : (s.dir n).isSome ↔ v.isDir n = true := by
  cases hd : v.isDir n with
  | true =>
    obtain ⟨l, -, hdir⟩ := h.dir_some hd
    rw [hdir]
    exact iff_of_true rfl rfl
  | false =>
    rw [h.dir_none hd]
    exact iff_of_false Bool.false_ne_true Bool.false_ne_true

theorem child_iff (h : Rests v s) :
    Child s.dir p name n ↔ v.Child p name n ∧ v.isDir n = true := by
  rw [← h.entry_iff, ← h.dir_isSome]
  constructor
  · rintro ⟨l, hl, hm, hd, hdd, hsome⟩
    exact ⟨⟨l, hl, hm, hd, hdd⟩, hsome⟩
  · rintro ⟨⟨l, hl, hm, hd, hdd⟩, hsome⟩
    exact ⟨l, hl, hm, hd, hdd, hsome⟩

/-- An entry that is known of the volume is in the list. -/
theorem mem_of_entry (h : Rests v s) {l : List (CString × ℤ)} (hl : s.dir p = some l)
    (he : v.entries p name = some n) : (name, n) ∈ l := by
  obtain ⟨l', hl', hm⟩ := h.mem_dir.2 he
  obtain rfl := Option.some.inj (hl.symm.trans hl')
  exact hm

/-- **The directories are a tree.** -/
theorem dirTree (h : Rests v s) : DirTree s.dir := by
  have hdir : ∀ p l, s.dir p = some l → v.isDir p = true := by
    intro p l hl
    rw [← h.dir_isSome, hl]
    rfl
  refine ⟨?_, fun p l hl => ?_, fun p l hl => ?_, fun l hl => ?_, fun p c n l hc hl => ?_⟩
  · refine h.ok.tree.restrict (h.dir_isSome.2 h.ok.root) (fun b hb => ?_) (fun q m b he hb => ?_)
      fun q m b => ?_
    · exact Volume.isSome_of_isDir (h.dir_isSome.1 hb)
    · exact h.dir_isSome.2 (Volume.isDir_of_entry he.1)
    · rw [h.child_iff, h.dir_isSome]
  · obtain ⟨l', hl', hdir'⟩ := h.dir_some (hdir p l hl)
    obtain rfl := Option.some.inj (hl.symm.trans hdir')
    exact liveSlots_nodup hl'.distinct
  · exact h.mem_of_entry hl (h.ok.dot p (hdir p l hl))
  · exact h.mem_of_entry hl h.ok.rootUp
  · exact h.mem_of_entry hl (h.ok.up p c n (h.child_iff.1 hc).1 (hdir n l hl))

/-! ### Blocks -/

/-- The inodes in use are the nodes. -/
theorem mem_inodes (h : Rests v s) (k : ℕ) : k ∈ s.sb.inodeFreemap.members ↔ (v.node k).isSome :=
  h.held.stores.alloc k

/-- An inode without a node holds no block. -/
theorem blocks_free (h : Rests v s) (h0 : 0 ≤ n) (h1 : n < maxInodes) (hn : v.node n = none) :
    (s.file n).blocks = ∅ := by
  unfold Testfs.file
  rw [h.held.stores.free n h0 h1 hn]
  exact blocks_zero s.sb

/-- A slot that is not empty is one of a node. -/
theorem node_of_ptr (h : Rests v s) {k : Fin maxInodes} {sl : Slot}
    (h0 : (s.file (k : ℕ)).ptr sl ≠ 0) : (v.node (k : ℕ)).isSome := by
  by_contra hn
  have hk : ((k : ℕ) : ℤ) < maxInodes := Int.ofNat_lt.2 k.2
  have hfree := h.blocks_free (Int.natCast_nonneg _) hk (Option.not_isSome_iff_eq_none.1 hn)
  have hmem : (s.file (k : ℕ)).ptr sl ∈ (s.file (k : ℕ)).blocks := ⟨h0, sl, rfl⟩
  rw [hfree] at hmem
  exact hmem

theorem fileOK (h : Rests v s) (hn : (v.node n).isSome) :
    FileOK (others s.sb (s.dinode n)) (s.file n) := by
  obtain ⟨nd, hnd⟩ := Option.isSome_iff_exists.1 hn
  exact h.held.stores.file hnd

/-- **Each block in use is held by one slot of one inode.** -/
theorem owns (h : Rests v s) :
    Owns (fun x : Fin maxInodes × Slot => (s.file (x.1 : ℕ)).ptr x.2) s.sb.live := by
  have hst := h.held.stores
  apply Owns.mk'
  · rintro ⟨k, sl⟩ ⟨k', sl'⟩ heq h0
    have heq : (s.file (k : ℕ)).ptr sl = (s.file (k' : ℕ)).ptr sl' := heq
    have h0' : (s.file (k' : ℕ)).ptr sl' ≠ 0 := heq ▸ h0
    have hk := h.node_of_ptr h0
    by_cases hkk : k = k'
    · subst hkk
      rw [(h.fileOK hk).owns.unique heq h0]
    · -- two inodes share no block
      have hne : ((k : ℕ) : ℤ) ≠ ((k' : ℕ) : ℤ) := fun hx => hkk (Fin.ext (Int.ofNat_inj.1 hx))
      have hdis := hst.apart _ _ hk (h.node_of_ptr h0') hne
      have hmem : (s.file (k : ℕ)).ptr sl ∈ (s.file (k : ℕ)).blocks := ⟨h0, sl, rfl⟩
      have hmem' : (s.file (k : ℕ)).ptr sl ∈ (s.file (k' : ℕ)).blocks := ⟨h0, sl', heq.symm⟩
      exact absurd hmem' (Set.disjoint_left.1 hdis hmem)
  · intro b
    constructor
    · intro hb
      obtain ⟨n, hn, h0, sl, hsl⟩ := hst.cover b hb
      obtain ⟨hn0, hn1⟩ := hst.range n hn
      obtain ⟨k, rfl⟩ := Int.eq_ofNat_of_zero_le hn0
      exact ⟨h0, (⟨k, Int.ofNat_lt.1 hn1⟩, sl), hsl⟩
    · rintro ⟨h0, ⟨k, sl⟩, rfl⟩
      exact hst.blocks_subset (h.node_of_ptr h0) ⟨h0, sl, rfl⟩

theorem blockCount (h : Rests v s) (k : Fin maxInodes) :
    (s.dinode (k : ℕ)).blockCount = (s.file (k : ℕ)).blocks.ncard := by
  have hk : ((k : ℕ) : ℤ) < maxInodes := Int.ofNat_lt.2 k.2
  cases hn : v.node (k : ℕ) with
  | none =>
    rw [h.blocks_free (Int.natCast_nonneg _) hk hn, Set.ncard_empty,
      h.held.stores.free _ (Int.natCast_nonneg _) hk hn]
    rfl
  | some nd =>
    have hfile := h.fileOK (by rw [hn]; rfl)
    have hcount : (s.dinode (k : ℕ)).blockCount = _ := hfile.count
    rw [hcount, hfile.blocks_eq]

theorem blocks_total (h : Rests v s) :
    (s.sb.sb.usedBlockCount : ℤ) = ∑ k : Fin maxInodes, (s.dinode (k : ℕ)).blockCount := by
  have hlive : s.sb.live.ncard = s.sb.sb.usedBlockCount := by
    rw [live_ncard, h.held.stores.super.usedBlocks]
  have hfin : s.sb.live.Finite := Finset.finite_toSet _
  have hsum := h.owns.ncard_eq_sum hfin
  rw [hlive] at hsum
  rw [hsum]
  push_cast
  exact Finset.sum_congr rfl fun k _ => (h.blockCount k).symm

/-- **A file system at rest has no faults.** -/
theorem consistent (h : Rests v s) : Consistent s where
  super := h.held.stores.super
  owns := h.owns
  counts := h.blockCount
  total := h.blocks_total
  shaped k hk := by
    obtain ⟨nd, hnd⟩ := Option.isSome_iff_exists.1 ((h.mem_inodes k).1 hk)
    exact (h.held.stores.node k nd hnd).shaped
  cleared k hk hfree := by
    rw [h.mem_inodes, Option.not_isSome_iff_eq_none] at hfree
    exact h.held.stores.free k (Int.natCast_nonneg k) (Int.ofNat_lt.2 hk) hfree
  types k hk := by
    obtain ⟨nd, hnd⟩ := Option.isSome_iff_exists.1 ((h.mem_inodes k).1 hk)
    rw [h.held.iType hnd, h.dir_isSome, Volume.isDir_of_node hnd]
    cases nd.isDir with
    | true => exact Or.inr ⟨rfl, rfl⟩
    | false => exact Or.inl rfl
  dirs := h.dirTree
  target p c n he := by
    have hsome := h.ok.target _ _ _ (h.entry_iff.1 he).1
    obtain ⟨k, rfl⟩ := Int.eq_ofNat_of_zero_le (h.held.stores.range n hsome).1
    exact ⟨k, (h.mem_inodes k).2 hsome, rfl⟩
  linked k hk hne := by
    have hsome := (h.mem_inodes k).1 hk
    obtain ⟨ns, hr, -⟩ := h.ok.tree.path k hsome
    cases hr with
    | nil => exact absurd rfl hne
    | @snoc q _ ns c hr he =>
      refine ⟨(q, c), h.entry_iff.2 he, ?_⟩
      rintro ⟨q', c'⟩ he'
      have hc' := h.entry_iff.1 he'
      obtain ⟨hq, hc⟩ := h.ok.tree.edge_unique Volume.child_end (h.ok.edge _ _ _ hc').1
        (h.ok.edge _ _ _ he).1 hsome hc' he
      exact Prod.ext hq hc
  written n _ _ := h.held.onDisk n

end Rests

/-- **After every session the file system has no faults.** -/
theorem session_consistent (hd : mktestfs mb = some dev) (hm : mount dev = some s)
    (hr : Run sessionStep s as t) : Consistent t := by
  obtain ⟨v, -, hv⟩ := (new_rests hd hm).run hr
  exact hv.consistent

theorem session_consistent_sample : ∃ dev s t, mktestfs 1 = some dev ∧ mount dev = some s ∧
    Run sessionStep s sampleSession t ∧ t.sb.sb.usedBlockCount = 2 ∧ Consistent t := by
  obtain ⟨dev, s, t, hd, hm, hr, hu⟩ := sampleSession_run
  exact ⟨dev, s, t, hd, hm, hr, hu, session_consistent hd hm hr⟩

end OSLab.Fs
