import OSLab.Fs.Shell
import OSLab.Fs.Proof.Block
import OSLab.Fs.Proof.Super

/-!
# The table of in-memory inodes

A number is found at most once in the table; assigning to fields of an inode changes it and
no other.
-/

namespace OSLab.Fs

open Prog

variable {s t : Testfs} {nr nr' : ℤ} {α : Type} {ok : Prop}

theorem wp_onSb {c : Prog SuperBlock α} {Q : α → Testfs → Prop} :
    wp ok (onSb c) Q s ↔ wp ok c (fun a sb => Q a { s with sb := sb }) s.sb :=
  wp_zoom_iff (s := s.sb) rfl

theorem find_mem {ino : Inode} (h : s.find nr = some ino) : ino ∈ s.inodes ∧ ino.iNr = nr := by
  unfold Testfs.find inodeHashFind at h
  exact ⟨List.mem_of_find?_eq_some h, by simpa using List.find?_some h⟩

variable {n : ℤ} {g : Inode → Inode}

/-- Assigning to fields of an inode, of which the count grows by `n`. -/
structure Assigns (n : ℤ) (g : Inode → Inode) : Prop where
  iNr : ∀ ino, (g ino).iNr = ino.iNr
  iCount : ∀ ino, (g ino).iCount = ino.iCount + n

theorem find_update (hg : Assigns n g) :
    (s.updateInode nr g).find nr' = (s.find nr').map fun ino => if ino.iNr = nr then g ino else ino := by
  have hp : ((fun ino : Inode => decide (ino.iNr = nr')) ∘
      fun ino => if ino.iNr = nr then g ino else ino) = fun ino => decide (ino.iNr = nr') := by
    funext ino
    simp only [Function.comp]
    split
    · rw [hg.iNr]
    · rfl
  unfold Testfs.find Testfs.updateInode inodeHashFind inodeHashUpdate
  rw [List.find?_map, hp]

theorem find_update_of_ne (hg : Assigns n g) (hne : nr' ≠ nr) :
    (s.updateInode nr g).find nr' = s.find nr' := by
  rw [find_update hg]
  cases hf : s.find nr' with
  | none => rfl
  | some ino =>
    have hn : ino.iNr ≠ nr := by
      rw [(find_mem hf).2]
      exact hne
    rw [Option.map_some, if_neg hn]

/-- What a run on an in-memory inode does. -/
theorem onInode_cases {c : Prog FileState α} {a : α} (h : onInode nr c s = some (a, t)) :
    ∃ ino f, s.find nr = some ino ∧ c ⟨s.sb, ino⟩ = some (a, f) ∧
      t = { s.updateInode nr fun ino => { ino with din := f.ino.din, dirty := f.ino.dirty } with
        sb := f.sb } := by
  obtain ⟨f₀, f, hg, hc, ht⟩ := zoom_eq_some.1 h
  obtain ⟨ino, hf, rfl⟩ := Option.map_eq_some_iff.1 hg
  exact ⟨ino, f, hf, hc, ht⟩

theorem find_onInode {ino : Inode} {f : FileState} (hf : s.find nr = some ino) :
    ({ s.updateInode nr fun ino => { ino with din := f.ino.din, dirty := f.ino.dirty } with
      sb := f.sb } : Testfs).find nr = some { ino with din := f.ino.din, dirty := f.ino.dirty } := by
  have hg : Assigns 0 fun ino : Inode => { ino with din := f.ino.din, dirty := f.ino.dirty } :=
    ⟨fun _ => rfl, fun _ => (add_zero _).symm⟩
  have hu : (s.updateInode nr fun ino => { ino with din := f.ino.din, dirty := f.ino.dirty }).find nr =
      (s.find nr).map fun i => if i.iNr = nr then { i with din := f.ino.din, dirty := f.ino.dirty }
        else i := find_update hg
  rw [hf, Option.map_some, if_pos (find_mem hf).2] at hu
  exact hu

/-- The 64 bytes of inode `nr` on the device. -/
def SuperBlock.diskInode (sb : SuperBlock) (nr : ℤ) : DInode :=
  DInode.decode fun i => (sb.dev.data (sb.sb.inodeBlocksStart + (nr.toNat / inodesPerBlock : ℕ))).get
    (testfsInodeToBlockOffset nr + i)

/-- **An inode that was read is written back as it was.** -/
theorem DInode.encode_decode (f : ℕ → Byte) {i : ℕ} (hi : i < dinodeSize) :
    (DInode.decode f).encode i = f i := by
  have hmod : i % 4 < 4 := Nat.mod_lt i (by decide)
  have hlt : i < 64 := hi
  have hword : ∀ off, off + i % 4 = i → leByte (leInt 4 fun j => f (off + j)) (i % 4) = f i := by
    intro off he
    rw [leByte_leInt _ hmod, he]
  have htype : leByte (leInt 4 f) (i % 4) = f (i % 4) := leByte_leInt _ hmod
  unfold DInode.encode DInode.word DInode.blockNr DInode.decode
  simp only
  unfold nrDirectBlocks
  split_ifs with h56 h0 h10 hk h11 h12
  · rw [htype]
    congr 1
    omega
  · exact hword _ (by omega)
  · omega
  · exact hword 44 (by omega)
  · exact hword 48 (by omega)
  · exact hword 52 (by omega)
  · rw [leByte_leInt _ (by omega)]
    congr 1
    omega

/-- The size is the last field of the 64 bytes. -/
theorem DInode.leInt_encode_iSize {d : DInode} (h0 : -2 ^ 63 ≤ d.iSize) (h1 : d.iSize < 2 ^ 63) :
    leInt 8 (fun i => d.encode (56 + i)) = d.iSize := by
  have hb : ∀ i < 8, d.encode (56 + i) = leByte d.iSize i := by
    intro i _
    unfold DInode.encode
    rw [if_neg (by omega), Nat.add_sub_cancel_left]
  rw [leInt_congr hb]
  exact leInt_leByte (by norm_num; omega) (by norm_num; omega)

/-- Inode `nr`, from memory or from the device. -/
def Testfs.dinode (s : Testfs) (nr : ℤ) : DInode :=
  (s.find nr).elim (s.sb.diskInode nr) (·.din)

/-- `testfs_get_inode` puts the inode in the table. -/
theorem getInode_found (s : Testfs) (nr : ℤ) : wp True (testfsGetInode nr) (fun _ t =>
    t.sb = s.sb ∧ t.curDir = s.curDir ∧ (∃ ino, t.find nr = some ino ∧ ino.din = s.dinode nr) ∧
      ∀ x, x ≠ nr → t.find x = s.find x) s := by
  simp only [testfsGetInode, wp_bind, wp_getState]
  cases hf : s.find nr with
  | some ino =>
    have hg : Assigns 1 fun ino : Inode => { ino with iCount := ino.iCount + 1 } :=
      ⟨fun _ => rfl, fun _ => rfl⟩
    rw [wp_modify]
    refine ⟨rfl, rfl, ⟨{ ino with iCount := ino.iCount + 1 }, ?_, ?_⟩, ?_⟩
    · rw [find_update hg, hf, Option.map_some, if_pos (find_mem hf).2]
    · simp [Testfs.dinode, hf]
    · intro x hx
      exact find_update_of_ne hg hx
  | none =>
    simp only [testfsReadInodeBlock, wp_bind, wp_getState]
    refine wp_reads_of ?_
    intro k hk
    rw [wp_onSb, readBlock]
    refine wp_reads_of ?_
    intro b hb
    rw [wp_modify]
    set din := DInode.decode fun i => b.get (testfsInodeToBlockOffset nr + i) with hdin
    refine ⟨rfl, rfl, ⟨⟨din, false, nr, 1⟩, by simp [Testfs.find, inodeHashFind], ?_⟩, ?_⟩
    · have hk' : nr.toNat / inodesPerBlock = k := by
        unfold testfsInodeToBlockNr at hk
        split at hk
        · exact Option.some.inj hk
        · simp at hk
      have hb' : s.sb.dev.data (s.sb.sb.inodeBlocksStart + k) = b := by
        unfold Device.readBlock at hb
        split at hb
        · exact Option.some.inj hb
        · simp at hb
      simp only [hdin, Testfs.dinode, hf, Option.elim_none, SuperBlock.diskInode, hk', hb']
    · intro x hx
      simp [Testfs.find, inodeHashFind, Ne.symm hx]

/-- A removed inode is not found, and the others are. -/
theorem find_remove {l : List Inode} (nr nr' : ℤ) (hn : (l.map (·.iNr)).Nodup) :
    inodeHashFind (inodeHashRemove l nr) nr' = if nr' = nr then none else inodeHashFind l nr' := by
  unfold inodeHashFind inodeHashRemove
  induction l with
  | nil => simp
  | cons ino l ih =>
    rw [List.map_cons, List.nodup_cons] at hn
    by_cases h : ino.iNr = nr
    · have herase : (ino :: l).eraseP (fun x => x.iNr = nr) = l := by simp [h]
      rw [herase]
      by_cases h' : nr' = nr
      · rw [if_pos h', List.find?_eq_none]
        intro x hx
        have hne : x.iNr ≠ ino.iNr := fun e => hn.1 (List.mem_map.2 ⟨x, hx, e⟩)
        simpa [h', ← h] using hne
      · have hne : ino.iNr ≠ nr' := by
          rw [h]
          exact Ne.symm h'
        simp [h', hne]
    · have herase : (ino :: l).eraseP (fun x => x.iNr = nr) =
          ino :: l.eraseP (fun x => x.iNr = nr) := by simp [h]
      rw [herase]
      by_cases hx : ino.iNr = nr'
      · have hne : nr' ≠ nr := fun e => h (hx.trans e)
        simp [hx, hne]
      · simp only [List.find?_cons, hx, decide_false]
        exact ih hn.2

theorem wp_inode {ino : Inode} {Q : Inode → Testfs → Prop} (hn : s.find nr = some ino) :
    wp ok (inode nr) Q s ↔ Q ino s := wp_reads_iff hn

theorem DInode.decode_congr {f g : ℕ → Byte} (h : ∀ i < dinodeSize, f i = g i) :
    DInode.decode f = DInode.decode g := by
  have hw : ∀ off, off + 4 ≤ 64 →
      leInt 4 (fun i => f (off + i)) = leInt 4 fun i => g (off + i) := by
    intro off hoff
    refine leInt_congr fun i hi => h _ ?_
    unfold dinodeSize
    omega
  have h0 : leInt 4 f = leInt 4 g := leInt_congr fun i hi => h i (by unfold dinodeSize; omega)
  have h8 : leInt 8 (fun i => f (56 + i)) = leInt 8 fun i => g (56 + i) :=
    leInt_congr fun i hi => h _ (by unfold dinodeSize; omega)
  have hb : (fun k : Fin nrDirectBlocks => leInt 4 fun i => f (4 * (k + 1) + i)) =
      fun k : Fin nrDirectBlocks => leInt 4 fun i => g (4 * (k + 1) + i) := by
    funext k
    have hk := k.isLt
    unfold nrDirectBlocks at hk
    exact hw _ (by omega)
  unfold DInode.decode
  rw [h0, h8, hb, hw 44 (by decide), hw 48 (by decide), hw 52 (by decide)]

/-- Zero bytes are the inode after `bzero`. -/
theorem decode_zero {f : ℕ → Byte} (hf : ∀ i, f i = 0) : DInode.decode f = DInode.zero := by
  have hz : ∀ n off, leInt n (fun i => f (off + i)) = 0 := by
    intro n off
    apply leInt_eq_zero
    intro i _
    exact hf _
  have h0 : leInt 4 f = 0 := by
    apply leInt_eq_zero
    intro i _
    exact hf i
  unfold DInode.decode DInode.zero
  simp only [h0, hz]

/-! ### Inodes on the device -/

/-- The block of inode blocks that holds an inode. -/
def SuperBlock.inodeBlock (sb : SuperBlock) (nr : ℤ) : ℤ :=
  sb.sb.inodeBlocksStart + (nr.toNat / inodesPerBlock : ℕ)

/-- The super block after inode `nr` was written to the device. -/
def SuperBlock.putInode (sb : SuperBlock) (nr : ℤ) (d : DInode) : SuperBlock :=
  sb.put (sb.inodeBlock nr)
    (spliceInode (sb.dev.data (sb.inodeBlock nr)) (testfsInodeToBlockOffset nr) d)

theorem offset_le (nr : ℤ) : testfsInodeToBlockOffset nr + dinodeSize ≤ blockSize := by
  unfold testfsInodeToBlockOffset inodesPerBlock blockSize dinodeSize
  omega

theorem decode_splice_self {b : Block} {off : ℕ} (hoff : off + dinodeSize ≤ blockSize)
    (d : DInode) :
    DInode.decode (fun i => (spliceInode b off d).get (off + i)) = DInode.decode d.encode := by
  apply DInode.decode_congr
  intro i hi
  unfold spliceInode
  rw [Block.get_ofFn _ (by omega), if_pos (by omega), Nat.add_sub_cancel_left]

/-- The bytes outside the spliced inode stay. -/
theorem splice_get_of_ne {b : Block} {off i : ℕ} (d : DInode)
    (hi : i < off ∨ off + dinodeSize ≤ i) : (spliceInode b off d).get i = b.get i := by
  by_cases hb : i < blockSize
  · unfold spliceInode
    rw [Block.get_ofFn _ hb, if_neg (by omega)]
  · rw [Block.get_of_ge _ (by omega), Block.get_of_ge _ (by omega)]

/-- **Writing an inode changes that inode on the device and no other**, also of the inodes in the
same block. -/
theorem diskInode_putInode (sb : SuperBlock) (d : DInode) (h : 0 ≤ nr) (h' : 0 ≤ nr') :
    (sb.putInode nr d).diskInode nr' =
      if nr' = nr then DInode.decode d.encode else sb.diskInode nr' := by
  have hput : (sb.putInode nr d).diskInode nr' = DInode.decode fun i =>
      (Function.update sb.dev.data (sb.inodeBlock nr)
        (spliceInode (sb.dev.data (sb.inodeBlock nr)) (testfsInodeToBlockOffset nr) d)
        (sb.inodeBlock nr')).get (testfsInodeToBlockOffset nr' + i) := rfl
  rw [hput]
  split
  · rename_i heq
    rw [heq, Function.update_self, decode_splice_self (offset_le nr)]
  rename_i hne
  by_cases hb : sb.inodeBlock nr' = sb.inodeBlock nr
  · -- the same block: the two inodes are at different offsets
    rw [hb, Function.update_self]
    have hdisk : sb.diskInode nr' = DInode.decode fun i =>
        (sb.dev.data (sb.inodeBlock nr)).get (testfsInodeToBlockOffset nr' + i) := by
      rw [← hb]
      rfl
    rw [hdisk]
    apply DInode.decode_congr
    intro i hi
    apply splice_get_of_ne
    unfold SuperBlock.inodeBlock at hb
    unfold testfsInodeToBlockOffset inodesPerBlock blockSize dinodeSize at *
    omega
  · rw [Function.update_of_ne hb]
    rfl

/-- The inode blocks are on the device. -/
def SuperBlock.HasInodes (sb : SuperBlock) : Prop :=
  (sb.sb.inodeBlocksStart : ℤ) + nrInodeBlocks ≤ sb.dev.len

theorem SuperOK.hasInodes {sb : SuperBlock} (h : SuperOK sb) : sb.HasInodes := by
  have hlen := h.len
  have hstart : (sb.sb.inodeBlocksStart : ℤ) = 18 := by rw [h.inodeBlocksStart]; rfl
  rw [show dataStart = 146 from rfl] at hlen
  unfold SuperBlock.HasInodes nrInodeBlocks
  omega

theorem inodeToBlockNr_run (h : 0 ≤ nr ∧ nr < maxInodes) :
    reads (fun _ : Testfs => testfsInodeToBlockNr nr) s = some (nr.toNat / inodesPerBlock, s) :=
  reads_run (if_pos h)

theorem inodeBlock_bounds (sb : SuperBlock) (hr : 0 ≤ nr ∧ nr < maxInodes) :
    (sb.sb.inodeBlocksStart : ℤ) ≤ sb.inodeBlock nr ∧
      sb.inodeBlock nr < sb.sb.inodeBlocksStart + nrInodeBlocks := by
  have hlt : nr.toNat / inodesPerBlock < nrInodeBlocks := by
    have := hr.2
    unfold maxInodes nrInodeBlocks inodesPerBlock blockSize dinodeSize at *
    omega
  unfold SuperBlock.inodeBlock
  generalize nr.toNat / inodesPerBlock = k at hlt
  omega

theorem readInodeBlock_run (hd : s.sb.HasInodes) (hr : 0 ≤ nr ∧ nr < maxInodes) :
    testfsReadInodeBlock nr s = some (s.sb.dev.data (s.sb.inodeBlock nr), s) := by
  have hread : s.sb.dev.readBlock (s.sb.inodeBlock nr) =
      some (s.sb.dev.data (s.sb.inodeBlock nr)) := by
    have hb := inodeBlock_bounds s.sb hr
    unfold SuperBlock.HasInodes at hd
    unfold Device.readBlock
    rw [if_pos (by omega)]
  unfold testfsReadInodeBlock
  rw [bind_of_run (inodeToBlockNr_run hr), bind_of_run (getState_run s)]
  exact zoom_run rfl (reads_run hread)

theorem writeInodeBlock_run (b : Block) (hr : 0 ≤ nr ∧ nr < maxInodes) :
    testfsWriteInodeBlock nr b s = some ((), { s with sb := s.sb.put (s.sb.inodeBlock nr) b }) := by
  have h0 : 0 ≤ s.sb.inodeBlock nr := by
    have hb := inodeBlock_bounds s.sb hr
    omega
  unfold testfsWriteInodeBlock
  rw [bind_of_run (inodeToBlockNr_run hr), bind_of_run (getState_run s)]
  exact zoom_run rfl (writeBlock_run b h0)

/-! ### Writing an inode back and giving it up -/

theorem inode_run {ino : Inode} (hf : s.find nr = some ino) : inode nr s = some (ino, s) :=
  reads_run hf

theorem getInode_hit {ino : Inode} (hf : s.find nr = some ino) : testfsGetInode nr s =
    some ((), s.updateInode nr fun ino => { ino with iCount := ino.iCount + 1 }) := by
  unfold testfsGetInode
  rw [bind_of_run (getState_run s), hf]
  rfl

theorem getInode_load (hf : s.find nr = none) (hs : s.sb.HasInodes)
    (hr : 0 ≤ nr ∧ nr < maxInodes) : testfsGetInode nr s =
      some ((), { s with inodes := ⟨s.sb.diskInode nr, false, nr, 1⟩ :: s.inodes }) := by
  unfold testfsGetInode
  rw [bind_of_run (getState_run s), hf]
  simp only
  rw [bind_of_run (readInodeBlock_run hs hr)]
  rfl

theorem syncInode_dirty {ino : Inode} (hf : s.find nr = some ino) (hd : ino.dirty = true)
    (hs : s.sb.HasInodes) (hr : 0 ≤ nr ∧ nr < maxInodes) :
    testfsSyncInode nr s = some ((), { s.updateInode nr fun ino => { ino with dirty := false } with
      sb := s.sb.putInode nr ino.din }) := by
  unfold testfsSyncInode
  rw [bind_of_run (inode_run hf), if_pos hd, bind_of_run (readInodeBlock_run hs hr),
    bind_of_run (writeInodeBlock_run _ hr)]
  rfl

theorem syncInode_clean {ino : Inode} (hf : s.find nr = some ino) (hd : ino.dirty = false) :
    testfsSyncInode nr s = some ((), s) := by
  unfold testfsSyncInode
  rw [bind_of_run (inode_run hf), if_neg (by simp [hd])]
  rfl

/-- What writing inode `nr` back leaves: the freemap and the data blocks are as before, and the
inode on the device is the one in memory, if that was dirty. -/
structure Synced (s : Testfs) (nr : ℤ) (ino : Inode) (t : Testfs) : Prop where
  find : t.find nr = some { ino with dirty := false }
  nodup : (t.inodes.map (·.iNr)).Nodup
  live : t.sb.live = s.sb.live
  data : ∀ b, (dataStart : ℤ) ≤ b → t.sb.dev.data b = s.sb.dev.data b
  disk : t.sb.diskInode nr =
    if ino.dirty then DInode.decode ino.din.encode else s.sb.diskInode nr

theorem update_nodup (hg : Assigns n g) (hn : (s.inodes.map (·.iNr)).Nodup) :
    ((s.updateInode nr g).inodes.map (·.iNr)).Nodup := by
  unfold Testfs.updateInode inodeHashUpdate
  rw [List.map_map]
  convert hn using 2
  funext x
  simp only [Function.comp]
  split
  · exact hg.iNr x
  · rfl

theorem load_nodup {ino : Inode} (hf : s.find ino.iNr = none)
    (hn : (s.inodes.map (·.iNr)).Nodup) : ((ino :: s.inodes).map (·.iNr)).Nodup := by
  rw [List.map_cons, List.nodup_cons]
  refine ⟨?_, hn⟩
  intro hm
  obtain ⟨x, hx, he⟩ := List.mem_map.1 hm
  have hno := List.find?_eq_none.1 hf x hx
  simp only [decide_eq_true_eq] at hno
  exact hno he

theorem assigns_clean : Assigns 0 fun ino : Inode => { ino with dirty := false } :=
  ⟨fun _ => rfl, fun _ => (add_zero _).symm⟩

theorem syncInode_ok {ino : Inode} (hf : s.find nr = some ino) (h : SuperOK s.sb)
    (hr : 0 ≤ nr ∧ nr < maxInodes) (hn : (s.inodes.map (·.iNr)).Nodup) :
    wp False (testfsSyncInode nr) (fun _ t => Synced s nr ino t) s := by
  cases hd : ino.dirty with
  | true =>
    rw [wp_run_iff (syncInode_dirty hf hd h.hasInodes hr)]
    constructor
    · show (s.updateInode nr _).find nr = _
      rw [find_update assigns_clean, hf, Option.map_some, if_pos (find_mem hf).2]
    · exact update_nodup assigns_clean hn
    · rfl
    · intro b hb
      have hlt := inodeBlock_bounds s.sb hr
      have hstart : (s.sb.sb.inodeBlocksStart : ℤ) = 18 := by rw [h.inodeBlocksStart]; rfl
      have hne : b ≠ s.sb.inodeBlock nr := by
        rw [show dataStart = 146 from rfl] at hb
        unfold nrInodeBlocks at hlt
        omega
      exact Function.update_of_ne hne ..
    · rw [if_pos hd]
      exact (diskInode_putInode s.sb ino.din hr.1 hr.1).trans (if_pos rfl)
  | false =>
    rw [wp_run_iff (syncInode_clean hf hd)]
    constructor
    · rw [hf, ← hd]
    · exact hn
    · rfl
    · intro _ _
      rfl
    · rw [if_neg (by simp [hd])]

theorem putInode_drop {ino : Inode} (hf : s.find nr = some ino) (hd : ino.dirty = false)
    (hc : ino.iCount = 1) : testfsPutInode nr s =
      some ((), { s with inodes := inodeHashRemove s.inodes nr }) := by
  unfold testfsPutInode
  rw [bind_of_run (inode_run hf), bind_of_run (require_run hd), if_pos (by omega)]
  rfl

theorem putInode_release {ino : Inode} (hf : s.find nr = some ino) (hd : ino.dirty = false)
    (hc : ino.iCount ≠ 1) : testfsPutInode nr s =
      some ((), s.updateInode nr fun ino => { ino with iCount := ino.iCount - 1 }) := by
  unfold testfsPutInode
  rw [bind_of_run (inode_run hf), bind_of_run (require_run hd), if_neg (by omega)]
  rfl

/-- Giving up a reference changes nothing on the device. The inode stays in memory if there is
another reference. -/
theorem putInode_ok {ino : Inode} (hf : s.find nr = some ino) (hd : ino.dirty = false)
    (hn : (s.inodes.map (·.iNr)).Nodup) :
    wp False (testfsPutInode nr) (fun _ t => t.sb = s.sb ∧
      (t.find nr = none ∨ ∃ c, t.find nr = some { ino with iCount := c })) s := by
  by_cases hc : ino.iCount = 1
  · rw [wp_run_iff (putInode_drop hf hd hc)]
    refine ⟨rfl, Or.inl ?_⟩
    exact (find_remove nr nr hn).trans (if_pos rfl)
  · have hg : Assigns (-1) fun ino : Inode => { ino with iCount := ino.iCount - 1 } :=
      ⟨fun _ => rfl, fun _ => rfl⟩
    rw [wp_run_iff (putInode_release hf hd hc)]
    refine ⟨rfl, Or.inr ⟨ino.iCount - 1, ?_⟩⟩
    rw [find_update hg, hf, Option.map_some, if_pos (find_mem hf).2]

theorem inode_none (hf : s.find nr = none) : inode nr s = none := by
  unfold inode reads
  simp only [hf, Option.map_none]

theorem putInode_none (hf : s.find nr = none) : testfsPutInode nr s = none := by
  unfold testfsPutInode
  exact bind_of_none (inode_none hf)

theorem putInode_dirty {ino : Inode} (hf : s.find nr = some ino) (hd : ino.dirty = true) :
    testfsPutInode nr s = none := by
  unfold testfsPutInode
  rw [bind_of_run (inode_run hf)]
  exact bind_of_none (require_none (by simp [hd]))

/-- The other inodes stay as they are. -/
theorem putInode_others (hn : (s.inodes.map (·.iNr)).Nodup)
    (hr : testfsPutInode nr s = some ((), t)) :
    t.sb = s.sb ∧ t.curDir = s.curDir ∧ ∀ x, x ≠ nr → t.find x = s.find x := by
  cases hf : s.find nr with
  | none =>
    rw [putInode_none hf] at hr
    cases hr
  | some ino =>
    cases hd : ino.dirty with
    | true =>
      rw [putInode_dirty hf hd] at hr
      cases hr
    | false =>
      by_cases hc : ino.iCount = 1
      · rw [putInode_drop hf hd hc] at hr
        cases hr
        refine ⟨rfl, rfl, fun x hx => ?_⟩
        exact (find_remove nr x hn).trans (if_neg hx)
      · have hg : Assigns (-1) fun ino : Inode => { ino with iCount := ino.iCount - 1 } :=
          ⟨fun _ => rfl, fun _ => rfl⟩
        rw [putInode_release hf hd hc] at hr
        cases hr
        exact ⟨rfl, rfl, fun x hx => find_update_of_ne hg hx⟩

end OSLab.Fs
