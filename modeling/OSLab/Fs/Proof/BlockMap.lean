import OSLab.Fs.Proof.WriteData
import OSLab.Fs.Proof.MakeFs

/-!
# The block tree as a map

A file maps its logical blocks to blocks of the device. `physicalBlock` is the number that
`testfs_read_block` finds for a logical block before it reads the block itself.
`allocateBlock_map`: `testfs_allocate_block` changes this map at the block it was asked for
and nowhere else, and takes for it the one, two or three blocks that are missing on the way.

`TreeOK` is the invariant of a file without its count: the functions here never look at
`block_count`, they only change it by what they take and give back.
-/

namespace OSLab.Fs

open Prog

variable {F : Set ℤ} {s s' : FileState} {sb : SuperBlock} {ino : Inode} {n p r : ℤ} {k l m : ℕ}
  {sl : Slot}

/-- The physical block number `testfs_read_block` finds, before it reads that block. -/
def physicalBlock (sb : SuperBlock) (ino : Inode) (logBlockNr : ℤ) : Option ℤ :=
  if logBlockNr < 0 then none
  else if logBlockNr < nrDirectBlocks then some (ino.din.blockNr logBlockNr.toNat)
  else if nrIndirectBlocks ≤ logBlockNr - nrDirectBlocks then
    let n := logBlockNr - nrDirectBlocks - nrIndirectBlocks
    if nrIndirectBlocks * nrIndirectBlocks ≤ n then some (-efbig)
    else if 0 < ino.din.iDindirect then
      (sb.dev.readBlock ino.din.iDindirect).bind fun block =>
        let diAddr := block.word (n / nrIndirectBlocks).toNat
        if 0 < diAddr then
          (sb.dev.readBlock diAddr).map fun block => block.word (n % nrIndirectBlocks).toNat
        else some diAddr
    else some 0
  else if 0 < ino.din.iIndirect then
    (sb.dev.readBlock ino.din.iIndirect).map fun block =>
      block.word (logBlockNr - nrDirectBlocks).toNat
  else some 0

/-- Block `p` can be read, or is none. -/
def SuperBlock.Readable (sb : SuperBlock) (p : ℤ) : Prop := 0 < p → (sb.dev.readBlock p).isSome

theorem readPhysical_number (sb : SuperBlock) (q : ℤ) :
    (∃ b, readPhysical sb q = some (p, b)) ↔ q = p ∧ sb.Readable p := by
  unfold readPhysical SuperBlock.Readable
  by_cases h0 : 0 < q
  · rw [if_pos h0]
    constructor
    · rintro ⟨b, hb⟩
      obtain ⟨c, hc, he⟩ := Option.map_eq_some_iff.1 hb
      obtain ⟨rfl, -⟩ := Prod.mk.inj he
      exact ⟨rfl, fun _ => by rw [hc]; rfl⟩
    · rintro ⟨rfl, hr⟩
      obtain ⟨b, hb⟩ := Option.isSome_iff_exists.1 (hr h0)
      exact ⟨b, by rw [hb]; rfl⟩
  · rw [if_neg h0]
    constructor
    · rintro ⟨b, hb⟩
      obtain ⟨rfl, -⟩ := Prod.mk.inj (Option.some.inj hb)
      exact ⟨rfl, fun hp => absurd hp h0⟩
    · rintro ⟨rfl, -⟩
      exact ⟨_, rfl⟩

/-- **`testfs_read_block` returns the number it finds**, if it can read that block. -/
theorem testfsReadBlock_number : (∃ b, testfsReadBlock sb ino n = some (p, b)) ↔
    physicalBlock sb ino n = some p ∧ sb.Readable p := by
  have hconst : ∀ (q : ℤ) (c : Block), q ≤ 0 →
      ((∃ b, some (q, c) = some (p, b)) ↔ some q = some p ∧ sb.Readable p) := by
    intro q c hq
    constructor
    · rintro ⟨b, hb⟩
      obtain ⟨rfl, -⟩ := Prod.mk.inj (Option.some.inj hb)
      exact ⟨rfl, fun hp => absurd hp (not_lt.2 hq)⟩
    · rintro ⟨hp, -⟩
      exact ⟨c, by rw [Option.some.inj hp]⟩
  have hread : ∀ q : ℤ, (∃ b, readPhysical sb q = some (p, b)) ↔
      some q = some p ∧ sb.Readable p := fun q => by rw [readPhysical_number, Option.some_inj]
  unfold testfsReadBlock physicalBlock
  by_cases h0 : n < 0
  · simp [h0]
  rw [if_neg h0, if_neg h0]
  by_cases h1 : n < (nrDirectBlocks : ℕ)
  · rw [if_pos h1, if_pos h1]
    exact hread _
  rw [if_neg h1, if_neg h1]
  by_cases h2 : (nrIndirectBlocks : ℕ) ≤ n - (nrDirectBlocks : ℕ)
  · rw [if_pos h2, if_pos h2]
    simp only
    by_cases h3 : (nrIndirectBlocks * nrIndirectBlocks : ℤ) ≤ n - nrDirectBlocks - nrIndirectBlocks
    · rw [if_pos h3, if_pos h3]
      exact hconst _ _ (by decide)
    rw [if_neg h3, if_neg h3]
    split
    · cases sb.dev.readBlock ino.din.iDindirect with
      | none => simp
      | some table =>
        rw [Option.bind_eq_bind, Option.bind_some, Option.bind_some]
        generalize table.word _ = q
        by_cases hq : 0 < q
        · rw [if_pos hq, if_pos hq]
          cases sb.dev.readBlock q with
          | none => simp
          | some block =>
            rw [Option.bind_some, Option.map_some]
            exact hread _
        · rw [if_neg hq, if_neg hq]
          exact hconst _ _ (not_lt.1 hq)
    · exact hread 0
  rw [if_neg h2, if_neg h2]
  split
  · cases sb.dev.readBlock ino.din.iIndirect with
    | none => simp
    | some block =>
      rw [Option.bind_eq_bind, Option.bind_some, Option.map_some]
      exact hread _
  · exact hread 0

/-- The tables of a file can be read. -/
def TablesRead (s : FileState) : Prop :=
  ∀ sl : Slot, sl.IsTable → s.ptr sl ≠ 0 → s.sb.dev.readBlock (s.ptr sl) = some (s.sb.dev.data (s.ptr sl))

/-- **What it finds is what the tree holds.** -/
theorem physicalBlock_ok (h : Holds F s.ptr s) (ht : TablesRead s) (hl : l < maxFileBlocks) :
    physicalBlock s.sb s.ino l = some (s.ptr (slotOf l)) := by
  unfold physicalBlock
  rw [if_neg (by omega)]
  by_cases h1 : l < indStart
  · rw [if_pos (by unfold indStart at h1; omega), slotOf_direct h1, Int.toNat_natCast]
    rfl
  rw [if_neg (by unfold indStart at h1; omega)]
  by_cases h2 : l < dindStart
  · have hn : ((l : ℤ) - nrDirectBlocks).toNat = l - indStart := by unfold indStart; omega
    have hlt : l - indStart < nrIndirectBlocks := by
      rw [indStart_eq, nrIndirectBlocks_eq]; rw [dindStart_eq] at h2; omega
    rw [if_neg (by unfold dindStart at h2; omega), slotOf_ind (not_lt.1 h1) h2, hn]
    show _ = some (entry _ s.ino.din.iIndirect _)
    by_cases h0 : s.ino.din.iIndirect = 0
    · rw [h0, if_neg (lt_irrefl 0), entry_zero]
    · have hpos : 0 < s.ino.din.iIndirect := (h.pos .indirect).2 h0
      have hr : s.sb.dev.readBlock s.ino.din.iIndirect = _ := ht .indirect trivial h0
      rw [if_pos hpos, hr, entry, if_pos ⟨h0, hlt⟩]
      rfl
  · have h3 : dindStart ≤ l := not_lt.1 h2
    have h5 : ¬(nrIndirectBlocks * nrIndirectBlocks : ℤ) ≤ l - nrDirectBlocks - nrIndirectBlocks := by
      rw [maxFileBlocks_eq] at hl
      rw [nrDirectBlocks_eq, nrIndirectBlocks_eq]
      push_cast
      omega
    obtain ⟨hdn, hen⟩ := dind_index h3
    rw [if_pos (by unfold dindStart at h3; omega)]
    simp only
    rw [if_neg h5, slotOf_dent h3, hdn, hen]
    show _ = some (entry _ (s.ptr (.dind (dindOf l))) _)
    by_cases h0 : s.ino.din.iDindirect = 0
    · have hz : s.ptr (.dind (dindOf l)) = 0 := by
        show entry _ s.ino.din.iDindirect _ = 0
        rw [h0, entry_zero]
      rw [h0, if_neg (lt_irrefl 0), hz, entry_zero]
    have hpos : 0 < s.ino.din.iDindirect := (h.pos .dindirect).2 h0
    have hr : s.sb.dev.readBlock s.ino.din.iDindirect = _ := ht .dindirect trivial h0
    have hw : s.ptr (.dind (dindOf l)) = (s.sb.dev.data s.ino.din.iDindirect).word (dindOf l) := by
      show entry _ _ _ = _
      rw [entry, if_pos ⟨h0, dindOf_lt hl⟩]
    have hb : (some (s.sb.dev.data (s.ptr .dindirect)) : Option Block) =
      some (s.sb.dev.data s.ino.din.iDindirect) := rfl
    rw [if_pos hpos, hr, hb, Option.bind_some, ← hw]
    by_cases h6 : s.ptr (.dind (dindOf l)) = 0
    · rw [h6, if_neg (lt_irrefl 0), entry_zero]
    · rw [if_pos ((h.pos _).2 h6), ht (.dind (dindOf l)) trivial h6, entry,
        if_pos ⟨h6, dentOf_lt l⟩]
      rfl

/-! ### A file with any count -/

/-- The tables and data blocks of the file are different live blocks, the others are those of `F`. -/
structure TreeOK (F : Set ℤ) (s : FileState) : Prop where
  super : SuperOK s.sb
  sub : F ⊆ s.sb.live
  owns : Owns s.ptr (s.sb.live \ F)
  inDev : InDev (s.sb.live \ F) s

theorem FileOK.treeOK (h : FileOK F s) : TreeOK F s := ⟨h.super, h.sub, h.owns, h.inDev⟩

/-- Add `k` to `block_count`. -/
def FileState.recount (k : ℤ) (s : FileState) : FileState :=
  s.setDin fun d => { d with blockCount := d.blockCount + k }

variable {c : ℤ}

@[simp] theorem FileState.recount_ptr (s : FileState) : (s.recount c).ptr = s.ptr := by
  funext sl; cases sl <;> rfl

@[simp] theorem FileState.recount_fields (s : FileState) :
    (s.recount c).sb = s.sb ∧
    (∀ k, (s.recount c).ino.din.blockNr k = s.ino.din.blockNr k) ∧
    (s.recount c).ino.din.iIndirect = s.ino.din.iIndirect ∧
    (s.recount c).ino.din.iDindirect = s.ino.din.iDindirect := ⟨rfl, fun _ => rfl, rfl, rfl⟩

/-- With the right count, it is a file. -/
theorem TreeOK.fileOK (h : TreeOK F s) : ∃ c, FileOK F (s.recount c) := by
  refine ⟨((s.sb.live \ F).ncard : ℤ) - s.ino.din.blockCount, ⟨h.super, h.sub, ?_, ?_⟩, h.inDev⟩
  · rw [FileState.recount_ptr]; exact h.owns
  · show s.ino.din.blockCount + (((s.sb.live \ F).ncard : ℤ) - s.ino.din.blockCount) =
      ((s.sb.live \ F).ncard : ℤ)
    omega

theorem onSuper_recount {α : Type} (d : Prog SuperBlock α) :
    Commutes (FileState.recount c) (onSuper d) := Commutes.zoom (fun _ => rfl) fun _ _ => rfl

theorem setCount_recount (k : ℤ) (s : FileState) :
    ((s.recount c).setDin fun d => { d with blockCount := d.blockCount + k }).setDirty =
      FileState.recount c (s.setDin fun d => { d with blockCount := d.blockCount + k }).setDirty := by
  unfold FileState.recount FileState.setDin FileState.setDirty
  simp only
  congr 3
  ring

theorem allocForInode_recount : Commutes (FileState.recount c) testfsAllocBlockForInode := by
  unfold testfsAllocBlockForInode
  refine (onSuper_recount _).bind fun r => Commutes.ite ?_ (Commutes.pure _)
  refine Commutes.bind ?_ fun _ => Commutes.pure _
  exact Commutes.modify fun s => setCount_recount 1 s

theorem freeFromInode_recount (p : ℤ) :
    Commutes (FileState.recount c) (testfsFreeBlockFromInode p) := by
  unfold testfsFreeBlockFromInode
  refine Commutes.ite (Commutes.pure _) ((onSuper_recount _).bind fun _ => ?_)
  exact Commutes.modify fun s => setCount_recount (-1) s

theorem allocateDirectOfDouble_recount (i j : ℕ) (di indirect : Block) (avail alloc : Bool) :
    Commutes (FileState.recount c) (allocateDirectOfDouble i j di indirect avail alloc) := by
  unfold allocateDirectOfDouble
  refine allocForInode_recount.bind fun p => Commutes.getState_bind (fun s => ?_) fun _ => by simp only [FileState.recount_fields]
  refine Commutes.ite (Commutes.ite ?_ (Commutes.ite ?_ (Commutes.pure _))) ?_
  · exact (freeFromInode_recount _).bind fun _ => (freeFromInode_recount _).bind fun _ =>
      Commutes.pure _
  · exact (freeFromInode_recount _).bind fun _ => Commutes.pure _
  · exact (onSuper_recount _).bind fun _ => Commutes.pure _

theorem allocateIndirectOfDouble_recount (i j : ℕ) (di : Block) (avail : Bool) :
    Commutes (FileState.recount c) (allocateIndirectOfDouble i j di avail) := by
  unfold allocateIndirectOfDouble
  refine Commutes.ite ?_ ((onSuper_recount _).bind fun _ => allocateDirectOfDouble_recount _ _ _ _ _ _)
  refine allocForInode_recount.bind fun p => Commutes.getState_bind (fun s => ?_) fun _ => by simp only [FileState.recount_fields]
  refine Commutes.ite (Commutes.ite ?_ (Commutes.pure _)) ?_
  · exact (freeFromInode_recount _).bind fun _ => Commutes.pure _
  · exact (onSuper_recount _).bind fun _ => allocateDirectOfDouble_recount _ _ _ _ _ _

theorem allocateDouble_recount (i j : ℕ) :
    Commutes (FileState.recount c) (allocateDouble i j) := by
  unfold allocateDouble
  refine Commutes.getState_bind (fun s => ?_) fun _ => by simp only [FileState.recount_fields]
  refine Commutes.ite ?_ ((onSuper_recount _).bind fun _ => allocateIndirectOfDouble_recount _ _ _ _)
  refine allocForInode_recount.bind fun p => Commutes.ite (Commutes.pure _) ?_
  refine Commutes.bind ?_ fun _ => allocateIndirectOfDouble_recount _ _ _ _
  exact Commutes.modify fun _ => rfl

theorem allocateDirectOfIndirect_recount (n : ℤ) (indirect : Block) (alloc : Bool) :
    Commutes (FileState.recount c) (allocateDirectOfIndirect n indirect alloc) := by
  unfold allocateDirectOfIndirect
  refine Commutes.bind (Commutes.require _) fun _ => ?_
  refine allocForInode_recount.bind fun p => Commutes.getState_bind (fun s => ?_) fun _ => by
    simp only [FileState.recount_fields]
  refine Commutes.ite ((onSuper_recount _).bind fun _ => Commutes.pure _) ?_
  simp only
  refine Commutes.ite ((freeFromInode_recount _).bind fun _ => ?_) (Commutes.pure _)
  refine Commutes.bind ?_ fun _ => Commutes.pure _
  exact Commutes.modify fun _ => rfl

theorem allocateIndirect_recount (n : ℤ) :
    Commutes (FileState.recount c) (allocateIndirect n) := by
  unfold allocateIndirect
  refine Commutes.getState_bind (fun s => ?_) fun _ => by simp only [FileState.recount_fields]
  refine Commutes.ite ?_ ((onSuper_recount _).bind fun _ => allocateDirectOfIndirect_recount _ _ _)
  refine allocForInode_recount.bind fun p => Commutes.ite (Commutes.pure _) ?_
  refine Commutes.bind ?_ fun _ => allocateDirectOfIndirect_recount _ _ _
  exact Commutes.modify fun _ => rfl

theorem allocateDirect_recount (n : ℤ) : Commutes (FileState.recount c) (allocateDirect n) := by
  unfold allocateDirect
  refine Commutes.getState_bind (fun s => ?_) fun s => by
    rw [(FileState.recount_fields s).2.1]
  refine Commutes.bind (Commutes.require _) fun _ => allocForInode_recount.bind fun p => ?_
  refine Commutes.ite (Commutes.bind ?_ fun _ => Commutes.pure _) (Commutes.pure _)
  exact Commutes.modify fun _ => rfl

/-- **Allocating does not look at `block_count`.** -/
theorem allocateBlock_recount (n : ℤ) :
    Commutes (FileState.recount c) (testfsAllocateBlock n) := by
  unfold testfsAllocateBlock
  refine Commutes.bind (Commutes.reads fun s => ?_) ?_
  · rfl
  rintro ⟨p, block⟩
  refine Commutes.ite (Commutes.pure _) (Commutes.ite ?_ (Commutes.ite ?_ ?_))
  · exact (allocateDirect_recount _).bind fun _ => Commutes.pure _
  · exact (allocateDouble_recount _ _).bind fun _ => Commutes.pure _
  · exact (allocateIndirect_recount _).bind fun _ => Commutes.pure _

/-! ### Allocating a block updates the map -/

/-- The map from logical blocks to blocks of the device; `0` is a hole. -/
def FileState.blockMap (s : FileState) (l : ℕ) : ℤ := s.ptr (slotOf l)

theorem TreeOK.blockMap (h : TreeOK F s) (hl : l < maxFileBlocks) :
    physicalBlock s.sb s.ino l = some (s.blockMap l) := by
  obtain ⟨c, hc⟩ := h.fileOK
  have hr := readBlock_ok hc hl
  rw [FileState.recount_ptr] at hr
  exact (testfsReadBlock_number.1 ⟨_, hr⟩).1

/-- The blocks that were taken for the empty slots on the path of `l`. -/
def FileState.taken (s : FileState) (l : ℕ) (s' : FileState) : List ℤ :=
  ((path l).filter fun sl => s.ptr sl = 0).map s'.ptr

theorem mem_taken {b : ℤ} :
    b ∈ s.taken l s' ↔ ∃ sl ∈ path l, s.ptr sl = 0 ∧ s'.ptr sl = b := by
  simp [FileState.taken, and_assoc]

theorem length_path (l : ℕ) : (path l).length ≤ 3 := by
  unfold path
  split
  · simp
  · split <;> simp

namespace Extended

/-- Every block of the file but the new one can be read. -/
theorem readable (h : Extended F s l r s') (hsl : sl ≠ slotOf l) (h0 : s'.ptr sl ≠ 0) :
    s'.sb.dev.readBlock (s'.ptr sl) = some (s'.sb.dev.data (s'.ptr sl)) := by
  have hm := h.holds.owns.mem h0
  have hge := (h.holds.bounds hm).1
  have hne : s'.ptr sl ≠ r := by
    intro he
    rw [← h.target] at he
    exact hsl (h.holds.owns.unique he h0)
  unfold Device.readBlock
  rw [if_pos ⟨by rw [dataStart_eq] at hge; omega, h.inDev _ hm hne⟩]

theorem tablesRead (h : Extended F s l r s') : TablesRead s' := by
  intro sl hsl h0
  refine h.readable ?_ h0
  rintro rfl
  exact slotOf_notTable l hsl

theorem pos (h : Extended F s l r s') : 0 < r := by
  have := (h.holds.pos (slotOf l)).2 (h.filled _ (slotOf_mem_path l))
  rwa [h.target] at this

theorem blockMap (h : Extended F s l r s') : s'.blockMap = Function.update s.blockMap l r := by
  funext m
  by_cases hm : m = l
  · rw [hm, Function.update_self]; exact h.target
  · rw [Function.update_of_ne hm]
    exact h.kept _ (Or.inr fun hp => hm (slotOf_mem_path_iff.1 hp))

theorem taken_nodup (h : Extended F s l r s') : (s.taken l s').Nodup := by
  refine List.Nodup.map_on ?_ ((FileState.path_nodup l).filter _)
  intro sl hsl sl' _ he
  have hsl := List.mem_filter.1 hsl
  exact h.holds.owns.unique he (h.filled sl hsl.1)

/-- A block that was taken was free. -/
theorem taken_fresh (h : Extended F s l r s') (hs : FileOK F s) {b : ℤ} (hb : b ∈ s.taken l s') :
    b ∉ s.sb.live := by
  obtain ⟨sl, hsl, hz, rfl⟩ := mem_taken.1 hb
  intro hlive
  have h0 := h.filled sl hsl
  have hm := h.holds.owns.mem h0
  obtain ⟨sl₂, hsl₂, -⟩ := hs.owns.place ⟨hlive, hm.2⟩
  have hne : s.ptr sl₂ ≠ 0 := by rw [hsl₂]; exact h0
  have hkept := h.kept sl₂ (Or.inl hne)
  have heq : sl = sl₂ := h.holds.owns.unique (by rw [hkept, hsl₂]) h0
  rw [heq] at hz
  exact hne hz

theorem live (h : Extended F s l r s') (hs : FileOK F s) :
    s'.sb.live = s.sb.live ∪ {b | b ∈ s.taken l s'} := by
  ext b
  constructor
  · intro hb
    by_cases hF : b ∈ F
    · exact Or.inl (hs.sub hF)
    obtain ⟨sl, rfl, h0⟩ := h.holds.owns.place ⟨hb, hF⟩
    by_cases hz : s.ptr sl = 0
    · refine Or.inr (mem_taken.2 ⟨sl, ?_, hz, rfl⟩)
      by_contra hp
      exact h0 ((h.kept sl (Or.inr hp)).trans hz)
    · rw [h.kept sl (Or.inl hz)]
      exact Or.inl (hs.owns.mem hz).1
  · rintro (hb | hb)
    · exact h.grows hb
    · obtain ⟨sl, hsl, -, rfl⟩ := mem_taken.1 hb
      exact (h.holds.owns.mem (h.filled sl hsl)).1

end Extended

/-- The number of blocks in use, from what is left. -/
theorem used_of_left {sb' : SuperBlock} (h : SuperOK sb) (h' : SuperOK sb')
    (hm : sb'.sb.maxFsBlocks = sb.sb.maxFsBlocks) {k : ℕ} (hk : sb'.left + k = sb.left) :
    sb'.sb.usedBlockCount = sb.sb.usedBlockCount + k := by
  have h1 := h.usedLe
  have h2 := h'.usedLe
  unfold SuperBlock.left at hk
  omega

namespace Extended

theorem length_taken (s s' : FileState) (l : ℕ) : (s.taken l s').length = s.need l := by
  rw [FileState.taken, List.length_map]
  rfl

theorem used (h : Extended F s l r s') (hs : FileOK F s) :
    s'.sb.sb.usedBlockCount = s.sb.sb.usedBlockCount + (s.taken l s').length := by
  rw [length_taken]
  exact used_of_left hs.super h.holds.super h.frame.frame.maxFsBlocks h.left

theorem blockCount (h : Extended F s l r s') (hs : FileOK F s) :
    s'.ino.din.blockCount = s.ino.din.blockCount + (s.taken l s').length := by
  have hF : F.Finite := (live_finite s.sb).subset hs.sub
  have hused := h.used hs
  rw [hs.super.usedBlocks, h.holds.super.usedBlocks, ← live_ncard, ← live_ncard] at hused
  have h1 := Set.ncard_sdiff_add_ncard_of_subset hs.sub (live_finite s.sb)
  have h2 := Set.ncard_sdiff_add_ncard_of_subset h.holds.sub (live_finite s'.sb)
  rw [hs.count, h.holds.count]
  omega

end Extended

/-- What an allocation that returned block `p` has done to the map and to the freemap. -/
structure MapUpdated (s : FileState) (l : ℕ) (p : ℤ) (s' : FileState) : Prop where
  pos : 0 < p
  /-- `testfs_read_block` finds `p` for `l`, and for the others what it found before. -/
  found : ∀ m < maxFileBlocks,
    physicalBlock s'.sb s'.ino m = some (Function.update s.blockMap l p m)
  /-- The others can be read, and `l` can once block `p` is written. -/
  read : ∀ m < maxFileBlocks, m ≠ l →
    ∃ b, testfsReadBlock s'.sb s'.ino m = some (s.blockMap m, b)
  written : ∀ b, testfsReadBlock (s'.put p b).sb s'.ino l = some (p, b)
  /-- A block that was mapped stays where it is, and nothing changes. -/
  mapped : s.blockMap l ≠ 0 → p = s.blockMap l ∧ s' = s
  /-- Otherwise one to three different free blocks are taken: `p` and the new tables. -/
  taken : s.blockMap l = 0 → ∃ new : List ℤ, p ∈ new ∧ new.Nodup ∧ new.length ≤ 3 ∧
    (∀ b ∈ new, b ∉ s.sb.live) ∧ s'.sb.live = s.sb.live ∪ {b | b ∈ new} ∧
    (∀ sl : Slot, s'.ptr sl = s.ptr sl ∨ s.ptr sl = 0 ∧ s'.ptr sl ∈ new) ∧
    s'.ino.din.blockCount = s.ino.din.blockCount + new.length ∧
    s'.sb.sb.usedBlockCount = s.sb.sb.usedBlockCount + new.length

/-- The block that a write is about to fill is read back. -/
theorem Ready.read (h : Ready F s l r s') (hl : l < maxFileBlocks) (b : Block) :
    testfsReadBlock (s'.put r b).sb s'.ino l = some (r, b) := by
  have hfile := h.fileOK b
  have hptr : (s'.put r b).ptr (slotOf l) = r := by rw [h.ptr_put, h.target]
  have hns : ¬(s'.put r b).NoSecondLevel l := by
    rintro ⟨h1, -, h3⟩
    rw [h.ptr_put] at h3
    exact h.filled _ (FileState.dind_mem_path.2 ⟨h1, rfl⟩) h3
  have hread := readBlock_ok hfile hl
  rw [hptr, FileState.delivered, if_neg hns, h.blockAt_self] at hread
  exact hread

theorem Extended.mapUpdated (h : Extended F s l r s') (hs : FileOK F s) (hl : l < maxFileBlocks)
    (hm : s.blockMap l = 0) : MapUpdated s l r s' where
  pos := h.pos
  found m hlt := by
    rw [physicalBlock_ok h.holds h.tablesRead hlt, ← h.blockMap]
    rfl
  read m hlt hne := by
    have hsl : slotOf m ≠ slotOf l := fun he => hne (slotOf_mem_path_iff.1 (he ▸ slotOf_mem_path l))
    have hmap : s.blockMap m = s'.blockMap m := by rw [h.blockMap, Function.update_of_ne hne]
    rw [hmap]
    refine testfsReadBlock_number.2 ⟨physicalBlock_ok h.holds h.tablesRead hlt, fun hp => ?_⟩
    rw [FileState.blockMap] at hp ⊢
    rw [h.readable hsl hp.ne']
    rfl
  written := h.ready.read hl
  mapped hne := absurd hm hne
  taken _ := by
    refine ⟨s.taken l s', ?_, h.taken_nodup, ?_, fun b hb => h.taken_fresh hs hb, h.live hs,
      fun sl => ?_, h.blockCount hs, h.used hs⟩
    · exact mem_taken.2 ⟨_, slotOf_mem_path l, hm, h.target⟩
    · rw [FileState.taken, List.length_map]
      exact (List.length_filter_le _ _).trans (length_path l)
    · by_cases hk : s.ptr sl ≠ 0 ∨ sl ∉ path l
      · exact Or.inl (h.kept sl hk)
      · rw [not_or, not_not, not_not] at hk
        exact Or.inr ⟨hk.1, mem_taken.2 ⟨sl, hk.2, hk.1, rfl⟩⟩

theorem physicalBlock_recount (s : FileState) (n : ℤ) :
    physicalBlock s.sb (s.recount c).ino n = physicalBlock s.sb s.ino n := by
  unfold physicalBlock
  simp only [FileState.recount_fields]

theorem recount_injective : Function.Injective (FileState.recount c) := by
  intro s s' he
  have hsb : (s.recount c).sb = (s'.recount c).sb := congrArg FileState.sb he
  have hino : (s.recount c).ino = (s'.recount c).ino := congrArg FileState.ino he
  obtain ⟨sb, ⟨⟨T, B, I, D, n, z⟩, dirty, nr, count⟩⟩ := s
  obtain ⟨sb', ⟨⟨T', B', I', D', n', z'⟩, dirty', nr', count'⟩⟩ := s'
  simp only [FileState.recount, FileState.setDin, Inode.mk.injEq, DInode.mk.injEq] at hino hsb
  obtain ⟨⟨rfl, rfl, rfl, rfl, hn, rfl⟩, rfl, rfl, rfl⟩ := hino
  obtain rfl : n = n' := by omega
  rw [hsb]

theorem MapUpdated.recount (h : MapUpdated (s.recount c) l p (s'.recount c)) :
    MapUpdated s l p s' := by
  have hmap : (s.recount c).blockMap = s.blockMap := by
    funext m
    rw [FileState.blockMap, FileState.recount_ptr, FileState.blockMap]
  obtain ⟨hpos, hfound, hread, hwritten, hmapped, htaken⟩ := h
  rw [hmap] at hfound hread hmapped htaken
  refine ⟨hpos, fun m hm => ?_, hread, hwritten, fun hne => ?_, fun hz => ?_⟩
  · have := hfound m hm
    rwa [(FileState.recount_fields s').1, physicalBlock_recount] at this
  · obtain ⟨h1, h2⟩ := hmapped hne
    exact ⟨h1, recount_injective h2⟩
  · obtain ⟨new, h1, h2, h3, h4, h5, h6, h7, h8⟩ := htaken hz
    rw [FileState.recount_ptr, FileState.recount_ptr] at h6
    refine ⟨new, h1, h2, h3, h4, h5, h6, ?_, h8⟩
    have h7 : s'.ino.din.blockCount + c = s.ino.din.blockCount + c + new.length := h7
    omega

/-- A block is returned if it is mapped or there is space for it; one that is mapped is returned as
it is. -/
theorem allocateBlock_succeeds (h : TreeOK F s) (hl : l < maxFileBlocks) :
    wp False (testfsAllocateBlock l) (fun rb s' =>
      (0 ≤ rb.1 ↔ s.Mapped l ∨ s.need l ≤ s.sb.left) ∧
      (s.Mapped l → rb.1 = s.blockMap l ∧ s' = s)) s := by
  obtain ⟨c, hc⟩ := h.fileOK
  have hmap : (s.recount c).Mapped l ↔ s.Mapped l := by
    unfold FileState.Mapped
    rw [FileState.recount_ptr]
  have hneed : (s.recount c).need l = s.need l := by
    unfold FileState.need
    rw [FileState.recount_ptr]
  have hblock : (s.recount c).blockMap l = s.blockMap l := by
    unfold FileState.blockMap
    rw [FileState.recount_ptr]
  have hrun : wp False (testfsAllocateBlock l) (fun rb s' =>
      (0 ≤ rb.1 ↔ s.Mapped l ∨ s.need l ≤ s.sb.left) ∧
      (s.Mapped l → rb.1 = s.blockMap l ∧ s' = s.recount c)) (s.recount c) := by
    refine wp_mono (allocateBlock_ok hc hl) ?_
    rw [hmap, hneed]
    rintro ⟨p, block⟩ s' ⟨-, ⟨hm, hp, rfl⟩ | ⟨hm, hspace, hext⟩ | ⟨hm, hno, hp, -⟩⟩
    · have hp : p = (s.recount c).blockMap l := hp
      refine ⟨iff_of_true ?_ (Or.inl hm), fun _ => ⟨hp.trans hblock, rfl⟩⟩
      exact hp ▸ ((hc.pos (slotOf l)).2 (hmap.2 hm)).le
    · exact ⟨iff_of_true hext.pos.le (Or.inr hspace), fun h => absurd h hm⟩
    · have hneg : p < 0 := by
        rw [show p = -enospc from hp]
        decide
      refine ⟨iff_of_false hneg.not_ge fun h => ?_, fun h => absurd h hm⟩
      rcases h with h | h
      · exact hm h
      · exact absurd h (not_le.2 hno)
  rw [(allocateBlock_recount (c := c) _).wp_iff] at hrun
  exact wp_mono hrun fun rb s' hq => ⟨hq.1, fun hm => ⟨(hq.2 hm).1, recount_injective (hq.2 hm).2⟩⟩

/-- **The block tree refines a map.** When `testfs_allocate_block` returns a block for `l`, the map
that `testfs_read_block` looks up is updated at `l` and nowhere else. -/
theorem allocateBlock_map (h : TreeOK F s) (hl : l < maxFileBlocks) :
    (∀ m < maxFileBlocks, physicalBlock s.sb s.ino m = some (s.blockMap m)) ∧
    wp False (testfsAllocateBlock l) (fun rb s' => 0 ≤ rb.1 → MapUpdated s l rb.1 s') s := by
  refine ⟨fun m hm => h.blockMap hm, ?_⟩
  obtain ⟨c, hc⟩ := h.fileOK
  have hrun : wp False (testfsAllocateBlock l)
      (fun rb s' => 0 ≤ rb.1 → MapUpdated (s.recount c) l rb.1 s') (s.recount c) := by
    refine wp_mono (allocateBlock_ok hc hl) ?_
    rintro ⟨p, block⟩ s' ⟨-, ⟨hm, hp, rfl⟩ | ⟨hm, -, hext⟩ | ⟨-, -, hp, -⟩⟩ h0
    · have hpos := (hc.pos (slotOf l)).2 hm
      have hp : p = (s.recount c).blockMap l := hp
      refine ⟨hp ▸ hpos, fun m hlt => ?_, fun m hlt _ => ⟨_, readBlock_ok hc hlt⟩, ?_,
        fun _ => ⟨hp, rfl⟩, fun hz => absurd hz hm⟩
      · rw [hp, Function.update_eq_self]
        exact (testfsReadBlock_number.1 ⟨_, readBlock_ok hc hlt⟩).1
      · exact hp ▸ (Ready.of_mapped hc hm).read hl
    · exact hext.mapUpdated hc hl (not_not.1 hm)
    · rw [hp] at h0
      exact absurd h0 (by decide)
  rw [(allocateBlock_recount (c := c) _).wp_iff] at hrun
  exact wp_mono hrun fun rb s' hm h0 => (hm h0).recount

/-- A new file has space for the first block of its double indirect part. -/
theorem allocateBlock_map_fresh :
    TreeOK ∅ (freshFile 3) ∧ 2058 < maxFileBlocks ∧
    (∀ m < maxFileBlocks, physicalBlock (freshFile 3).sb (freshFile 3).ino m =
      some ((freshFile 3).blockMap m)) ∧
    ∃ r block s', testfsAllocateBlock 2058 (freshFile 3) = some ((r, block), s') ∧ 0 ≤ r ∧
      MapUpdated (freshFile 3) 2058 r s' := by
  obtain ⟨h, hleft, -⟩ := freshFile_ok (n := 3) (by decide)
  obtain ⟨hmap, hrun⟩ := allocateBlock_map h.treeOK (l := 2058) (by decide)
  obtain ⟨⟨r, block⟩, s', hr, hsucc, -⟩ :=
    (allocateBlock_succeeds h.treeOK (l := 2058) (by decide)).returns
  have h0 : 0 ≤ r := hsucc.2 (Or.inr ((List.length_filter_le _ _).trans
    ((length_path 2058).trans hleft.ge)))
  exact ⟨h.treeOK, by decide, hmap, r, block, s', hr, h0, hrun.of_run hr h0⟩

end OSLab.Fs
