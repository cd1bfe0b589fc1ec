import OSLab.Fs.Proof.BlockMap
import OSLab.Fs.Proof.MakeFs

/-!
# Running out of space

* `allocateBlock_atomic`: a failed `testfs_allocate_block` leaves the block tree, the
  freemap and the counts as they were, except that a block of the double indirect part of
  which some, but not all, blocks could be taken leaves the number of a freed block behind.
* `writeData_size`: after a write the size covers what was stored, unless the write stops
  after its first block: at its last block it sets the size of the largest file, and
  before that it leaves the size alone.
-/

namespace OSLab.Fs

open Prog

variable {F : Set ℤ} {s s' : FileState} {k l n : ℕ} {p c : ℤ} {sl : Slot}

/-! ### Failed allocations -/

/-- The block tree, the freemap and the counts are those of `s`. -/
structure SameBlocks (s s' : FileState) : Prop where
  blockNr : ∀ k, s'.ino.din.blockNr k = s.ino.din.blockNr k
  iIndirect : s'.ino.din.iIndirect = s.ino.din.iIndirect
  iDindirect : s'.ino.din.iDindirect = s.ino.din.iDindirect
  blockCount : s'.ino.din.blockCount = s.ino.din.blockCount
  /-- The tables on the device. -/
  table : ∀ sl : Slot, sl.IsTable → s.ptr sl ≠ 0 → ∀ k < nrIndirectBlocks,
    (s'.sb.dev.data (s.ptr sl)).word k = (s.sb.dev.data (s.ptr sl)).word k
  freemap : s'.sb.blockFreemap.nbits = s.sb.blockFreemap.nbits ∧
    s'.sb.blockFreemap.members = s.sb.blockFreemap.members
  usedBlockCount : s'.sb.sb.usedBlockCount = s.sb.sb.usedBlockCount

theorem SameBlocks.refl (s : FileState) : SameBlocks s s :=
  ⟨fun _ => rfl, rfl, rfl, rfl, fun _ _ _ _ _ => rfl, ⟨rfl, rfl⟩, rfl⟩

/-- Entry `k` of an unchanged table. -/
theorem entry_eq_of_words {f f' : ℤ → Block} {t : ℤ}
    (h : t ≠ 0 → ∀ k < nrIndirectBlocks, (f' t).word k = (f t).word k) (k : ℕ) :
    entry f' t k = entry f t k := by
  unfold entry
  by_cases hk : t ≠ 0 ∧ k < nrIndirectBlocks
  · rw [if_pos hk, if_pos hk, h hk.1 k hk.2]
  · rw [if_neg hk, if_neg hk]

theorem word_eq_of_entry {f f' : ℤ → Block} {t t' : ℤ} (ht : t' = t) (h0 : t ≠ 0)
    (hk : k < nrIndirectBlocks) (h : entry f' t' k = entry f t k) : (f' t).word k = (f t).word k := by
  unfold entry at h
  rwa [ht, if_pos ⟨h0, hk⟩, if_pos ⟨h0, hk⟩] at h

/-- The table slots hold what they held. -/
theorem SameBlocks.tablePtr (h : SameBlocks s s') (hsl : sl.IsTable) : s'.ptr sl = s.ptr sl := by
  cases sl with
  | indirect => exact h.iIndirect
  | dindirect => exact h.iDindirect
  | dind i =>
    show entry _ s'.ino.din.iDindirect i = entry _ s.ino.din.iDindirect i
    rw [h.iDindirect]
    exact entry_eq_of_words (h.table .dindirect trivial) i
  | _ => exact hsl.elim

theorem LeftBehind.not_sameBlocks (h : LeftBehind l s sl p s') : ¬SameBlocks s s' := by
  intro hs
  have hp := hs.tablePtr h.isTable
  rw [h.ptr, Function.update_self, h.empty] at hp
  exact h.ne_zero hp

/-- The set bits of the freemap are the blocks in use. -/
theorem members_of_live {sb sb' : SuperBlock} (h : sb'.live = sb.live) :
    sb'.blockFreemap.members = sb.blockFreemap.members := by
  ext i
  have hi : ∀ t : SuperBlock, i ∈ t.blockFreemap.members ↔ (dataStart : ℤ) + i ∈ t.live := by
    intro t
    rw [mem_live]
    constructor
    · intro hm
      exact ⟨i, hm, rfl⟩
    · rintro ⟨j, hj, he⟩
      obtain rfl : j = i := by omega
      exact hj
  rw [hi, hi, h]

theorem NoSpace.sameBlocks (h : NoSpace F s s') (hs : FileOK F s) (hp : s'.ptr = s.ptr) :
    SameBlocks s s' where
  blockNr k := congrFun hp (.direct k)
  iIndirect := congrFun hp .indirect
  iDindirect := congrFun hp .dindirect
  blockCount := h.blockCount
  table sl hsl h0 k hk := by
    cases sl with
    | indirect => exact word_eq_of_entry (congrFun hp .indirect) h0 hk (congrFun hp (.ind k))
    | dindirect => exact word_eq_of_entry (congrFun hp .dindirect) h0 hk (congrFun hp (.dind k))
    | dind i => exact word_eq_of_entry (congrFun hp (.dind i)) h0 hk (congrFun hp (.dent i k))
    | _ => exact hsl.elim
  freemap := ⟨h.super.blockBits.trans hs.super.blockBits.symm, members_of_live h.live⟩
  usedBlockCount := by
    rw [h.super.usedBlocks, hs.super.usedBlocks, members_of_live h.live]

theorem sameBlocks_recount : SameBlocks (s.recount c) (s'.recount c) ↔ SameBlocks s s' := by
  constructor
  · intro h
    have hcount : s'.ino.din.blockCount + c = s.ino.din.blockCount + c := h.blockCount
    have htable := h.table
    rw [FileState.recount_ptr] at htable
    exact ⟨h.blockNr, h.iIndirect, h.iDindirect, by omega, htable, h.freemap, h.usedBlockCount⟩
  · intro h
    have hcount : s'.ino.din.blockCount + c = s.ino.din.blockCount + c := by rw [h.blockCount]
    refine ⟨h.blockNr, h.iIndirect, h.iDindirect, hcount, ?_, h.freemap, h.usedBlockCount⟩
    rw [FileState.recount_ptr]
    exact h.table

/-- An allocation of block `l` that takes a table and then finds no block left. -/
def FileState.Strands (s : FileState) (l : ℕ) : Prop :=
  dindStart ≤ l ∧ l < maxFileBlocks ∧ ¬s.Mapped l ∧ 0 < s.sb.left ∧ s.sb.left < s.need l

/-- Then the number of the freed table stays behind. -/
theorem FileOK.strands (h : FileOK F s) (hs : s.Strands l) :
    wp False (testfsAllocateBlock l) (fun rb s' => rb.1 < 0 ∧ ¬SameBlocks s s') s := by
  obtain ⟨hd, hl, hm, hleft, hneed⟩ := hs
  refine wp_mono (allocateBlock_ok h hl) ?_
  rintro ⟨r, block⟩ s' ⟨-, ⟨hm', -⟩ | ⟨-, hn, -⟩ | ⟨-, -, hr, -, -, hb⟩⟩
  · exact absurd hm' hm
  · omega
  · obtain ⟨sl, p, hlb⟩ := hb ⟨hd, hleft⟩
    refine ⟨?_, hlb.not_sameBlocks⟩
    show r < 0
    rw [show r = -enospc from hr]
    decide

theorem FileOK.atomic (h : FileOK F s) :
    wp False (testfsAllocateBlock l) (fun rb s' => rb.1 < 0 → SameBlocks s s') s ↔
      ¬s.Strands l := by
  constructor
  · intro hwp hs
    obtain ⟨rb, s', hr, hneg, hne⟩ := (h.strands hs).returns
    exact hne (hwp.of_run hr hneg)
  · intro hns
    by_cases hl : l < maxFileBlocks
    · refine wp_mono (allocateBlock_ok h hl) ?_
      rintro ⟨r, block⟩ s' ⟨-, ⟨-, -, rfl⟩ | ⟨-, -, hext⟩ | ⟨hm, hneed, -, hno, hptr, -⟩⟩ hneg
      · exact .refl _
      · have hpos := hext.pos
        exact absurd hneg (by simpa using hpos.le)
      · exact hno.sameBlocks h (hptr fun hlv => hns ⟨hlv.1, hl, hm, hlv.2, hneed⟩)
    · exact allocateBlock_big (by omega) fun _ _ => .refl s

/-- **A failed allocation changes nothing**, unless it took a table of the double indirect part. -/
theorem allocateBlock_atomic (h : TreeOK F s) :
    wp False (testfsAllocateBlock l) (fun rb s' => rb.1 < 0 → SameBlocks s s') s ↔
      ¬(dindStart ≤ l ∧ l < maxFileBlocks ∧ ¬s.Mapped l ∧ 0 < s.sb.left ∧
        s.sb.left < s.need l) := by
  obtain ⟨c, hc⟩ := h.fileOK
  have hs : (s.recount c).Strands l ↔ s.Strands l := by
    unfold FileState.Strands FileState.Mapped FileState.need
    rw [FileState.recount_ptr]
    rfl
  have hrun := hc.atomic (l := l)
  rw [(allocateBlock_recount (c := c) _).wp_iff, hs] at hrun
  simp only [sameBlocks_recount] at hrun
  exact hrun

/-- A block of a new file for which too few are left is not returned. -/
theorem freshFile_full {r : ℤ} {block : Block} (hn : n ≤ blockBits) (hl : l < maxFileBlocks)
    (hlen : n < (path l).length)
    (hr : testfsAllocateBlock l (freshFile n) = some ((r, block), s')) : r < 0 := by
  obtain ⟨h, hleft, hptr⟩ := freshFile_ok hn
  have hneed : (freshFile n).need l = (path l).length := by
    unfold FileState.need
    rw [List.filter_eq_self.2 fun sl _ => by simp [hptr]]
  have hno := ((allocateBlock_succeeds h.treeOK hl).of_run hr).1.not.2 fun hh => ?_
  · exact not_le.1 hno
  · rcases hh with hm | hspace
    · exact hm (hptr _)
    · omega

/-- With one block left, the first block of the indirect part takes it for the table, finds no other
and gives it back; with none left, the first block of the double indirect part takes nothing. -/
theorem allocateBlock_atomic_no_space :
    (TreeOK ∅ (freshFile 1) ∧ ∃ r block s', testfsAllocateBlock 10 (freshFile 1) =
      some ((r, block), s') ∧ r < 0 ∧ SameBlocks (freshFile 1) s') ∧
    (TreeOK ∅ (freshFile 0) ∧ ∃ r block s', testfsAllocateBlock 2058 (freshFile 0) =
      some ((r, block), s') ∧ r < 0 ∧ SameBlocks (freshFile 0) s') := by
  have h1 := (freshFile_ok (n := 1) (by decide)).1.treeOK
  have h0 := (freshFile_ok (n := 0) (by decide)).1.treeOK
  refine ⟨⟨h1, ?_⟩, h0, ?_⟩
  · obtain ⟨⟨r, block⟩, s', hr, hsame⟩ :=
      ((allocateBlock_atomic h1 (l := 10)).2 fun hs => absurd hs.1 (by decide)).returns
    have hneg : r < 0 := freshFile_full (by decide) (by decide) (by decide) hr
    exact ⟨r, block, s', hr, hneg, hsame hneg⟩
  · obtain ⟨⟨r, block⟩, s', hr, hsame⟩ :=
      ((allocateBlock_atomic h0 (l := 2058)).2 fun hs => absurd hs.2.2.2.1 (by decide)).returns
    have hneg : r < 0 := freshFile_full (by decide) (by decide) (by decide) hr
    exact ⟨r, block, s', hr, hneg, hsame hneg⟩

/-- With one block left, the first block of the double indirect part cannot be had, and
`i_dindirect` keeps the number of the block that was to become its table. -/
theorem allocateBlock_strands_table :
    TreeOK ∅ (freshFile 1) ∧ ∃ r block s',
      testfsAllocateBlock 2058 (freshFile 1) = some ((r, block), s') ∧ r < 0 ∧
      ¬SameBlocks (freshFile 1) s' := by
  obtain ⟨h, hleft, hptr⟩ := freshFile_ok (n := 1) (by decide)
  have hneed : (freshFile 1).need 2058 = 3 := by
    unfold FileState.need
    rw [path_dent (by decide)]
    simp [hptr]
  have hs : (freshFile 1).Strands 2058 := by
    refine ⟨by decide, by decide, fun hm => hm (hptr _), ?_, ?_⟩
    · rw [hleft]; decide
    · rw [hleft, hneed]; decide
  obtain ⟨⟨r, block⟩, s', hr, hneg, hne⟩ := (h.strands hs).returns
  exact ⟨h.treeOK, r, block, s', hr, hneg, hne⟩

/-! ### The size of the file after a write -/

/-- The allocated blocks of the file lie below its size. -/
def FileState.Covers (s : FileState) : Prop :=
  ∀ l, s.Mapped l → blockSize * (l : ℤ) < s.ino.din.iSize

/-- A size that covers the blocks of the file and is no larger than it may be. -/
structure SizeOK (s : FileState) : Prop where
  nonneg : 0 ≤ s.ino.din.iSize
  le : s.ino.din.iSize ≤ maxFileSize
  covers : s.Covers

variable {buf : Buf} {base lo hi r : ℤ} {a b start size : ℕ} {s₁ s₂ : FileState}

/-- A write of `size` bytes that returned `r` has stored the first `n` of them: these are in the
file, and the next is not, as the block for it is not allocated. -/
structure Stored (buf : Buf) (start size : ℕ) (r : ℤ) (s' : FileState) (n : ℕ) : Prop where
  le : n ≤ size
  bytes : ∀ i < n, s'.Mapped ((start + i) / blockSize) ∧ buf.get i = some (s'.content (start + i))
  rest : n < size → ¬s'.Mapped ((start + n) / blockSize)
  success : 0 ≤ r → n = size

/-- The size of the file when `n` bytes from `start` on were stored. -/
structure SizeAfter (s : FileState) (start n : ℕ) (s' : FileState) : Prop where
  iSize : s'.ino.din.iSize = if 0 < n then max s.ino.din.iSize (start + n) else s.ino.din.iSize
  le : s'.ino.din.iSize ≤ maxFileSize
  covers : s'.Covers

theorem Stored.unique (h : Stored buf start size r s' n) (h' : Stored buf start size r s' k) :
    n = k := by
  have key : ∀ {n k}, Stored buf start size r s' n → Stored buf start size r s' k → ¬n < k := by
    intro n k hn hk hlt
    exact hn.rest (hlt.trans_le hk.le) (hk.bytes n hlt).1
  have h1 := key h h'
  have h2 := key h' h
  omega

/-- A write from block `a` on finds space for the blocks before `l`, and not for `l`. -/
def FileState.StopsBefore (s : FileState) (a l : ℕ) : Prop :=
  l ≤ maxFileBlocks ∧ s.missing a l ≤ s.sb.left ∧
    (l = maxFileBlocks ∨ s.sb.left < s.missing a (l + 1))

theorem FileState.StopsBefore.unique (hl : s.StopsBefore a l) (hk : s.StopsBefore a k) : l = k := by
  have key : ∀ {l k}, s.StopsBefore a l → s.StopsBefore a k → ¬l < k := by
    rintro l k ⟨-, -, hl⟩ ⟨hk1, hk2, -⟩ hlt
    have hmono : s.missing a (l + 1) ≤ s.missing a k := s.missing_mono hlt
    omega
  have h1 := key hl hk
  have h2 := key hk hl
  omega

/-- A block past the last has no slot. -/
theorem not_mapped_of_ge (hl : maxFileBlocks ≤ l) : ¬s.Mapped l := by
  rw [maxFileBlocks_eq] at hl
  have hd : dindStart ≤ l := by rw [dindStart_eq]; omega
  have hi : ¬dindOf l < nrIndirectBlocks := by
    unfold dindOf
    rw [nrIndirectBlocks_eq, dindStart_eq]
    omega
  rw [FileState.Mapped, slotOf_dent hd, not_not]
  have hz : entry s.sb.dev.data s.ino.din.iDindirect (dindOf l) = 0 := by
    unfold entry
    rw [if_neg]
    rintro ⟨-, hlt⟩
    exact hi hlt
  show entry _ (entry _ _ _) _ = 0
  rw [hz, entry_zero]

theorem Written.le_max (h : Written F s buf base a b lo hi s') (hb : a < b) :
    b ≤ maxFileBlocks := by
  by_contra hn
  have hm : s'.Mapped (b - 1) := h.mapped.2 (Or.inr ⟨by omega, by omega⟩)
  have hge : maxFileBlocks ≤ b - 1 := by omega
  exact not_mapped_of_ge hge hm

/-- A failed attempt leaves the logical blocks where they were. -/
theorem Failed.slotOf (h : Failed F s l s') (m : ℕ) : s'.ptr (slotOf m) = s.ptr (slotOf m) := by
  by_cases hl : s.Leaves l
  · obtain ⟨sl, p, hb⟩ := h.behind hl
    exact hb.slotOf m
  · rw [h.clean hl]

namespace Stop

theorem slotOf (h : Stop F s l r s') (m : ℕ) : s'.ptr (slotOf m) = s.ptr (slotOf m) := by
  rcases h with ⟨-, -, rfl⟩ | ⟨-, -, hf⟩
  · rfl
  · exact hf.slotOf m

theorem mapped (h : Stop F s l r s') {m : ℕ} : s'.Mapped m ↔ s.Mapped m := by
  unfold FileState.Mapped
  rw [h.slotOf]

theorem content (h : Stop F s l r s') (p : ℕ) : s'.content p = s.content p := by
  unfold FileState.content FileState.blockAt
  rw [h.slotOf]
  by_cases h0 : s.ptr (Fs.slotOf (p / blockSize)) = 0
  · rw [if_pos h0, if_pos h0]
  rw [if_neg h0, if_neg h0]
  rcases h with ⟨-, -, rfl⟩ | ⟨-, -, hf⟩
  · rfl
  · rw [hf.noSpace.data _ (slotOf_notTable _) h0]

theorem iSize (h : Stop F s l r s') : s'.ino.din.iSize = s.ino.din.iSize := by
  rcases h with ⟨-, -, rfl⟩ | ⟨-, -, hf⟩
  · rfl
  · exact hf.noSpace.iSize

theorem unmapped (h : Stop F s l r s') : ¬s'.Mapped l := by
  rw [h.mapped]
  rcases h with ⟨hl, -, -⟩ | ⟨-, -, hf⟩
  · exact not_mapped_of_ge hl
  · exact hf.unmapped

end Stop

/-- Where a write stops is known from the state before. -/
theorem StoppedAt.stopsBefore (h : StoppedAt F s buf base a l lo r s₂) (ha : a < maxFileBlocks)
    (hal : a ≤ l) : s.StopsBefore a l := by
  obtain ⟨s₁, hw, hst⟩ := h
  have hleft := hw.left
  have hmiss := hw.missing hal (Nat.le_succ l)
  rw [Nat.succ_eq_add_one, FileState.missing_one] at hmiss
  have hle : l ≤ maxFileBlocks := by
    rcases hal.lt_or_eq with hlt | rfl
    · exact hw.le_max hlt
    · exact ha.le
  refine ⟨hle, by omega, ?_⟩
  rcases hst with ⟨hge, -⟩ | ⟨-, -, hf⟩
  · exact Or.inl (by omega)
  · have := hf.left
    exact Or.inr (by omega)

/-! The size is no part of the block tree. -/

theorem FileState.grow_rest (s : FileState) (x y : ℤ) :
    (s.grow x y).sb = s.sb ∧ (s.grow x y).ptr = s.ptr := by
  unfold FileState.grow
  split
  · exact ⟨rfl, by funext sl; cases sl <;> rfl⟩
  · exact ⟨rfl, rfl⟩

theorem FileState.grow_iSize (s : FileState) (x : ℤ) {y : ℤ} (h : 0 < y) :
    (s.grow x y).ino.din.iSize = max s.ino.din.iSize (x + y) := by
  unfold FileState.grow
  rw [if_pos h]
  rfl

theorem FileOK.grow (h : FileOK F s) (x y : ℤ) : FileOK F (s.grow x y) := by
  obtain ⟨hsb, hp⟩ := s.grow_rest x y
  have hcount : (s.grow x y).ino.din.blockCount = s.ino.din.blockCount := by
    unfold FileState.grow
    split <;> rfl
  refine ⟨?_, ?_⟩
  · rw [hp]
    exact h.toHolds.congr (hsb ▸ h.super) (by rw [hsb]) hcount
  · unfold InDev
    rw [hsb]
    exact h.inDev

theorem FileState.magic_rest (s : FileState) : s.magic.sb = s.sb ∧ s.magic.ptr = s.ptr :=
  ⟨rfl, by funext sl; cases sl <;> rfl⟩

theorem content_congr (h : s'.sb = s.sb ∧ s'.ptr = s.ptr) (p : ℕ) : s'.content p = s.content p := by
  unfold FileState.content FileState.blockAt
  rw [h.1, h.2]

theorem mapped_congr (h : s'.sb = s.sb ∧ s'.ptr = s.ptr) : s'.Mapped l ↔ s.Mapped l := by
  unfold FileState.Mapped
  rw [h.2]

/-- What a write does to the size, and where it stops. -/
theorem writeData_stored (h : FileOK F s) (hstart : start < maxFileSize) (h0 : 0 < size)
    (hsize : size < 2 ^ 31 - 8192) (hbuf : ∀ i < size, (buf.get i).isSome) :
    wp False (testfsWriteData buf start size) (fun r s' =>
      ((∀ l, start / blockSize ≤ l → l ≤ (start + size - 1) / blockSize →
          ¬s.StopsBefore (start / blockSize) l) ∧ Stored buf start size r s' size ∧
        s'.ino.din.iSize = max s.ino.din.iSize (start + size) ∧
        ∀ m, s'.Mapped m ↔ s.Mapped m ∨
          start / blockSize ≤ m ∧ m ≤ (start + size - 1) / blockSize) ∨
      ∃ l, start / blockSize ≤ l ∧ l ≤ (start + size - 1) / blockSize ∧
        s.StopsBefore (start / blockSize) l ∧
        Stored buf start size r s' (blockSize * l - start) ∧
        s'.ino.din.iSize = (if start / blockSize < l ∧ l = (start + size - 1) / blockSize then
          (maxFileSize : ℤ) else s.ino.din.iSize) ∧
        ∀ m, s'.Mapped m ↔ s.Mapped m ∨ start / blockSize ≤ m ∧ m < l) s := by
  have hbs : (blockSize : ℤ) = 8192 := rfl
  have hbn : blockSize = 8192 := rfl
  rw [maxFileSize_eq] at hstart
  obtain ⟨a, ha⟩ : ∃ a, a = start / blockSize := ⟨_, rfl⟩
  have ha' : ((start : ℤ) / blockSize) = a := by rw [ha]; rfl
  have hL : toInt32 ((start : ℤ) / blockSize) = a := by
    rw [ha', toInt32_of_lt (by omega)]
    rw [ha, hbn]; omega
  have hamax : a < maxFileBlocks := by rw [ha, hbn, maxFileBlocks_eq]; omega
  have hbase : (blockSize : ℤ) * a + (start : ℤ) % blockSize = start := by
    rw [← ha']; exact Int.mul_ediv_add_emod start blockSize
  have htr : transferred start size = size := transferred_eq (by omega) (by omega)
  have hcc : a + chunkCount start size = (start + size - 1) / blockSize + 1 := by
    rw [ha]
    exact chunkCount_eq h0 (by omega)
  rw [← ha]
  -- the write goes through, or it stops before some block `l`
  refine wp_mono (writeData_ok h (by omega) (by omega) hL (Or.inr ⟨by omega, by omega, fun i hi =>
    hbuf i (by omega)⟩)) ?_
  rw [hbase, htr, hcc]
  have hoff : ∀ i : ℕ, (((start + i : ℕ) : ℤ) - start).toNat = i := by
    intro i
    omega
  rintro r s' (⟨hr, -, s₁, hw, rfl⟩ | ⟨l, s₂, hal, hl, hst, rfl⟩)
  · -- all blocks were to be had
    have hlast : a ≤ (start + size - 1) / blockSize := by rw [ha, hbn]; omega
    have hmax := hw.le_max (Nat.lt_succ_of_le hlast)
    have hleft := hw.left
    have hsz : (s₁.grow start size).ino.din.iSize = max s.ino.din.iSize (start + size) := by
      rw [s₁.grow_iSize _ (by omega), hw.iSize]
    have hmap : ∀ m, (s₁.grow start size).Mapped m ↔ s.Mapped m ∨
        a ≤ m ∧ m ≤ (start + size - 1) / blockSize := by
      intro m
      rw [mapped_congr (s₁.grow_rest start size), hw.mapped, Nat.lt_succ_iff]
    refine Or.inl ⟨fun l hal hl hstop => ?_, ⟨le_rfl, fun i hi => ⟨?_, ?_⟩, fun hn => ?_, fun _ => rfl⟩,
      hsz, hmap⟩
    · -- if it had to stop at `l`, there were too few blocks for all of them
      have hmono : s.missing a (l + 1) ≤ s.missing a ((start + size - 1) / blockSize + 1) :=
        s.missing_mono (by omega)
      rcases hstop.2.2 with hm | hm
      · omega
      · omega
    · rw [hmap, ha, hbn]
      omega
    · rw [content_congr (s₁.grow_rest start size),
        ← (hw.inside (start + i) (by omega) (by omega)).2, hoff]
    · exact absurd hn (lt_irrefl _)
  · -- the code sets the size to its magic number if the last block fails after others
    have hstop := hst.stopsBefore hamax hal
    obtain ⟨s₁, hw, hs⟩ := hst
    obtain ⟨s', hs'⟩ : ∃ s', s' = if a < l ∧ l + 1 = (start + size - 1) / blockSize + 1 then
        s₂.magic else s₂ := ⟨_, rfl⟩
    have hrest : s'.sb = s₂.sb ∧ s'.ptr = s₂.ptr := by
      rw [hs']
      split
      · exact s₂.magic_rest
      · exact ⟨rfl, rfl⟩
    have hmap : ∀ m, s'.Mapped m ↔ s.Mapped m ∨ a ≤ m ∧ m < l := fun m =>
      (mapped_congr hrest).trans (hs.mapped.trans hw.mapped)
    have hend : (if l = a then (start : ℤ) else blockSize * l) =
        ((start + (blockSize * l - start) : ℕ) : ℤ) := by
      have hal₂ := hal
      rw [ha, hbn] at hal₂
      rw [ha, hbn]
      split <;> omega
    rw [hend] at hw
    rw [← hs']
    refine Or.inr ⟨l, hal, by omega, hstop, ⟨?_, fun i hi => ⟨?_, ?_⟩, fun _ => ?_, ?_⟩, ?_, hmap⟩
    · rw [hbn]; rw [hbn] at hl; omega
    · rw [hmap, ha, hbn]
      rw [hbn] at hi
      omega
    · rw [content_congr hrest, hs.content,
        ← (hw.inside (start + i) (by omega) (by omega)).2, hoff]
    · have hdiv : (start + (blockSize * l - start)) / blockSize = l := by
        rw [hbn]; rw [ha, hbn] at hal; omega
      rw [hdiv, mapped_congr hrest]
      exact hs.unmapped
    · have := hs.neg
      omega
    · rw [hs']
      by_cases hlast : a < l ∧ l = (start + size - 1) / blockSize
      · rw [if_pos hlast, if_pos ⟨hlast.1, by omega⟩]
        rfl
      · rw [if_neg hlast, if_neg (by omega), hs.iSize, hw.iSize]

/-- The size is right after a write that stops before block `l`: at its last block it should
become that of the largest file, before that it should not change. -/
def FileState.StopsWell (s : FileState) (start size l : ℕ) : Prop :=
  if l = (start + size - 1) / blockSize then
    s.ino.din.iSize = maxFileSize ∨ l = maxFileBlocks
  else blockSize * (l : ℤ) ≤ s.ino.din.iSize

theorem sizeAfter_all (hz : SizeOK s) (h0 : 0 < size) {z : ℕ}
    (hend : start + size ≤ blockSize * z) (hzm : z ≤ maxFileBlocks)
    (hi : s'.ino.din.iSize = max s.ino.din.iSize (start + size))
    (hm : ∀ m, s'.Mapped m ↔ s.Mapped m ∨
      start / blockSize ≤ m ∧ m ≤ (start + size - 1) / blockSize) :
    SizeAfter s start size s' := by
  have hle := hz.le
  have hbn : blockSize = 8192 := rfl
  rw [maxFileSize_eq] at hle
  rw [hbn] at hend
  rw [maxFileBlocks_eq] at hzm
  refine ⟨by rw [hi, if_pos h0], ?_, fun m hmm => ?_⟩
  · rw [hi, maxFileSize_eq]
    omega
  · rw [hi]
    rcases (hm m).1 hmm with hmm | ⟨-, hmm⟩
    · exact (hz.covers m hmm).trans_le (le_max_left _ _)
    · rw [hbn] at hmm ⊢
      push_cast
      omega

/-- A write that stops before block `l` leaves the right size if and only if it stops well. -/
theorem sizeAfter_stopped (hz : SizeOK s) (hal : start / blockSize ≤ l)
    (hstop : s.StopsBefore (start / blockSize) l)
    (hi : s'.ino.din.iSize = if start / blockSize < l ∧ l = (start + size - 1) / blockSize then
      (maxFileSize : ℤ) else s.ino.din.iSize)
    (hm : ∀ m, s'.Mapped m ↔ s.Mapped m ∨ start / blockSize ≤ m ∧ m < l) :
    SizeAfter s start (blockSize * l - start) s' ↔
      (start / blockSize < l → s.StopsWell start size l) := by
  have hle := hz.le
  have hlm := hstop.1
  have hbn : blockSize = 8192 := rfl
  have hbs : (blockSize : ℤ) = 8192 := rfl
  rw [maxFileSize_eq] at hle
  rw [maxFileBlocks_eq] at hlm
  have hn : 0 < blockSize * l - start ↔ start / blockSize < l := by
    rw [hbn] at hal ⊢
    omega
  have hadd : start / blockSize < l → (start : ℤ) + (blockSize * l - start : ℕ) = 8192 * l := by
    intro hlt
    rw [hbn] at hlt ⊢
    omega
  -- a size that covers the old blocks and the new ones
  have hcov : start / blockSize < l → 8192 * (l : ℤ) ≤ s'.ino.din.iSize →
      s.ino.din.iSize ≤ s'.ino.din.iSize → s'.Covers := by
    intro hlt hge hge' m hmm
    rw [hbs]
    rcases (hm m).1 hmm with hmm | ⟨-, hmm⟩
    · have := hz.covers m hmm
      rw [hbs] at this
      omega
    · omega
  unfold FileState.StopsWell
  by_cases hlt : start / blockSize < l
  · -- the last block failed: `i_size` is the maximum
    by_cases hlast : l = (start + size - 1) / blockSize
    · rw [if_pos ⟨hlt, hlast⟩, maxFileSize_eq] at hi
      rw [if_pos hlast, maxFileSize_eq, maxFileBlocks_eq]
      constructor
      · intro ha _
        have := ha.iSize
        rw [if_pos (hn.2 hlt), hadd hlt, hi] at this
        omega
      · intro hw
        refine ⟨?_, by rw [hi, maxFileSize_eq], hcov hlt (by rw [hi]; omega) (by rw [hi]; omega)⟩
        rw [if_pos (hn.2 hlt), hadd hlt, hi]
        have := hw hlt
        omega
    · -- a block in between failed: `i_size` is not updated
      rw [if_neg fun hh => hlast hh.2] at hi
      rw [if_neg hlast, hbs]
      constructor
      · intro ha _
        have := ha.iSize
        rw [if_pos (hn.2 hlt), hadd hlt, hi] at this
        omega
      · intro hw
        have := hw hlt
        refine ⟨?_, by rw [hi, maxFileSize_eq]; omega, hcov hlt (by rw [hi]; omega) (by rw [hi])⟩
        rw [if_pos (hn.2 hlt), hadd hlt, hi]
        omega
  · -- nothing was stored
    rw [if_neg fun hh => hlt hh.1] at hi
    refine iff_of_true ⟨?_, by rw [hi, maxFileSize_eq]; exact hle, fun m hmm => ?_⟩
      fun hh => absurd hh hlt
    · rw [hi, if_neg fun hh => hlt (hn.1 hh)]
    · rw [hi]
      rcases (hm m).1 hmm with hmm | ⟨h1, h2⟩
      · exact hz.covers m hmm
      · omega

/-- **The size after a write** is that of what was stored, unless the write stops before a block
after its first, and does not stop well. -/
theorem writeData_size (h : FileOK F s) (hz : SizeOK s) (hstart : start < maxFileSize)
    (h0 : 0 < size) (hsize : size < 2 ^ 31 - 8192) (hbuf : ∀ i < size, (buf.get i).isSome) :
    wp False (testfsWriteData buf start size) (fun r s' =>
      ∃ n, Stored buf start size r s' n ∧ SizeAfter s start n s') s ↔
    ∀ l, start / blockSize < l → l ≤ (start + size - 1) / blockSize →
      s.StopsBefore (start / blockSize) l → s.StopsWell start size l := by
  have hout := writeData_stored h hstart h0 hsize hbuf
  have hlt := hstart
  rw [maxFileSize_eq] at hlt
  constructor
  · intro hwp l hal hl hstop
    obtain ⟨r, s', hr, n, hn, hsz⟩ := hwp.returns
    rcases hout.of_run hr with ⟨hno, -⟩ | ⟨l', hal', -, hstop', hst, hi, hm⟩
    · exact absurd hstop (hno l hal.le hl)
    · obtain rfl := hstop.unique hstop'
      obtain rfl := hn.unique hst
      exact (sizeAfter_stopped hz hal' hstop hi hm).1 hsz hal
  · intro hwell
    refine wp_mono hout ?_
    rintro r s' (⟨hno, hst, hi, hm⟩ | ⟨l, hal, hl, hstop, hst, hi, hm⟩)
    · refine ⟨size, hst, sizeAfter_all hz h0 (z := (start + size - 1) / blockSize + 1) ?_ ?_ hi hm⟩
      · rw [show blockSize = 8192 from rfl]
        omega
      · by_contra hn
        have hlast := (hst.bytes (size - 1) (by omega)).1
        rw [show start + (size - 1) = start + size - 1 by omega] at hlast
        have hge : maxFileBlocks ≤ (start + size - 1) / blockSize := by omega
        exact not_mapped_of_ge hge hlast
    · exact ⟨_, hst, (sizeAfter_stopped hz hal hstop hi hm).2 fun hlt => hwell l hlt hl hstop⟩

theorem freshFile_sizeOK (n : ℕ) (hn : n ≤ blockBits) : SizeOK (freshFile n) where
  nonneg := le_rfl
  le := Int.natCast_nonneg _
  covers _ hl := absurd ((freshFile_ok hn).2.2 _) hl

/-- Ten bytes are written to a new file; and of two blocks from the last block of the largest file
on, the first is written and the file gets that size. -/
theorem writeData_size_largest :
    wp False (testfsWriteData ⟨10, fun _ => some 7⟩ (0 : ℕ) (10 : ℕ)) (fun r s' =>
      ∃ n, Stored ⟨10, fun _ => some 7⟩ 0 10 r s' n ∧ SizeAfter (freshFile 1) 0 n s')
      (freshFile 1) ∧
    ∃ r s', testfsWriteData ⟨16384, fun _ => some 7⟩ (34376589312 : ℕ) (16384 : ℕ) (freshFile 3) =
      some (r, s') ∧ r < 0 ∧ Stored ⟨16384, fun _ => some 7⟩ 34376589312 16384 r s' 8192 ∧
      SizeAfter (freshFile 3) 34376589312 8192 s' := by
  constructor
  · refine (writeData_size (freshFile_ok (by decide)).1 (freshFile_sizeOK 1 (by decide)) (by decide)
      (by decide) (by decide) fun i _ => rfl).2 fun l hl hlast => ?_
    have hfirst : (0 : ℕ) / blockSize = 0 := by decide
    have h10 : (0 + 10 - 1) / blockSize = 0 := by decide
    omega
  obtain ⟨h, hleft, -⟩ := freshFile_ok (n := 3) (by decide)
  have hfirst : 34376589312 / blockSize = 4196361 := by decide
  have hlast : (34376589312 + 16384 - 1) / blockSize = 4196362 := by decide
  have hstop : (freshFile 3).StopsBefore 4196361 4196362 := by
    refine ⟨by decide, ?_, Or.inl (by decide)⟩
    rw [FileState.missing_one, hleft]
    exact (List.length_filter_le _ _).trans (length_path _)
  have hwp : wp False (testfsWriteData ⟨16384, fun _ => some 7⟩ (34376589312 : ℕ) (16384 : ℕ))
      (fun r s' => ∃ n, Stored ⟨16384, fun _ => some 7⟩ 34376589312 16384 r s' n ∧
        SizeAfter (freshFile 3) 34376589312 n s') (freshFile 3) := by
    refine (writeData_size h (freshFile_sizeOK 3 (by decide)) (by decide) (by decide) (by decide)
      fun i _ => rfl).2 fun l hl hle _ => ?_
    obtain rfl : l = 4196362 := by omega
    unfold FileState.StopsWell
    rw [if_pos hlast.symm]
    exact Or.inr (by decide)
  obtain ⟨r, s', hr, n, hn, hsz⟩ := hwp.returns
  have hrun : wp False (testfsWriteData ⟨16384, fun _ => some 7⟩ (34376589312 : ℕ) (16384 : ℕ)) _
      (freshFile 3) :=
    writeData_stored h (by decide) (by decide) (by decide) fun _ _ => rfl
  have hst : Stored ⟨16384, fun _ => some 7⟩ 34376589312 16384 r s' 8192 := by
    rcases hrun.of_run hr with ⟨hno, -⟩ | ⟨l, -, -, hstop', hst, -⟩
    · rw [hfirst, hlast] at hno
      exact absurd hstop (hno _ (by decide) le_rfl)
    · rw [hfirst] at hstop'
      obtain rfl := hstop.unique hstop'
      exact hst
  obtain rfl := hn.unique hst
  exact ⟨r, s', hr, not_le.1 fun h0 => absurd (hst.success h0) (by decide), hst, hsz⟩

/-- Two blocks are written and there is space for one: the file gets the size of the largest. -/
theorem writeData_size_last_block :
    FileOK ∅ (freshFile 1) ∧ SizeOK (freshFile 1) ∧ ∃ r s',
      testfsWriteData ⟨16384, fun _ => some 7⟩ (0 : ℕ) (16384 : ℕ) (freshFile 1) = some (r, s') ∧
      Stored ⟨16384, fun _ => some 7⟩ 0 16384 r s' 8192 ∧ s'.ino.din.iSize = 34376597504 ∧
      ¬∃ n, Stored ⟨16384, fun _ => some 7⟩ 0 16384 r s' n ∧ SizeAfter (freshFile 1) 0 n s' := by
  obtain ⟨h, hleft, hptr⟩ := freshFile_ok (n := 1) (by decide)
  have hz := freshFile_sizeOK 1 (by decide)
  have hmiss : ∀ b, (freshFile 1).missing 0 b =
      ((Finset.Ico 0 b).biUnion fun l => (path l).toFinset).card := by
    intro b
    unfold FileState.missing FileState.empties
    simp [hptr]
  have hfirst : (0 : ℕ) / blockSize = 0 := by decide
  have hlast : (0 + 16384 - 1) / blockSize = 1 := by decide
  have hstop : (freshFile 1).StopsBefore 0 1 := by
    refine ⟨by decide, ?_, Or.inr ?_⟩
    · rw [hmiss, hleft]
      decide
    · rw [hmiss, hleft]
      decide
  have hrun : wp False (testfsWriteData ⟨16384, fun _ => some 7⟩ (0 : ℕ) (16384 : ℕ)) _
      (freshFile 1) :=
    writeData_stored h (by decide) (by decide) (by decide) fun _ _ => rfl
  obtain ⟨r, s', hr, hout⟩ := hrun.returns
  rw [hfirst, hlast] at hout
  rcases hout with ⟨hno, -⟩ | ⟨l, hal, -, hstop', hst, hi, hm⟩
  · exact absurd hstop (hno 1 (by decide) le_rfl)
  obtain rfl := hstop.unique hstop'
  rw [if_pos ⟨by decide, rfl⟩] at hi
  refine ⟨h, hz, r, s', hr, hst, hi, ?_⟩
  rintro ⟨n, hn, hsz⟩
  obtain rfl := hn.unique hst
  have hsize := hsz.iSize
  rw [hi] at hsize
  exact absurd hsize (by decide)

end OSLab.Fs
