import OSLab.Fs.Proof.FreeBlocks
import OSLab.Fs.Proof.Holes

/-!
# Each block is freed once

`testfs_free_blocks` changes the super block only by calls of `testfs_free_block`, one after
another. A call aborts on a block that is not marked, so no block is freed twice.
`freeBlocks_once`: the blocks freed are those of the file, and no pointer to them is left.
-/

namespace OSLab.Fs

open Prog

variable {F : Set ℤ} {s t : FileState} {sb sb' : SuperBlock} {bs : List ℤ} {e b : ℤ} {sl : Slot}
  {R : FileState → FileState → Prop} {readTable : ℤ → Prog FileState Block}

/-! ### The calls of `testfs_free_block` -/

/-- One call of `testfs_free_block`. -/
def FreesOne (sb : SuperBlock) (b : ℤ) (sb' : SuperBlock) : Prop :=
  testfsFreeBlock b sb = some ((), sb')

/-- A call returns on a marked block only, and clears its mark. -/
theorem FreesOne.gave (h : SuperOK sb) (hf : FreesOne sb b sb') : Gave sb b sb' := by
  have hw : wp True (testfsFreeBlock b) (fun _ sb' => Gave sb b sb') sb :=
    testfsFreeBlock_ok h (Or.inl trivial)
  exact hw.of_run hf

/-- **Calls in a row free different blocks**, and clear no other mark. -/
theorem freesRun_ok (h : SuperOK sb) (hr : Run FreesOne sb bs sb') :
    SuperOK sb' ∧ bs.Nodup ∧ (∀ b ∈ bs, b ∈ sb.live) ∧ sb'.live = sb.live \ {b | b ∈ bs} := by
  induction hr with
  | nil => exact ⟨h, List.nodup_nil, fun _ hb => absurd hb List.not_mem_nil, by simp⟩
  | @snoc sb₁ sb₂ bs b _ hl ih =>
    obtain ⟨h₁, hnd, hsub, hlive⟩ := ih
    have hg := FreesOne.gave h₁ hl
    -- the mark of `b` is still there, so `b` was not freed before
    have hb : b ∈ sb.live ∧ b ∉ bs := by
      have := hg.member
      rwa [hlive] at this
    refine ⟨hg.ok, ?_, ?_, ?_⟩
    · rw [List.nodup_append]
      refine ⟨hnd, List.nodup_singleton b, fun x hx y hy => ?_⟩
      rw [List.mem_singleton.1 hy]
      rintro rfl
      exact hb.2 hx
    · intro x hx
      rcases List.mem_append.1 hx with hx | hx
      · exact hsub x hx
      · rw [List.mem_singleton.1 hx]
        exact hb.1
    · rw [hg.live, hlive]
      ext x
      simp only [Set.mem_sdiff, Set.mem_ofPred_eq, Set.mem_singleton_iff, List.mem_append,
        List.mem_singleton]
      tauto

/-- The super block is reached by calls of `testfs_free_block`. -/
def FreesInTurn (s t : FileState) : Prop := ∃ bs, Run FreesOne s.sb bs t.sb

theorem FreesInTurn.refl (s : FileState) : FreesInTurn s s := ⟨[], .nil _⟩

theorem FreesInTurn.trans {u : FileState} (h : FreesInTurn s t) (h' : FreesInTurn t u) :
    FreesInTurn s u := by
  obtain ⟨bs, hbs⟩ := h
  obtain ⟨cs, hcs⟩ := h'
  exact ⟨bs ++ cs, hbs.append hcs⟩

theorem moves_modify {f : FileState → FileState} (hf : ∀ s, (f s).sb = s.sb) :
    Moves FreesInTurn (modify f) := by
  refine Moves.modify fun s => ⟨[], ?_⟩
  rw [hf]
  exact .nil _

theorem freeFromInode_moves (p : ℤ) : Moves FreesInTurn (testfsFreeBlockFromInode p) := by
  unfold testfsFreeBlockFromInode
  refine Moves.ite (Moves.pure .refl ()) (Moves.bind (fun _ _ _ => .trans) ?_ fun _ =>
    moves_modify fun _ => rfl)
  intro s
  rw [wp_onSuper]
  exact wp_of_run fun _ sb' hr => ⟨[p], .snoc (.nil _) hr⟩

/-! ### The loops, for any relation that freeing a block respects -/

section Moves

variable (h0 : ∀ s, R s s) (ht : ∀ s t u, R s t → R t u → R s u)
  (hfree : ∀ p, Moves R (testfsFreeBlockFromInode p)) (hread : ∀ p, Moves R (readTable p))

include h0 ht hfree

theorem freeEntries_moves (table : Block) (e : ℤ) : Moves R (freeEntries table e) :=
  Moves.forRange h0 ht fun _ => Moves.ite (hfree _) (Moves.pure h0 ())

include hread

theorem freeSecondLevel_moves (table : Block) (e : ℤ) :
    Moves R (freeSecondLevel readTable table e) := by
  refine Moves.forAcc h0 ht (fun i counter => ?_) 0
  refine Moves.ite (Moves.ite (Moves.pure h0 _) ?_) (Moves.pure h0 _)
  refine Moves.bind ht (hread _) fun _ => ?_
  refine Moves.bind ht (freeEntries_moves h0 ht hfree _ _) fun _ => ?_
  exact Moves.bind ht (hfree _) fun _ => Moves.pure h0 _

end Moves

theorem readTable_moves (h0 : ∀ s, R s s) (p : ℤ) : Moves R (onSuper (readBlock p)) := by
  intro s
  rw [wp_onSuper]
  exact wp_reads_of fun _ _ => h0 s

/-- **Only `testfs_free_block` changes the super block.** -/
theorem freeBlocks_moves : Moves FreesInTurn testfsFreeBlocks := by
  have ht : ∀ s t u, FreesInTurn s t → FreesInTurn t u → FreesInTurn s u := fun _ _ _ => .trans
  have hread := readTable_moves FreesInTurn.refl
  refine Moves.getState_bind fun s => ?_
  refine Moves.bind ht ?_ fun _ => Moves.bind ht (Moves.require .refl _) fun _ =>
    Moves.bind ht ?_ fun _ => Moves.bind ht ?_ fun _ => moves_modify fun _ => rfl
  · refine Moves.forRange .refl ht fun i => Moves.getState_bind fun s => ?_
    refine Moves.ite ?_ (Moves.pure .refl ())
    exact Moves.bind ht (freeFromInode_moves _) fun _ => moves_modify fun _ => rfl
  · refine Moves.getState_bind fun s => Moves.ite ?_ (Moves.pure .refl ())
    refine Moves.bind ht (hread _) fun _ => ?_
    refine Moves.bind ht (freeEntries_moves .refl ht freeFromInode_moves _ _) fun _ => ?_
    refine Moves.getState_bind fun s => ?_
    exact Moves.bind ht (freeFromInode_moves _) fun _ => moves_modify fun _ => rfl
  · refine Moves.ite (Moves.getState_bind fun s => ?_) (Moves.pure .refl ())
    refine Moves.bind ht (hread _) fun _ => ?_
    refine Moves.bind ht (freeSecondLevel_moves .refl ht freeFromInode_moves hread _ _) fun _ => ?_
    refine Moves.getState_bind fun s => ?_
    exact Moves.bind ht (freeFromInode_moves _) fun _ => moves_modify fun _ => rfl

/-! ### The pointers of the inode -/

theorem freeFromInode_sameSlots (p : ℤ) : Moves SameSlots (testfsFreeBlockFromInode p) := by
  unfold testfsFreeBlockFromInode
  refine Moves.ite (Moves.pure .refl ()) (Moves.bind (fun _ _ _ => .trans) ?_ fun _ =>
    Moves.modify fun _ => ⟨_, rfl⟩)
  intro s
  rw [wp_onSuper]
  exact wp_of_run fun _ _ _ => ⟨_, rfl⟩

/-- The direct pointers below the end are zero, and those that were. -/
theorem freeDirect_pointers (e : ℤ) : wp True (freeDirect e) (fun _ t =>
    (∀ k : ℕ, (k : ℤ) < e ∨ s.ino.din.blockNr k = 0 → t.ino.din.blockNr k = 0) ∧
    t.ino.din.iIndirect = s.ino.din.iIndirect ∧ t.ino.din.iDindirect = s.ino.din.iDindirect) s := by
  unfold freeDirect
  refine wp_mono (wp_forRange (fun n t =>
    (∀ k : ℕ, k < n ∧ (k : ℤ) < e ∨ s.ino.din.blockNr k = 0 → t.ino.din.blockNr k = 0) ∧
    t.ino.din.iIndirect = s.ino.din.iIndirect ∧ t.ino.din.iDindirect = s.ino.din.iDindirect) ?_ ?_) ?_
  · exact ⟨fun k hk => hk.resolve_left fun h => absurd h.1 (Nat.not_lt_zero k), rfl, rfl⟩
  · rintro n t hn ⟨hz, hi, hd⟩
    simp only [wp_bind, wp_getState, wp_ite, wp_pure]
    refine ⟨fun hc => ?_, fun hc => ⟨fun k hk => ?_, hi, hd⟩⟩
    · refine wp_mono (freeFromInode_sameSlots _ t) ?_
      rintro _ t' ⟨m, hm⟩
      rw [wp_modify]
      refine ⟨fun k hk => ?_, ?_, ?_⟩
      · show (t'.ino.din.setBlockNr n 0).blockNr k = 0
        rw [hm]
        by_cases hkn : k = n
        · unfold DInode.blockNr DInode.setBlockNr
          simp [hkn]
        · have := hz k (hk.imp_left fun h => ⟨by omega, h.2⟩)
          unfold DInode.blockNr DInode.setBlockNr at *
          simpa [hkn] using this
      · show t'.ino.din.iIndirect = _
        rw [hm]; exact hi
      · show t'.ino.din.iDindirect = _
        rw [hm]; exact hd
    · by_cases hkn : k = n
      · subst hkn
        by_contra h0
        rcases hk with hk | hk
        · exact hc ⟨hk.2, h0⟩
        · exact h0 (hz k (Or.inr hk))
      · exact hz k (hk.imp_left fun h => ⟨by omega, h.2⟩)
  · rintro _ t ⟨hz, hi, hd⟩
    refine ⟨fun k hk => ?_, hi, hd⟩
    by_cases hkn : k < nrDirectBlocks
    · exact hz k (hk.imp_left fun h => ⟨hkn, h⟩)
    · exact blockNr_of_ge (not_lt.1 hkn)

theorem freeIndirect_pointers (e : ℤ) :
    wp True (freeIndirect (fun nr => onSuper (readBlock nr)) e) (fun _ t =>
      (0 ≤ s.ino.din.iIndirect → t.ino.din.iIndirect = 0) ∧
      (∀ k, t.ino.din.blockNr k = s.ino.din.blockNr k) ∧
      t.ino.din.iDindirect = s.ino.din.iDindirect) s := by
  simp only [freeIndirect, wp_bind, wp_getState, wp_ite, wp_pure]
  refine ⟨fun _ => ?_, fun hn => ⟨fun h => le_antisymm (not_lt.1 hn) h, fun _ => trivial, trivial⟩⟩
  refine wp_mono (readTable_moves SameSlots.refl _ s) ?_
  intro table t₁ h₁
  refine wp_mono (freeEntries_moves SameSlots.refl (fun _ _ _ => .trans) freeFromInode_sameSlots
    table e t₁) ?_
  intro _ t₂ h₂
  refine wp_mono (freeFromInode_sameSlots _ t₂) ?_
  intro _ t₃ h₃
  obtain ⟨m, hm⟩ := (h₁.trans h₂).trans h₃
  rw [wp_modify]
  refine ⟨fun _ => rfl, fun k => ?_, ?_⟩
  · show ({ t₃.ino.din with iIndirect := 0 } : DInode).blockNr k = _
    rw [hm]
    rfl
  · show t₃.ino.din.iDindirect = _
    rw [hm]

theorem freeDouble_pointers (e : ℤ) :
    wp True (freeDouble (fun nr => onSuper (readBlock nr)) e) (fun _ t =>
      (0 ≤ e ∨ s.ino.din.iDindirect = 0 → t.ino.din.iDindirect = 0) ∧
      (∀ k, t.ino.din.blockNr k = s.ino.din.blockNr k) ∧
      t.ino.din.iIndirect = s.ino.din.iIndirect) s := by
  simp only [freeDouble, wp_bind, wp_getState, wp_ite, wp_pure]
  refine ⟨fun _ => ?_, fun hn => ⟨fun h => h.resolve_left hn, fun _ => trivial, trivial⟩⟩
  refine wp_mono (readTable_moves SameSlots.refl _ s) ?_
  intro table t₁ h₁
  refine wp_mono (freeSecondLevel_moves SameSlots.refl (fun _ _ _ => .trans)
    freeFromInode_sameSlots (readTable_moves SameSlots.refl) table e t₁) ?_
  intro _ t₂ h₂
  refine wp_mono (freeFromInode_sameSlots _ t₂) ?_
  intro _ t₃ h₃
  obtain ⟨m, hm⟩ := (h₁.trans h₂).trans h₃
  rw [wp_modify]
  refine ⟨fun _ => rfl, fun k => ?_, ?_⟩
  · show ({ t₃.ino.din with iDindirect := 0 } : DInode).blockNr k = _
    rw [hm]
    rfl
  · show t₃.ino.din.iIndirect = _
    rw [hm]

/-- **Which pointers `testfs_free_blocks` leaves zero.** -/
theorem freeBlocks_pointers (he : endBlockNr s.ino.din.iSize = e) (hi : 0 ≤ s.ino.din.iIndirect) :
    wp True testfsFreeBlocks (fun _ t =>
      (∀ k : ℕ, (k : ℤ) < e ∨ s.ino.din.blockNr k = 0 → t.ino.din.blockNr k = 0) ∧
      t.ino.din.iIndirect = 0 ∧
      (dindStart ≤ e ∨ s.ino.din.iDindirect = 0 → t.ino.din.iDindirect = 0)) s := by
  have hds : (dindStart : ℤ) = nrDirectBlocks + nrIndirectBlocks := rfl
  simp only [testfsFreeBlocks, freeBlocksWith, wp_bind, wp_getState, he]
  refine wp_mono (freeDirect_pointers e) ?_
  rintro _ t₁ ⟨hz₁, hi₁, hd₁⟩
  rw [wp_require]
  refine ⟨fun _ => wp_mono (freeIndirect_pointers _) ?_, fun _ => trivial⟩
  rintro _ t₂ ⟨hz₂, hb₂, hd₂⟩
  refine wp_mono (freeDouble_pointers _) ?_
  rintro _ t₃ ⟨hz₃, hb₃, hi₃⟩
  rw [wp_modify]
  refine ⟨fun k hk => ?_, ?_, fun h => ?_⟩
  · show t₃.ino.din.blockNr k = 0
    rw [hb₃, hb₂]
    exact hz₁ k hk
  · show t₃.ino.din.iIndirect = 0
    rw [hi₃]
    exact hz₂ (by rw [hi₁]; exact hi)
  · refine hz₃ (h.imp (fun h => by omega) fun h => ?_)
    rw [hd₂, hd₁]
    exact h

/-! ### Files that end where their blocks end -/

/-- The table that a slot is an entry of. -/
def Slot.table : Slot → Option Slot
  | .ind _ => some .indirect
  | .dind _ => some .dindirect
  | .dent i _ => some (.dind i)
  | _ => none

namespace FileState

/-- `e = ⌈i_size / BLOCK_SIZE⌉`. -/
def blocksEnd (s : FileState) : ℤ := (s.ino.din.iSize + blockSize - 1) / blockSize

/-- The tables and data blocks of the file. -/
def blocks (s : FileState) : Set ℤ := {b | b ≠ 0 ∧ ∃ sl, s.ptr sl = b}

end FileState

/-- The shape of a file that `testfs_free_blocks` frees as a whole. -/
structure Shaped (s : FileState) : Prop where
  nonneg : 0 ≤ s.ino.din.iSize
  le : s.ino.din.iSize ≤ maxFileSize
  below : ∀ l : ℕ, s.Mapped l → (l : ℤ) < s.blocksEnd
  tables : ∀ tb : Slot, tb.IsTable → s.ptr tb ≠ 0 → ∃ sl : Slot, sl.table = some tb ∧ s.ptr sl ≠ 0
  double : dindStart < s.blocksEnd → s.ino.din.iDindirect ≠ 0

theorem entry_ne {data : ℤ → Block} {k : ℕ} (h : entry data b k ≠ 0) :
    b ≠ 0 ∧ k < nrIndirectBlocks := by
  by_contra hn
  exact h (if_neg hn)

namespace Shaped

theorem endBlockNr_eq (h : Shaped s) : endBlockNr s.ino.din.iSize = s.blocksEnd := by
  have h1 := h.nonneg
  have h2 := h.le
  have hb : (blockSize : ℤ) = 8192 := rfl
  rw [maxFileSize_eq] at h2
  unfold endBlockNr FileState.blocksEnd
  rw [hb, Int.tdiv_eq_ediv_of_nonneg (by omega), toInt32_of_lt (by omega) (by omega)]

theorem dent_below (h : Shaped s) {i j : ℕ} (h0 : s.ptr (.dent i j) ≠ 0) :
    (dindStart + nrIndirectBlocks * i + j : ℤ) < s.blocksEnd := by
  have hj := (entry_ne h0).2
  have hsl : slotOf (dindStart + nrIndirectBlocks * i + j) = .dent i j := by
    rw [slotOf_dent (by omega)]
    have hi : dindOf (dindStart + nrIndirectBlocks * i + j) = i := by
      unfold dindOf
      rw [nrIndirectBlocks_eq] at *
      omega
    have hm : dentOf (dindStart + nrIndirectBlocks * i + j) = j := by
      unfold dentOf
      rw [nrIndirectBlocks_eq] at *
      omega
    rw [hi, hm]
  have := h.below (dindStart + nrIndirectBlocks * i + j) (by rw [FileState.Mapped, hsl]; exact h0)
  push_cast at this
  exact this

theorem dind_below (h : Shaped s) {i : ℕ} (h0 : s.ptr (.dind i) ≠ 0) :
    (dindStart + nrIndirectBlocks * i : ℤ) < s.blocksEnd := by
  obtain ⟨sl, ht, hsl⟩ := h.tables (.dind i) trivial h0
  cases sl with
  | dent i' j =>
    obtain rfl : i' = i := by simpa [Slot.table] using ht
    have := h.dent_below hsl
    omega
  | _ => simp [Slot.table] at ht

/-- **Every block of the file is below the end.** -/
theorem below_end (h : Shaped s) (h0 : s.ptr sl ≠ 0) : Below s.blocksEnd sl := by
  cases sl with
  | direct k =>
    have hk : k < indStart := by
      by_contra hn
      exact h0 (blockNr_of_ge (not_lt.1 hn))
    exact h.below k (by rw [FileState.Mapped, slotOf_direct hk]; exact h0)
  | indirect => trivial
  | ind k =>
    have hk := (entry_ne h0).2
    have hd : indStart + k < dindStart := by
      rw [nrIndirectBlocks_eq] at hk
      rw [indStart_eq, dindStart_eq]
      omega
    have hsl : slotOf (indStart + k) = .ind k := by
      rw [slotOf_ind (Nat.le_add_right _ _) hd, Nat.add_sub_cancel_left]
    have := h.below (indStart + k) (by rw [FileState.Mapped, hsl]; exact h0)
    push_cast at this
    exact this
  | dindirect =>
    obtain ⟨sl, ht, hsl⟩ := h.tables .dindirect trivial h0
    cases sl with
    | dind i =>
      have hlt := h.dind_below hsl
      have hnn : (0 : ℤ) ≤ nrIndirectBlocks * i := Int.natCast_nonneg (nrIndirectBlocks * i)
      show (dindStart : ℤ) ≤ _
      omega
    | _ => simp [Slot.table] at ht
  | dind i => exact h.dind_below h0
  | dent i j => exact h.dent_below h0

end Shaped

theorem FileOK.blocks_eq (h : FileOK F s) : s.blocks = s.sb.live \ F := by
  ext b
  rw [h.owns.mem_iff]
  rfl

/-- What freeing all the blocks of a file leaves. -/
structure FreedOnce (s t : FileState) : Prop where
  /-- Each block of the file is freed by one call, and no other block is. -/
  once : ∃ bs : List ℤ, Run FreesOne s.sb bs t.sb ∧ bs.Nodup ∧ ∀ b, b ∈ bs ↔ b ∈ s.blocks
  live : t.sb.live = s.sb.live \ s.blocks
  used : (t.sb.sb.usedBlockCount : ℤ) = s.sb.sb.usedBlockCount - s.ino.din.blockCount
  blockCount : t.ino.din.blockCount = 0
  iSize : t.ino.din.iSize = 0
  pointers : (∀ k, t.ino.din.blockNr k = 0) ∧ t.ino.din.iIndirect = 0 ∧ t.ino.din.iDindirect = 0

/-- **`testfs_free_blocks` frees each block of the file exactly once.** -/
theorem freeBlocks_once (hs : FileOK F s) (h : Shaped s) :
    wp False testfsFreeBlocks (fun _ t => FreedOnce s t) s := by
  have he := h.endBlockNr_eq
  have hend : 0 ≤ s.blocksEnd := Int.ediv_nonneg (by
    have := h.nonneg
    have hb : (blockSize : ℤ) = 8192 := rfl
    omega) (Int.natCast_nonneg _)
  have hov : -2 ^ 31 ≤ s.blocksEnd - dindStart := by
    rw [dindStart_eq]
    omega
  obtain ⟨_, t, hr, hfb, -⟩ := (freeBlocks_ok hs he (Or.inr ⟨hov, h.double⟩)).returns
  obtain ⟨bs, hbs⟩ := (freeBlocks_moves s).of_run hr
  obtain ⟨hz, hi, hd⟩ := (freeBlocks_pointers he (hs.nonneg .indirect)).of_run hr
  obtain ⟨hok, hnd, hsub, hlive⟩ := freesRun_ok hs.super hbs
  have hF : t.sb.live = F := hfb.all fun sl => h.below_end
  have hblocks := hs.blocks_eq
  refine (wp_run_iff hr).2 ⟨⟨bs, hbs, hnd, fun b => ?_⟩, ?_, ?_, ?_, hfb.iSize, fun k => ?_, hi, ?_⟩
  · rw [hblocks, ← hF, hlive]
    exact ⟨fun hb => ⟨hsub b hb, fun hn => hn.2 hb⟩, fun hb => by
      by_contra hn
      exact hb.2 ⟨hb.1, hn⟩⟩
  · rw [hblocks, hF, Set.sdiff_sdiff_cancel_left hs.sub]
  · have h1 := Set.ncard_sdiff_add_ncard_of_subset hs.sub (live_finite s.sb)
    have h2 : t.sb.sb.usedBlockCount = F.ncard := by rw [hok.usedBlocks, ← live_ncard, hF]
    have h3 : s.sb.sb.usedBlockCount = s.sb.live.ncard := by rw [hs.super.usedBlocks, live_ncard]
    rw [hs.count]
    omega
  · rw [hfb.freed.live_eq]
    exact hF
  · refine hz k ?_
    by_cases h0 : s.ptr (.direct k) = 0
    · exact Or.inr h0
    · exact Or.inl (h.below_end h0)
  · refine hd ?_
    by_cases h0 : s.ptr .dindirect = 0
    · exact Or.inr h0
    · exact Or.inl (h.below_end h0)

/-! ### A file with all three parts -/

/-- Ten bytes from `start` on. -/
def tenBytes (start : ℕ) : WriteCall := ⟨⟨10, fun _ => some 7⟩, start, 10⟩

/-- A block of each part of a new file is written: 0, 10 and 2058. -/
theorem freshFile_parts : ∃ s,
    Run writeStep (freshFile 9) [tenBytes 0, tenBytes 81920, tenBytes 16859136] s ∧
    FileOK ∅ s ∧ s.ino.din.iSize = 16859146 ∧
    ∀ sl, s.ptr sl ≠ 0 ↔ sl ∈ path 0 ∨ sl ∈ path 10 ∨ sl ∈ path 2058 := by
  obtain ⟨h, hleft, hptr⟩ := freshFile_ok (n := 9) (by decide)
  obtain ⟨s₁, hw₁, h₁, hleft₁, hsize₁, hsl₁, -⟩ := writeStep_one h (w := tenBytes 0)
    (by decide) (by decide) (by decide) (fun _ _ => rfl) (by omega)
  obtain ⟨s₂, hw₂, h₂, hleft₂, hsize₂, hsl₂, -⟩ := writeStep_one h₁ (w := tenBytes 81920)
    (by decide) (by decide) (by decide) (fun _ _ => rfl) (by omega)
  obtain ⟨s₃, hw₃, h₃, -, hsize₃, hsl₃, -⟩ := writeStep_one h₂ (w := tenBytes 16859136)
    (by decide) (by decide) (by decide) (fun _ _ => rfl) (by omega)
  refine ⟨s₃, ((Run.snoc (.nil _) hw₁).snoc hw₂).snoc hw₃, h₃, ?_, fun sl => ?_⟩
  · rw [hsize₃, hsize₂, hsize₁]
    rfl
  · have h0 : (tenBytes 0).start / blockSize = 0 := by decide
    have h10 : (tenBytes 81920).start / blockSize = 10 := by decide
    have h2058 : (tenBytes 16859136).start / blockSize = 2058 := by decide
    rw [hsl₃, hsl₂, hsl₁, hptr, h0, h10, h2058]
    simp only [ne_eq, not_true_eq_false, false_or, or_assoc]

/-- The blocks of the three parts and their tables are freed again. -/
theorem freeBlocks_once_parts : ∃ s,
    Run writeStep (freshFile 9) [tenBytes 0, tenBytes 81920, tenBytes 16859136] s ∧
    s.Mapped 0 ∧ s.Mapped 10 ∧ s.Mapped 2058 ∧
    wp False testfsFreeBlocks (fun _ t => FreedOnce s t) s := by
  obtain ⟨s, hrun, hs, hsize, hsl⟩ := freshFile_parts
  have hend : s.blocksEnd = 2059 := by
    unfold FileState.blocksEnd
    rw [hsize]
    rfl
  have hpath : path 0 = [.direct 0] ∧ path 10 = [.indirect, .ind 0] ∧
      path 2058 = [.dindirect, .dind 0, .dent 0 0] := by decide
  have hm : ∀ l, s.Mapped l ↔ l = 0 ∨ l = 10 ∨ l = 2058 := by
    intro l
    rw [FileState.Mapped, hsl]
    simp only [slotOf_mem_path_iff]
  refine ⟨s, hrun, (hm _).2 (.inl rfl), (hm _).2 (.inr (.inl rfl)), (hm _).2 (.inr (.inr rfl)),
    freeBlocks_once hs ⟨?_, ?_, ?_, ?_, fun _ => ?_⟩⟩
  · rw [hsize]
    decide
  · rw [hsize, maxFileSize_eq]
    decide
  · intro l hl
    rw [hend]
    have := (hm l).1 hl
    omega
  · simp only [hpath] at hsl
    intro tb ht h0
    cases tb with
    | indirect => exact ⟨.ind 0, rfl, (hsl _).2 (by decide)⟩
    | dindirect => exact ⟨.dind 0, rfl, (hsl _).2 (by decide)⟩
    | dind i =>
      obtain rfl : i = 0 := by simpa using (hsl _).1 h0
      exact ⟨.dent 0 0, rfl, (hsl _).2 (by decide)⟩
    | _ => exact ht.elim
  · exact (hsl .dindirect).2 (Or.inr (Or.inr (FileState.dindirect_mem_path.2 (by decide))))

end OSLab.Fs
