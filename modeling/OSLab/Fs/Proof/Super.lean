import OSLab.Fs.Super
import OSLab.Fs.Proof.Freemap
import Mathlib.Data.Set.Card
import Mathlib.Data.Finset.Image

/-!
# The super block and its two freemaps

`SuperOK` is the invariant of the super block: its layout, its counts, and the copies on
the device. `testfsAllocBlock_ok` and `testfsFreeBlock_ok`: allocating takes a block that
was free as long as there is space left, freeing gives back a live one, and neither
touches a block of the device other than the super block, the block freemap and, to
clear it, the freed block. The inode freemap has the same two operations.
-/

namespace OSLab.Fs

open Prog

variable {sb sb' sb₁ sb₂ : SuperBlock} {ok : Prop} {p start : ℤ} {W W' : Set ℤ} {i : ℕ}

/-! ### Writing one block -/

def Device.put (dev : Device) (start : ℤ) (b : Block) : Device :=
  ⟨Function.update dev.data start b, max dev.len (start + 1)⟩

@[simp] theorem Device.put_len (dev : Device) (start : ℤ) (b : Block) :
    (dev.put start b).len = max dev.len (start + 1) := rfl

@[simp] theorem Device.put_data (dev : Device) (start : ℤ) (b : Block) :
    (dev.put start b).data = Function.update dev.data start b := rfl

def SuperBlock.put (sb : SuperBlock) (start : ℤ) (b : Block) : SuperBlock :=
  { sb with dev := sb.dev.put start b }

@[simp] theorem SuperBlock.put_fields (sb : SuperBlock) (start : ℤ) (b : Block) :
    (sb.put start b).sb = sb.sb ∧ (sb.put start b).dev = sb.dev.put start b ∧
    (sb.put start b).inodeFreemap = sb.inodeFreemap ∧
    (sb.put start b).blockFreemap = sb.blockFreemap := ⟨rfl, rfl, rfl, rfl⟩

theorem Device.writeBlocks_one (dev : Device) (b : Block) (h : 0 ≤ start) :
    dev.writeBlocks (fun _ => b) start 1 = some (dev.put start b) := by
  unfold Device.writeBlocks
  rw [if_pos h]
  congr 1
  unfold Device.put
  congr 1
  funext x
  by_cases hx : x = start
  · subst hx; simp
  · rw [Function.update_of_ne hx, if_neg]
    push_cast
    omega

theorem writeBlock_run (b : Block) (h : 0 ≤ start) :
    writeBlock b start sb = some ((), sb.put start b) := by
  unfold writeBlock writeBlocks
  rw [Device.writeBlocks_one _ _ h, Option.map_some]
  rfl

theorem wp_writeBlock {Q : Unit → SuperBlock → Prop} {b : Block} (h : 0 ≤ start) :
    wp ok (writeBlock b start) Q sb ↔ Q () (sb.put start b) :=
  wp_run_iff (writeBlock_run b h)

theorem wp_zeroBlock {Q : Unit → SuperBlock → Prop} (h : 0 ≤ start) :
    wp ok (zeroBlocks start 1) Q sb ↔ Q () (sb.put start Block.zero) := wp_writeBlock h

theorem wp_zeroBlock_neg {Q : Unit → SuperBlock → Prop} (h : start < 0) :
    wp ok (zeroBlocks start 1) Q sb ↔ ok := by
  unfold zeroBlocks writeBlocks Device.writeBlocks wp
  simp [not_le.2 h]

/-! ### The invariant -/

def dataStart : ℕ := superBlockSize + inodeFreemapSize + blockFreemapSize + nrInodeBlocks

/-- The blocks the freemap marks in use. -/
def SuperBlock.live (sb : SuperBlock) : Set ℤ :=
  ↑(sb.blockFreemap.members.image fun i : ℕ => (dataStart : ℤ) + i)

/-- How many blocks can still be allocated. -/
def SuperBlock.left (sb : SuperBlock) : ℕ := sb.sb.maxFsBlocks - sb.sb.usedBlockCount

/-- The numbers of bits of the two freemaps. -/
def inodeBits : ℕ := blockSize * inodeFreemapSize * bitsPerWord
def blockBits : ℕ := blockSize * blockFreemapSize * bitsPerWord

/-- The layout `mktestfs` gives a file system; it never changes. -/
structure Layout (sb : SuperBlock) : Prop where
  inodeFreemapStart : sb.sb.inodeFreemapStart = 1
  blockFreemapStart : sb.sb.blockFreemapStart = 2
  inodeBlocksStart : sb.sb.inodeBlocksStart = 18
  dataBlocksStart : sb.sb.dataBlocksStart = dataStart
  maxFsBlocks : sb.sb.maxFsBlocks ≤ blockBits
  inodeBits : sb.inodeFreemap.nbits = inodeBits
  blockBits : sb.blockFreemap.nbits = blockBits
  len : dataStart ≤ sb.dev.len

/-- **The invariant of the super block.** -/
structure SuperOK (sb : SuperBlock) : Prop extends Layout sb where
  usedInodes : sb.sb.usedInodeCount = sb.inodeFreemap.members.card
  usedBlocks : sb.sb.usedBlockCount = sb.blockFreemap.members.card
  usedLe : sb.sb.usedBlockCount ≤ sb.sb.maxFsBlocks
  diskSuper : sb.dev.data 0 = Block.ofFn sb.sb.encode
  diskInodes : sb.dev.data 1 = sb.inodeFreemap.block 0
  diskBlocks : ∀ k : ℕ, k < 16 → sb.dev.data (2 + k) = sb.blockFreemap.block k

/-- What an operation on blocks leaves alone: the inode freemap, and every block of the
device outside `W`, the super block and the block freemap. -/
structure Frame (W : Set ℤ) (sb sb' : SuperBlock) : Prop where
  maxFsBlocks : sb'.sb.maxFsBlocks = sb.sb.maxFsBlocks
  usedInodes : sb'.sb.usedInodeCount = sb.sb.usedInodeCount
  inodeFreemap : sb'.inodeFreemap = sb.inodeFreemap
  len : sb.dev.len ≤ sb'.dev.len
  data : ∀ b, b = 1 ∨ 18 ≤ b → b ∉ W → sb'.dev.data b = sb.dev.data b

theorem Frame.refl (W : Set ℤ) (sb : SuperBlock) : Frame W sb sb :=
  ⟨rfl, rfl, rfl, le_rfl, fun _ _ _ => rfl⟩

theorem Frame.trans (h₁ : Frame W sb sb₁) (h₂ : Frame W' sb₁ sb₂) : Frame (W ∪ W') sb sb₂ where
  maxFsBlocks := h₂.maxFsBlocks.trans h₁.maxFsBlocks
  usedInodes := h₂.usedInodes.trans h₁.usedInodes
  inodeFreemap := h₂.inodeFreemap.trans h₁.inodeFreemap
  len := h₁.len.trans h₂.len
  data b hb hn := by
    rw [Set.mem_union, not_or] at hn
    rw [h₂.data b hb hn.2, h₁.data b hb hn.1]

theorem Frame.mono (h : Frame W sb sb') (hW : W ⊆ W') : Frame W' sb sb' :=
  { h with data := fun b hb hn => h.data b hb fun hw => hn (hW hw) }

/-- Block `p` was allocated. -/
structure Took (sb : SuperBlock) (p : ℤ) (sb' : SuperBlock) : Prop where
  ok : SuperOK sb'
  fresh : p ∉ sb.live
  lower : dataStart ≤ p
  upper : p < dataStart + blockBits
  live : sb'.live = insert p sb.live
  left : sb'.left + 1 = sb.left
  frame : Frame ∅ sb sb'
  lenEq : sb'.dev.len = sb.dev.len

/-- Block `p` was freed. -/
structure Gave (sb : SuperBlock) (p : ℤ) (sb' : SuperBlock) : Prop where
  ok : SuperOK sb'
  member : p ∈ sb.live
  live : sb'.live = sb.live \ {p}
  left : sb'.left = sb.left + 1
  frame : Frame {p} sb sb'
  zero : sb'.dev.data p = Block.zero

theorem mem_live {b : ℤ} : b ∈ sb.live ↔ ∃ i ∈ sb.blockFreemap.members, (dataStart : ℤ) + i = b := by
  simp [SuperBlock.live]

theorem live_finite (sb : SuperBlock) : sb.live.Finite := Finset.finite_toSet _

theorem live_bounds (h : Layout sb) {b : ℤ} (hb : b ∈ sb.live) :
    dataStart ≤ b ∧ b < dataStart + blockBits := by
  obtain ⟨i, hi, rfl⟩ := mem_live.1 hb
  have := (mem_members.1 hi).1
  rw [h.blockBits] at this
  omega

theorem live_ncard (sb : SuperBlock) : sb.live.ncard = sb.blockFreemap.members.card := by
  unfold SuperBlock.live
  rw [Set.ncard_coe_finset, Finset.card_image_of_injective]
  intro a b h
  simpa using h

/-- The number of blocks in use and the number that can be allocated. -/
theorem left_add_ncard {sb : SuperBlock} (h : SuperOK sb) :
    sb.left + sb.live.ncard = sb.sb.maxFsBlocks := by
  rw [live_ncard, ← h.usedBlocks]
  have := h.usedLe
  unfold SuperBlock.left
  omega

theorem Layout.blockPadded (h : Layout sb) : sb.blockFreemap.Padded :=
  padded_of_dvd (by rw [h.blockBits]; decide)
    (by rw [h.blockBits]; exact ⟨blockSize * blockFreemapSize, by decide⟩)

theorem Layout.inodePadded (h : Layout sb) : sb.inodeFreemap.Padded :=
  padded_of_dvd (by rw [h.inodeBits]; decide)
    (by rw [h.inodeBits]; exact ⟨blockSize * inodeFreemapSize, by decide⟩)

/-- The blocks of a bitmap other than the one a changed bit is in. -/
theorem block_congr {b b' : Bitmap} {j k : ℕ} (hv : ∀ ix, ix ≠ j / bitsPerWord → b'.v ix = b.v ix)
    (hk : k ≠ j / (blockSize * bitsPerWord)) : b'.block k = b.block k := by
  unfold Bitmap.block Block.ofFn
  funext i
  apply hv
  have hi := i.isLt
  unfold blockSize bitsPerWord at *
  intro he
  apply hk
  omega

theorem Frame.put_super (h : Frame W sb sb') (b : Block) : Frame W sb (sb'.put 0 b) where
  maxFsBlocks := h.maxFsBlocks
  usedInodes := h.usedInodes
  inodeFreemap := h.inodeFreemap
  len := h.len.trans (by simp)
  data x hx hn := by
    rw [← h.data x hx hn]
    simp only [SuperBlock.put_fields, Device.put_data]
    exact Function.update_of_ne (by omega) _ _

theorem Frame.put_freemap (h : Frame W sb sb') (hi : i < 16) (b : Block) :
    Frame W sb (sb'.put (2 + i) b) where
  maxFsBlocks := h.maxFsBlocks
  usedInodes := h.usedInodes
  inodeFreemap := h.inodeFreemap
  len := h.len.trans (by simp)
  data x hx hn := by
    rw [← h.data x hx hn]
    simp only [SuperBlock.put_fields, Device.put_data]
    exact Function.update_of_ne (by omega) _ _

/-! ### Blocks -/

/-- The state after the freemap changed at bit `j` and was written back, and the count
became `n`. -/
def blockCommit (sb : SuperBlock) (b : Bitmap) (j n : ℕ) : SuperBlock :=
  let sb₁ := { sb with blockFreemap := b }
  let sb₂ := sb₁.put (2 + (j / (blockSize * bitsPerWord) : ℕ)) (b.block (j / (blockSize * bitsPerWord)))
  let sb₃ := setUsedBlocks n sb₂
  sb₃.put 0 (Block.ofFn sb₃.sb.encode)

theorem blockCommit_ok (h : SuperOK sb) {b : Bitmap} {j n : ℕ}
    (hbits : b.nbits = sb.blockFreemap.nbits)
    (hv : ∀ ix, ix ≠ j / bitsPerWord → b.v ix = sb.blockFreemap.v ix)
    (hn : n = b.members.card) (hle : n ≤ sb.sb.maxFsBlocks) : SuperOK (blockCommit sb b j n) where
  inodeFreemapStart := h.inodeFreemapStart
  blockFreemapStart := h.blockFreemapStart
  inodeBlocksStart := h.inodeBlocksStart
  dataBlocksStart := h.dataBlocksStart
  maxFsBlocks := h.maxFsBlocks
  inodeBits := h.inodeBits
  blockBits := hbits.trans h.blockBits
  len := h.len.trans (by simp [blockCommit, setUsedBlocks])
  usedInodes := h.usedInodes
  usedBlocks := hn
  usedLe := hle
  diskSuper := by simp [blockCommit]
  diskInodes := by
    simp only [blockCommit, SuperBlock.put_fields, Device.put_data, setUsedBlocks]
    generalize j / (blockSize * bitsPerWord) = nr
    rw [Function.update_of_ne (by decide), Function.update_of_ne (by omega)]
    exact h.diskInodes
  diskBlocks k hk := by
    have h0 : (2 + k : ℤ) ≠ 0 := by omega
    simp only [blockCommit, SuperBlock.put_fields, Device.put_data, setUsedBlocks]
    rw [Function.update_of_ne h0]
    by_cases hkj : k = j / (blockSize * bitsPerWord)
    · subst hkj; simp
    · have hne : (2 + k : ℤ) ≠ 2 + (j / (blockSize * bitsPerWord) : ℕ) := by omega
      rw [Function.update_of_ne hne, block_congr hv hkj]
      exact h.diskBlocks k hk

theorem blockCommit_frame (sb : SuperBlock) (b : Bitmap) {j n : ℕ} (hj : j < blockBits) :
    Frame ∅ sb (blockCommit sb b j n) := by
  have hj16 : j / (blockSize * bitsPerWord) < 16 := by
    unfold blockBits at hj
    exact Nat.div_lt_of_lt_mul (by unfold blockSize blockFreemapSize bitsPerWord at *; omega)
  have h1 : Frame ∅ sb { sb with blockFreemap := b } := ⟨rfl, rfl, rfl, le_rfl, fun _ _ _ => rfl⟩
  have h2 := h1.put_freemap hj16 (b.block (j / (blockSize * bitsPerWord)))
  have h3 : Frame ∅ sb (setUsedBlocks n (SuperBlock.put { sb with blockFreemap := b }
      (2 + (j / (blockSize * bitsPerWord) : ℕ)) (b.block (j / (blockSize * bitsPerWord))))) :=
    { h2 with }
  exact h3.put_super _

theorem live_blockCommit (sb : SuperBlock) (b : Bitmap) (j n : ℕ) {x : ℤ} :
    x ∈ (blockCommit sb b j n).live ↔ ∃ i ∈ b.members, (dataStart : ℤ) + i = x := mem_live

/-- **Allocating a block.** -/
theorem testfsAllocBlock_ok (h : SuperOK sb) :
    wp False testfsAllocBlock (fun r sb' =>
      (sb.left = 0 ∧ r = -enospc ∧ sb' = sb) ∨ (0 < sb.left ∧ Took sb r sb')) sb := by
  simp only [testfsAllocBlock, wp_bind, wp_getState, wp_ite, wp_pure]
  refine ⟨fun hfull => Or.inl ⟨?_, trivial, trivial⟩, fun hfull => ?_⟩
  · unfold SuperBlock.left; omega
  simp only [testfsGetBlockFreemap, onBlockFreemap, wp_bind]
  refine wp_zoom rfl (wp_mono (bitmapAlloc_ok h.blockPadded) ?_)
  intro r b hb
  cases r with
  | error e =>
    exfalso
    have h1 := h.maxFsBlocks
    have h2 := hb.2.2
    rw [h.blockBits, ← h.usedBlocks] at h2
    omega
  | ok j =>
    have hj : j < blockBits := by rw [← h.blockBits]; exact hb.lt
    have hstart : (0 : ℤ) ≤ sb.sb.blockFreemapStart + (j / (blockSize * bitsPerWord) : ℕ) :=
      add_nonneg (Int.natCast_nonneg _) (Int.natCast_nonneg _)
    simp only [testfsWriteBlockFreemap, testfsWriteSuperBlock, wp_bind, wp_getState, wp_pure,
      wp_modify]
    rw [wp_writeBlock hstart, wp_writeBlock le_rfl]
    refine Or.inr ⟨by unfold SuperBlock.left; omega, ?_⟩
    have hcard : sb.sb.usedBlockCount + 1 = b.members.card := by
      rw [hb.members, Finset.card_insert_of_notMem hb.clear, h.usedBlocks]
    have hbs : (sb.sb.blockFreemapStart : ℤ) = 2 := by rw [h.blockFreemapStart]; rfl
    have hds : (sb.sb.dataBlocksStart : ℤ) = dataStart := by rw [h.dataBlocksStart]
    have hst : ∀ sb₁, sb₁ = blockCommit sb b j (sb.sb.usedBlockCount + 1) →
        Took sb (sb.sb.dataBlocksStart + j) sb₁ := by
      rintro sb₁ rfl
      rw [hds]
      refine ⟨blockCommit_ok h hb.nbits hb.v hcard (by omega), ?_, by omega, by omega, ?_, ?_,
        blockCommit_frame sb b hj, ?_⟩
      · rw [mem_live]
        rintro ⟨i, hi, he⟩
        obtain rfl : i = j := by omega
        exact hb.clear hi
      · ext x
        rw [live_blockCommit, hb.members, Set.mem_insert_iff, mem_live]
        constructor
        · rintro ⟨i, hi, rfl⟩
          rcases Finset.mem_insert.1 hi with rfl | hi
          · exact Or.inl rfl
          · exact Or.inr ⟨i, hi, rfl⟩
        · rintro (rfl | ⟨i, hi, rfl⟩)
          · exact ⟨j, Finset.mem_insert_self _ _, rfl⟩
          · exact ⟨i, Finset.mem_insert_of_mem hi, rfl⟩
      · show sb.sb.maxFsBlocks - (sb.sb.usedBlockCount + 1) + 1 = sb.left
        unfold SuperBlock.left; omega
      · have := h.len
        have hd : dataStart = 146 := rfl
        have hb16 : j / (blockSize * bitsPerWord) < 16 := by
          unfold blockBits at hj
          exact Nat.div_lt_of_lt_mul (by unfold blockSize blockFreemapSize bitsPerWord at *; omega)
        simp only [blockCommit, SuperBlock.put_fields, Device.put_len, setUsedBlocks]
        omega
    refine hst _ ?_
    unfold blockCommit
    simp only [SuperBlock.put, hbs]

/-- **Freeing a block.** It aborts unless the block is live. -/
theorem testfsFreeBlock_ok (h : SuperOK sb) (hp : ok ∨ p ∈ sb.live) :
    wp ok (testfsFreeBlock p) (fun _ sb' => Gave sb p sb') sb := by
  have hds : (sb.sb.dataBlocksStart : ℤ) = dataStart := by rw [h.dataBlocksStart]
  have hd : dataStart = 146 := rfl
  have hnot : p ∉ sb.live → ok := fun hn => hp.resolve_right hn
  by_cases hneg : p < 0
  · have hok : ok := hnot fun hm => by have := (live_bounds h.toLayout hm).1; omega
    simp only [testfsFreeBlock, wp_bind, wp_zeroBlock_neg hneg]
    exact hok
  simp only [testfsFreeBlock, wp_bind, wp_zeroBlock (not_lt.1 hneg), wp_getState, wp_require,
    SuperBlock.put_fields, hds]
  refine ⟨fun hge => ?_, fun hlt => hnot fun hm => ?_⟩
  swap
  · have := (live_bounds h.toLayout hm).1; omega
  obtain ⟨j, hj⟩ : ∃ j : ℕ, p = dataStart + j := ⟨(p - dataStart).toNat, by omega⟩
  subst hj
  have hjn : ((dataStart : ℤ) + j - dataStart).toNat = j := by omega
  rw [hjn]
  -- the state the freemap is changed in: the block is already zero
  set sb₁ := sb.put (dataStart + j) Block.zero with hsb₁
  have h₁ : SuperOK sb₁ := by
    refine { h with len := h.len.trans (by simp [hsb₁]), diskSuper := ?_, diskInodes := ?_,
                    diskBlocks := ?_ }
    · simp only [hsb₁, SuperBlock.put_fields, Device.put_data]
      rw [Function.update_of_ne (by omega)]; exact h.diskSuper
    · simp only [hsb₁, SuperBlock.put_fields, Device.put_data]
      rw [Function.update_of_ne (by omega)]; exact h.diskInodes
    · intro k hk
      simp only [hsb₁, SuperBlock.put_fields, Device.put_data]
      rw [Function.update_of_ne (by omega)]; exact h.diskBlocks k hk
  have hf₁ : Frame {(dataStart : ℤ) + j} sb sb₁ := by
    refine ⟨rfl, rfl, rfl, by simp [hsb₁], fun x _ hn => ?_⟩
    simp only [hsb₁, SuperBlock.put_fields, Device.put_data]
    exact Function.update_of_ne (by simpa using hn) _ _
  have hmem : (dataStart : ℤ) + j ∈ sb.live ↔ j ∈ sb₁.blockFreemap.members := by
    rw [mem_live]
    constructor
    · rintro ⟨i, hi, he⟩
      obtain rfl : i = j := by omega
      exact hi
    · intro hm
      exact ⟨j, hm, rfl⟩
  simp only [testfsPutBlockFreemap, onBlockFreemap, wp_bind]
  refine wp_zoom rfl (wp_mono (bitmapUnmark_ok (hp.imp_right hmem.1)) ?_)
  rintro _ b ⟨hjm, hb⟩
  have hjlt : j < blockBits := by rw [← h.blockBits]; exact (mem_members.1 hjm).1
  have hcard : 0 < sb₁.blockFreemap.members.card := Finset.card_pos.2 ⟨j, hjm⟩
  have hstart : (0 : ℤ) ≤ sb₁.sb.blockFreemapStart + (j / (blockSize * bitsPerWord) : ℕ) :=
    add_nonneg (Int.natCast_nonneg _) (Int.natCast_nonneg _)
  simp only [testfsWriteBlockFreemap, testfsWriteSuperBlock, wp_bind, wp_getState, wp_modify]
  rw [wp_writeBlock hstart]
  simp only [SuperBlock.put_fields]
  rw [wp_writeBlock le_rfl]
  have hused : sb₁.sb.usedBlockCount = sb₁.blockFreemap.members.card := h₁.usedBlocks
  have hbs : (sb₁.sb.blockFreemapStart : ℤ) = 2 := by rw [h₁.blockFreemapStart]; rfl
  refine ⟨fun _ => ?_, fun hz => absurd (hused ▸ hcard) hz⟩
  have hbcard : sb₁.sb.usedBlockCount - 1 = b.members.card := by
    rw [hb.members, Finset.card_erase_of_mem hjm, hused]
  have hle := h₁.usedLe
  have hst : Gave sb (dataStart + j) (blockCommit sb₁ b j (sb₁.sb.usedBlockCount - 1)) := by
    have hfc := blockCommit_frame sb₁ b (n := sb₁.sb.usedBlockCount - 1) hjlt
    refine ⟨blockCommit_ok h₁ hb.nbits hb.v hbcard (by omega), hmem.2 hjm, ?_, ?_, ?_, ?_⟩
    · ext x
      rw [live_blockCommit, hb.members, Set.mem_sdiff, mem_live, Set.mem_singleton_iff]
      constructor
      · rintro ⟨i, hi, rfl⟩
        obtain ⟨hij, hi⟩ := Finset.mem_erase.1 hi
        exact ⟨⟨i, hi, rfl⟩, by omega⟩
      · rintro ⟨⟨i, hi, rfl⟩, hij⟩
        exact ⟨i, Finset.mem_erase.2 ⟨by omega, hi⟩, rfl⟩
    · show sb.sb.maxFsBlocks - (sb₁.sb.usedBlockCount - 1) = sb.left + 1
      have he : sb₁.sb.usedBlockCount = sb.sb.usedBlockCount := rfl
      have hm : sb₁.sb.maxFsBlocks = sb.sb.maxFsBlocks := rfl
      unfold SuperBlock.left
      omega
    · simpa using hf₁.trans hfc
    · rw [hfc.data _ (Or.inr (by omega)) (Set.notMem_empty _), hsb₁, (SuperBlock.put_fields ..).2.1,
        Device.put_data, Function.update_self]
  convert hst using 1
  unfold blockCommit
  simp only [SuperBlock.put, hbs]

/-! ### Inode numbers -/

/-- The inode freemap became `b`, was written back, and the count became `n`. -/
def inodeCommit (sb : SuperBlock) (b : Bitmap) (n : ℕ) : SuperBlock :=
  let sb₁ := { sb with inodeFreemap := b }
  let sb₂ := setUsedInodes n (sb₁.put 1 (b.block 0))
  sb₂.put 0 (Block.ofFn sb₂.sb.encode)

/-- What an operation on the inode freemap leaves alone. -/
structure InodeFrame (sb sb' : SuperBlock) : Prop where
  maxFsBlocks : sb'.sb.maxFsBlocks = sb.sb.maxFsBlocks
  usedBlocks : sb'.sb.usedBlockCount = sb.sb.usedBlockCount
  blockFreemap : sb'.blockFreemap = sb.blockFreemap
  len : sb'.dev.len = sb.dev.len
  data : ∀ b, 2 ≤ b → sb'.dev.data b = sb.dev.data b

/-- Inode number `j` was allocated. -/
structure TookInode (sb : SuperBlock) (j : ℕ) (sb' : SuperBlock) : Prop where
  ok : SuperOK sb'
  fresh : j ∉ sb.inodeFreemap.members
  members : sb'.inodeFreemap.members = insert j sb.inodeFreemap.members
  frame : InodeFrame sb sb'

/-- Inode number `j` was released. -/
structure GaveInode (sb : SuperBlock) (j : ℕ) (sb' : SuperBlock) : Prop where
  ok : SuperOK sb'
  member : j ∈ sb.inodeFreemap.members
  members : sb'.inodeFreemap.members = sb.inodeFreemap.members.erase j
  frame : InodeFrame sb sb'

theorem InodeFrame.live (h : InodeFrame sb sb') : sb'.live = sb.live := by
  unfold SuperBlock.live; rw [h.blockFreemap]

theorem InodeFrame.left (h : InodeFrame sb sb') : sb'.left = sb.left := by
  unfold SuperBlock.left; rw [h.maxFsBlocks, h.usedBlocks]

theorem inodeCommit_ok (h : SuperOK sb) {b : Bitmap} {n : ℕ}
    (hbits : b.nbits = sb.inodeFreemap.nbits) (hn : n = b.members.card) :
    SuperOK (inodeCommit sb b n) where
  inodeFreemapStart := h.inodeFreemapStart
  blockFreemapStart := h.blockFreemapStart
  inodeBlocksStart := h.inodeBlocksStart
  dataBlocksStart := h.dataBlocksStart
  maxFsBlocks := h.maxFsBlocks
  inodeBits := hbits.trans h.inodeBits
  blockBits := h.blockBits
  len := h.len.trans (by simp [inodeCommit, setUsedInodes])
  usedInodes := hn
  usedBlocks := h.usedBlocks
  usedLe := h.usedLe
  diskSuper := by simp [inodeCommit]
  diskInodes := by
    simp only [inodeCommit, SuperBlock.put_fields, Device.put_data, setUsedInodes]
    rw [Function.update_of_ne (by decide)]; simp
  diskBlocks k hk := by
    simp only [inodeCommit, SuperBlock.put_fields, Device.put_data, setUsedInodes]
    rw [Function.update_of_ne (by omega), Function.update_of_ne (by omega)]
    exact h.diskBlocks k hk

theorem inodeCommit_frame (h : Layout sb) (b : Bitmap) (n : ℕ) :
    InodeFrame sb (inodeCommit sb b n) where
  maxFsBlocks := rfl
  usedBlocks := rfl
  blockFreemap := rfl
  len := by
    have := h.len
    have hd : dataStart = 146 := rfl
    simp only [inodeCommit, SuperBlock.put_fields, Device.put_len, setUsedInodes]
    omega
  data x hx := by
    simp only [inodeCommit, SuperBlock.put_fields, Device.put_data, setUsedInodes]
    rw [Function.update_of_ne (by omega), Function.update_of_ne (by omega)]

theorem inode_div {j : ℕ} (hj : j < inodeBits) : j / (blockSize * bitsPerWord) = 0 :=
  Nat.div_eq_of_lt (by unfold inodeBits inodeFreemapSize at hj; simpa using hj)

/-- **Allocating an inode number.** -/
theorem testfsGetInodeFreemap_ok (h : SuperOK sb) :
    wp False testfsGetInodeFreemap (fun r sb' => match r with
      | .error e => e = -enospc ∧ sb' = sb ∧ sb.inodeFreemap.members.card = inodeBits
      | .ok j => j < inodeBits ∧ TookInode sb j sb') sb := by
  simp only [testfsGetInodeFreemap, onInodeFreemap, wp_bind]
  refine wp_zoom rfl (wp_mono (bitmapAlloc_ok h.inodePadded) ?_)
  intro r b hb
  cases r with
  | error e =>
    obtain ⟨he, rfl, hc⟩ := hb
    exact (wp_pure _).2 ⟨he, rfl, hc.trans h.inodeBits⟩
  | ok j =>
    have hj : j < inodeBits := by rw [← h.inodeBits]; exact hb.lt
    have hs : (sb.sb.inodeFreemapStart : ℤ) = 1 := by rw [h.inodeFreemapStart]; rfl
    simp only [testfsWriteInodeFreemap, testfsWriteSuperBlock, wp_bind, wp_getState, wp_pure,
      wp_modify, inode_div hj, hs]
    rw [wp_writeBlock (by decide), wp_writeBlock le_rfl]
    have hcard : sb.sb.usedInodeCount + 1 = b.members.card := by
      rw [hb.members, Finset.card_insert_of_notMem hb.clear, h.usedInodes]
    exact ⟨hj, inodeCommit_ok h hb.nbits hcard, hb.clear, hb.members,
      inodeCommit_frame h.toLayout b _⟩

/-- **Releasing an inode number.** -/
theorem testfsPutInodeFreemap_ok (h : SuperOK sb) {j : ℕ}
    (hj : ok ∨ j ∈ sb.inodeFreemap.members) :
    wp ok (testfsPutInodeFreemap j) (fun _ sb' => GaveInode sb j sb') sb := by
  simp only [testfsPutInodeFreemap, onInodeFreemap, wp_bind]
  refine wp_zoom rfl (wp_mono (bitmapUnmark_ok hj) ?_)
  rintro _ b ⟨hjm, hb⟩
  have hlt : j < inodeBits := by rw [← h.inodeBits]; exact (mem_members.1 hjm).1
  have hs : (sb.sb.inodeFreemapStart : ℤ) = 1 := by rw [h.inodeFreemapStart]; rfl
  have hcard : 0 < sb.inodeFreemap.members.card := Finset.card_pos.2 ⟨j, hjm⟩
  have hused := h.usedInodes
  simp only [testfsWriteInodeFreemap, testfsWriteSuperBlock, wp_bind, wp_getState, wp_modify,
    inode_div hlt, hs]
  rw [wp_writeBlock (by decide)]
  simp only [wp_require, SuperBlock.put_fields]
  rw [wp_writeBlock le_rfl]
  refine ⟨fun _ => ?_, fun hz => absurd (hused ▸ hcard) hz⟩
  have hbcard : sb.sb.usedInodeCount - 1 = b.members.card := by
    rw [hb.members, Finset.card_erase_of_mem hjm, hused]
  exact ⟨inodeCommit_ok h hb.nbits hbcard, hjm, hb.members, inodeCommit_frame h.toLayout b _⟩

end OSLab.Fs
