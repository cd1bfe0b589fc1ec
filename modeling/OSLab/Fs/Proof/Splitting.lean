import OSLab.Fs.Proof.MakeFs
import OSLab.Fs.Proof.OutOfSpace

/-!
# How a range is split into blocks

`testfs_read_data` and `testfs_write_data` go through the blocks of a range in order; the first
block, those in the middle and the last one are handled apart. Byte `k` of the buffer goes with
byte `(start + k) % BLOCK_SIZE` of block `(start + k) / BLOCK_SIZE`, whatever the state of the
inode and of the device.

* `readData_run`: a read in which no block fails copies these bytes and no others.
* `writeData_run`: a write in which no block fails allocates the blocks and patches each once.
* `writesEach_blockAt`: in a well-formed file the patched blocks are there at the end.
* `splitting_exact`: the three together.
-/

namespace OSLab.Fs

open Prog

variable {sb : SuperBlock} {ino : Inode} {buf buf' : Buf} {blk : ℕ → Block} {block : Block}
  {s s₁ s' : FileState} {F : Set ℤ} {start size : ℕ} {r ret : ℤ}

/-- The logical blocks of a range. An empty range has the block where it starts. -/
def touched (start size : ℕ) : List ℕ :=
  List.range' (start / blockSize) (max 1 ((start % blockSize + size + 8191) / 8192))

theorem mem_touched {l : ℕ} : l ∈ touched start size ↔
    start / blockSize ≤ l ∧ (l = start / blockSize ∨ blockSize * l < start + size) := by
  unfold touched
  rw [List.mem_range'_1, blockSize_eq]
  omega

/-- Every byte of the range is in one of the blocks. -/
theorem div_mem_touched {k : ℕ} (hk : k < size) : (start + k) / blockSize ∈ touched start size := by
  rw [mem_touched, blockSize_eq]
  omega

theorem start_tdiv (start : ℕ) : (start : ℤ).tdiv blockSize = (start / blockSize : ℕ) := by
  rw [Int.tdiv_eq_ediv_of_nonneg (Int.natCast_nonneg start)]
  exact (Int.natCast_div _ _).symm

theorem start_tmod (start : ℕ) : (start : ℤ).tmod blockSize = (start % blockSize : ℕ) := by
  rw [Int.tmod_eq_emod_of_nonneg (Int.natCast_nonneg start)]
  exact (Int.natCast_mod _ _).symm

/-! ### Reading -/

/-- Reading logical block `l` (converted to an `int`) does not fail and delivers `block`. -/
def ReadsBlock (sb : SuperBlock) (ino : Inode) (l : ℕ) (block : Block) : Prop :=
  ∃ ret, testfsReadBlock sb ino (toInt32 l) = some (ret, block) ∧ 0 ≤ ret

/-- Byte `p` of a file with these blocks. -/
def byteOf (blk : ℕ → Block) (p : ℕ) : Byte := (blk (p / blockSize)).get (p % blockSize)

/-- The bytes from `lo` to `hi` of the buffer were stored, and no others. -/
structure Copied (f : ℕ → Byte) (lo hi : ℕ) (buf buf' : Buf) : Prop where
  cap : buf'.cap = buf.cap
  get : ∀ k, buf'.get k = if lo ≤ k ∧ k < hi then some (f k) else buf.get k

theorem Copied.trans {f : ℕ → Byte} {a b c : ℕ} {buf'' : Buf} (h₁ : Copied f a b buf buf')
    (h₂ : Copied f b c buf' buf'') (hab : a ≤ b) (hbc : b ≤ c) : Copied f a c buf buf'' where
  cap := h₂.cap.trans h₁.cap
  get k := by
    rw [h₂.get, h₁.get]
    by_cases hb : k < b
    · rw [if_neg (by omega)]
      by_cases ha : a ≤ k
      · rw [if_pos ⟨ha, hb⟩, if_pos ⟨ha, by omega⟩]
      · rw [if_neg (by omega), if_neg (by omega)]
    · by_cases hc : k < c
      · rw [if_pos (by omega), if_pos (by omega)]
      · rw [if_neg (by omega), if_neg (by omega), if_neg (by omega)]

theorem readChunk_of {blockNr inc off ix n : ℤ}
    (hr : testfsReadBlock sb ino (toInt32 (blockNr + inc)) = some (ret, block)) (hret : 0 ≤ ret)
    (hinc : blockSize * inc < 2 ^ 31) (hst : buf.store off block ix n = some buf') :
    readChunk sb ino blockNr inc buf off ix n = some (ret, buf') := by
  unfold readChunk
  rw [hr]
  simp only [if_neg hret.not_gt, if_neg (not_le.2 hinc), hst, Option.map_some]

/-- One chunk: `n` bytes of block `l`, from byte `lo` of the buffer on. -/
theorem readChunk_run (buf : Buf) (inc off ix n : ℕ) {l : ℕ} (hl : l = start / blockSize + inc)
    (hread : ReadsBlock sb ino l (blk l)) (hinc : (blockSize : ℤ) * inc < 2 ^ 31)
    (hoff : start + off = blockSize * l + ix) (hix : ix + n ≤ blockSize) (hcap : off + n ≤ buf.cap) :
    ∃ ret buf', readChunk sb ino (start / blockSize : ℕ) inc buf off ix n = some (ret, buf') ∧
      0 ≤ ret ∧ Copied (fun k => byteOf blk (start + k)) off (off + n) buf buf' := by
  obtain ⟨ret, hr, hret⟩ := hread
  obtain ⟨buf', hst⟩ : ∃ buf', buf.store off (blk l) ix n = some buf' :=
    Buf.store_isSome (blk l) ⟨by omega, by omega, by omega, by omega, by omega⟩
  have hcast : ((start / blockSize : ℕ) : ℤ) + (inc : ℤ) = (l : ℕ) := by
    rw [hl]
    push_cast
    rfl
  refine ⟨ret, buf', readChunk_of (by rw [hcast]; exact hr) hret hinc hst, hret,
    (Buf.store_get hst 0).1, ?_⟩
  · intro k
    rw [(Buf.store_get hst k).2]
    by_cases hk : off ≤ k ∧ k < off + n
    · rw [if_pos (by omega), if_pos hk]
      unfold byteOf
      rw [blockSize_eq] at hix hoff ⊢
      have hdiv : (start + k) / 8192 = l := by omega
      have hmod : (start + k) % 8192 = ((k : ℤ) - off + ix).toNat := by omega
      rw [hdiv, hmod]
    · rw [if_neg (by omega), if_neg hk]

/-- The blocks behind the first: `left` bytes from block number `inc` of the range on. -/
theorem readRest_run (hw : ((start % blockSize + size : ℕ) : ℤ) ≤ 2 ^ 31)
    (hread : ∀ l ∈ touched start size, ReadsBlock sb ino l (blk l)) (left inc : ℕ) (hinc : 1 ≤ inc)
    (hleft : 0 < left) (hsize : blockSize * inc + left = start % blockSize + size)
    (hcap : size ≤ buf.cap) :
    ∃ ret buf', readRest sb ino (start / blockSize : ℕ) (start % blockSize : ℕ) buf left inc =
        some (ret, buf') ∧ 0 ≤ ret ∧
      Copied (fun k => byteOf blk (start + k)) (size - left) size buf buf' := by
  induction left using Nat.strong_induction_on generalizing inc buf with
  | _ left ih =>
    have hbs := blockSize_eq
    have hoff : ((blockSize : ℤ) * (inc : ℤ) - (start % blockSize : ℕ)) = (size - left : ℕ) := by
      rw [hbs] at hsize ⊢
      omega
    have hmem : start / blockSize + inc ∈ touched start size := by
      rw [mem_touched]
      rw [hbs] at hsize ⊢
      omega
    have hchunk := fun n (hn : n ≤ blockSize) (hn' : n ≤ left) =>
      readChunk_run buf inc (size - left) 0 n rfl
        (hread _ hmem) (by rw [hbs] at hsize hw ⊢; omega)
        (by rw [hbs] at hsize ⊢; omega)
        (by omega) (by rw [hbs] at hsize; omega)
    unfold readRest
    simp only [hoff]
    by_cases hbig : (blockSize : ℤ) < (left : ℤ)
    · -- a whole block, and those behind it
      rw [if_pos hbig]
      have hlt : blockSize < left := by exact_mod_cast hbig
      obtain ⟨ret, buf₁, hr, hret, hc⟩ := hchunk blockSize le_rfl hlt.le
      have hnext : ((left : ℤ) - (blockSize : ℤ)) = (left - blockSize : ℕ) := by omega
      have hcap₁ : size ≤ buf₁.cap := by
        rw [hc.cap]
        exact hcap
      obtain ⟨ret', buf', hr', hret', hc'⟩ := ih (left - blockSize) (by rw [hbs]; omega)
        (inc + 1) (by omega) (by omega) (by rw [hbs] at hsize hlt ⊢; omega) hcap₁
      refine ⟨ret', buf', ?_, hret', ?_⟩
      · have hr : readChunk sb ino (start / blockSize : ℕ) inc buf (size - left : ℕ) 0 blockSize =
          some (ret, buf₁) := hr
        rw [hr]
        simp only [if_neg hret.not_gt, hnext]
        have hr' : readRest sb ino (start / blockSize : ℕ) (start % blockSize : ℕ) buf₁
          (left - blockSize : ℕ) ((inc : ℤ) + 1) = some (ret', buf') := hr'
        exact hr'
      · have hmid : size - (left - blockSize) = size - left + blockSize := by
          rw [hbs] at hsize hlt ⊢
          omega
        rw [hmid] at hc'
        exact hc.trans hc' (by omega) (by rw [hbs] at hsize hlt ⊢; omega)
    · -- the last block
      rw [if_neg hbig]
      obtain ⟨ret, buf', hr, hret, hc⟩ := hchunk left (by omega) le_rfl
      have hend : size - left + left = size := by
        rw [hbs] at hsize
        omega
      rw [hend] at hc
      exact ⟨ret, buf', hr, hret, hc⟩

/-- **A read in which no block fails** copies the bytes of the range and no others. -/
theorem readData_run (hw : ((start % blockSize + size : ℕ) : ℤ) < 2 ^ 31) (hin : (start + size : ℕ) ≤ ino.din.iSize)
    (hmax : ino.din.iSize < 2 ^ 63) (hcap : size ≤ buf.cap)
    (hread : ∀ l ∈ touched start size, ReadsBlock sb ino l (blk l)) :
    ∃ buf', testfsReadData sb ino buf start size = some ((size : ℤ), buf') ∧
      Copied (fun k => byteOf blk (start + k)) 0 size buf buf' := by
  have hbs := blockSize_eq
  have hfirst : start / blockSize ∈ touched start size := mem_touched.2 ⟨le_rfl, Or.inl rfl⟩
  have hsize : toInt64 size = size := toInt64_of_lt (by omega) (by omega)
  have hsum : toSize ((start % blockSize : ℕ) + (size : ℤ)) = (start % blockSize + size : ℕ) := by
    rw [toSize_of_lt (by omega) (by omega)]
    push_cast
    rfl
  have hret : toInt32 size = size := toInt32_of_lt (by omega) (by omega)
  push_cast at hin
  unfold testfsReadData
  simp only [start_tdiv, start_tmod, hsize]
  have hnc : ¬ino.din.iSize < (start : ℤ) + (size : ℤ) := by omega
  rw [if_neg (by omega)]
  simp only [if_neg hnc]
  rw [hsum]
  have hzero : start + 0 = blockSize * (start / blockSize) + start % blockSize := by
    rw [hbs]
    omega
  by_cases hbig : (blockSize : ℤ) < (start % blockSize + size : ℕ)
  · rw [if_pos hbig]
    have hlt : blockSize < start % blockSize + size := by exact_mod_cast hbig
    have hn : (blockSize : ℤ) - (start % blockSize : ℕ) = (blockSize - start % blockSize : ℕ) := by
      rw [hbs]
      omega
    have hleft : toInt32 ((size : ℤ) - blockSize + (start % blockSize : ℕ)) =
        (start % blockSize + size - blockSize : ℕ) := by
      rw [hbs] at hlt hw ⊢
      rw [toInt32_of_lt (by omega) (by omega)]
      omega
    obtain ⟨ret, buf₁, hr, hret₁, hc⟩ := readChunk_run buf 0 0 (start % blockSize)
      (blockSize - start % blockSize) rfl (hread _ hfirst) (by omega) hzero (by rw [hbs]; omega) (by rw [hbs] at hlt ⊢; omega)
    have hcap₁ : size ≤ buf₁.cap := by
      rw [hc.cap]
      exact hcap
    obtain ⟨ret', buf', hr', hret', hc'⟩ := readRest_run hw.le hread
      (start % blockSize + size - blockSize) 1 le_rfl (by omega) (by omega) hcap₁
    have hr : readChunk sb ino (start / blockSize : ℕ) 0 buf 0 (start % blockSize : ℕ)
        (blockSize - start % blockSize : ℕ) = some (ret, buf₁) := hr
    refine ⟨buf', ?_, ?_⟩
    · rw [hn, hr]
      simp only [if_neg hret₁.not_gt, hleft]
      have hr' : readRest sb ino (start / blockSize : ℕ) (start % blockSize : ℕ) buf₁
        (start % blockSize + size - blockSize : ℕ) 1 = some (ret', buf') := hr'
      rw [hr']
      simp only [if_neg hret'.not_gt, hret]
    · have hmid : size - (start % blockSize + size - blockSize) = 0 + (blockSize - start % blockSize) := by
        rw [hbs] at hlt ⊢
        omega
      rw [hmid] at hc'
      exact hc.trans hc' (by omega) (by rw [hbs] at hlt ⊢; omega)
  · rw [if_neg hbig]
    obtain ⟨ret, buf', hr, hret₁, hc⟩ := readChunk_run buf 0 0 (start % blockSize) size rfl
      (hread _ hfirst) (by omega) hzero (by omega) (by omega)
    have hr : readChunk sb ino (start / blockSize : ℕ) 0 buf 0 (start % blockSize : ℕ) (size : ℕ) =
      some (ret, buf') := hr
    refine ⟨buf', ?_, by rwa [zero_add] at hc⟩
    rw [hr]
    simp only [if_neg hret₁.not_gt, hret]

/-! ### Writing -/

/-- Block `l` when the range is written over it: the bytes in the range are those of the buffer. -/
def patch (buf : Buf) (start size l : ℕ) (block : Block) : Block :=
  Block.ofFn fun j =>
    if start ≤ blockSize * l + j ∧ blockSize * l + j < start + size then
      (buf.get (blockSize * l + j - start)).getD 0
    else block.get j

/-- The blocks of `es` are allocated in order: for `(l, r, block)` logical block `l` (converted to an
`int`) is allocated as block `r`, which does not fail and delivers `block`, and what `patch` makes
of it is written. -/
inductive WritesEach (buf : Buf) (start size : ℕ) :
    List (ℕ × ℤ × Block) → FileState → FileState → Prop
  | nil (s : FileState) : WritesEach buf start size [] s s
  | cons {l : ℕ} {r : ℤ} {block : Block} {es : List (ℕ × ℤ × Block)} {s s₁ s' : FileState}
      (ha : testfsAllocateBlock (toInt32 l) s = some ((r, block), s₁)) (hr : 0 ≤ r)
      (h : WritesEach buf start size es (s₁.put r (patch buf start size l block)) s') :
      WritesEach buf start size ((l, r, block) :: es) s s'

theorem writeBlockFile_run (h : 0 ≤ r) :
    onSuper (writeBlock block r) s = some ((), s.put r block) :=
  zoom_run rfl (writeBlock_run block h)

theorem writeChunk_of {blockNr inc off ix n : ℤ} {block' : Block}
    (ha : testfsAllocateBlock (toInt32 (blockNr + inc)) s = some ((r, block), s₁)) (hr : 0 ≤ r)
    (hinc : blockSize * inc < 2 ^ 31) (hst : block.store ix buf off n = some block') :
    writeChunk buf blockNr inc ix off n s = some (r, s₁.put r block') := by
  unfold writeChunk
  rw [bind_of_run ha]
  simp only [if_neg hr.not_gt]
  have hreads : reads (fun _ => block.store ix buf off n) s₁ = some (block', s₁) :=
    reads_run (f := fun _ => block.store ix buf off n) hst
  rw [bind_of_run (require_run hinc), bind_of_run hreads, bind_of_run (writeBlockFile_run hr)]
  rfl

/-- The copy into block `l` of the bytes from `off` on of the buffer. -/
theorem store_patch {off ix n l : ℕ} (hoff : start + off = blockSize * l + ix)
    (hix : ix + n ≤ blockSize) (hn : off + n ≤ size) (hfirst : off = 0 ∨ ix = 0)
    (hlast : ix + n = blockSize ∨ off + n = size) (hbuf : ∀ k < size, (buf.get k).isSome) :
    block.store ix buf off n = some (patch buf start size l block) := by
  have hbounds : (0 : ℤ) ≤ n ∧ (0 : ℤ) ≤ ix ∧ (ix : ℤ) + n ≤ blockSize ∧ (0 : ℤ) ≤ off ∧
      ∀ i < (n : ℤ).toNat, (buf.get ((off : ℤ).toNat + i)).isSome := by
    refine ⟨by omega, by omega, by omega, by omega, ?_⟩
    intro i hi
    apply hbuf
    omega
  unfold Block.store
  rw [if_pos hbounds]
  congr 1
  funext ⟨j, hj⟩
  show (if (ix : ℤ) ≤ j ∧ (j : ℤ) < ix + n then
    (buf.get ((j : ℤ) - ix + off).toNat).getD 0 else block.get j) = patch buf start size l block ⟨j, hj⟩
  unfold patch Block.ofFn
  simp only
  rw [blockSize_eq] at hoff hix hlast hj ⊢
  by_cases h : ix ≤ j ∧ j < ix + n
  · rw [if_pos (by omega), if_pos (by omega)]
    have hk : ((j : ℤ) - ix + off).toNat = 8192 * l + j - start := by omega
    rw [hk]
  · rw [if_neg (by omega), if_neg (by omega)]

/-- One chunk of a write. -/
theorem writeChunk_run (inc off ix n : ℕ) {l : ℕ} (hl : l = start / blockSize + inc)
    (ha : testfsAllocateBlock (toInt32 l) s = some ((r, block), s₁)) (hr : 0 ≤ r)
    (hinc : (blockSize : ℤ) * inc < 2 ^ 31) (hoff : start + off = blockSize * l + ix)
    (hix : ix + n ≤ blockSize) (hn : off + n ≤ size) (hfirst : off = 0 ∨ ix = 0)
    (hlast : ix + n = blockSize ∨ off + n = size) (hbuf : ∀ k < size, (buf.get k).isSome) :
    writeChunk buf (start / blockSize : ℕ) inc ix off n s =
      some (r, s₁.put r (patch buf start size l block)) := by
  have hcast : ((start / blockSize : ℕ) : ℤ) + (inc : ℤ) = (l : ℕ) := by
    rw [hl]
    push_cast
    rfl
  exact writeChunk_of (by rw [hcast]; exact ha) hr hinc
    (store_patch hoff hix hn hfirst hlast hbuf)

/-- The blocks behind the first. -/
theorem writeRest_run (hw : ((start % blockSize + size : ℕ) : ℤ) ≤ 2 ^ 31)
    (hbuf : ∀ k < size, (buf.get k).isSome) (left inc : ℕ) (hinc : 1 ≤ inc)
    (hleft : 0 < left) (hsize : blockSize * inc + left = start % blockSize + size)
    {es : List (ℕ × ℤ × Block)} (h : WritesEach buf start size es s s')
    (hes : es.map Prod.fst = List.range' (start / blockSize + inc) ((left + 8191) / 8192)) :
    ∃ r, writeRest buf (start / blockSize : ℕ) (start % blockSize : ℕ) left inc s = some (r, s') ∧
      0 ≤ r := by
  induction left using Nat.strong_induction_on generalizing inc es s with
  | _ left ih =>
    have hbs := blockSize_eq
    have hoff : ((blockSize : ℤ) * (inc : ℤ) - (start % blockSize : ℕ)) = (size - left : ℕ) := by
      rw [hbs] at hsize ⊢
      omega
    obtain ⟨n, hn⟩ : ∃ n, (left + 8191) / 8192 = n + 1 := ⟨(left - 1) / 8192, by omega⟩
    rw [hn, List.range'_succ] at hes
    cases h with
    | nil => cases hes
    | @cons l r block es _ s₁ _ ha hr h =>
      obtain ⟨hl, hes⟩ := List.cons.inj hes
      have hl : l = start / blockSize + inc := hl
      have hinc' : (blockSize : ℤ) * (inc : ℤ) < 2 ^ 31 := by
        rw [hbs] at hsize hw ⊢
        omega
      have hbyte : start + (size - left) = blockSize * l + 0 := by
        rw [hl]
        rw [hbs] at hsize ⊢
        omega
      have hle : left ≤ size := by
        rw [hbs] at hsize
        omega
      unfold writeRest
      simp only [hoff]
      by_cases hbig : (blockSize : ℤ) < (left : ℤ)
      · -- a whole block, and those behind it
        rw [if_pos hbig]
        have hlt : blockSize < left := by exact_mod_cast hbig
        have hnext : ((left : ℤ) - (blockSize : ℤ)) = (left - blockSize : ℕ) := by omega
        have hchunk : writeChunk buf (start / blockSize : ℕ) inc 0 (size - left : ℕ) blockSize s =
            some (r, s₁.put r (patch buf start size l block)) :=
          writeChunk_run inc (size - left) 0 blockSize hl ha hr hinc' hbyte (by omega) (by omega)
            (Or.inr rfl) (Or.inl (by omega)) hbuf
        have hmore : es.map Prod.fst =
            List.range' (start / blockSize + (inc + 1)) ((left - blockSize + 8191) / 8192) := by
          have hn' : n = (left - blockSize + 8191) / 8192 := by
            rw [hbs] at hlt ⊢
            omega
          rw [hes, hn', add_assoc]
        have hsize' : blockSize * (inc + 1) + (left - blockSize) = start % blockSize + size := by
          rw [Nat.mul_succ]
          omega
        obtain ⟨r', hr', hpos⟩ := ih (left - blockSize) (by rw [hbs]; omega) (inc + 1) (by omega)
          (by omega) hsize' h hmore
        refine ⟨r', ?_, hpos⟩
        rw [bind_of_run hchunk]
        simp only [if_neg hr.not_gt, hnext]
        rw [Nat.cast_succ] at hr'
        exact hr'
      · -- the last block
        rw [if_neg hbig]
        have hlast : left ≤ blockSize := by omega
        have hchunk : writeChunk buf (start / blockSize : ℕ) inc 0 (size - left : ℕ) left s =
            some (r, s₁.put r (patch buf start size l block)) :=
          writeChunk_run inc (size - left) 0 left hl ha hr hinc' hbyte (by omega) (by omega)
            (Or.inr rfl) (Or.inr (by omega)) hbuf
        obtain rfl : n = 0 := by
          rw [hbs] at hlast
          omega
        cases h with
        | nil =>
          refine ⟨r, ?_, hr⟩
          rw [bind_of_run hchunk]
          simp only [if_neg hr.not_gt]
          rfl
        | cons => cases hes

/-- An allocation that returns was for a block number that is not negative. -/
theorem allocateBlock_nonneg {n : ℤ} {rb : ℤ × Block}
    (ha : testfsAllocateBlock n s = some (rb, s₁)) : 0 ≤ n := by
  by_contra hn
  have hwp : wp True (testfsAllocateBlock n) (fun _ _ => False) s :=
    (allocateBlock_neg (not_le.1 hn)).2 trivial
  exact hwp.of_run ha

/-- Where the number of the first block is not negative as an `int`, no offset of the range
overflows. -/
theorem end_lt (hstart : (start : ℤ) < 2 ^ 63) (hw : ((start % 8192 + size : ℕ) : ℤ) < 2 ^ 31)
    (h : 0 ≤ toInt32 (start / 8192 : ℕ)) : (start : ℤ) + size < 2 ^ 63 := by
  unfold toInt32 at h
  rw [Int.bmod_def] at h
  split at h <;> omega

theorem writeDone_run (h : (start : ℤ) + size < 2 ^ 63) :
    writeDone start size s = some (toInt32 size, s.grow start size) := by
  have hwp : wp False (writeDone start size)
      (fun r t => r = toInt32 size ∧ t = s.grow start size) s :=
    writeDone_ok (Or.inr h) fun _ => ⟨rfl, rfl⟩
  obtain ⟨r, t, hrun, hr, ht⟩ := hwp.returns
  rw [hrun, hr, ht]

theorem writeData_several {start size left r' : ℤ} {s₂ : FileState} {res : ℤ × FileState}
    (hbig : blockSize < toSize (start.tmod blockSize + size))
    (hfirst : writeChunk buf (start.tdiv blockSize) 0 (start.tmod blockSize) 0
      (blockSize - start.tmod blockSize) s = some (r, s₁)) (hr : 0 ≤ r)
    (hleft : toInt32 (size - blockSize + start.tmod blockSize) = left)
    (hrest : writeRest buf (start.tdiv blockSize) (start.tmod blockSize) left 1 s₁ = some (r', s₂))
    (hr' : 0 ≤ r') (hdone : writeDone start size s₂ = some res) :
    testfsWriteData buf start size s = some res := by
  unfold testfsWriteData
  rw [if_pos hbig, bind_of_run hfirst]
  simp only [if_neg hr.not_gt, hleft]
  rw [bind_of_run hrest]
  simp only [if_neg hr'.not_gt]
  exact hdone

theorem writeData_one {start size : ℤ} {res : ℤ × FileState}
    (hbig : ¬blockSize < toSize (start.tmod blockSize + size))
    (hfirst : writeChunk buf (start.tdiv blockSize) 0 (start.tmod blockSize) 0 size s =
      some (r, s₁)) (hr : 0 ≤ r) (hdone : writeDone start size s₁ = some res) :
    testfsWriteData buf start size s = some res := by
  unfold testfsWriteData
  rw [if_neg hbig, bind_of_run hfirst]
  simp only [if_neg hr.not_gt]
  exact hdone

/-- **A write in which no block fails** allocates the blocks of the range in order, patches each
once, and the file grows. -/
theorem writeData_run (hw : ((start % blockSize + size : ℕ) : ℤ) < 2 ^ 31)
    (hstart : (start : ℤ) < 2 ^ 63) (hbuf : ∀ k < size, (buf.get k).isSome)
    {es : List (ℕ × ℤ × Block)} (h : WritesEach buf start size es s s')
    (hes : es.map Prod.fst = touched start size) :
    testfsWriteData buf start size s = some ((size : ℤ), s'.grow start size) := by
  have hbs := blockSize_eq
  have hsum : toSize ((start % blockSize : ℕ) + (size : ℤ)) = (start % blockSize + size : ℕ) := by
    rw [toSize_of_lt (by omega) (by omega)]
    push_cast
    rfl
  have hret : toInt32 size = size := toInt32_of_lt (by omega) (by omega)
  have hbyte : start + 0 = blockSize * (start / blockSize) + start % blockSize := by
    rw [hbs]
    omega
  unfold touched at hes
  obtain ⟨n, hn⟩ : ∃ n, max 1 ((start % blockSize + size + 8191) / 8192) = n + 1 :=
    ⟨max 1 ((start % blockSize + size + 8191) / 8192) - 1, by omega⟩
  rw [hn, List.range'_succ] at hes
  cases h with
  | nil => cases hes
  | @cons l r block es _ s₁ _ ha hr h =>
    obtain ⟨hl, hes⟩ := List.cons.inj hes
    have hl : l = start / blockSize + 0 := hl
    have hnonneg : 0 ≤ toInt32 (start / 8192 : ℕ) := by
      have hl' : l = start / 8192 := by
        rw [hl, hbs]
        rfl
      rw [← hl']
      exact allocateBlock_nonneg ha
    have hdone : writeDone start size s' = some ((size : ℤ), s'.grow start size) := by
      rw [hbs] at hw
      rw [writeDone_run (end_lt hstart hw hnonneg), hret]
    by_cases hbig : (blockSize : ℤ) < (start % blockSize + size : ℕ)
    · have hlt : blockSize < start % blockSize + size := by exact_mod_cast hbig
      have hlen : (blockSize : ℤ) - (start % blockSize : ℕ) = (blockSize - start % blockSize : ℕ) := by
        rw [hbs]
        omega
      have hleft : toInt32 ((size : ℤ) - blockSize + (start % blockSize : ℕ)) =
          (start % blockSize + size - blockSize : ℕ) := by
        rw [hbs] at hlt hw ⊢
        rw [toInt32_of_lt (by omega) (by omega)]
        omega
      have hix : start % blockSize + (blockSize - start % blockSize) = blockSize := by
        rw [hbs]
        omega
      have hchunk : writeChunk buf (start / blockSize : ℕ) 0 (start % blockSize : ℕ) 0
          (blockSize - start % blockSize : ℕ) s = some (r, s₁.put r (patch buf start size l block)) :=
        writeChunk_run 0 0 (start % blockSize) (blockSize - start % blockSize) hl ha hr (by omega)
          (by rw [hl]; exact hbyte) hix.le (by omega) (Or.inl rfl) (Or.inl hix) hbuf
      have hmore : es.map Prod.fst = List.range' (start / blockSize + 1)
          ((start % blockSize + size - blockSize + 8191) / 8192) := by
        have hn' : n = (start % blockSize + size - blockSize + 8191) / 8192 := by
          rw [hbs] at hlt hn ⊢
          omega
        rw [hes, hn']
      obtain ⟨r', hr', hpos⟩ := writeRest_run hw.le hbuf (start % blockSize + size - blockSize) 1
        le_rfl (by omega) (by omega) h hmore
      rw [Nat.cast_one] at hr'
      rw [← start_tmod, ← start_tdiv] at hr'
      rw [← hlen, ← start_tmod, ← start_tdiv] at hchunk
      rw [← hsum, ← start_tmod] at hbig
      rw [← start_tmod] at hleft
      exact writeData_several hbig hchunk hr hleft hr' hpos hdone
    · have hle : start % blockSize + size ≤ blockSize := by
        rw [hbs] at hbig ⊢
        omega
      have hchunk : writeChunk buf (start / blockSize : ℕ) 0 (start % blockSize : ℕ) 0 size s =
          some (r, s₁.put r (patch buf start size l block)) :=
        writeChunk_run 0 0 (start % blockSize) size hl ha hr (by omega)
          (by rw [hl]; exact hbyte) hle (by omega) (Or.inl rfl) (Or.inr (Nat.zero_add size)) hbuf
      obtain rfl : n = 0 := by
        rw [hbs] at hle hn
        omega
      cases h with
      | nil =>
        rw [← start_tmod, ← start_tdiv] at hchunk
        rw [← hsum, ← start_tmod] at hbig
        exact writeData_one hbig hchunk hr hdone
      | cons => cases hes

/-! ### In a well-formed file -/

/-- An allocation that succeeds in a well-formed file: the block is in place. -/
theorem allocateBlock_ready (h : FileOK F s) {n : ℤ}
    (ha : testfsAllocateBlock n s = some ((r, block), s₁)) (hr : 0 ≤ r) :
    ∃ l : ℕ, n = l ∧ l < maxFileBlocks ∧ block = s.delivered l ∧ Ready F s l r s₁ := by
  obtain ⟨l, rfl⟩ := Int.eq_ofNat_of_zero_le (allocateBlock_nonneg ha)
  have hl : l < maxFileBlocks := by
    by_contra hge
    have hwp : wp False (testfsAllocateBlock l) (fun rb _ => rb.1 < 0) s :=
      allocateBlock_big (by exact_mod_cast not_lt.1 hge) fun _ => (by decide : (-efbig : ℤ) < 0)
    have := hwp.of_run ha
    omega
  obtain ⟨hb, hcases⟩ := (allocateBlock_ok h hl).of_run ha
  refine ⟨l, rfl, hl, hb hr, ?_⟩
  rcases hcases with ⟨hm, h1, rfl⟩ | ⟨-, -, hext⟩ | ⟨-, -, h1, -⟩
  · have h1 : r = s₁.ptr (slotOf l) := h1
    rw [h1]
    exact Ready.of_mapped h hm
  · exact hext.ready
  · have h1 : r = -enospc := h1
    have : (-enospc : ℤ) < 0 := by decide
    omega

theorem FileState.blockAt_grow (s : FileState) (x y : ℤ) (l : ℕ) :
    (s.grow x y).blockAt l = s.blockAt l := by
  unfold FileState.blockAt
  rw [(s.grow_rest x y).1, (s.grow_rest x y).2]

/-- **The patched blocks are those of the file.** A block that is not in the range is as
before. -/
theorem writesEach_blockAt {es : List (ℕ × ℤ × Block)} (h : FileOK F s)
    (hw : WritesEach buf start size es s s') (hnd : (es.map fun e => toInt32 e.1).Nodup) :
    (∀ l r block, (l, r, block) ∈ es →
      s'.blockAt (toInt32 l).toNat = patch buf start size l block) ∧
    ∀ m : ℕ, (m : ℤ) ∉ es.map (fun e => toInt32 e.1) → s'.blockAt m = s.blockAt m := by
  induction hw with
  | nil s =>
    refine ⟨?_, fun _ _ => rfl⟩
    intro l r block he
    cases he
  | @cons l r block es s s₁ s' ha hr _ ih =>
    rw [List.map_cons, List.nodup_cons] at hnd
    obtain ⟨l', hl', -, -, hready⟩ := allocateBlock_ready h ha hr
    obtain ⟨hin, hout⟩ := ih (hready.fileOK _) hnd.2
    constructor
    · intro l₁ r₁ block₁ he
      rcases List.mem_cons.1 he with heq | he
      · obtain ⟨rfl, rfl, rfl⟩ : l₁ = l ∧ r₁ = r ∧ block₁ = block := by simpa using heq
        -- the blocks behind it are others
        have hother : (l' : ℤ) ∉ es.map (fun e => toInt32 e.1) := by
          rw [← hl']
          exact hnd.1
        rw [hl', Int.toNat_natCast, hout l' hother, hready.blockAt_self]
      · exact hin l₁ r₁ block₁ he
    · intro m hm
      rw [List.map_cons, List.mem_cons, not_or, hl'] at hm
      rw [hout m hm.2, hready.blockAt_of_ne _ (by exact_mod_cast hm.1)]

/-- The blocks of a range have different numbers as an `int`, too. -/
theorem nodup_touched (hw : ((start % blockSize + size : ℕ) : ℤ) < 2 ^ 31) :
    ((touched start size).map fun l : ℕ => toInt32 l).Nodup := by
  have hle : max 1 ((start % blockSize + size + 8191) / 8192) ≤ 2 ^ 31 := by omega
  refine List.Nodup.map_on ?_ List.nodup_range'
  intro a ha b hb hab
  unfold touched at ha hb
  rw [List.mem_range'_1] at ha hb
  unfold toInt32 at hab
  rw [Int.bmod_def, Int.bmod_def] at hab
  generalize start / blockSize = q at ha hb
  split at hab <;> split at hab <;> omega

/-- **A range is split into blocks exactly.** Every byte of the range is in one of the blocks. When
no block fails, a read copies to byte `k` of the buffer byte `start + k` of the blocks, and no
other byte; a write patches every block of the range once with the bytes of the buffer, leaves the
other bytes of the block as `testfs_allocate_block` delivered it, and looks at the first `size`
bytes of the buffer only. In a well-formed file the patched blocks are there at the end. -/
theorem splitting_exact (start size : ℕ) (hw : ((start % blockSize + size : ℕ) : ℤ) < 2 ^ 31) :
    (∀ k < size, (start + k) / blockSize ∈ touched start size) ∧
    (∀ (sb : SuperBlock) (ino : Inode) (buf : Buf) (blk : ℕ → Block),
      (start + size : ℕ) ≤ ino.din.iSize → ino.din.iSize < 2 ^ 63 → size ≤ buf.cap →
      (∀ l ∈ touched start size, ReadsBlock sb ino l (blk l)) →
      ∃ buf', testfsReadData sb ino buf start size = some ((size : ℤ), buf') ∧
        Copied (fun k => byteOf blk (start + k)) 0 size buf buf') ∧
    ∀ (s s' : FileState) (buf : Buf) (es : List (ℕ × ℤ × Block)), (start : ℤ) < 2 ^ 63 →
      (∀ k < size, (buf.get k).isSome) → es.map Prod.fst = touched start size →
      WritesEach buf start size es s s' →
      testfsWriteData buf start size s = some ((size : ℤ), s'.grow start size) ∧
      ∀ F, FileOK F s → ∀ l r block, (l, r, block) ∈ es →
        (s'.grow start size).blockAt (toInt32 l).toNat = patch buf start size l block := by
  refine ⟨fun k hk => div_mem_touched hk, ?_, ?_⟩
  · intro sb ino buf blk hin hmax hcap hread
    exact readData_run hw hin hmax hcap hread
  · intro s s' buf es hstart hbuf hes h
    refine ⟨writeData_run hw hstart hbuf h hes, ?_⟩
    intro F hF l r block he
    have hmap : es.map (fun e => toInt32 e.1) = (es.map Prod.fst).map fun l : ℕ => toInt32 l := by
      simp only [List.map_map, Function.comp_def]
    have hnd : (es.map fun e => toInt32 e.1).Nodup := by
      rw [hmap, hes]
      exact nodup_touched hw
    rw [FileState.blockAt_grow]
    exact (writesEach_blockAt hF h hnd).1 l r block he

theorem allocateBlock_direct (h : FileOK F s) {l : ℕ} (hl : l < indStart) (hleft : 0 < s.sb.left) :
    ∃ r block s₁, testfsAllocateBlock (toInt32 l) s = some ((r, block), s₁) ∧ 0 ≤ r ∧
      Ready F s l r s₁ ∧ s.sb.left ≤ s₁.sb.left + 1 := by
  have hmax : l < maxFileBlocks := by
    rw [indStart_eq] at hl
    rw [maxFileBlocks_eq]
    omega
  have hneed : s.need l ≤ 1 := by
    unfold FileState.need path
    rw [if_pos hl]
    exact List.length_filter_le _ [Slot.direct l]
  have hconv : toInt32 l = l := by
    rw [indStart_eq] at hl
    exact toInt32_of_lt (by omega) (by omega)
  obtain ⟨⟨r, block⟩, s₁, hrun, -, hcases⟩ := (allocateBlock_ok h hmax).returns
  have hready : Ready F s l r s₁ := by
    rcases hcases with ⟨hm, h1, rfl⟩ | ⟨-, -, hext⟩ | ⟨-, hlt, -⟩
    · have h1 : r = s₁.ptr (slotOf l) := h1
      rw [h1]
      exact Ready.of_mapped h hm
    · exact hext.ready
    · omega
  refine ⟨r, block, s₁, ?_, ?_, hready, ?_⟩
  · rw [hconv]
    exact hrun
  · have := hready.holds.nonneg (slotOf l)
    rwa [hready.target] at this
  · have := hready.left
    omega

/-- Four bytes over the border of the first two blocks of a new file. -/
theorem freshFile_writes (buf : Buf) : ∃ es s', WritesEach buf 8190 4 es (freshFile 2) s' ∧
    es.map Prod.fst = touched 8190 4 := by
  obtain ⟨hok, hleft, -⟩ := freshFile_ok (n := 2) (by decide)
  obtain ⟨r₀, block₀, s₁, ha₀, hr₀, hready₀, hle₀⟩ := allocateBlock_direct (l := 0) hok (by decide)
    (by omega)
  have hok₁ := hready₀.fileOK (patch buf 8190 4 0 block₀)
  have hleft₁ : 0 < (s₁.put r₀ (patch buf 8190 4 0 block₀)).sb.left := by
    rw [(FileState.put_fields ..).2.2.1]
    omega
  obtain ⟨r₁, block₁, s₂, ha₁, hr₁, -, -⟩ := allocateBlock_direct (l := 1) hok₁ (by decide) hleft₁
  exact ⟨_, _, .cons ha₀ hr₀ (.cons ha₁ hr₁ (.nil _)), rfl⟩

/-- A file without blocks. -/
def sparseInode : Inode := ⟨{ DInode.zero with iSize := 10000 }, false, 1, 1⟩

/-- They are read from a file without blocks, and written to a new file. -/
theorem splitting_two_blocks :
    (∃ buf', testfsReadData (openedSuper 2 (newDevice 2)) sparseInode (Buf.fresh 4) 8190 4 =
        some (4, buf') ∧
      Copied (fun k => byteOf (fun _ => Block.zero) (8190 + k)) 0 4 (Buf.fresh 4) buf') ∧
    ∃ (es : List (ℕ × ℤ × Block)) (s' : FileState), es.map Prod.fst = [0, 1] ∧
      testfsWriteData (Buf.ofList [1, 2, 3, 4]) 8190 4 (freshFile 2) = some (4, s') ∧
      ∀ l r block, (l, r, block) ∈ es →
        s'.blockAt (toInt32 l).toNat = patch (Buf.ofList [1, 2, 3, 4]) 8190 4 l block := by
  obtain ⟨-, hread, hwrite⟩ := splitting_exact 8190 4 (by decide)
  constructor
  · refine hread (openedSuper 2 (newDevice 2)) sparseInode (Buf.fresh 4) (fun _ => Block.zero)
      (by decide) (by decide) (by decide) ?_
    intro l hl
    have hl : l ∈ [0, 1] := hl
    rcases List.mem_pair.1 hl with rfl | rfl
    · exact ⟨0, rfl, le_rfl⟩
    · exact ⟨0, rfl, le_rfl⟩
  · obtain ⟨es, s', h, hes⟩ := freshFile_writes (Buf.ofList [1, 2, 3, 4])
    obtain ⟨hrun, hat⟩ := hwrite (freshFile 2) s' (Buf.ofList [1, 2, 3, 4]) es (by decide)
      (by decide) hes h
    exact ⟨es, _, hes, hrun, hat ∅ (freshFile_ok (by decide)).1⟩

end OSLab.Fs
