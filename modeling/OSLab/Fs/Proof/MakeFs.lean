import OSLab.Fs.Shell
import OSLab.Fs.Proof.Allocate

/-!
# The file system that `mktestfs` lays out

`mktestfs` writes the super block, two empty freemaps and empty inode blocks, and then
opens what it wrote. `makeFs_ok`: the super block read back satisfies the invariant, no
block is in use, and all of `max_fs_blocks` can be allocated. `noBlocks_ok`: an inode without
blocks is a file on it.
-/

namespace OSLab.Fs

open Prog

variable {d : DSuperBlock} {sb : SuperBlock} {dev : Device} {n : ℕ} {ok : Prop}

/-- The fields fit into the words they are stored in. -/
structure DSuperBlock.Fits (d : DSuperBlock) : Prop where
  word : ∀ k, d.word k < 2 ^ 32
  maxFsBlocks : d.maxFsBlocks < 2 ^ 64

theorem DSuperBlock.word_encode (hd : d.Fits) {k : ℕ} (hk : k < 6) :
    leNat 4 (fun i => (Block.ofFn d.encode).get (4 * k + i)) = d.word k := by
  have hb : ∀ i < 4, (Block.ofFn d.encode).get (4 * k + i) = leByte (d.word k) i := by
    intro i hi
    rw [Block.get_ofFn _ (by unfold blockSize; omega)]
    unfold DSuperBlock.encode
    rw [if_pos (by omega), show (4 * k + i) / 4 = k by omega, show (4 * k + i) % 4 = i by omega]
  rw [leNat_congr hb]
  exact leNat_leByte_of_lt (hd.word k)

/-- **The super block is read back as it was written.** -/
theorem DSuperBlock.decode_encode (hd : d.Fits) :
    DSuperBlock.decode (Block.ofFn d.encode).get = d := by
  have hmax : leNat 8 (fun i => (Block.ofFn d.encode).get (24 + i)) = d.maxFsBlocks := by
    have hb : ∀ i < 8, (Block.ofFn d.encode).get (24 + i) = leByte d.maxFsBlocks i := by
      intro i hi
      rw [Block.get_ofFn _ (by unfold blockSize; omega)]
      unfold DSuperBlock.encode
      rw [if_neg (by omega), if_pos (by omega), show 24 + i - 24 = i by omega]
    rw [leNat_congr hb]
    exact leNat_leByte_of_lt hd.maxFsBlocks
  have h0 : leNat 4 (Block.ofFn d.encode).get = d.inodeFreemapStart := by
    have h := DSuperBlock.word_encode hd (k := 0) (by decide)
    simpa [DSuperBlock.word] using h
  unfold DSuperBlock.decode
  rw [h0, hmax]
  have h1 := DSuperBlock.word_encode hd (k := 1) (by decide)
  have h2 := DSuperBlock.word_encode hd (k := 2) (by decide)
  have h3 := DSuperBlock.word_encode hd (k := 3) (by decide)
  have h4 := DSuperBlock.word_encode hd (k := 4) (by decide)
  have h5 := DSuperBlock.word_encode hd (k := 5) (by decide)
  norm_num only at h1 h2 h3 h4 h5
  rw [h1, h2, h3, h4, h5]
  rfl

/-- Blocks `start` to `start + nr` are zero, and on the device. -/
def Device.zeroed (dev : Device) (start : ℤ) (nr : ℕ) : Device :=
  ⟨fun b => if start ≤ b ∧ b < start + nr then Block.zero else dev.data b, max dev.len (start + nr)⟩

theorem wp_zeroBlocks {Q : Unit → SuperBlock → Prop} {start : ℤ} {nr : ℕ} (h : 0 ≤ start) :
    wp ok (zeroBlocks start nr) Q sb ↔ Q () { sb with dev := sb.dev.zeroed start nr } := by
  have hw : sb.dev.writeBlocks (fun _ => Block.zero) start nr = some (sb.dev.zeroed start nr) := by
    unfold Device.writeBlocks
    rw [if_pos h]
    rfl
  unfold zeroBlocks writeBlocks wp
  simp only [hw, Option.map_some]

/-- What `mktestfs` puts into the super block. -/
def newSuper (maxFsBlocks : ℕ) : DSuperBlock := ⟨1, 2, 18, 146, 0, 0, maxFsBlocks⟩

theorem newSuper_fits (h : n ≤ blockBits) : (newSuper n).Fits where
  word k := by
    unfold DSuperBlock.word
    split <;> simp only [newSuper] <;> omega
  maxFsBlocks := by
    show n < 2 ^ 64
    have : blockBits = 1048576 := rfl
    omega

/-- The super block in memory before the freemaps are laid out. -/
def bareSuper (n : ℕ) (dev : Device) : SuperBlock := ⟨newSuper n, dev, ⟨0, fun _ => 0⟩, ⟨0, fun _ => 0⟩⟩

/-- A device whose blocks are zero, up to the super block. -/
structure Blank (n : ℕ) (dev : Device) : Prop where
  super : dev.data 0 = Block.ofFn (newSuper n).encode
  rest : ∀ b, b ≠ 0 → dev.data b = Block.zero

theorem Blank.zeroed (h : Blank n dev) {start : ℤ} (hs : 0 < start) (nr : ℕ) :
    Blank n (dev.zeroed start nr) where
  super := by
    unfold Device.zeroed
    simp only
    rw [if_neg (by omega)]
    exact h.super
  rest b hb := by
    unfold Device.zeroed
    simp only
    split
    · rfl
    · exact h.rest b hb

theorem Blank.put (h : Blank n dev) : Blank n (dev.put 0 (Block.ofFn (newSuper n).encode)) where
  super := by rw [Device.put_data, Function.update_self]
  rest b hb := (Function.update_of_ne hb ..).trans (h.rest b hb)

theorem testfsMakeSuperBlock_ok (n : ℕ) :
    ∃ dev, testfsMakeSuperBlock n = some (bareSuper n dev) ∧ Blank n dev := by
  have hw : wp False testfsWriteSuperBlock
      (fun _ t => t = bareSuper n (Device.empty.put 0 (Block.ofFn (newSuper n).encode)))
      (bareSuper n Device.empty) := by
    unfold testfsWriteSuperBlock
    rw [wp_bind, wp_getState, wp_writeBlock le_rfl]
    rfl
  obtain ⟨_, t, ht, rfl⟩ := hw.returns
  refine ⟨_, congrArg (Option.map fun p : Unit × SuperBlock => p.2) ht, ?_⟩
  refine ⟨?_, fun b hb => Function.update_of_ne hb ..⟩
  rw [Device.put_data, Function.update_self]

theorem zeroBlocks_blank (h : Blank n dev) {start : ℤ} (hs : 0 < start) (nr : ℕ) :
    wp False (zeroBlocks start nr) (fun _ t => ∃ dev', t = bareSuper n dev' ∧ Blank n dev' ∧
      dev'.len = max dev.len (start + nr)) (bareSuper n dev) := by
  rw [wp_zeroBlocks hs.le]
  exact ⟨_, rfl, h.zeroed hs nr, rfl⟩

/-- What the layout leaves on the device. -/
theorem layOut_ok (h : Blank n dev) :
    wp False layOut (fun _ t => Blank n t.dev ∧ dataStart ≤ t.dev.len) (bareSuper n dev) := by
  have hi : (0 : ℤ) < (newSuper n).inodeFreemapStart := Int.natCast_pos.2 (by decide : 0 < 1)
  have hb : (0 : ℤ) < (newSuper n).blockFreemapStart := Int.natCast_pos.2 (by decide : 0 < 2)
  have hd : (0 : ℤ) < (newSuper n).inodeBlocksStart := Int.natCast_pos.2 (by decide : 0 < 18)
  simp only [layOut, testfsMakeInodeFreemap, testfsMakeBlockFreemap, testfsMakeInodeBlocks,
    wp_bind, wp_getState]
  refine wp_mono (zeroBlocks_blank h hi _) ?_
  rintro _ _ ⟨dev₁, rfl, h₁, -⟩
  refine wp_mono (zeroBlocks_blank h₁ hb _) ?_
  rintro _ _ ⟨dev₂, rfl, h₂, -⟩
  refine wp_mono (zeroBlocks_blank h₂ hd _) ?_
  rintro _ _ ⟨dev₃, rfl, h₃, hlen⟩
  simp only [testfsCloseSuperBlock, testfsWriteSuperBlock, wp_bind, wp_getState]
  rw [wp_writeBlock le_rfl]
  simp only [wp_ite, wp_pure]
  -- there are no freemaps in memory yet, so only the super block is written again
  refine ⟨fun hn => absurd rfl hn, fun _ => ⟨fun hn => absurd rfl hn, fun _ => ⟨h₃.put, ?_⟩⟩⟩
  have h146 : ((newSuper n).inodeBlocksStart : ℤ) + nrInodeBlocks = dataStart := rfl
  have hle : (dataStart : ℤ) ≤ dev₃.len := by
    rw [hlen, ← h146]
    exact le_max_right _ _
  exact hle.trans (le_max_left _ _)

/-- An empty freemap read back. -/
theorem load_blank {nbits : ℕ} {blocks : ℕ → Block} {nr : ℕ}
    (hb : ∀ k < nr, blocks k = Block.zero) (i : ℕ) :
    ((⟨nbits, fun _ => 0⟩ : Bitmap).load blocks nr).v i = 0 := by
  unfold Bitmap.load
  simp only
  split
  · rename_i hi
    rw [hb _ (Nat.div_lt_of_lt_mul (by rwa [mul_comm] at hi))]
    unfold Block.get Block.zero
    split <;> rfl
  · rfl

theorem block_blank {b : Bitmap} (h : ∀ i, b.v i = 0) (k : ℕ) : b.block k = Block.zero := by
  unfold Bitmap.block
  funext i
  exact h _

/-- The super block in memory, once the device was opened. -/
def openedSuper (n : ℕ) (dev : Device) : SuperBlock where
  sb := newSuper n
  dev := dev
  inodeFreemap := Bitmap.load ⟨inodeBits, fun _ => 0⟩ (fun k => dev.data (1 + k)) inodeFreemapSize
  blockFreemap := Bitmap.load ⟨blockBits, fun _ => 0⟩ (fun k => dev.data (2 + k)) blockFreemapSize

theorem testfsInitSuperBlock_blank (h : Blank n dev) (hn : n ≤ blockBits)
    (hlen : dataStart ≤ dev.len) : testfsInitSuperBlock dev = some (openedSuper n dev) := by
  have hds : dataStart = 146 := rfl
  have h0 : dev.readBlock 0 = some (dev.data 0) := by
    unfold Device.readBlock
    rw [if_pos ⟨le_rfl, by omega⟩]
  have hi : dev.readBlocks ((newSuper n).inodeFreemapStart) inodeFreemapSize =
      some fun k : ℕ => dev.data (1 + k) := by
    unfold Device.readBlocks
    rw [if_pos ⟨by simp only [newSuper]; omega, by simp only [newSuper, inodeFreemapSize]; omega⟩]
    rfl
  have hb : dev.readBlocks ((newSuper n).blockFreemapStart) blockFreemapSize =
      some fun k : ℕ => dev.data (2 + k) := by
    unfold Device.readBlocks
    rw [if_pos ⟨by simp only [newSuper]; omega, by simp only [newSuper, blockFreemapSize]; omega⟩]
    rfl
  have hd : DSuperBlock.decode (dev.data 0).get = newSuper n := by
    rw [h.super]
    exact DSuperBlock.decode_encode (newSuper_fits hn)
  have hci : bitmapCreate (blockSize * inodeFreemapSize * bitsPerWord) =
      some ⟨inodeBits, fun _ => 0⟩ :=
    bitmapCreate_of_dvd (by decide) ⟨blockSize * inodeFreemapSize, by decide⟩
  have hcb : bitmapCreate (blockSize * blockFreemapSize * bitsPerWord) =
      some ⟨blockBits, fun _ => 0⟩ :=
    bitmapCreate_of_dvd (by decide) ⟨blockSize * blockFreemapSize, by decide⟩
  unfold testfsInitSuperBlock
  rw [h0, Option.bind_eq_bind, Option.bind_some]
  simp only [hd, hi, hb, hci, hcb, Option.bind_eq_bind, Option.bind_some]
  rfl

/-- **A new file system satisfies the invariant**, and no block is in use. -/
theorem openedSuper_ok (h : Blank n dev) (hn : n ≤ blockBits) (hlen : dataStart ≤ dev.len) :
    SuperOK (openedSuper n dev) ∧ (openedSuper n dev).live = ∅ := by
  have hi : ∀ i, (openedSuper n dev).inodeFreemap.v i = 0 := fun i =>
    load_blank (fun k _ => h.rest (1 + k) (by omega)) i
  have hb : ∀ i, (openedSuper n dev).blockFreemap.v i = 0 := fun i =>
    load_blank (fun k _ => h.rest (2 + k) (by omega)) i
  constructor
  · exact {
      inodeFreemapStart := rfl
      blockFreemapStart := rfl
      inodeBlocksStart := rfl
      dataBlocksStart := rfl
      maxFsBlocks := hn
      inodeBits := rfl
      blockBits := rfl
      len := hlen
      usedInodes := by rw [members_blank hi]; rfl
      usedBlocks := by rw [members_blank hb]; rfl
      usedLe := Nat.zero_le _
      diskSuper := h.super
      diskInodes := (h.rest 1 (by decide)).trans (block_blank hi 0).symm
      diskBlocks := fun k _ => (h.rest _ (by omega)).trans (block_blank hb k).symm }
  · unfold SuperBlock.live
    rw [members_blank hb, Finset.image_empty, Finset.coe_empty]

/-- **`mktestfs` and opening what it wrote**, up to the root directory. -/
theorem makeFs_ok (hn : n ≤ blockBits) : ∃ sb sb' : SuperBlock,
    testfsMakeSuperBlock n = some sb ∧ layOut sb = some ((), sb') ∧
    ∃ sb₀, testfsInitSuperBlock sb'.dev = some sb₀ ∧ SuperOK sb₀ ∧ sb₀.live = ∅ ∧ sb₀.left = n := by
  obtain ⟨dev, hmake, hdev⟩ := testfsMakeSuperBlock_ok n
  obtain ⟨_, sb', hlay, hblank, hlen⟩ := (layOut_ok hdev).returns
  obtain ⟨hok, hlive⟩ := openedSuper_ok hblank hn hlen
  exact ⟨_, sb', hmake, hlay, _, testfsInitSuperBlock_blank hblank hn hlen, hok, hlive, rfl⟩

/-- The inode that `testfs_create_inode` makes: without blocks. -/
def newInode (type nr : ℤ) : Inode := ⟨{ DInode.zero with iType := type }, true, nr, 1⟩

theorem newInode_ptr (data : ℤ → Block) (type nr : ℤ) (sl : Slot) :
    ptr (newInode type nr).din data sl = 0 := by
  have hd : ∀ k, (newInode type nr).din.blockNr k = 0 := by
    intro k
    unfold DInode.blockNr
    split <;> rfl
  cases sl with
  | direct k => exact hd k
  | indirect => rfl
  | ind k => exact entry_zero data k
  | dindirect => rfl
  | dind i => exact entry_zero data i
  | dent i j =>
    show entry data (entry data 0 i) j = 0
    rw [entry_zero, entry_zero]

/-- A file without blocks. -/
theorem noBlocks_ok {s : FileState} (h : SuperOK s.sb) (hptr : ∀ sl, s.ptr sl = 0)
    (hcount : s.ino.din.blockCount = 0) : FileOK s.sb.live s := by
  have hown : Owns s.ptr (s.sb.live \ s.sb.live) := by
    rw [Set.sdiff_self]
    refine .mk' (fun i _ _ h0 => absurd (hptr i) h0) fun p => ⟨fun hp => hp.elim, ?_⟩
    rintro ⟨h0, i, rfl⟩
    exact absurd (hptr i) h0
  refine ⟨⟨h, subset_rfl, hown, ?_⟩, fun b hb => absurd hb.1 hb.2⟩
  rw [hcount, Set.sdiff_self, Set.ncard_empty]
  rfl

/-- A device without used blocks. -/
def newDevice (n : ℕ) : Device :=
  ⟨fun b => if b = 0 then Block.ofFn (newSuper n).encode else Block.zero, dataStart⟩

theorem newDevice_blank (n : ℕ) : Blank n (newDevice n) where
  super := by
    show (if (0 : ℤ) = 0 then Block.ofFn (newSuper n).encode else Block.zero) = _
    rw [if_pos rfl]
  rest b hb := by
    show (if b = 0 then Block.ofFn (newSuper n).encode else Block.zero) = _
    rw [if_neg hb]

/-- A new file on it. -/
def freshFile (n : ℕ) : FileState := ⟨openedSuper n (newDevice n), newInode iFile 1⟩

theorem freshFile_ok (hn : n ≤ blockBits) :
    FileOK ∅ (freshFile n) ∧ (freshFile n).sb.left = n ∧ ∀ sl, (freshFile n).ptr sl = 0 := by
  obtain ⟨hok, hlive⟩ := openedSuper_ok (newDevice_blank n) hn le_rfl
  have hptr : ∀ sl, (freshFile n).ptr sl = 0 := newInode_ptr _ iFile 1
  have hfile := noBlocks_ok (s := freshFile n) hok hptr rfl
  rw [show (freshFile n).sb.live = ∅ from hlive] at hfile
  exact ⟨hfile, rfl, hptr⟩

end OSLab.Fs
