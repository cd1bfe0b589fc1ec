import OSLab.Fs.Bitmap

/-!
# The super block (`fs/super.c`)

`SuperBlock` is the in-memory super block with the device and the two freemaps. A freemap
pointer that is still `NULL` (while `mktestfs` lays out the device) is a bitmap without
bits.
-/

namespace OSLab.Fs

open Prog

def superBlockSize : ℕ := 1
def inodeFreemapSize : ℕ := 1
def blockFreemapSize : ℕ := 16
def nrInodeBlocks : ℕ := 128

/-- `struct dsuper_block`. -/
structure DSuperBlock where
  inodeFreemapStart : ℕ
  blockFreemapStart : ℕ
  inodeBlocksStart : ℕ
  dataBlocksStart : ℕ
  usedInodeCount : ℕ
  usedBlockCount : ℕ
  maxFsBlocks : ℕ
  deriving DecidableEq, Repr

namespace DSuperBlock

/-- The 32-bit fields in the order of the structure. -/
def word (d : DSuperBlock) : ℕ → ℕ
  | 0 => d.inodeFreemapStart
  | 1 => d.blockFreemapStart
  | 2 => d.inodeBlocksStart
  | 3 => d.dataBlocksStart
  | 4 => d.usedInodeCount
  | _ => d.usedBlockCount

/-- The bytes of the structure. -/
def encode (d : DSuperBlock) (i : ℕ) : Byte :=
  if i < 24 then leByte (d.word (i / 4)) (i % 4)
  else if i < 32 then leByte d.maxFsBlocks (i - 24)
  else 0

def decode (f : ℕ → Byte) : DSuperBlock where
  inodeFreemapStart := leNat 4 f
  blockFreemapStart := leNat 4 fun i => f (4 + i)
  inodeBlocksStart := leNat 4 fun i => f (8 + i)
  dataBlocksStart := leNat 4 fun i => f (12 + i)
  usedInodeCount := leNat 4 fun i => f (16 + i)
  usedBlockCount := leNat 4 fun i => f (20 + i)
  maxFsBlocks := leNat 8 fun i => f (24 + i)

end DSuperBlock

/-- `struct super_block`. -/
structure SuperBlock where
  sb : DSuperBlock
  dev : Device
  inodeFreemap : Bitmap
  blockFreemap : Bitmap

/-- `read_blocks` of one block, into a local array. -/
def readBlock (start : ℤ) : Prog SuperBlock Block := reads fun sb => sb.dev.readBlock start

/-- `write_blocks`. -/
def writeBlocks (blocks : ℕ → Block) (start : ℤ) (nr : ℕ) : Prog SuperBlock Unit := fun sb =>
  (sb.dev.writeBlocks blocks start nr).map fun dev => ((), { sb with dev := dev })

/-- `write_blocks` of one block. -/
def writeBlock (block : Block) (start : ℤ) : Prog SuperBlock Unit :=
  writeBlocks (fun _ => block) start 1

/-- `zero_blocks`. -/
def zeroBlocks (start : ℤ) (nr : ℕ) : Prog SuperBlock Unit :=
  writeBlocks (fun _ => Block.zero) start nr

/-- Run a program on the inode freemap. -/
def onInodeFreemap {α : Type} (c : Prog Bitmap α) : Prog SuperBlock α :=
  zoom (fun sb => some sb.inodeFreemap) (fun b sb => { sb with inodeFreemap := b }) c

/-- Run a program on the block freemap. -/
def onBlockFreemap {α : Type} (c : Prog Bitmap α) : Prog SuperBlock α :=
  zoom (fun sb => some sb.blockFreemap) (fun b sb => { sb with blockFreemap := b }) c

def setUsedInodes (n : ℕ) (sb : SuperBlock) : SuperBlock :=
  { sb with sb := { sb.sb with usedInodeCount := n } }

def setUsedBlocks (n : ℕ) (sb : SuperBlock) : SuperBlock :=
  { sb with sb := { sb.sb with usedBlockCount := n } }

def testfsWriteSuperBlock : Prog SuperBlock Unit := do
  let sb ← getState
  writeBlock (Block.ofFn sb.sb.encode) 0

def testfsWriteInodeFreemap (inodeNr : ℕ) : Prog SuperBlock Unit := do
  let sb ← getState
  let nr := inodeNr / (blockSize * bitsPerWord)
  writeBlock (sb.inodeFreemap.block nr) (sb.sb.inodeFreemapStart + nr)

def testfsWriteBlockFreemap (blockNr : ℕ) : Prog SuperBlock Unit := do
  let sb ← getState
  let nr := blockNr / (blockSize * bitsPerWord)
  writeBlock (sb.blockFreemap.block nr) (sb.sb.blockFreemapStart + nr)

def testfsGetBlockFreemap : Prog SuperBlock (Except ℤ ℕ) := do
  match ← onBlockFreemap bitmapAlloc with
  | .error e => return .error e
  | .ok index => do
    testfsWriteBlockFreemap index
    return .ok index

def testfsPutBlockFreemap (blockNr : ℕ) : Prog SuperBlock Unit := do
  onBlockFreemap (bitmapUnmark blockNr)
  testfsWriteBlockFreemap blockNr

/-- The number of an inode whose bit was clear, or an error. -/
def testfsGetInodeFreemap : Prog SuperBlock (Except ℤ ℕ) := do
  match ← onInodeFreemap bitmapAlloc with
  | .error e => return .error e
  | .ok index => do
    testfsWriteInodeFreemap index
    modify fun sb => setUsedInodes (sb.sb.usedInodeCount + 1) sb
    testfsWriteSuperBlock
    return .ok index

def testfsPutInodeFreemap (inodeNr : ℕ) : Prog SuperBlock Unit := do
  onInodeFreemap (bitmapUnmark inodeNr)
  testfsWriteInodeFreemap inodeNr
  let sb ← getState
  require (0 < sb.sb.usedInodeCount)
  modify (setUsedInodes (sb.sb.usedInodeCount - 1))
  testfsWriteSuperBlock

/-- The number of a block that was free, or an error. -/
def testfsAllocBlock : Prog SuperBlock ℤ := do
  let sb ← getState
  if sb.sb.maxFsBlocks ≤ sb.sb.usedBlockCount then return -enospc
  else
    match ← testfsGetBlockFreemap with
    | .error e => return e
    | .ok phyBlockNr => do
      modify fun sb => setUsedBlocks (sb.sb.usedBlockCount + 1) sb
      testfsWriteSuperBlock
      return sb.sb.dataBlocksStart + phyBlockNr

def testfsFreeBlock (blockNr : ℤ) : Prog SuperBlock Unit := do
  zeroBlocks blockNr 1
  let sb ← getState
  require (0 ≤ blockNr - sb.sb.dataBlocksStart)
  testfsPutBlockFreemap (blockNr - sb.sb.dataBlocksStart).toNat
  let sb ← getState
  require (0 < sb.sb.usedBlockCount)
  modify (setUsedBlocks (sb.sb.usedBlockCount - 1))
  testfsWriteSuperBlock

/-! ### Making and opening a file system -/

/-- `testfs_make_super_block` on an empty device. -/
def testfsMakeSuperBlock (maxFsBlocks : ℕ) : Option SuperBlock :=
  let start : ℕ := superBlockSize
  let sb : DSuperBlock := {
    inodeFreemapStart := start
    blockFreemapStart := start + inodeFreemapSize
    inodeBlocksStart := start + inodeFreemapSize + blockFreemapSize
    dataBlocksStart := start + inodeFreemapSize + blockFreemapSize + nrInodeBlocks
    usedInodeCount := 0
    usedBlockCount := 0
    maxFsBlocks := maxFsBlocks }
  let noBits : Bitmap := ⟨0, fun _ => 0⟩
  (testfsWriteSuperBlock ⟨sb, Device.empty, noBits, noBits⟩).map (·.2)

def testfsMakeInodeFreemap : Prog SuperBlock Unit := do
  let sb ← getState
  zeroBlocks sb.sb.inodeFreemapStart inodeFreemapSize

def testfsMakeBlockFreemap : Prog SuperBlock Unit := do
  let sb ← getState
  zeroBlocks sb.sb.blockFreemapStart blockFreemapSize

def testfsMakeInodeBlocks : Prog SuperBlock Unit := do
  let sb ← getState
  zeroBlocks sb.sb.inodeBlocksStart nrInodeBlocks

/-- `testfs_init_super_block` on the device; the hash table it creates is empty. -/
def testfsInitSuperBlock (dev : Device) : Option SuperBlock := do
  let block ← dev.readBlock 0
  let sb := DSuperBlock.decode block.get
  let inodeFreemap ← bitmapCreate (blockSize * inodeFreemapSize * bitsPerWord)
  let iblocks ← dev.readBlocks sb.inodeFreemapStart inodeFreemapSize
  let blockFreemap ← bitmapCreate (blockSize * blockFreemapSize * bitsPerWord)
  let bblocks ← dev.readBlocks sb.blockFreemapStart blockFreemapSize
  return {
    sb := sb
    dev := dev
    inodeFreemap := inodeFreemap.load iblocks inodeFreemapSize
    blockFreemap := blockFreemap.load bblocks blockFreemapSize }

/-- `testfs_close_super_block` after `inode_hash_destroy`: the device it leaves. -/
def testfsCloseSuperBlock : Prog SuperBlock Unit := do
  testfsWriteSuperBlock
  let sb ← getState
  if sb.inodeFreemap.nbits ≠ 0 then
    writeBlocks sb.inodeFreemap.block sb.sb.inodeFreemapStart inodeFreemapSize
  else pure ()
  if sb.blockFreemap.nbits ≠ 0 then
    writeBlocks sb.blockFreemap.block sb.sb.blockFreemapStart blockFreemapSize
  else pure ()

end OSLab.Fs
