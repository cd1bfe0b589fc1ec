import OSLab.Fs.Super

/-!
# Inodes (`fs/inode.h`, first part of `fs/inode.c`)

The inode on disk, its 64 bytes, and the in-memory inode. `FileState` is what the
functions that work on one inode see: the in-memory inode and its super block.
-/

namespace OSLab.Fs

open Prog

def nrDirectBlocks : ℕ := 10

/-- `NR_INDIRECT_BLOCKS`. -/
def nrIndirectBlocks : ℕ := 2048

/-! `inode_type`. -/

def iNone : ℤ := 0
def iFile : ℤ := 1
def iDir : ℤ := 2

/-- `struct dinode`. -/
structure DInode where
  iType : ℤ
  iBlockNr : Fin nrDirectBlocks → ℤ
  iIndirect : ℤ
  iDindirect : ℤ
  blockCount : ℤ
  iSize : ℤ

/-- `sizeof(struct dinode)`. -/
def dinodeSize : ℕ := 64

/-- `INODES_PER_BLOCK`. -/
def inodesPerBlock : ℕ := blockSize / dinodeSize

/-- The number of inodes the inode blocks hold. -/
def maxInodes : ℕ := nrInodeBlocks * inodesPerBlock

namespace DInode

/-- After `bzero`. -/
def zero : DInode := ⟨0, fun _ => 0, 0, 0, 0, 0⟩

/-- `i_block_nr[k]`. -/
def blockNr (d : DInode) (k : ℕ) : ℤ :=
  if h : k < nrDirectBlocks then d.iBlockNr ⟨k, h⟩ else 0

def setBlockNr (d : DInode) (k : ℕ) (v : ℤ) : DInode :=
  { d with iBlockNr := fun i => if i = k then v else d.iBlockNr i }

/-- The 32-bit fields in the order of the structure. -/
def word (d : DInode) (k : ℕ) : ℤ :=
  if k = 0 then d.iType
  else if k ≤ nrDirectBlocks then d.blockNr (k - 1)
  else if k = 11 then d.iIndirect
  else if k = 12 then d.iDindirect
  else d.blockCount

/-- The bytes of the structure. -/
def encode (d : DInode) (i : ℕ) : Byte :=
  if i < 56 then leByte (d.word (i / 4)) (i % 4) else leByte d.iSize (i - 56)

def decode (f : ℕ → Byte) : DInode where
  iType := leInt 4 f
  iBlockNr k := leInt 4 fun i => f (4 * (k + 1) + i)
  iIndirect := leInt 4 fun i => f (44 + i)
  iDindirect := leInt 4 fun i => f (48 + i)
  blockCount := leInt 4 fun i => f (52 + i)
  iSize := leInt 8 fun i => f (56 + i)

end DInode

/-- `struct inode`; `dirty` is `I_FLAGS_DIRTY`, the only flag. -/
structure Inode where
  din : DInode
  dirty : Bool
  iNr : ℤ
  iCount : ℤ

/-- An in-memory inode and the super block `in->sb` points to. -/
structure FileState where
  sb : SuperBlock
  ino : Inode

namespace FileState

def setDin (f : DInode → DInode) (s : FileState) : FileState :=
  { s with ino := { s.ino with din := f s.ino.din } }

def setDirty (s : FileState) : FileState := { s with ino := { s.ino with dirty := true } }

end FileState

/-- Run a program on the super block. -/
def onSuper {α : Type} (c : Prog SuperBlock α) : Prog FileState α :=
  zoom (fun s => some s.sb) (fun sb s => { s with sb := sb }) c

/-- The physical block number, or an error. -/
def testfsAllocBlockForInode : Prog FileState ℤ := do
  let phyBlockNr ← onSuper testfsAllocBlock
  if 0 ≤ phyBlockNr then do
    modify fun s => (s.setDin fun d => { d with blockCount := d.blockCount + 1 }).setDirty
    return phyBlockNr
  else return phyBlockNr

def testfsFreeBlockFromInode (phyBlockNr : ℤ) : Prog FileState Unit := do
  if phyBlockNr = 0 then pure ()
  else do
    onSuper (testfsFreeBlock phyBlockNr)
    modify fun s => (s.setDin fun d => { d with blockCount := d.blockCount - 1 }).setDirty

end OSLab.Fs
