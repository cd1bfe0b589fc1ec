import OSLab.Fs.ReadWrite

/-!
# The inode hash table (`fs/inode.c`)

`Testfs` is the mounted file system: the super block, the in-memory inodes, and the shell's
current directory. The chains of the hash table are kept as one list: a chain is the
inodes of its hash value in the order of the list, so finding, adding at the head and
removing do the same on both. A pointer to an in-memory inode is its inode number;
following it aborts when the inode has been freed.
-/

namespace OSLab.Fs

open Prog

structure Testfs where
  sb : SuperBlock
  inodes : List Inode
  curDir : ℤ

/-- `inode_hash_find`. -/
def inodeHashFind (inodes : List Inode) (inodeNr : ℤ) : Option Inode :=
  inodes.find? fun ino => ino.iNr = inodeNr

/-- The table after fields of the in-memory inode `inodeNr` were assigned. -/
def inodeHashUpdate (inodes : List Inode) (inodeNr : ℤ) (f : Inode → Inode) : List Inode :=
  inodes.map fun ino => if ino.iNr = inodeNr then f ino else ino

/-- `inode_hash_remove`. -/
def inodeHashRemove (inodes : List Inode) (inodeNr : ℤ) : List Inode :=
  inodes.eraseP fun ino => ino.iNr = inodeNr

namespace Testfs

def find (s : Testfs) (inodeNr : ℤ) : Option Inode := inodeHashFind s.inodes inodeNr

def updateInode (inodeNr : ℤ) (f : Inode → Inode) (s : Testfs) : Testfs :=
  { s with inodes := inodeHashUpdate s.inodes inodeNr f }

end Testfs

/-- Run a program on the super block. -/
def onSb {α : Type} (c : Prog SuperBlock α) : Prog Testfs α :=
  zoom (fun s => some s.sb) (fun sb s => { s with sb := sb }) c

/-- Run a program on an in-memory inode. These programs assign `in` and `i_flags`, never `i_nr`
or `i_count`. -/
def onInode {α : Type} (inodeNr : ℤ) (c : Prog FileState α) : Prog Testfs α :=
  zoom (fun s => (s.find inodeNr).map fun ino => ⟨s.sb, ino⟩)
    (fun f s => { s.updateInode inodeNr fun ino =>
      { ino with din := f.ino.din, dirty := f.ino.dirty } with sb := f.sb }) c

/-- Follow a pointer to an in-memory inode. -/
def inode (inodeNr : ℤ) : Prog Testfs Inode := reads fun s => s.find inodeNr

/-- The block of inode blocks an inode is in, `testfs_inode_to_block_nr`; the number is
converted to `unsigned`, so that a negative one is out of range. -/
def testfsInodeToBlockNr (inodeNr : ℤ) : Option ℕ :=
  if 0 ≤ inodeNr ∧ inodeNr < maxInodes then some (inodeNr.toNat / inodesPerBlock) else none

/-- `testfs_inode_to_block_offset`. -/
def testfsInodeToBlockOffset (inodeNr : ℤ) : ℕ := inodeNr.toNat % inodesPerBlock * dinodeSize

def testfsReadInodeBlock (inodeNr : ℤ) : Prog Testfs Block := do
  let blockNr ← reads fun _ => testfsInodeToBlockNr inodeNr
  let s ← getState
  onSb (readBlock (s.sb.sb.inodeBlocksStart + blockNr))

def testfsWriteInodeBlock (inodeNr : ℤ) (block : Block) : Prog Testfs Unit := do
  let blockNr ← reads fun _ => testfsInodeToBlockNr inodeNr
  let s ← getState
  onSb (writeBlock block (s.sb.sb.inodeBlocksStart + blockNr))

/-- `testfs_get_inode`. -/
def testfsGetInode (inodeNr : ℤ) : Prog Testfs Unit := do
  let s ← getState
  match s.find inodeNr with
  | some _ => modify (·.updateInode inodeNr fun ino => { ino with iCount := ino.iCount + 1 })
  | none => do
    let block ← testfsReadInodeBlock inodeNr
    let off := testfsInodeToBlockOffset inodeNr
    let din := DInode.decode fun i => block.get (off + i)
    modify fun s => { s with inodes := ⟨din, false, inodeNr, 1⟩ :: s.inodes }

/-- The inode block with the bytes of an inode replaced. -/
def spliceInode (block : Block) (off : ℕ) (din : DInode) : Block :=
  Block.ofFn fun i => if off ≤ i ∧ i < off + dinodeSize then din.encode (i - off) else block.get i

/-- `testfs_sync_inode`. -/
def testfsSyncInode (inodeNr : ℤ) : Prog Testfs Unit := do
  let ino ← inode inodeNr
  if ino.dirty then do
    let block ← testfsReadInodeBlock inodeNr
    testfsWriteInodeBlock inodeNr (spliceInode block (testfsInodeToBlockOffset inodeNr) ino.din)
    modify (·.updateInode inodeNr fun ino => { ino with dirty := false })
  else pure ()

/-- `testfs_put_inode`. -/
def testfsPutInode (inodeNr : ℤ) : Prog Testfs Unit := do
  let ino ← inode inodeNr
  require (ino.dirty = false)
  if ino.iCount - 1 = 0 then
    modify fun s => { s with inodes := inodeHashRemove s.inodes inodeNr }
  else modify (·.updateInode inodeNr fun ino => { ino with iCount := ino.iCount - 1 })

/-- `testfs_create_inode`: the number of the new inode, or an error. -/
def testfsCreateInode (type : ℤ) : Prog Testfs (Except ℤ ℕ) := do
  match ← onSb testfsGetInodeFreemap with
  | .error e => return .error e
  | .ok inodeNr =>
    if nrInodeBlocks ≤ inodeNr / inodesPerBlock then do
      onSb (testfsPutInodeFreemap inodeNr)
      return .error (-enospc)
    else do
      testfsGetInode inodeNr
      onInode inodeNr (modify fun s => (s.setDin fun d => { d with iType := type }).setDirty)
      return .ok inodeNr

/-- `testfs_remove_inode`. -/
def testfsRemoveInode (inodeNr : ℤ) : Prog Testfs Unit := do
  onInode inodeNr testfsFreeBlocks
  let ino ← inode inodeNr
  require (ino.din.blockCount = 0)
  onInode inodeNr (modify fun s => (s.setDin fun _ => DInode.zero).setDirty)
  onSb (testfsPutInodeFreemap inodeNr.toNat)
  testfsSyncInode inodeNr
  testfsPutInode inodeNr

/-- `inode_hash_destroy`. -/
def inodeHashDestroy : Prog Testfs Unit := do
  let s ← getState
  require (s.inodes.length = 0)

end OSLab.Fs
