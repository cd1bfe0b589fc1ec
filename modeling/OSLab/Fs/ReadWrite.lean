import OSLab.Fs.Inode

/-!
# Reading and writing a file (`fs/read_write.c`)

Every function works on one in-memory inode. The logical block number is an `int`, so
a block number computed as a `long` is converted on the way.
-/

namespace OSLab.Fs

open Prog

/-- The end of `testfs_read_block`: read the physical block, or fill with zeros. -/
def readPhysical (sb : SuperBlock) (phyBlockNr : ℤ) : Option (ℤ × Block) :=
  if 0 < phyBlockNr then (sb.dev.readBlock phyBlockNr).map fun block => (phyBlockNr, block)
  else some (phyBlockNr, Block.zero)

/-- `testfs_read_block`: the physical block number or an error, and what is then in
`block`. No caller looks at `block` after `-EFBIG`. -/
def testfsReadBlock (sb : SuperBlock) (ino : Inode) (logBlockNr : ℤ) : Option (ℤ × Block) :=
  if logBlockNr < 0 then none
  else if logBlockNr < nrDirectBlocks then readPhysical sb (ino.din.blockNr logBlockNr.toNat)
  else if nrIndirectBlocks ≤ logBlockNr - nrDirectBlocks then
    let n := logBlockNr - nrDirectBlocks - nrIndirectBlocks
    if nrIndirectBlocks * nrIndirectBlocks ≤ n then some (-efbig, Block.zero)
    else if 0 < ino.din.iDindirect then do
      let block ← sb.dev.readBlock ino.din.iDindirect
      let diAddr := block.word (n / nrIndirectBlocks).toNat
      if 0 < diAddr then do
        let block ← sb.dev.readBlock diAddr
        readPhysical sb (block.word (n % nrIndirectBlocks).toNat)
      else
        -- `block` still holds the double indirect table
        some (diAddr, block)
    else readPhysical sb 0
  else if 0 < ino.din.iIndirect then do
    let block ← sb.dev.readBlock ino.din.iIndirect
    readPhysical sb (block.word (logBlockNr - nrDirectBlocks).toNat)
  else readPhysical sb 0

/-- Read block `blockNr + increment` of the file and copy `n` of its bytes to the buffer. -/
def readChunk (sb : SuperBlock) (ino : Inode) (blockNr increment : ℤ) (buf : Buf)
    (off blockIx n : ℤ) : Option (ℤ × Buf) :=
  match testfsReadBlock sb ino (toInt32 (blockNr + increment)) with
  | none => none
  | some (ret, block) =>
    if ret < 0 then some (ret, buf)
    -- `BLOCK_SIZE*block_increment` is an `int`
    else if 2 ^ 31 ≤ blockSize * increment then none
    else (buf.store off block blockIx n).map fun buf => (ret, buf)

/-- The loop of `testfs_read_data` and the last block after it: `leftoverSize` bytes are
still to be read. -/
def readRest (sb : SuperBlock) (ino : Inode) (blockNr blockIx : ℤ) (buf : Buf)
    (leftoverSize increment : ℤ) : Option (ℤ × Buf) :=
  let off := blockSize * increment - blockIx
  if blockSize < leftoverSize then
    match readChunk sb ino blockNr increment buf off 0 blockSize with
    | none => none
    | some (ret, buf) =>
      if ret < 0 then some (ret, buf)
      else readRest sb ino blockNr blockIx buf (leftoverSize - blockSize) (increment + 1)
  else readChunk sb ino blockNr increment buf off 0 leftoverSize
  termination_by leftoverSize.toNat
  decreasing_by simp only [blockSize] at *; omega

/-- `testfs_read_data`: the number of bytes read or an error, and the buffer. -/
def testfsReadData (sb : SuperBlock) (ino : Inode) (buf : Buf) (start size : ℤ) :
    Option (ℤ × Buf) :=
  let blockNr := start.tdiv blockSize
  let blockIx := start.tmod blockSize
  if 2 ^ 63 ≤ start + toInt64 size then none
  else
    let size := if ino.din.iSize < start + toInt64 size then toSize (ino.din.iSize - start) else size
    if blockSize < toSize (blockIx + size) then
      match readChunk sb ino blockNr 0 buf 0 blockIx (blockSize - blockIx) with
      | none => none
      | some (ret, buf) =>
        if ret < 0 then some (ret, buf)
        else
          match readRest sb ino blockNr blockIx buf (toInt32 (size - blockSize + blockIx)) 1 with
          | none => none
          | some (ret, buf) => if ret < 0 then some (ret, buf) else some (toInt32 size, buf)
    else
      match readChunk sb ino blockNr 0 buf 0 blockIx size with
      | none => none
      | some (ret, buf) => if ret < 0 then some (ret, buf) else some (toInt32 size, buf)

/-! ### Allocating a block -/

/-- The last part of the double indirect case: allocate the data block and enter it as
entry `index` of the second-level table `indirect`. -/
def allocateDirectOfDouble (diIndex index : ℕ) (diBlock indirect : Block)
    (diBlockAvailable indirectAllocated : Bool) : Prog FileState ℤ := do
  let phyBlockNr ← testfsAllocBlockForInode
  let s ← getState
  if phyBlockNr < 0 then
    if diBlockAvailable then do
      testfsFreeBlockFromInode (diBlock.word diIndex)
      -- `i_dindirect` keeps the number of the freed block
      testfsFreeBlockFromInode s.ino.din.iDindirect
      return phyBlockNr
    else if indirectAllocated then do
      -- the table on disk keeps the number of the freed block
      testfsFreeBlockFromInode (diBlock.word diIndex)
      return phyBlockNr
    else return phyBlockNr
  else do
    onSuper (writeBlock (indirect.setWord index phyBlockNr) (diBlock.word diIndex))
    return phyBlockNr

/-- The middle part of the double indirect case: find or allocate the second-level table. -/
def allocateIndirectOfDouble (diIndex index : ℕ) (diBlock : Block) (diBlockAvailable : Bool) :
    Prog FileState ℤ := do
  if diBlock.word diIndex = 0 then do
    let phyBlockNr ← testfsAllocBlockForInode
    let s ← getState
    if phyBlockNr < 0 then
      if diBlockAvailable then do
        testfsFreeBlockFromInode s.ino.din.iDindirect
        return phyBlockNr
      else return phyBlockNr
    else do
      onSuper (writeBlock (diBlock.setWord diIndex phyBlockNr) s.ino.din.iDindirect)
      allocateDirectOfDouble diIndex index (diBlock.setWord diIndex phyBlockNr) Block.zero
        diBlockAvailable true
  else do
    let indirect ← onSuper (readBlock (diBlock.word diIndex))
    allocateDirectOfDouble diIndex index diBlock indirect diBlockAvailable false

/-- The double indirect case of `testfs_allocate_block`, for block `n` of that part:
`diIndex` is `n / NR_INDIRECT_BLOCKS` and `index` is `n % NR_INDIRECT_BLOCKS`. -/
def allocateDouble (diIndex index : ℕ) : Prog FileState ℤ := do
  let s ← getState
  if s.ino.din.iDindirect = 0 then do
    let phyBlockNr ← testfsAllocBlockForInode
    if phyBlockNr < 0 then return phyBlockNr
    else do
      modify (·.setDin fun d => { d with iDindirect := phyBlockNr })
      allocateIndirectOfDouble diIndex index Block.zero true
  else do
    let diBlock ← onSuper (readBlock s.ino.din.iDindirect)
    allocateIndirectOfDouble diIndex index diBlock false

/-- The end of the indirect case: allocate the data block and enter it in the table. -/
def allocateDirectOfIndirect (n : ℤ) (indirect : Block) (indirectAllocated : Bool) :
    Prog FileState ℤ := do
  require (indirect.word n.toNat = 0)
  let phyBlockNr ← testfsAllocBlockForInode
  let s ← getState
  if 0 ≤ phyBlockNr then do
    onSuper (writeBlock (indirect.setWord n.toNat phyBlockNr) s.ino.din.iIndirect)
    return phyBlockNr
  else do
    if indirectAllocated then do
      testfsFreeBlockFromInode s.ino.din.iIndirect
      modify (·.setDin fun d => { d with iIndirect := 0 })
    else pure ()
    return phyBlockNr

/-- The indirect case of `testfs_allocate_block`, for block `n` of that part. -/
def allocateIndirect (n : ℤ) : Prog FileState ℤ := do
  let s ← getState
  if s.ino.din.iIndirect = 0 then do
    let phyBlockNr ← testfsAllocBlockForInode
    if phyBlockNr < 0 then return phyBlockNr
    else do
      modify (·.setDin fun d => { d with iIndirect := phyBlockNr })
      allocateDirectOfIndirect n Block.zero true
  else do
    let indirect ← onSuper (readBlock s.ino.din.iIndirect)
    allocateDirectOfIndirect n indirect false

/-- The direct case of `testfs_allocate_block`. -/
def allocateDirect (logBlockNr : ℤ) : Prog FileState ℤ := do
  let s ← getState
  require (s.ino.din.blockNr logBlockNr.toNat = 0)
  let phyBlockNr ← testfsAllocBlockForInode
  if 0 ≤ phyBlockNr then do
    modify (·.setDin fun d => d.setBlockNr logBlockNr.toNat phyBlockNr)
    return phyBlockNr
  else return phyBlockNr

/-- `testfs_allocate_block`: the physical block number or an error, and what is then in
`block`. -/
def testfsAllocateBlock (logBlockNr : ℤ) : Prog FileState (ℤ × Block) := do
  let (phyBlockNr, block) ← reads fun s => testfsReadBlock s.sb s.ino logBlockNr
  if phyBlockNr ≠ 0 then return (phyBlockNr, block)
  else if logBlockNr < nrDirectBlocks then do
    let ret ← allocateDirect logBlockNr
    return (ret, block)
  else if nrIndirectBlocks ≤ logBlockNr - nrDirectBlocks then do
    -- `testfs_read_block` has returned `-EFBIG` for a block past the last
    let n := logBlockNr - nrDirectBlocks - nrIndirectBlocks
    let ret ← allocateDouble (n / nrIndirectBlocks).toNat (n % nrIndirectBlocks).toNat
    return (ret, block)
  else do
    let ret ← allocateIndirect (logBlockNr - nrDirectBlocks)
    return (ret, block)

/-! ### Writing -/

/-- Allocate block `blockNr + increment` of the file, copy `n` bytes of the buffer to it
and write it. -/
def writeChunk (buf : Buf) (blockNr increment blockIx off n : ℤ) : Prog FileState ℤ := do
  let (ret, block) ← testfsAllocateBlock (toInt32 (blockNr + increment))
  if ret < 0 then return ret
  else do
    -- `BLOCK_SIZE*increment` is an `int`
    require (blockSize * increment < 2 ^ 31)
    let block ← reads fun _ => block.store blockIx buf off n
    onSuper (writeBlock block ret)
    return ret

/-- The size `testfs_write_data` gives a file when the last of several blocks fails. -/
def magicSize : ℤ := 34376597504

/-- The loop of `testfs_write_data` and the last block after it. -/
def writeRest (buf : Buf) (blockNr blockIx leftoverSize increment : ℤ) : Prog FileState ℤ :=
  let off := blockSize * increment - blockIx
  if blockSize < leftoverSize then do
    let ret ← writeChunk buf blockNr increment 0 off blockSize
    if ret < 0 then return ret
    else writeRest buf blockNr blockIx (leftoverSize - blockSize) (increment + 1)
  else do
    let ret ← writeChunk buf blockNr increment 0 off leftoverSize
    if ret < 0 then do
      modify fun s => (s.setDin fun d => { d with iSize := magicSize }).setDirty
      return ret
    else return ret
  termination_by leftoverSize.toNat
  decreasing_by simp only [blockSize] at *; omega

/-- The end of `testfs_write_data`: the file grows to the end of what was written. -/
def writeDone (start size : ℤ) : Prog FileState ℤ := do
  let s ← getState
  if 0 < size then do
    -- `start + (off_t)size` overflows
    require (start + size < 2 ^ 63)
    modify (·.setDin fun d => { d with iSize := max s.ino.din.iSize (start + size) })
  else pure ()
  modify (·.setDirty)
  return toInt32 size

/-- `testfs_write_data`: the number of bytes written or an error. -/
def testfsWriteData (buf : Buf) (start size : ℤ) : Prog FileState ℤ := do
  let blockNr := start.tdiv blockSize
  let blockIx := start.tmod blockSize
  if blockSize < toSize (blockIx + size) then do
    let ret ← writeChunk buf blockNr 0 blockIx 0 (blockSize - blockIx)
    if ret < 0 then return ret
    else do
      let ret ← writeRest buf blockNr blockIx (toInt32 (size - blockSize + blockIx)) 1
      if ret < 0 then return ret else writeDone start size
  else do
    let ret ← writeChunk buf blockNr 0 blockIx 0 size
    if ret < 0 then return ret else writeDone start size

/-! ### Freeing -/

/-- `for (i = 0; i < e_block_nr && i < NR_DIRECT_BLOCKS; i++)`. -/
def freeDirect (eBlockNr : ℤ) : Prog FileState Unit :=
  forRange nrDirectBlocks fun i => do
    let s ← getState
    if i < eBlockNr ∧ s.ino.din.blockNr i ≠ 0 then do
      testfsFreeBlockFromInode (s.ino.din.blockNr i)
      modify (·.setDin fun d => d.setBlockNr i 0)
    else pure ()

/-- The blocks below `eBlockNr` that a table holds. -/
def freeEntries (table : Block) (eBlockNr : ℤ) : Prog FileState Unit :=
  forRange nrIndirectBlocks fun i =>
    if i < eBlockNr then testfsFreeBlockFromInode (table.word i) else pure ()

def freeIndirect (readTable : ℤ → Prog FileState Block) (eBlockNr : ℤ) : Prog FileState Unit := do
  let s ← getState
  if 0 < s.ino.din.iIndirect then do
    let block ← readTable s.ino.din.iIndirect
    freeEntries block eBlockNr
    let s ← getState
    testfsFreeBlockFromInode s.ino.din.iIndirect
    modify (·.setDin fun d => { d with iIndirect := 0 })
  else pure ()

/-- The loop over the double indirect table; `counter` is the number of blocks passed. -/
def freeSecondLevel (readTable : ℤ → Prog FileState Block) (block : Block) (eBlockNr : ℤ) :
    Prog FileState ℤ :=
  forAcc nrIndirectBlocks (fun i counter => do
    if counter < eBlockNr then do
      if block.word i ≤ 0 then return counter + nrIndirectBlocks
      else do
        let directBlock ← readTable (block.word i)
        freeEntries directBlock (eBlockNr - counter)
        testfsFreeBlockFromInode (block.word i)
        return min (counter + nrIndirectBlocks) eBlockNr
    else return counter) 0

def freeDouble (readTable : ℤ → Prog FileState Block) (eBlockNr : ℤ) : Prog FileState Unit := do
  if 0 ≤ eBlockNr then do
    let s ← getState
    let block ← readTable s.ino.din.iDindirect
    let _ ← freeSecondLevel readTable block eBlockNr
    let s ← getState
    testfsFreeBlockFromInode s.ino.din.iDindirect
    modify (·.setDin fun d => { d with iDindirect := 0 })
  else pure ()

/-- `e_block_nr`, one past the last block. -/
def endBlockNr (iSize : ℤ) : ℤ := toInt32 ((iSize + blockSize - 1).tdiv blockSize)

/-- `testfs_free_blocks`, given how it reads a table block. -/
def freeBlocksWith (readTable : ℤ → Prog FileState Block) : Prog FileState Unit := do
  let s ← getState
  let eBlockNr := endBlockNr s.ino.din.iSize
  freeDirect eBlockNr
  -- subtracting from an `int` must not overflow
  require (-2 ^ 31 ≤ eBlockNr - nrDirectBlocks - nrIndirectBlocks)
  freeIndirect readTable (eBlockNr - nrDirectBlocks)
  freeDouble readTable (eBlockNr - nrDirectBlocks - nrIndirectBlocks)
  modify fun s => (s.setDin fun d => { d with iSize := 0 }).setDirty

/-- `testfs_free_blocks`. -/
def testfsFreeBlocks : Prog FileState Unit := freeBlocksWith fun nr => onSuper (readBlock nr)

end OSLab.Fs
