import OSLab.Lib.Prog
import OSLab.Lib.Codec
import OSLab.Lib.Machine
import Mathlib.Data.Fin.Basic

/-!
# Blocks and the device (`fs/block.c`, `fs/testfs.h`)

A block is its `BLOCK_SIZE` bytes; seen as a table it is 2048 integers. The device is
the file behind the file system. Reading past its end aborts (`EXIT("fread")`), and
writing past its end extends it.

A buffer in memory has a capacity, and a byte for each offset that has been stored to:
copying to an offset past the capacity, or from an offset that holds nothing, aborts.
-/

namespace OSLab.Fs

/-- `BLOCK_SIZE`. -/
def blockSize : ℕ := 8192

/-! Error numbers. -/

def enoent : ℤ := 2
def enomem : ℤ := 12
def eexist : ℤ := 17
def enotdir : ℤ := 20
def eisdir : ℤ := 21
def einval : ℤ := 22
def efbig : ℤ := 27
def enospc : ℤ := 28
def enotempty : ℤ := 39

def Block : Type := Fin blockSize → Byte

namespace Block

def get (b : Block) (i : ℕ) : Byte := if h : i < blockSize then b ⟨i, h⟩ else 0

def ofFn (f : ℕ → Byte) : Block := fun i => f i

def zero : Block := fun _ => 0

/-- `((int *)block)[k]`. -/
@[irreducible] def word (b : Block) (k : ℕ) : ℤ := leInt 4 fun i => b.get (4 * k + i)

/-- `((int *)block)[k] = v`. -/
@[irreducible] def setWord (b : Block) (k : ℕ) (v : ℤ) : Block :=
  ofFn fun i => if i / 4 = k then leByte v (i % 4) else b.get i

end Block

/-- A buffer: `none` is a byte that nothing has been stored to. -/
structure Buf where
  cap : ℕ
  get : ℕ → Option Byte

/-- A buffer that `malloc` or the stack has just provided. -/
def Buf.fresh (cap : ℕ) : Buf := ⟨cap, fun _ => none⟩

/-- A buffer holding `l`. -/
def Buf.ofList (l : List Byte) : Buf := ⟨l.length, fun i => l[i]?⟩

/-- `memcpy(buf + off, block + ix, n)`. -/
def Buf.store (buf : Buf) (off : ℤ) (block : Block) (ix n : ℤ) : Option Buf :=
  if 0 ≤ n ∧ 0 ≤ ix ∧ ix + n ≤ blockSize ∧ 0 ≤ off ∧ off + n ≤ buf.cap then
    some { buf with get := fun i =>
      if off ≤ i ∧ i < off + n then some (block.get (i - off + ix).toNat) else buf.get i }
  else none

/-- `memcpy(block + ix, buf + off, n)`. -/
def Block.store (block : Block) (ix : ℤ) (buf : Buf) (off n : ℤ) : Option Block :=
  if 0 ≤ n ∧ 0 ≤ ix ∧ ix + n ≤ blockSize ∧ 0 ≤ off ∧
      ∀ i < n.toNat, (buf.get (off.toNat + i)).isSome then
    some (Block.ofFn fun i =>
      if ix ≤ i ∧ i < ix + n then (buf.get (i - ix + off).toNat).getD 0 else block.get i)
  else none

/-- The file behind the file system: its blocks, zero where nothing was written, and how
many it has. -/
structure Device where
  data : ℤ → Block
  len : ℤ

namespace Device

/-- `fopen(dev, "w")`. -/
def empty : Device := ⟨fun _ => Block.zero, 0⟩

/-- `read_blocks` of one block. -/
def readBlock (dev : Device) (start : ℤ) : Option Block :=
  if 0 ≤ start ∧ start < dev.len then some (dev.data start) else none

/-- `read_blocks`; the result gives each block by its number. -/
def readBlocks (dev : Device) (start : ℤ) (nr : ℕ) : Option (ℕ → Block) :=
  if 0 ≤ start ∧ start + nr ≤ dev.len then some fun k => dev.data (start + k) else none

/-- `write_blocks`. -/
def writeBlocks (dev : Device) (blocks : ℕ → Block) (start : ℤ) (nr : ℕ) : Option Device :=
  if 0 ≤ start then
    some ⟨fun b => if start ≤ b ∧ b < start + nr then blocks (b - start).toNat else dev.data b,
      max dev.len (start + nr)⟩
  else none

/-- `zero_blocks`. -/
def zeroBlocks (dev : Device) (start : ℤ) (nr : ℕ) : Option Device :=
  dev.writeBlocks (fun _ => Block.zero) start nr

end Device

end OSLab.Fs
