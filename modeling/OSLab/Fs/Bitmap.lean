import OSLab.Fs.Block
import OSLab.Lib.Machine

/-!
# Bitmaps (`fs/bitmap.c`)

A bitmap is `nbits` bits in an array of bytes. The functions that change it are programs
over it. Numbers of bits and words are `u_int32_t`, the number of bits in use is an `int`.
-/

namespace OSLab.Fs

open Prog

/-- `BITS_PER_WORD`. -/
def bitsPerWord : ℕ := 8

/-- `DIVROUNDUP(nbits, BITS_PER_WORD)`. -/
def wordsFor (nbits : ℕ) : ℕ := (nbits + bitsPerWord - 1) % 2 ^ 32 / bitsPerWord

structure Bitmap where
  nbits : ℕ
  v : ℕ → Byte

namespace Bitmap

def words (b : Bitmap) : ℕ := wordsFor b.nbits

def setWord (b : Bitmap) (ix : ℕ) (w : Byte) : Bitmap := { b with v := Function.update b.v ix w }

/-- The `nr`-th block of `bitmap_getdata`. -/
def block (b : Bitmap) (nr : ℕ) : Block := Block.ofFn fun i => b.v (nr * blockSize + i)

/-- `bitmap_getdata`, overwritten with the blocks read from the device. -/
def load (b : Bitmap) (blocks : ℕ → Block) (nr : ℕ) : Bitmap :=
  { b with v := fun i =>
      if i < nr * blockSize then (blocks (i / blockSize)).get (i % blockSize) else b.v i }

end Bitmap

/-- `(WORD_TYPE)1 << offset`. -/
def wordMask (offset : ℕ) : Byte := 1#8 <<< offset

/-- `bitmap_create`: the bits past the last are marked in use. -/
def bitmapCreate (nbits : ℕ) : Option Bitmap :=
  let words := wordsFor nbits
  let b : Bitmap := ⟨nbits, fun _ => 0⟩
  if nbits / bitsPerWord < words then
    let ix := words - 1
    let overbits := nbits - ix * bitsPerWord
    if nbits / bitsPerWord = words - 1 ∧ 0 < overbits ∧ overbits < bitsPerWord then
      some ((List.range' overbits (bitsPerWord - overbits)).foldl
        (fun b j => b.setWord ix (b.v ix ||| wordMask j)) b)
    else none
  else some b

/-- `bitmap_alloc`: the number of a bit that was clear, or an error. -/
def bitmapAlloc : Prog Bitmap (Except ℤ ℕ) := do
  let b ← getState
  match (List.range b.words).find? fun ix => b.v ix ≠ BitVec.allOnes 8 with
  | none => return .error (-enospc)
  | some ix =>
    match (List.range bitsPerWord).find? fun offset => b.v ix &&& wordMask offset = 0 with
    | none => abort
    | some offset => do
      modify (·.setWord ix (b.v ix ||| wordMask offset))
      require (ix * bitsPerWord + offset < b.nbits)
      return .ok (ix * bitsPerWord + offset)

/-- `bitmap_isset`. -/
def bitmapIsset (b : Bitmap) (index : ℕ) : Bool :=
  b.v (index / bitsPerWord) &&& wordMask (index % bitsPerWord) ≠ 0

/-- `bitmap_mark`. -/
def bitmapMark (index : ℕ) : Prog Bitmap Unit := do
  let b ← getState
  require (index < b.nbits)
  require (bitmapIsset b index = false)
  let ix := index / bitsPerWord
  modify (·.setWord ix (b.v ix ||| wordMask (index % bitsPerWord)))

/-- `bitmap_unmark`. -/
def bitmapUnmark (index : ℕ) : Prog Bitmap Unit := do
  let b ← getState
  require (index < b.nbits)
  require (bitmapIsset b index = true)
  let ix := index / bitsPerWord
  modify (·.setWord ix (b.v ix &&& ~~~wordMask (index % bitsPerWord)))

/-- `bitmap_nr_allocated`. -/
def bitmapNrAllocated (b : Bitmap) : ℤ :=
  (List.range b.nbits).foldl (fun nr i => if bitmapIsset b i then toInt32 (nr + 1) else nr) 0

end OSLab.Fs
