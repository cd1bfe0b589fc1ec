import OSLab.Fs.Dir

/-!
# Commands on files (`fs/file.c`, `fs/common.c`)
-/

namespace OSLab.Fs

open Prog

/-- `isspace`. -/
def isSpace (c : Byte) : Bool := c = 0x20 ∨ 0x09 ≤ c.toNat ∧ c.toNat ≤ 0x0d

/-- `isdigit`. -/
def isDigit (c : Byte) : Bool := 0x30 ≤ c.toNat ∧ c.toNat ≤ 0x39

/-- The value of a string of digits. -/
def digitsValue (l : List Byte) : ℕ := l.foldl (fun n c => 10 * n + (c.toNat - 0x30)) 0

/-- What `strtoll` and `strtoull` parse: the sign (`true` for a minus), the value of the
digits, and what comes after them. Without digits nothing is parsed. -/
def parseInteger (str : List Byte) : Bool × ℕ × List Byte :=
  let body := str.dropWhile isSpace
  let (neg, body) : Bool × List Byte := match body with
    | 0x2b#8 :: l => (false, l)
    | 0x2d#8 :: l => (true, l)
    | l => (false, l)
  if body.takeWhile isDigit = [] then (false, 0, str)
  else (neg, digitsValue (body.takeWhile isDigit), body.dropWhile isDigit)

/-- `str_to_offset`; `none` is `-EINVAL`. Out of range `strtoll` saturates. -/
def strToOffset (str : CString) : Option ℤ :=
  let (neg, n, rest) := parseInteger str.val
  if rest.length ≠ 0 then none
  else some (if neg then max (-(n : ℤ)) (-2 ^ 63) else min n (2 ^ 63 - 1))

/-- `str_to_size`; `none` is `-EINVAL`. A minus negates in the unsigned type. -/
def strToSize (str : CString) : Option ℤ :=
  let (neg, n, rest) := parseInteger str.val
  if rest.length ≠ 0 then none
  else if 2 ^ 64 ≤ n then some (2 ^ 64 - 1)
  else some (toSize (if neg then -n else n))

/-- `testfs_get_file_inode`: the inode number, with a reference to its inode, or an
error. -/
def testfsGetFileInode (name : CString) : Prog Testfs ℤ := do
  let inodeNr ← lookupCur name
  if inodeNr < 0 then return inodeNr
  else do
    testfsGetInode inodeNr
    let ino ← inode inodeNr
    if ino.din.iType = iDir then do
      testfsPutInode inodeNr
      return -eisdir
    else return inodeNr

/-- `PTRDIFF_MAX`: `malloc` fails for more bytes. -/
def ptrdiffMax : ℤ := 2 ^ 63 - 1

/-- The end of `cmd_read`: the buffer is allocated with `size + 1` bytes, a sum in `size_t`,
and printed up to its first `NUL`. -/
def readFile (inodeNr offset size : ℤ) : Prog Testfs Reply := do
  let ino ← inode inodeNr
  -- `offset + (off_t)size` overflows
  require (offset + toInt64 size < 2 ^ 63)
  if ino.din.iSize < offset + toInt64 size then return (-einval, [])
  else if ptrdiffMax < toSize (size + 1) then return (-enomem, [])
  else do
    let (ret, buf) ← reads fun s =>
      testfsReadData s.sb ino (Buf.fresh (toSize (size + 1)).toNat) offset size
    if 0 ≤ ret then do
      -- `buf[size] = 0`
      require (size < (toSize (size + 1)))
      let bytes := ((List.range size.toNat).map fun i => (buf.get i).getD 0).takeWhile (· ≠ 0)
      return (ret, bytes ++ [newline])
    else return (ret, [])

def cmdRead (args : List CString) : Prog Testfs Reply := do
  match args with
  | [filename, offset, size] =>
    match strToOffset offset with
    | none => return (-einval, [])
    | some offset =>
      if offset < 0 then return (-einval, [])
      else match strToSize size with
        | none => return (-einval, [])
        | some size => do
          let inodeNr ← testfsGetFileInode filename
          if inodeNr < 0 then return (inodeNr, [])
          else do
            let reply ← readFile inodeNr offset size
            testfsPutInode inodeNr
            return reply
  | _ => return (-einval, [])

def cmdWrite (args : List CString) : Prog Testfs Reply := do
  match args with
  | [filename, offset, data] =>
    match strToOffset offset with
    | none => return (-einval, [])
    | some offset =>
      if offset < 0 then return (-einval, [])
      else do
        let inodeNr ← testfsGetFileInode filename
        if inodeNr < 0 then return (inodeNr, [])
        else do
          let ret ← onInode inodeNr (testfsWriteData (Buf.ofList data.bytes) offset data.length)
          testfsSyncInode inodeNr
          testfsPutInode inodeNr
          return (ret, [])
  | _ => return (-einval, [])

end OSLab.Fs
