import OSLab.Fs.Cache

/-!
# Directories (`fs/dir.c`)

A directory is a file of entries: the length of the name with its `NUL`, the inode number
(`-1` for a removed entry), and the name. `testfsScan` is the loop over
`testfs_next_dirent` that every function here runs, each with its own body.

What the functions print is part of their result.
-/

namespace OSLab.Fs

open Prog

/-- A string of C: its bytes before the `NUL`. -/
def CString : Type := { l : List Byte // (0 : Byte) ∉ l }
  deriving DecidableEq

namespace CString

/-- `strlen`. -/
def length (c : CString) : ℕ := c.val.length

/-- The string with its `NUL`. -/
def bytes (c : CString) : List Byte := c.val ++ [0]

/-- `"."`. -/
def dot : CString := ⟨[0x2e], by decide⟩

/-- `".."`. -/
def dotdot : CString := ⟨[0x2e, 0x2e], by decide⟩

end CString

/-- `strcmp(p, c) == 0`, where `p` points to offset `off` of a buffer. It stops at the first
difference; a byte that nothing was stored to aborts. -/
def strcmpEq (buf : Buf) (off : ℕ) : List Byte → Option Bool
  | [] => (buf.get off).map fun b => b = 0
  | c :: cs => match buf.get off with
    | none => none
    | some b => if b = c then strcmpEq buf (off + 1) cs else some false

/-- `sizeof(struct dirent)`. -/
def direntSize : ℕ := 8

/-- `struct dirent`, with the buffer its name is in. -/
structure Dirent where
  dNameLen : ℤ
  dInodeNr : ℤ
  dName : Buf

/-- `strcmp(D_NAME(d), name) == 0`. -/
def Dirent.named (d : Dirent) (name : CString) : Option Bool := strcmpEq d.dName 0 name.val

/-- `strcmp(D_NAME(d), ".") != 0 && strcmp(D_NAME(d), "..") != 0`. -/
def Dirent.isProper (d : Dirent) : Option Bool :=
  match d.named CString.dot with
  | none => none
  | some true => some false
  | some false => (d.named CString.dotdot).map (!·)

/-- The bytes of the two integers of an entry. -/
def direntHeader (nameLen inodeNr : ℤ) (i : ℕ) : Byte :=
  if i < 4 then leByte nameLen i else leByte inodeNr (i - 4)

/-- The two integers in the buffer `testfs_next_dirent` has read them into. -/
def readHeader (buf : Buf) : Option (ℤ × ℤ) :=
  if ∀ i < direntSize, (buf.get i).isSome then
    some (leInt 4 fun i => (buf.get i).getD 0, leInt 4 fun i => (buf.get (4 + i)).getD 0)
  else none

/-- `testfs_next_dirent`: the entry at `offset` and the offset after it; `some none` is the
`NULL` it returns at the end or when the data cannot be read. -/
def testfsNextDirent (sb : SuperBlock) (dir : Inode) (offset : ℤ) :
    Option (Option (Dirent × ℤ)) :=
  if dir.din.iType ≠ iDir then none
  else if dir.din.iSize ≤ offset then some none
  else match testfsReadData sb dir (Buf.fresh direntSize) offset direntSize with
    | none => none
    | some (ret, buf) =>
      if ret < 0 then some none
      else match readHeader buf with
        | none => none
        | some (nameLen, inodeNr) =>
          if nameLen ≤ 0 then none
          else match testfsReadData sb dir (Buf.fresh nameLen.toNat) (offset + direntSize) nameLen with
            | none => none
            | some (ret, name) =>
              if ret < 0 then some none
              else some (some (⟨nameLen, inodeNr, name⟩, offset + direntSize + nameLen))

/-- The next offset is further on, and there is a next entry only below the size. -/
theorem testfsNextDirent_lt {sb : SuperBlock} {dir : Inode} {offset offset' : ℤ} {d : Dirent}
    (h : testfsNextDirent sb dir offset = some (some (d, offset'))) :
    offset < offset' ∧ offset < dir.din.iSize := by
  unfold testfsNextDirent at h
  repeat' split at h
  all_goals simp only [reduceCtorEq, Option.some.injEq, Prod.mk.injEq] at h
  obtain ⟨-, rfl⟩ := h
  simp only [direntSize]
  omega

/-- The loop over the entries from `offset` on: `visit` looks at each entry and its offset
and stops the loop with a result, or goes on. The loop ends with the result, or with the
offset at which there was no entry. -/
def testfsScan {β : Type} (sb : SuperBlock) (dir : Inode)
    (visit : ℤ → Dirent → Option (Option β)) (offset : ℤ) : Option (β ⊕ ℤ) :=
  match _h : testfsNextDirent sb dir offset with
  | none => none
  | some none => some (.inr offset)
  | some (some (d, offset')) =>
    match visit offset d with
    | none => none
    | some (some b) => some (.inl b)
    | some none => testfsScan sb dir visit offset'
  termination_by (dir.din.iSize - offset).toNat
  decreasing_by have := testfsNextDirent_lt _h; omega

/-- `testfs_find_dirent`: the entry of an inode number. -/
def testfsFindDirent (sb : SuperBlock) (dir : Inode) (inodeNr : ℤ) : Option (Option Dirent) :=
  if inodeNr < 0 then none
  else
    (testfsScan sb dir (fun _ d => some (if d.dInodeNr = inodeNr then some d else none)) 0).map
      Sum.getLeft?

/-- `testfs_dir_name_to_inode_nr`. -/
def testfsDirNameToInodeNr (sb : SuperBlock) (dir : Inode) (name : CString) : Option ℤ :=
  let visit (_ : ℤ) (d : Dirent) : Option (Option ℤ) :=
    if d.dInodeNr < 0 then some none
    else (d.named name).map fun eq => if eq then some d.dInodeNr else none
  if dir.din.iType ≠ iDir then none
  else (testfsScan sb dir visit 0).map fun r => r.getLeft?.getD (-enoent)

/-- The buffer `testfs_write_dirent` fills in. -/
def direntBuf (name : CString) (len inodeNr : ℤ) : Buf :=
  ⟨direntSize + name.length + 1, fun i =>
    if i < direntSize then some (direntHeader len inodeNr i) else name.bytes[i - direntSize]?⟩

/-- `testfs_write_dirent`. The length is an `int`: when it is not the length of the name,
the allocation fails, or `strcpy` writes past it. -/
def testfsWriteDirent (name : CString) (len inodeNr offset : ℤ) : Prog FileState ℤ := do
  if direntSize + len < 0 then return -enomem
  else do
    require (len = name.length + 1)
    require (0 ≤ inodeNr)
    testfsWriteData (direntBuf name len inodeNr) offset (direntSize + len)

/-- What the loop of `testfs_add_dirent` does with an entry: it finds the name, or an entry
to use again, with its offset. -/
def addVisit (name : CString) (len : ℤ) (offset : ℤ) (d : Dirent) :
    Option (Option (Except ℤ ℤ)) :=
  let reuse : Option (Except ℤ ℤ) :=
    if 0 ≤ d.dInodeNr ∨ d.dNameLen ≠ len then none else some (.ok offset)
  if 0 ≤ d.dInodeNr then
    (d.named name).map fun eq => if eq then some (.error (-eexist)) else reuse
  else some reuse

/-- `testfs_add_dirent`. -/
def testfsAddDirent (name : CString) (inodeNr : ℤ) : Prog FileState ℤ := do
  let len := toInt32 (name.length + 1)
  let s ← getState
  require (s.ino.din.iType = iDir)
  match ← reads fun s => testfsScan s.sb s.ino (addVisit name len) 0 with
  | .inl (.error e) => return e
  | .inl (.ok pOffset) => testfsWriteDirent name len inodeNr (toInt32 pOffset)
  | .inr pOffset => do
    require (pOffset = s.ino.din.iSize)
    testfsWriteDirent name len inodeNr (toInt32 pOffset)

/-- What the loop of `testfs_remove_dirent_allowed` does with an entry. -/
def allowedVisit (_ : ℤ) (d : Dirent) : Option (Option ℤ) :=
  if d.dInodeNr < 0 then some none
  else d.isProper.map fun proper => if proper then some (-enotempty) else none

/-- `testfs_remove_dirent_allowed`. -/
def testfsRemoveDirentAllowed (inodeNr : ℤ) : Prog Testfs ℤ := do
  testfsGetInode inodeNr
  let dir ← inode inodeNr
  let ret ← reads fun s =>
    if dir.din.iType ≠ iDir then some 0
    else (testfsScan s.sb dir allowedVisit 0).map fun r => r.getLeft?.getD 0
  testfsPutInode inodeNr
  return ret

/-- What the loop of `testfs_remove_dirent` does with an entry. -/
def removeVisit (name : CString) (offset : ℤ) (d : Dirent) : Option (Option (ℤ × Dirent)) :=
  if d.dInodeNr < 0 then some none
  else (d.named name).map fun eq => if eq then some (offset, d) else none

/-- The bytes of an entry that was read, with its inode number removed. -/
def removedBuf (d : Dirent) : Buf :=
  ⟨direntSize + d.dNameLen.toNat, fun i =>
    if i < direntSize then some (direntHeader d.dNameLen (-1) i) else d.dName.get (i - direntSize)⟩

/-- `testfs_remove_dirent`: the inode number of the removed entry, or an error. -/
def testfsRemoveDirent (dir : ℤ) (name : CString) : Prog Testfs ℤ := do
  if name = CString.dot ∨ name = CString.dotdot then return -einval
  else do
    let ino ← inode dir
    match ← reads fun s => testfsScan s.sb ino (removeVisit name) 0 with
    | .inr _ => return -enoent
    | .inl (pOffset, d) => do
      let ret ← testfsRemoveDirentAllowed d.dInodeNr
      if ret < 0 then return ret
      else do
        let ret ← onInode dir
          (testfsWriteData (removedBuf d) pOffset (direntSize + d.dNameLen))
        if 0 ≤ ret then return d.dInodeNr else return ret

/-- `testfs_create_empty_dir`. -/
def testfsCreateEmptyDir (pInodeNr cdir : ℤ) : Prog Testfs ℤ := do
  let ret ← onInode cdir (testfsAddDirent CString.dot cdir)
  if ret < 0 then return ret
  else do
    let ret ← onInode cdir (testfsAddDirent CString.dotdot pInodeNr)
    if ret < 0 then do
      let _ ← testfsRemoveDirent cdir CString.dot
      return ret
    else return 0

/-- The end of `testfs_create_file_or_dir`, `out:`. -/
def createUndo (inodeNr : ℕ) (ret : ℤ) : Prog Testfs ℤ := do
  testfsRemoveInode inodeNr
  return ret

/-- `testfs_create_file_or_dir` once the inode exists: the entry in the parent. -/
def createEntry (dir : Option (ℤ × CString)) (inodeNr : ℕ) : Prog Testfs ℤ := do
  match dir with
  | none => do
    testfsSyncInode inodeNr
    testfsPutInode inodeNr
    return 0
  | some (dir, name) => do
    let ret ← onInode dir (testfsAddDirent name inodeNr)
    if ret < 0 then createUndo inodeNr ret
    else do
      testfsSyncInode dir
      testfsSyncInode inodeNr
      testfsPutInode inodeNr
      return 0

/-- `testfs_create_file_or_dir` once the name is known to be new. -/
def createInode (dir : Option (ℤ × CString)) (type : ℤ) : Prog Testfs ℤ := do
  match ← testfsCreateInode type with
  | .error e => return e
  | .ok inodeNr =>
    if type = iDir then do
      let ret ← testfsCreateEmptyDir (dir.elim (inodeNr : ℤ) (·.1)) inodeNr
      if ret < 0 then createUndo inodeNr ret else createEntry dir inodeNr
    else createEntry dir inodeNr

/-- `testfs_create_file_or_dir`; the root directory has no parent and no name. -/
def testfsCreateFileOrDir (dir : Option (ℤ × CString)) (type : ℤ) : Prog Testfs ℤ := do
  match dir with
  | none => createInode none type
  | some (d, name) => do
    let ino ← inode d
    let inodeNr ← reads fun s => testfsDirNameToInodeNr s.sb ino name
    if 0 ≤ inodeNr then return -eexist else createInode (some (d, name)) type

def testfsMakeRootDir : Prog Testfs ℤ := testfsCreateFileOrDir none iDir

/-! ### Commands

`fuel` bounds the depth of a recursion; without enough of it there is no result. -/

/-- A name as `printf("%s")` prints it. -/
def printName (d : Dirent) : List Byte :=
  (((List.range d.dName.cap).map fun i => (d.dName.get i).getD 0).takeWhile (· ≠ 0))

def slash : Byte := 0x2f
def newline : Byte := 0x0a

/-- `testfs_pwd`: what it returns and what it prints. -/
def testfsPwd : ℕ → ℤ → Prog Testfs (ℤ × List Byte)
  | 0, _ => abort
  | fuel + 1, inodeNr => do
    let ino ← inode inodeNr
    let pInodeNr ← reads fun s => testfsDirNameToInodeNr s.sb ino CString.dotdot
    require (0 ≤ pInodeNr)
    if pInodeNr = inodeNr then return (1, [slash])
    else do
      testfsGetInode pInodeNr
      let pIn ← inode pInodeNr
      match ← reads fun s => testfsFindDirent s.sb pIn inodeNr with
      | none => abort
      | some d => do
        let (ret, out) ← testfsPwd fuel pInodeNr
        testfsPutInode pInodeNr
        return (0, out ++ (if ret = 1 then [] else [slash]) ++ printName d)

/-- The loop of `testfs_ls` from an offset on: what it prints. `fuel` bounds the entries and
the depth of the recursion together. -/
def testfsLs : ℕ → ℤ → Bool → ℤ → Prog Testfs (List Byte)
  | 0, _, _, _ => abort
  | fuel + 1, inodeNr, recursive, offset => do
    let ino ← inode inodeNr
    match ← reads fun s => testfsNextDirent s.sb ino offset with
    | none => return []
    | some (d, offset') =>
      if d.dInodeNr < 0 then testfsLs fuel inodeNr recursive offset'
      else do
        testfsGetInode d.dInodeNr
        let cin ← inode d.dInodeNr
        let line := printName d ++ (if cin.din.iType = iDir then [slash] else []) ++ [newline]
        let descend ← reads fun _ =>
          if recursive ∧ cin.din.iType = iDir then d.isProper else some false
        let below ← (if descend then testfsLs fuel d.dInodeNr recursive 0 else pure [])
        testfsPutInode d.dInodeNr
        let rest ← testfsLs fuel inodeNr recursive offset'
        return line ++ below ++ rest

/-- A number as `printf("%d")` prints it. -/
def printInt (n : ℤ) : List Byte :=
  (toString n).toList.map fun c => BitVec.ofNat 8 c.toNat

def printString (s : String) : List Byte := s.toList.map fun c => BitVec.ofNat 8 c.toNat

/-- What a command returns and what it prints. -/
abbrev Reply : Type := ℤ × List Byte

/-- The inode number of a name in the current directory, or an error. -/
def lookupCur (name : CString) : Prog Testfs ℤ := do
  let s ← getState
  let dir ← inode s.curDir
  reads fun s => testfsDirNameToInodeNr s.sb dir name

def cmdLsInternal (fuel : ℕ) (args : List CString) (recursive : Bool) : Prog Testfs Reply := do
  match args with
  | [cdir] => do
    let inodeNr ← lookupCur cdir
    if inodeNr < 0 then return (inodeNr, [])
    else do
      testfsGetInode inodeNr
      let ino ← inode inodeNr
      if ino.din.iType = iDir then do
        let out ← testfsLs fuel inodeNr recursive 0
        testfsPutInode inodeNr
        return (0, out)
      else
        -- returns without `testfs_put_inode`
        return (-enotdir, [])
  | _ => return (-einval, [])

def cmdCd (args : List CString) : Prog Testfs Reply := do
  match args with
  | [name] => do
    let inodeNr ← lookupCur name
    if inodeNr < 0 then return (inodeNr, [])
    else do
      testfsGetInode inodeNr
      let dirInode ← inode inodeNr
      if dirInode.din.iType ≠ iDir then do
        testfsPutInode inodeNr
        return (-enotdir, [])
      else do
        let s ← getState
        testfsPutInode s.curDir
        modify fun s => { s with curDir := inodeNr }
        return (0, [])
  | _ => return (-einval, [])

def cmdPwd (fuel : ℕ) (args : List CString) : Prog Testfs Reply := do
  match args with
  | [] => do
    let s ← getState
    let (_, out) ← testfsPwd fuel s.curDir
    return (0, out ++ [newline])
  | _ => return (-einval, [])

def cmdLs (fuel : ℕ) (args : List CString) : Prog Testfs Reply := cmdLsInternal fuel args false

def cmdLsr (fuel : ℕ) (args : List CString) : Prog Testfs Reply := cmdLsInternal fuel args true

/-- `cmd_create` and `cmd_mkdir`. -/
def cmdCreateType (type : ℤ) (args : List CString) : Prog Testfs Reply := do
  match args with
  | [name] => do
    let s ← getState
    let ret ← testfsCreateFileOrDir (some (s.curDir, name)) type
    return (ret, [])
  | _ => return (-einval, [])

def cmdCreate (args : List CString) : Prog Testfs Reply := cmdCreateType iFile args

def cmdMkdir (args : List CString) : Prog Testfs Reply := cmdCreateType iDir args

def cmdRm (args : List CString) : Prog Testfs Reply := do
  match args with
  | [name] => do
    let s ← getState
    let inodeNr ← testfsRemoveDirent s.curDir name
    if inodeNr < 0 then return (inodeNr, [])
    else do
      testfsGetInode inodeNr
      testfsRemoveInode inodeNr
      testfsSyncInode s.curDir
      return (0, [])
  | _ => return (-einval, [])

def cmdStat (args : List CString) : Prog Testfs Reply := do
  match args with
  | [name] => do
    let inodeNr ← lookupCur name
    if inodeNr < 0 then return (inodeNr, [])
    else do
      testfsGetInode inodeNr
      let ino ← inode inodeNr
      let out := name.val ++ printString ": i_nr = " ++ printInt ino.iNr ++
        printString ", i_type = " ++ printInt ino.din.iType ++
        printString ", i_size = " ++ printInt (ino.din.iSize % 2 ^ 64) ++
        printString ", block_count = " ++ printInt ino.din.blockCount ++ [newline]
      testfsPutInode inodeNr
      return (0, out)
  | _ => return (-einval, [])

end OSLab.Fs
