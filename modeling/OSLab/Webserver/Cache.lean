import OSLab.Lib.Prog
import OSLab.Lib.Machine
import Mathlib.Data.Option.Basic
import Mathlib.Logic.Function.Basic

/-!
# The file cache (`webserver/server_thread.c`)

The cache is an open-addressed table of pointers to elements, a doubly linked list of the
same elements in order of use, and a byte counter. Elements and file data are heap
objects with addresses; dereferencing `NULL`, an object that has been freed, or a table
index outside the table aborts.

`cache_lookup` computes its probe sequence in `int`, `cache_insert` and `cache_evict` in
`unsigned long`. The loops may not end; they take the number of iterations they may use,
and a step of the cache is one that ends with some such number.
-/

namespace OSLab.Webserver

open Prog

/-- A file name: the bytes before the terminating NUL. -/
abbrev Name := List UInt8

/-- `struct file_data`. -/
structure FileData where
  fileName : Name
  fileBuf : List UInt8
  fileSize : ℤ

/-- `struct element`. -/
structure Element where
  file : ℕ
  next : Option ℕ
  pre : Option ℕ

/-- `struct wc` and the objects it points to. -/
structure Wc where
  hashtable : ℤ → Option ℕ
  cacheSize : ℤ
  remainingCacheSize : ℤ
  tableSize : ℤ
  lruElement : Option ℕ
  lruTail : Option ℕ
  elements : ℕ → Option Element
  files : ℕ → Option FileData

/-- `hash`: `((hash << 5) + hash) + c` in `unsigned long`, where `c` is a (signed) `char`. -/
def hash (str : Name) : ℤ :=
  str.foldl (fun h c => toSize (h * 2 ^ 5 + h + (c.toNat : ℤ).bmod (2 ^ 8))) 5381

namespace Wc

def setSlot (s : Wc) (key : ℤ) (e : Option ℕ) : Wc :=
  { s with hashtable := Function.update s.hashtable key e }

def setElement (s : Wc) (e : ℕ) (o : Option Element) : Wc :=
  { s with elements := Function.update s.elements e o }

def setFile (s : Wc) (f : ℕ) (o : Option FileData) : Wc :=
  { s with files := Function.update s.files f o }

def setRemaining (s : Wc) (n : ℤ) : Wc := { s with remainingCacheSize := n }

def setLruElement (s : Wc) (p : Option ℕ) : Wc := { s with lruElement := p }

def setLruTail (s : Wc) (p : Option ℕ) : Wc := { s with lruTail := p }

/-- `e->next`. -/
def next (s : Wc) (e : ℕ) : Option ℕ := (s.elements e).bind (·.next)

/-- `e->pre`. -/
def pre (s : Wc) (e : ℕ) : Option ℕ := (s.elements e).bind (·.pre)

/-- `*e->file`. -/
def fileOf (s : Wc) (e : ℕ) : Option FileData := (s.elements e).bind fun el => s.files el.file

/-- `hash(name) % table_size`. -/
def firstKey (s : Wc) (name : Name) : ℤ := hash name % s.tableSize

/-- `(key * key) % table_size` in `int`, as `cache_lookup` computes it. -/
def intSquare (s : Wc) (key : ℤ) : ℤ := (toInt32 (key * key)).tmod s.tableSize

/-- `(key * key) % table_size` in `unsigned long`. -/
def longSquare (s : Wc) (key : ℤ) : ℤ := toSize (key * key) % s.tableSize

/-- The access `hashtable[key]` is inside the table. -/
def InTable (s : Wc) (key : ℤ) : Prop := 0 ≤ key ∧ key < s.tableSize

instance (s : Wc) (key : ℤ) : Decidable (s.InTable key) := inferInstanceAs (Decidable (_ ∧ _))

/-- The loop of `cache_lookup` from `key` on, for at most `fuel` slots. -/
def findEntry (s : Wc) (name : Name) : ℕ → ℤ → Option (Option ℕ)
  | 0, _ => none
  | fuel + 1, key =>
    if ¬s.InTable key then none
    else match s.hashtable key with
      | none => some none
      | some e => match s.fileOf e with
        | none => none
        | some fd =>
          if fd.fileName = name then some (some e) else findEntry s name fuel (s.intSquare key)

/-- The search of `cache_insert` for a free slot. -/
def findFree (s : Wc) : ℕ → ℤ → Option ℤ
  | 0, _ => none
  | fuel + 1, key =>
    if ¬s.InTable key then none
    else match s.hashtable key with
      | none => some key
      | some _ => findFree s fuel (s.longSquare key)

/-- The search of `cache_evict` for the slot of an element. -/
def findSlot (s : Wc) (temp : ℕ) : ℕ → ℤ → Option ℤ
  | 0, _ => none
  | fuel + 1, key =>
    if ¬s.InTable key then none
    else if s.hashtable key = some temp then some key
    else findSlot s temp fuel (s.longSquare key)

end Wc

/-- `e->next = p`. -/
def storeNext (e : ℕ) (p : Option ℕ) : Prog Wc Unit := do
  let s ← getState
  let el ← load (s.elements e)
  modify (·.setElement e (some { el with next := p }))

/-- `e->pre = p`. -/
def storePre (e : ℕ) (p : Option ℕ) : Prog Wc Unit := do
  let s ← getState
  let el ← load (s.elements e)
  modify (·.setElement e (some { el with pre := p }))

/-! ### The list in order of use -/

/-- `LRU_tail->next = e; e->pre = LRU_tail; LRU_tail = LRU_tail->next`. -/
def lruAppend (e : ℕ) : Prog Wc Unit := do
  let s ← getState
  let t ← load s.lruTail
  storeNext t (some e)
  storePre e (some t)
  modify fun s => s.setLruTail (s.next t)

/-- Taking `e` out of the list, seen from the front: at the head (found by file name) the list
starts with its successor, else its predecessor skips it. -/
def lruUnlinkFront (e : ℕ) : Prog Wc Unit := do
  let s ← getState
  let h ← load s.lruElement
  let hd ← load (s.fileOf h)
  let fd ← load (s.fileOf e)
  if hd.fileName = fd.fileName then do
    let n ← load (s.next h)
    modify (·.setLruElement (some n))
    storePre n none
  else do
    let p ← load (s.pre e)
    storeNext p (s.next e)

/-- Taking `e` out of the list, seen from the back. -/
def lruUnlinkBack (e : ℕ) : Prog Wc Unit := do
  let s ← getState
  let t ← load s.lruTail
  let td ← load (s.fileOf t)
  let fd ← load (s.fileOf e)
  if td.fileName = fd.fileName then do
    let p ← load (s.pre t)
    modify (·.setLruTail (some p))
    storeNext p none
  else do
    let n ← load (s.next e)
    storePre n (s.pre e)

/-- `upgrade_LRU_2`. -/
def upgradeLru2 (e : ℕ) (inserting : Bool) : Prog Wc Unit := do
  let s ← getState
  match s.lruElement with
  | none => do
    modify (·.setLruElement (some e))
    storeNext e none
    storePre e none
    modify (·.setLruTail (some e))
  | some h => do
    let head ← load (s.elements h)
    let el ← load (s.elements e)
    match head.next with
    | none => if head.file ≠ el.file then lruAppend e else return ()
    | some _ =>
      if inserting then lruAppend e
      else do
        lruUnlinkFront e
        lruUnlinkBack e
        lruAppend e
        storeNext e none

/-! ### Lookup, eviction and insertion -/

/-- `cache_lookup`. -/
def cacheLookup (fuel : ℕ) (name : Name) (lruFlag : Bool) : Prog Wc (Option ℕ) := do
  let found ← reads fun s => s.findEntry name fuel (s.firstKey name)
  match found with
  | none => return none
  | some e =>
    if lruFlag then do
      upgradeLru2 e false
      return some e
    else return some e

/-- One turn of the loop of `cache_evict`, for the element `temp` at the head of the list. -/
def evictOne (fuel temp : ℕ) : Prog Wc Unit := do
  let s ← getState
  let el ← load (s.elements temp)
  modify (·.setLruElement el.next)
  let n ← load el.next
  storePre n none
  let fd ← load (s.files el.file)
  modify fun s => s.setRemaining (toInt32 (s.remainingCacheSize + fd.fileSize))
  let key ← reads fun s => s.findSlot temp fuel (s.firstKey fd.fileName)
  modify fun s => ((s.setFile el.file none).setElement temp none).setSlot key none

/-- `cache_evict`; it returns the elements it frees. -/
def cacheEvict : ℕ → ℤ → Prog Wc (List ℕ)
  | 0, _ => abort
  | fuel + 1, amount => do
    let s ← getState
    if s.remainingCacheSize > amount then
      match s.lruElement with
      | none => cacheEvict fuel amount
      | some temp => do
        evictOne fuel temp
        let evicted ← cacheEvict fuel amount
        return temp :: evicted
    else return []

/-- `if (file_size >= remaining_cache_size) cache_evict(file_size)`. -/
def makeRoom (fuel : ℕ) (size : ℤ) : Prog Wc (List ℕ) := do
  let s ← getState
  if size ≥ s.remainingCacheSize then cacheEvict fuel size else return []

/-- `cache_insert` of the file data at `file`; `element` is what `malloc` returns. It returns
the new element, and the elements that were evicted. The branch for a free first slot and
the probing loop are one search. -/
def cacheInsert (fuel file element : ℕ) : Prog Wc (Option ℕ × List ℕ) := do
  let s ← getState
  let fd ← load (s.files file)
  if 2 * fd.fileSize > s.cacheSize then return (none, [])
  else do
    let evicted ← makeRoom fuel fd.fileSize
    let s ← getState
    require (s.elements element = none)
    modify (·.setElement element (some ⟨file, none, none⟩))
    let key ← reads fun s => s.findFree fuel (s.firstKey fd.fileName)
    modify fun s => (s.setSlot key (some element)).setRemaining
      (toInt32 (s.remainingCacheSize - fd.fileSize))
    upgradeLru2 element true
    return (some element, evicted)

/-! ### What `do_server_request` does with the cache -/

/-- A section of `do_server_request` under `table_lock`. -/
inductive CacheOp
  /-- The first: `cache_lookup(data, 1)`. -/
  | lookup (name : Name)
  /-- The second, after the file was read: `cache_lookup(data, 0)`, and if that returns `NULL`
  `cache_insert(data)`. `file` is the address of `data`. -/
  | insert (file : ℕ) (data : FileData) (element : ℕ)

/-- The code of a section, with the number of iterations its loops may use. -/
def CacheOp.run (fuel : ℕ) : CacheOp → Prog Wc (Option ℕ × List ℕ)
  | .lookup name => do
    let found ← cacheLookup fuel name true
    return (found, [])
  | .insert file data element => do
    let s ← getState
    require (s.files file = none)
    modify (·.setFile file (some data))
    let check ← cacheLookup fuel data.fileName false
    match check with
    | none => cacheInsert fuel file element
    | some _ => return (none, [])

/-- A step of the cache: a section whose loops end. It yields what the section returned and
the elements it evicted. -/
def cacheStep (s : Wc) (op : CacheOp) (r : Option ℕ × List ℕ) (t : Wc) : Prop :=
  ∃ fuel, op.run fuel s = some (r, t)

/-- After `server_init(_, _, max_cache_size)`, if the table could be allocated. -/
def cacheInit (maxCacheSize : ℤ) : Wc where
  hashtable _ := none
  cacheSize := maxCacheSize
  remainingCacheSize := maxCacheSize
  tableSize := toInt32 (maxCacheSize * 11)
  lruElement := none
  lruTail := none
  elements _ := none
  files _ := none

end OSLab.Webserver
