import OSLab.Lib.Machine
import Mathlib.Data.UInt
import Mathlib.Logic.Function.Basic

/-!
# Counting words (`warmup/wc.c`)

`wc_init` reads words from an array of characters into an open-addressed hash table with a
third as many slots as there are characters; `wc_output` prints the table.

Characters are bytes. The buffer for a word is the list of the characters written to it since
it was last emptied: what is behind them is never read, as a NUL is written before the word
is used. A search in the table may not end; it takes the number of slots it may look at. A
write past the buffer, a division by zero and an overflow of an `int` leave the behaviour of
the program `undefined`. Memory is always available.
-/

namespace OSLab.Warmup

/-- A C string: the characters before the NUL. -/
abbrev Word := List UInt8

/-- `isspace`. -/
def isspace (c : UInt8) : Bool := c == 32 || (9 ≤ c && c ≤ 13)

/-- `char buff[500]`. -/
def buffSize : ℕ := 500

/-- `struct element`. -/
structure Element where
  word : Word
  count : ℕ
  deriving DecidableEq

/-- `struct wc`, and the global `TABLE_SIZE`. -/
structure Wc where
  hashtable : ℕ → Option Element
  tableSize : ℕ

/-- The string in a buffer that holds `buff` and then a NUL. -/
def cstring (buff : List UInt8) : Word := buff.takeWhile (· ≠ 0)

/-- `hash`: `((hash << 5) + hash) + c` in `unsigned long`, where `c` is a (signed) `char`. -/
def hash (str : Word) : ℤ :=
  str.foldl (fun h c => toSize (h * 2 ^ 5 + h + (c.toNat : ℤ).bmod (2 ^ 8))) 5381

/-- `hash(buff) % table_size`. -/
def firstKey (tableSize : ℕ) (word : Word) : ℕ := (hash word % tableSize).toNat

/-- `(new_key * new_key) % table_size`. -/
def nextKey (tableSize newKey : ℕ) : ℕ := newKey * newKey % tableSize

section Insert

variable (hasht : ℕ → Option Element) (tableSize : ℕ) (word : Word)

/-- `while (hasht[new_key] != NULL)`: the slot of `word`, or a free one. -/
def probe : ℕ → ℕ → Option ℕ
  | 0, _ => none
  | fuel + 1, newKey =>
    match hasht newKey with
    | none => some newKey
    | some ele => if ele.word = word then some newKey else probe fuel (nextKey tableSize newKey)

/-- `hasht[key] = ele`, a new element. -/
def addElement (key : ℕ) : ℕ → Option Element :=
  Function.update hasht key (some ⟨word, 1⟩)

/-- `hasht[key]->count++`. -/
def countElement (key : ℕ) : ℕ → Option Element :=
  Function.update hasht key ((hasht key).map fun ele => { ele with count := ele.count + 1 })

/-- What `wc_init` does with a word. -/
def insertWord (fuel : ℕ) : Option (ℕ → Option Element) :=
  let key := firstKey tableSize word
  match hasht key with
  | none => some (addElement hasht word key)
  | some ele =>
    if ele.word = word then some (countElement hasht key)
    else match probe hasht tableSize word fuel key with
      | none => none
      | some newKey =>
        match hasht newKey with
        | none => some (addElement hasht word newKey)
        | some _ => some (countElement hasht newKey)

end Insert

/-- How `wc_init` ends. -/
inductive Outcome
  | returns (wc : Wc)
  | undefined

/-- The loop over the array. `buff` holds the characters since the last separator. -/
def parse (fuel tableSize : ℕ) :
    List UInt8 → List UInt8 → (ℕ → Option Element) → Option Outcome
  | [], _, hasht => some (.returns ⟨hasht, tableSize⟩)
  | c :: rest, buff, hasht =>
    -- `buff[k] = c`, or `buff[k] = '\0'`
    if buffSize ≤ buff.length then some .undefined
    else if isspace c = false then parse fuel tableSize rest (buff ++ [c]) hasht
    else if cstring buff = [] then parse fuel tableSize rest [] hasht
    else if tableSize = 0 then some .undefined
    else match insertWord hasht tableSize (cstring buff) fuel with
      | none => none
      | some hasht => parse fuel tableSize rest [] hasht

/-- `wc_init`. The loop of `create_hash` counts the slots in an `int`. -/
def wcInit (fuel : ℕ) (wordArray : List UInt8) : Option Outcome :=
  let tableSize := wordArray.length / 3
  if 2 ^ 31 ≤ tableSize then some .undefined
  else parse fuel tableSize wordArray [] fun _ => none

/-- The lines `wc_output` prints, one for each word. -/
def wcOutput (wc : Wc) : List (Word × ℕ) :=
  (List.range wc.tableSize).filterMap fun i =>
    (wc.hashtable i).map fun ele => (ele.word, ele.count)

end OSLab.Warmup
