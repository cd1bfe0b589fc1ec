import OSLab.Fs.Cache

/-!
# The chains of the inode hash table (`fs/inode.c`, `hash_int` of `fs/list.h`)

The table has a chain of in-memory inodes for each hash value. `chains l` are the chains that a
list `l` of in-memory inodes stands for: finding, adding and removing an inode in its chain is
what `inodeHashFind`, consing and `inodeHashRemove` do on the list.
-/

namespace OSLab.Fs

variable {l : List Inode} {nr : ℤ} {h : ℕ}

def goldenRatioPrime32 : ℕ := 0x9e370001

/-- `hash_int` on an `unsigned int`. -/
def hashInt (val bits : ℕ) : ℕ := val * goldenRatioPrime32 % 2 ^ 32 / 2 ^ (32 - bits)

/-- `INODE_HASH_SHIFT`. -/
def inodeHashShift : ℕ := 8

def inodeHashSize : ℕ := 2 ^ inodeHashShift

/-- `inode_hashfn`; the number is converted to `unsigned int`. -/
def inodeHashfn (nr : ℤ) : ℕ := hashInt (nr % 2 ^ 32).toNat inodeHashShift

/-- The chain of each hash value, from its head. -/
abbrev HashTable : Type := ℕ → List Inode

namespace HashTable

/-- `inode_hash_find`. -/
def find (table : HashTable) (nr : ℤ) : Option Inode :=
  (table (inodeHashfn nr)).find? fun ino => ino.iNr = nr

/-- `inode_hash_insert`: `hlist_add_head`. -/
def insert (table : HashTable) (ino : Inode) : HashTable :=
  Function.update table (inodeHashfn ino.iNr) (ino :: table (inodeHashfn ino.iNr))

/-- `inode_hash_remove`: `hlist_del`. -/
def remove (table : HashTable) (nr : ℤ) : HashTable :=
  Function.update table (inodeHashfn nr)
    ((table (inodeHashfn nr)).eraseP fun ino => ino.iNr = nr)

end HashTable

/-- The chains of a list of in-memory inodes. -/
def chains (l : List Inode) : HashTable := fun h => l.filter fun ino => inodeHashfn ino.iNr = h

/-- Every chain has an index of the table. -/
theorem inodeHashfn_lt (nr : ℤ) : inodeHashfn nr < inodeHashSize := by
  unfold inodeHashfn hashInt inodeHashShift inodeHashSize
  apply Nat.div_lt_of_lt_mul
  have : (nr % 2 ^ 32).toNat * goldenRatioPrime32 % 2 ^ 32 < 2 ^ 32 := Nat.mod_lt _ (by decide)
  simpa [inodeHashShift] using this

/-- **An inode is found in its chain.** -/
theorem find_chains (l : List Inode) (nr : ℤ) : (chains l).find nr = inodeHashFind l nr := by
  unfold HashTable.find chains inodeHashFind
  rw [List.find?_filter]
  congr 1
  funext ino
  by_cases h : ino.iNr = nr <;> simp [h]

theorem insert_chains (l : List Inode) (ino : Inode) : chains (ino :: l) = (chains l).insert ino := by
  funext h
  unfold HashTable.insert chains
  rw [Function.update_apply, List.filter_cons]
  by_cases hh : h = inodeHashfn ino.iNr
  · simp [hh]
  · simp [hh, Ne.symm hh]

/-- Removing an inode from the list removes it from its chain and leaves the other chains. -/
theorem remove_chains (l : List Inode) (nr : ℤ) :
    chains (inodeHashRemove l nr) = (chains l).remove nr := by
  funext h
  unfold HashTable.remove chains inodeHashRemove
  rw [Function.update_apply]
  induction l with
  | nil => simp
  | cons ino l ih =>
    by_cases hn : ino.iNr = nr
    · by_cases hh : h = inodeHashfn nr
      · simp [hn, hh]
      · simp [hn, hh, Ne.symm hh]
    · by_cases hi : inodeHashfn ino.iNr = h
      · rw [List.eraseP_cons_of_neg (by simpa using hn), List.filter_cons_of_pos (by simpa using hi), ih]
        split
        · rename_i hh
          have hk : inodeHashfn ino.iNr = inodeHashfn nr := hi.trans hh
          rw [List.filter_cons_of_pos (by simpa using hk), List.eraseP_cons_of_neg (by simpa using hn)]
        · rw [List.filter_cons_of_pos (by simpa using hi)]
      · rw [List.eraseP_cons_of_neg (by simpa using hn), List.filter_cons_of_neg (by simpa using hi), ih]
        split
        · rename_i hh
          rw [List.filter_cons_of_neg (by simpa [← hh] using hi)]
        · rw [List.filter_cons_of_neg (by simpa using hi)]

end OSLab.Fs
