import OSLab.Fs.ReadWrite
import OSLab.Fs.Proof.Super
import OSLab.Fs.Proof.Block
import OSLab.Lib.Ownership

/-!
# The block tree of a file

A file holds blocks in its slots: the direct pointers, the two table pointers of the
inode, and the entries of the tables. `ptr` gives the block in each slot, `slotOf` the
slot of a logical block, and `path` the slots from the inode to it.

`Holds F own s` says that the places of `own` hold exactly the live blocks that are not in
`F`, the blocks of everybody else. `FileOK F s` says it of the slots of the file.
`readBlock_ok` is what `testfs_read_block` finds.
-/

namespace OSLab.Fs

open Prog

/-- A place of the block tree. -/
inductive Slot
  | direct (k : ℕ)
  | indirect
  | ind (k : ℕ)
  | dindirect
  | dind (i : ℕ)
  | dent (i j : ℕ)
  deriving DecidableEq

/-- Entry `k` of the table in block `t`. -/
def entry (data : ℤ → Block) (t : ℤ) (k : ℕ) : ℤ :=
  if t ≠ 0 ∧ k < nrIndirectBlocks then (data t).word k else 0

/-- The block number in each slot. -/
def ptr (d : DInode) (data : ℤ → Block) : Slot → ℤ
  | .direct k => d.blockNr k
  | .indirect => d.iIndirect
  | .ind k => entry data d.iIndirect k
  | .dindirect => d.iDindirect
  | .dind i => entry data d.iDindirect i
  | .dent i j => entry data (entry data d.iDindirect i) j

/-- The first block of the indirect part and of the double indirect part. -/
def indStart : ℕ := nrDirectBlocks
def dindStart : ℕ := nrDirectBlocks + nrIndirectBlocks

/-- The number of blocks of the largest file. -/
def maxFileBlocks : ℕ := dindStart + nrIndirectBlocks * nrIndirectBlocks

/-- The second-level table of a block of the double indirect part, and its entry there. -/
def dindOf (l : ℕ) : ℕ := (l - dindStart) / nrIndirectBlocks
def dentOf (l : ℕ) : ℕ := (l - dindStart) % nrIndirectBlocks

/-- The slot of a logical block. -/
def slotOf (l : ℕ) : Slot :=
  if l < indStart then .direct l
  else if l < dindStart then .ind (l - indStart)
  else .dent (dindOf l) (dentOf l)

/-- The slots that have to be filled for a logical block to be mapped. -/
def path (l : ℕ) : List Slot :=
  if l < indStart then [.direct l]
  else if l < dindStart then [.indirect, .ind (l - indStart)]
  else [.dindirect, .dind (dindOf l), .dent (dindOf l) (dentOf l)]

/-- The slots whose block is a table. -/
def Slot.IsTable : Slot → Prop
  | .indirect | .dindirect | .dind _ => True
  | _ => False

namespace FileState

def ptr (s : FileState) : Slot → ℤ := Fs.ptr s.ino.din s.sb.dev.data

def Mapped (s : FileState) (l : ℕ) : Prop := s.ptr (slotOf l) ≠ 0

/-- The slots of a path that are still empty: the blocks that mapping `l` takes. -/
def need (s : FileState) (l : ℕ) : ℕ := ((path l).filter fun sl => s.ptr sl = 0).length

/-- The content of a logical block; a hole is zero. -/
def blockAt (s : FileState) (l : ℕ) : Block :=
  if s.ptr (slotOf l) = 0 then Block.zero else s.sb.dev.data (s.ptr (slotOf l))

/-- A block whose second-level table is missing, while the double indirect table is there. -/
def NoSecondLevel (s : FileState) (l : ℕ) : Prop :=
  dindStart ≤ l ∧ s.ptr .dindirect ≠ 0 ∧ s.ptr (.dind (dindOf l)) = 0

instance (s : FileState) (l : ℕ) : Decidable (s.NoSecondLevel l) :=
  inferInstanceAs (Decidable (_ ∧ _ ∧ _))

/-- What `testfs_read_block` leaves in its buffer. -/
def delivered (s : FileState) (l : ℕ) : Block :=
  if s.NoSecondLevel l then s.sb.dev.data (s.ptr .dindirect) else s.blockAt l

/-- Byte `p` of the file; a hole is zero. -/
def content (s : FileState) (p : ℕ) : Byte := (s.blockAt (p / blockSize)).get (p % blockSize)

end FileState

/-- The places of `own` hold exactly the live blocks outside `F`, and `block_count` is
their number. -/
structure Holds (F : Set ℤ) (own : Slot → ℤ) (s : FileState) : Prop where
  super : SuperOK s.sb
  sub : F ⊆ s.sb.live
  owns : Owns own (s.sb.live \ F)
  count : s.ino.din.blockCount = ((s.sb.live \ F).ncard : ℤ)

/-- The blocks of `B` have been written to the device. -/
def InDev (B : Set ℤ) (s : FileState) : Prop := ∀ b ∈ B, b < s.sb.dev.len

/-- **The invariant of a file.** -/
structure FileOK (F : Set ℤ) (s : FileState) : Prop extends Holds F s.ptr s where
  inDev : InDev (s.sb.live \ F) s

variable {F W : Set ℤ} {own : Slot → ℤ} {s s' s₁ s₂ : FileState} {p : ℤ} {l k : ℕ} {ok : Prop}
  {sl : Slot}

namespace Holds

theorem bounds (h : Holds F own s) (hp : p ∈ s.sb.live \ F) :
    dataStart ≤ p ∧ p < dataStart + blockBits := live_bounds h.super.toLayout hp.1

theorem zero_or (h : Holds F own s) (sl : Slot) :
    own sl = 0 ∨ own sl ∈ s.sb.live \ F ∧ dataStart ≤ own sl ∧ own sl < dataStart + blockBits := by
  by_cases h0 : own sl = 0
  · exact Or.inl h0
  · exact Or.inr ⟨h.owns.mem h0, h.bounds (h.owns.mem h0)⟩

theorem nonneg (h : Holds F own s) (sl : Slot) : 0 ≤ own sl := by
  rcases h.zero_or sl with h0 | ⟨-, h1, -⟩ <;> omega

theorem pos (h : Holds F own s) (sl : Slot) : 0 < own sl ↔ own sl ≠ 0 := by
  have := h.nonneg sl
  omega

theorem finite (_ : Holds F own s) : (s.sb.live \ F).Finite :=
  (live_finite s.sb).subset Set.sdiff_subset

end Holds

/-! ### Slots of a logical block -/

theorem entry_zero (data : ℤ → Block) (k : ℕ) : entry data 0 k = 0 := by simp [entry]

theorem slotOf_direct (h : l < indStart) : slotOf l = .direct l := by simp [slotOf, h]

theorem slotOf_ind (h1 : indStart ≤ l) (h2 : l < dindStart) : slotOf l = .ind (l - indStart) := by
  simp [slotOf, h2, not_lt.2 h1]

theorem slotOf_dent (h : dindStart ≤ l) : slotOf l = .dent (dindOf l) (dentOf l) := by
  have : ¬l < indStart := by unfold indStart; unfold dindStart at h; omega
  simp [slotOf, not_lt.2 h, this]

theorem path_direct (h : l < indStart) : path l = [.direct l] := by simp [path, h]

theorem path_ind (h1 : indStart ≤ l) (h2 : l < dindStart) :
    path l = [.indirect, .ind (l - indStart)] := by
  simp [path, h2, not_lt.2 h1]

theorem path_dent (h : dindStart ≤ l) :
    path l = [.dindirect, .dind (dindOf l), .dent (dindOf l) (dentOf l)] := by
  have : ¬l < indStart := by unfold indStart; unfold dindStart at h; omega
  simp [path, not_lt.2 h, this]

theorem slotOf_mem_path (l : ℕ) : slotOf l ∈ path l := by
  unfold slotOf path
  split
  · simp
  · split <;> simp

theorem slotOf_notTable (l : ℕ) : ¬(slotOf l).IsTable := by
  unfold slotOf
  split
  · simp [Slot.IsTable]
  · split <;> simp [Slot.IsTable]

theorem dindOf_lt (h : l < maxFileBlocks) : dindOf l < nrIndirectBlocks := by
  unfold dindOf
  have : l - dindStart < nrIndirectBlocks * nrIndirectBlocks := by
    unfold maxFileBlocks dindStart nrDirectBlocks nrIndirectBlocks at *; omega
  exact Nat.div_lt_of_lt_mul this

theorem dentOf_lt (l : ℕ) : dentOf l < nrIndirectBlocks := Nat.mod_lt _ (by decide)

/-! ### Reading a block -/

theorem readBlock_dev (h : FileOK F s) (hp : p ∈ s.sb.live \ F) :
    s.sb.dev.readBlock p = some (s.sb.dev.data p) := by
  have h1 := (h.bounds hp).1
  have h2 := h.inDev p hp
  unfold Device.readBlock
  rw [if_pos ⟨by omega, h2⟩]

theorem readPhysical_ok (h : FileOK F s) (sl : Slot) :
    readPhysical s.sb (s.ptr sl) =
      some (s.ptr sl, if s.ptr sl = 0 then Block.zero else s.sb.dev.data (s.ptr sl)) := by
  unfold readPhysical
  by_cases h0 : s.ptr sl = 0
  · simp [h0]
  · rw [if_pos ((h.pos sl).2 h0), readBlock_dev h (h.owns.mem h0), if_neg h0]
    rfl

theorem maxFileBlocks_eq : maxFileBlocks = 4196362 := rfl
theorem dindStart_eq : dindStart = 2058 := rfl
theorem indStart_eq : indStart = 10 := rfl
theorem nrIndirectBlocks_eq : nrIndirectBlocks = 2048 := rfl
theorem nrDirectBlocks_eq : nrDirectBlocks = 10 := rfl

theorem delivered_of_lt (hl : l < dindStart) : s.delivered l = s.blockAt l := by
  have hns : ¬s.NoSecondLevel l := fun hn => absurd hn.1 (not_le.2 hl)
  rw [FileState.delivered, if_neg hns]

theorem readBlock_direct (h : FileOK F s) (hl : l < indStart) :
    testfsReadBlock s.sb s.ino l = some (s.ptr (slotOf l), s.delivered l) := by
  have h1 : (l : ℤ) < (nrDirectBlocks : ℕ) := by unfold indStart at hl; omega
  have hd : l < dindStart := by rw [dindStart_eq]; rw [indStart_eq] at hl; omega
  have hr := readPhysical_ok h (slotOf l)
  unfold testfsReadBlock
  rw [if_neg (by omega), if_pos h1, delivered_of_lt hd, FileState.blockAt, ← hr, slotOf_direct hl]
  simp [FileState.ptr, ptr]

theorem readBlock_ind (h : FileOK F s) (h1 : indStart ≤ l) (h2 : l < dindStart) :
    testfsReadBlock s.sb s.ino l = some (s.ptr (slotOf l), s.delivered l) := by
  have h3 : ¬(l : ℤ) < (nrDirectBlocks : ℕ) := by unfold indStart at h1; omega
  have h4 : ¬(nrIndirectBlocks : ℤ) ≤ l - nrDirectBlocks := by unfold dindStart at h2; omega
  have hn : ((l : ℤ) - nrDirectBlocks).toNat = l - indStart := by unfold indStart; omega
  have hlt : l - indStart < nrIndirectBlocks := by
    rw [indStart_eq, nrIndirectBlocks_eq]; rw [dindStart_eq] at h2; omega
  have hr := readPhysical_ok h (slotOf l)
  unfold testfsReadBlock
  rw [if_neg (by omega), if_neg h3, if_neg h4, delivered_of_lt h2, FileState.blockAt, ← hr,
    slotOf_ind h1 h2, hn]
  by_cases h0 : s.ptr .indirect = 0
  · have h0' : s.ino.din.iIndirect = 0 := h0
    have hz : s.ptr (.ind (l - indStart)) = 0 := by
      show entry _ _ _ = 0
      rw [h0', entry_zero]
    rw [h0', if_neg (lt_irrefl 0), hz]
  · have hpos : 0 < s.ino.din.iIndirect := (h.pos .indirect).2 h0
    have hw : s.ptr (.ind (l - indStart)) =
        (s.sb.dev.data s.ino.din.iIndirect).word (l - indStart) := by
      show entry _ _ _ = _
      rw [entry, if_pos ⟨h0, hlt⟩]
    have hrd : s.sb.dev.readBlock s.ino.din.iIndirect = _ := readBlock_dev h (h.owns.mem h0)
    rw [if_pos hpos, hrd, hw, Option.bind_eq_bind, Option.bind_some]

theorem dind_index (hl : dindStart ≤ l) :
    (((l : ℤ) - nrDirectBlocks - nrIndirectBlocks) / nrIndirectBlocks).toNat = dindOf l ∧
    (((l : ℤ) - nrDirectBlocks - nrIndirectBlocks) % nrIndirectBlocks).toNat = dentOf l := by
  have hc : (l : ℤ) - nrDirectBlocks - nrIndirectBlocks = ((l - dindStart : ℕ) : ℤ) := by
    unfold dindStart at *; omega
  rw [hc, ← Int.natCast_ediv, ← Int.natCast_emod, Int.toNat_natCast, Int.toNat_natCast]
  exact ⟨rfl, rfl⟩

theorem readBlock_dent (h : FileOK F s) (h1 : dindStart ≤ l) (h2 : l < maxFileBlocks) :
    testfsReadBlock s.sb s.ino l = some (s.ptr (slotOf l), s.delivered l) := by
  have h3 : ¬(l : ℤ) < (nrDirectBlocks : ℕ) := by
    rw [dindStart_eq] at h1; rw [nrDirectBlocks_eq]; omega
  have h4 : (nrIndirectBlocks : ℤ) ≤ l - nrDirectBlocks := by unfold dindStart at h1; omega
  have h5 : ¬(nrIndirectBlocks * nrIndirectBlocks : ℤ) ≤ l - nrDirectBlocks - nrIndirectBlocks := by
    rw [maxFileBlocks_eq] at h2
    rw [nrDirectBlocks_eq, nrIndirectBlocks_eq]
    push_cast
    omega
  obtain ⟨hdn, hen⟩ := dind_index h1
  have hr := readPhysical_ok h (slotOf l)
  unfold testfsReadBlock
  rw [if_neg (by omega), if_neg h3, if_pos h4]
  simp only
  rw [if_neg h5]
  unfold FileState.delivered
  by_cases h0 : s.ptr .dindirect = 0
  · have h0' : s.ino.din.iDindirect = 0 := h0
    have hns : ¬s.NoSecondLevel l := fun hn => hn.2.1 h0
    have hz : s.ptr (.dent (dindOf l) (dentOf l)) = 0 := by
      show entry _ (entry _ _ _) _ = 0
      rw [h0', entry_zero, entry_zero]
    rw [if_neg hns, FileState.blockAt, ← hr, slotOf_dent h1, h0', if_neg (lt_irrefl 0), hz]
  have hpos : 0 < s.ino.din.iDindirect := (h.pos .dindirect).2 h0
  have hw : s.ptr (.dind (dindOf l)) = (s.sb.dev.data s.ino.din.iDindirect).word (dindOf l) := by
    show entry _ _ _ = _
    rw [entry, if_pos ⟨h0, dindOf_lt h2⟩]
  have hrd : s.sb.dev.readBlock s.ino.din.iDindirect = _ := readBlock_dev h (h.owns.mem h0)
  rw [if_pos hpos, hrd, Option.bind_eq_bind, Option.bind_some, hdn, hen, ← hw]
  by_cases h6 : s.ptr (.dind (dindOf l)) = 0
  · have hns : s.NoSecondLevel l := ⟨h1, h0, h6⟩
    have hz : s.ptr (.dent (dindOf l) (dentOf l)) = 0 := by
      show entry _ (s.ptr (.dind (dindOf l))) _ = 0
      rw [h6, entry_zero]
    rw [h6, if_neg (lt_irrefl 0), if_pos hns, slotOf_dent h1, hz]
    rfl
  · have hns : ¬s.NoSecondLevel l := fun hn => h6 hn.2.2
    have hw2 : s.ptr (.dent (dindOf l) (dentOf l)) =
        (s.sb.dev.data (s.ptr (.dind (dindOf l)))).word (dentOf l) := by
      show entry _ (s.ptr (.dind (dindOf l))) _ = _
      rw [entry, if_pos ⟨h6, dentOf_lt l⟩]
    rw [if_neg hns, FileState.blockAt, ← hr, slotOf_dent h1, if_pos ((h.pos _).2 h6),
      readBlock_dev h (h.owns.mem h6), hw2, Option.bind_some]

/-- **What `testfs_read_block` finds.** -/
theorem readBlock_ok (h : FileOK F s) (hl : l < maxFileBlocks) :
    testfsReadBlock s.sb s.ino l = some (s.ptr (slotOf l), s.delivered l) := by
  by_cases h1 : l < indStart
  · exact readBlock_direct h h1
  by_cases h2 : l < dindStart
  · exact readBlock_ind h (not_lt.1 h1) h2
  · exact readBlock_dent h (not_lt.1 h2) hl

theorem readBlock_neg {n : ℤ} (hn : n < 0) : testfsReadBlock s.sb s.ino n = none := by
  unfold testfsReadBlock; rw [if_pos hn]

theorem readBlock_big {n : ℤ} (hn : maxFileBlocks ≤ n) :
    testfsReadBlock s.sb s.ino n = some (-efbig, Block.zero) := by
  rw [maxFileBlocks_eq] at hn
  unfold testfsReadBlock
  have h1 : ¬n < (nrDirectBlocks : ℕ) := by rw [nrDirectBlocks_eq]; omega
  have h2 : (nrIndirectBlocks : ℤ) ≤ n - nrDirectBlocks := by
    rw [nrDirectBlocks_eq, nrIndirectBlocks_eq]; omega
  have h3 : (nrIndirectBlocks * nrIndirectBlocks : ℤ) ≤ n - nrDirectBlocks - nrIndirectBlocks := by
    rw [nrDirectBlocks_eq, nrIndirectBlocks_eq]; push_cast; omega
  rw [if_neg (by omega), if_neg h1, if_pos h2]
  simp only
  rw [if_pos h3]

/-! ### Changing one slot

`ptr` after a pointer of the inode was set, or a word of a table. The changed table is no
other slot's, which the caller knows from the ownership of the blocks. -/

section Update

variable {d : DInode} {f f' : ℤ → Block} {q t : ℤ} {i j n : ℕ}

theorem entry_congr (h : t ≠ 0 → f' t = f t) (k : ℕ) : entry f' t k = entry f t k := by
  unfold entry
  by_cases h0 : t = 0
  · simp [h0]
  · rw [h h0]

theorem entry_update_of_ne (h : t ≠ 0 → t ≠ q) (b : Block) (k : ℕ) :
    entry (Function.update f q b) t k = entry f t k :=
  entry_congr (fun h0 => Function.update_of_ne (h h0) ..) k

/-- The tables are unchanged. -/
theorem ptr_congr (h : ∀ sl : Slot, sl.IsTable → ptr d f sl ≠ 0 →
    f' (ptr d f sl) = f (ptr d f sl)) : ptr d f' = ptr d f := by
  have h1 : ∀ k, entry f' d.iIndirect k = entry f d.iIndirect k :=
    entry_congr (h .indirect trivial)
  have h2 : ∀ k, entry f' d.iDindirect k = entry f d.iDindirect k :=
    entry_congr (h .dindirect trivial)
  funext sl
  cases sl with
  | direct k => rfl
  | indirect => rfl
  | ind k => exact h1 k
  | dindirect => rfl
  | dind i => exact h2 i
  | dent i j =>
    show entry f' (entry f' d.iDindirect i) j = entry f (entry f d.iDindirect i) j
    rw [h2]
    exact entry_congr (h (.dind i) trivial) j

theorem ptr_update_fresh (h : ∀ sl, ptr d f sl ≠ q) (b : Block) :
    ptr d (Function.update f q b) = ptr d f :=
  ptr_congr fun sl _ _ => Function.update_of_ne (h sl) ..

theorem ptr_new_direct (hl : l < nrDirectBlocks) :
    ptr (d.setBlockNr l q) f = Function.update (ptr d f) (.direct l) q := by
  funext sl
  cases sl with
  | direct k =>
    show (d.setBlockNr l q).blockNr k = _
    unfold DInode.blockNr DInode.setBlockNr
    by_cases hk : k = l
    · subst hk; simp [hl]
    · rw [Function.update_of_ne (by simpa using hk)]
      simp [ptr, DInode.blockNr, hk]
  | _ => rw [Function.update_of_ne (by simp)]; rfl

theorem ptr_new_indirect (h0 : d.iIndirect = 0) (hq : ∀ sl, ptr d f sl ≠ q) :
    ptr { d with iIndirect := q } (Function.update f q Block.zero) =
      Function.update (ptr d f) .indirect q := by
  have hf := ptr_update_fresh hq Block.zero
  funext sl
  by_cases hsl : sl = .indirect
  · subst hsl; rw [Function.update_self]; rfl
  rw [Function.update_of_ne hsl, ← hf]
  cases sl with
  | indirect => exact absurd rfl hsl
  | ind k =>
    show entry _ q k = entry _ d.iIndirect k
    rw [h0, entry_zero]
    unfold entry
    simp
  | _ => rfl

theorem ptr_new_ind (ht : d.iIndirect = t) (h0 : t ≠ 0)
    (hu : ∀ sl, ptr d f sl = t → sl = .indirect) (hn : n < nrIndirectBlocks)
    (h1 : -2 ^ 31 ≤ q) (h2 : q < 2 ^ 31) :
    ptr d (Function.update f t ((f t).setWord n q)) =
      Function.update (ptr d f) (.ind n) q := by
  have hd : ∀ k, entry (Function.update f t ((f t).setWord n q)) d.iDindirect k =
      entry f d.iDindirect k :=
    entry_update_of_ne (fun _ e => by simpa using hu .dindirect e) _
  funext sl
  cases sl with
  | ind k =>
    show entry _ d.iIndirect k = _
    unfold entry
    rw [ht, Function.update_self]
    by_cases hk : k = n
    · subst hk
      rw [if_pos ⟨h0, hn⟩, Function.update_self, Block.word_setWord hn h1 h2]
    · rw [Function.update_of_ne (by simpa using hk)]
      show _ = entry f d.iIndirect k
      unfold entry
      rw [ht]
      by_cases hk2 : k < nrIndirectBlocks
      · rw [if_pos ⟨h0, hk2⟩, if_pos ⟨h0, hk2⟩, Block.word_setWord_of_ne hk2 hk]
      · rw [if_neg (fun hc => hk2 hc.2), if_neg (fun hc => hk2 hc.2)]
  | dind i =>
    rw [Function.update_of_ne (by simp)]
    exact hd i
  | dent i j =>
    rw [Function.update_of_ne (by simp)]
    show entry _ (entry _ d.iDindirect i) j = entry f (entry f d.iDindirect i) j
    rw [hd]
    exact entry_update_of_ne (fun _ e => by simpa using hu (.dind i) e) _ j
  | _ => rw [Function.update_of_ne (by simp)]; rfl

theorem ptr_new_dindirect (h0 : d.iDindirect = 0) (hq : ∀ sl, ptr d f sl ≠ q) :
    ptr { d with iDindirect := q } (Function.update f q Block.zero) =
      Function.update (ptr d f) .dindirect q := by
  have hf := ptr_update_fresh hq Block.zero
  have hz : ∀ k, entry (Function.update f q Block.zero) q k = 0 := by
    intro k; unfold entry; simp
  funext sl
  by_cases hsl : sl = .dindirect
  · subst hsl; rw [Function.update_self]; rfl
  rw [Function.update_of_ne hsl, ← hf]
  cases sl with
  | dindirect => exact absurd rfl hsl
  | dind i =>
    show entry _ q i = entry _ d.iDindirect i
    rw [h0, entry_zero, hz]
  | dent i j =>
    show entry _ (entry _ q i) j = entry _ (entry _ d.iDindirect i) j
    rw [h0, entry_zero, hz]
  | _ => rfl

/-- Word `i` of the double indirect table becomes `q`, a table without entries. -/
theorem ptr_new_dind (ht : d.iDindirect = t) (h0 : t ≠ 0)
    (hu : ∀ sl, ptr d f sl = t → sl = .dindirect) (hi : i < nrIndirectBlocks)
    (hz : ptr d f (.dind i) = 0) (hq : ∀ sl, ptr d f sl ≠ q)
    (h1 : -2 ^ 31 ≤ q) (h2 : q < 2 ^ 31) :
    ptr d (Function.update (Function.update f q Block.zero) t ((f t).setWord i q)) =
      Function.update (ptr d f) (.dind i) q := by
  have htq : t ≠ q := fun e => hq .dindirect (ht.trans e)
  have hind : ∀ k, entry (Function.update (Function.update f q Block.zero) t
      ((f t).setWord i q)) d.iIndirect k = entry f d.iIndirect k := by
    intro k
    rw [entry_update_of_ne (fun _ e => by simpa using hu .indirect e)]
    exact entry_update_of_ne (fun _ => hq .indirect) _ _
  have hdind : ∀ k, k ≠ i → entry (Function.update (Function.update f q Block.zero) t
      ((f t).setWord i q)) d.iDindirect k = entry f d.iDindirect k := by
    intro k hk
    unfold entry
    rw [ht, Function.update_self]
    by_cases hk2 : k < nrIndirectBlocks
    · rw [if_pos ⟨h0, hk2⟩, if_pos ⟨h0, hk2⟩, Block.word_setWord_of_ne hk2 hk]
    · rw [if_neg (fun hc => hk2 hc.2), if_neg (fun hc => hk2 hc.2)]
  have hself : entry (Function.update (Function.update f q Block.zero) t
      ((f t).setWord i q)) d.iDindirect i = q := by
    unfold entry
    rw [ht, Function.update_self, if_pos ⟨h0, hi⟩, Block.word_setWord hi h1 h2]
  funext sl
  cases sl with
  | ind k => rw [Function.update_of_ne (by simp)]; exact hind k
  | dind k =>
    by_cases hk : k = i
    · subst hk; rw [Function.update_self]; exact hself
    · rw [Function.update_of_ne (by simpa using hk)]; exact hdind k hk
  | dent k j =>
    rw [Function.update_of_ne (by simp)]
    show entry _ (entry _ d.iDindirect k) j = entry f (entry f d.iDindirect k) j
    by_cases hk : k = i
    · subst hk
      have hz' : entry f d.iDindirect k = 0 := hz
      rw [hself, hz', entry_zero]
      unfold entry
      rw [Function.update_of_ne htq.symm, Function.update_self]
      simp
    · rw [hdind k hk]
      rw [entry_update_of_ne (fun _ e => by simpa using hu (.dind k) e)]
      exact entry_update_of_ne (fun _ => hq (.dind k)) _ _
  | _ => rw [Function.update_of_ne (by simp)]; rfl

theorem ptr_new_dent (ht : ptr d f (.dind i) = t) (h0 : t ≠ 0)
    (hu : ∀ sl, ptr d f sl = t → sl = .dind i) (hj : j < nrIndirectBlocks)
    (h1 : -2 ^ 31 ≤ q) (h2 : q < 2 ^ 31) :
    ptr d (Function.update f t ((f t).setWord j q)) =
      Function.update (ptr d f) (.dent i j) q := by
  have hind : ∀ k, entry (Function.update f t ((f t).setWord j q)) d.iIndirect k =
      entry f d.iIndirect k :=
    entry_update_of_ne (fun _ e => by simpa using hu .indirect e) _
  have hdind : ∀ k, entry (Function.update f t ((f t).setWord j q)) d.iDindirect k =
      entry f d.iDindirect k :=
    entry_update_of_ne (fun _ e => by simpa using hu .dindirect e) _
  funext sl
  cases sl with
  | ind k => rw [Function.update_of_ne (by simp)]; exact hind k
  | dind k => rw [Function.update_of_ne (by simp)]; exact hdind k
  | dent k m =>
    have ht' : entry f d.iDindirect i = t := ht
    show entry _ (entry _ d.iDindirect k) m = _
    rw [hdind]
    by_cases hk : k = i
    · subst hk
      rw [ht']
      unfold entry
      rw [Function.update_self]
      by_cases hm : m = j
      · subst hm
        rw [if_pos ⟨h0, hj⟩, Function.update_self, Block.word_setWord hj h1 h2]
      · rw [Function.update_of_ne (by simpa using hm)]
        show _ = entry f (entry f d.iDindirect k) m
        rw [ht']
        unfold entry
        by_cases hm2 : m < nrIndirectBlocks
        · rw [if_pos ⟨h0, hm2⟩, if_pos ⟨h0, hm2⟩, Block.word_setWord_of_ne hm2 hm]
        · rw [if_neg (fun hc => hm2 hc.2), if_neg (fun hc => hm2 hc.2)]
    · rw [Function.update_of_ne (by simp [hk])]
      show _ = entry f (entry f d.iDindirect k) m
      exact entry_update_of_ne (fun _ e => hk (by simpa using hu (.dind k) e)) _ m
  | _ => rw [Function.update_of_ne (by simp)]; rfl

end Update

end OSLab.Fs
