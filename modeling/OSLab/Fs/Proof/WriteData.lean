import OSLab.Fs.Proof.ReadData
import Mathlib.Data.Finset.Union
import Mathlib.Order.Interval.Finset.Nat

/-!
# Writing a file

A write goes through the blocks `a ≤ l < b` in order. `Written` is what has happened once
these blocks are written, and `missing a b` is the number of blocks this takes.
`writeData_ok`: either all blocks are written (`Written`), or the first one that cannot be
allocated stops the write (`Stopped`).
-/

namespace OSLab.Fs

open Prog

variable {F : Set ℤ} {s s' s₁ s₂ : FileState} {buf : Buf} {base lo mid hi r : ℤ} {a b c l p : ℕ}
  {sl : Slot} {blk : Block} {ok : Prop}

namespace FileState

/-- The empty slots that the blocks from `a` to `b` need. -/
def empties (s : FileState) (a b : ℕ) : Finset Slot :=
  ((Finset.Ico a b).biUnion fun l => (path l).toFinset).filter fun sl => s.ptr sl = 0

/-- The number of blocks that writing the blocks from `a` to `b` takes. -/
def missing (s : FileState) (a b : ℕ) : ℕ := (s.empties a b).card

/-- When a write that starts at block `a` comes to block `l`, its second-level table is missing
and the double indirect table is there. -/
def NoTable (s : FileState) (a l : ℕ) : Prop :=
  dindStart ≤ l ∧ (s.ptr .dindirect ≠ 0 ∨ ∃ k, a ≤ k ∧ k < l ∧ dindStart ≤ k) ∧
  s.ptr (.dind (dindOf l)) = 0 ∧ ∀ k, a ≤ k → k < l → dindStart ≤ k → dindOf k ≠ dindOf l

theorem mem_empties : sl ∈ s.empties a b ↔ (∃ l, a ≤ l ∧ l < b ∧ sl ∈ path l) ∧ s.ptr sl = 0 := by
  simp [empties, and_assoc]

theorem missing_self (s : FileState) (a : ℕ) : s.missing a a = 0 := by
  simp [missing, empties]

theorem path_nodup (l : ℕ) : (path l).Nodup := by
  unfold path
  split
  · simp
  · split <;> simp

theorem missing_one (s : FileState) (l : ℕ) : s.missing l (l + 1) = s.need l := by
  unfold missing need
  rw [← List.toFinset_card_of_nodup ((path_nodup l).filter _)]
  congr 1
  ext sl
  rw [mem_empties, List.mem_toFinset, List.mem_filter, decide_eq_true_iff]
  constructor
  · rintro ⟨⟨m, h1, h2, h3⟩, h4⟩
    obtain rfl : m = l := by omega
    exact ⟨h3, h4⟩
  · rintro ⟨h3, h4⟩
    exact ⟨⟨l, le_rfl, Nat.lt_succ_self l, h3⟩, h4⟩

theorem missing_mono (s : FileState) (h : b ≤ c) : s.missing a b ≤ s.missing a c := by
  apply Finset.card_le_card
  intro sl hsl
  obtain ⟨⟨l, h1, h2, h3⟩, h4⟩ := mem_empties.1 hsl
  exact mem_empties.2 ⟨⟨l, h1, by omega, h3⟩, h4⟩

/-- A mapped block has its whole path. -/
theorem path_filled (h : s.Mapped l) : ∀ sl ∈ path l, s.ptr sl ≠ 0 := by
  unfold Mapped at h
  intro sl hsl h0
  apply h
  by_cases h1 : l < indStart
  · rw [path_direct h1, List.mem_singleton] at hsl
    rw [slotOf_direct h1, ← hsl]; exact h0
  by_cases h2 : l < dindStart
  · rw [path_ind (not_lt.1 h1) h2] at hsl
    rw [slotOf_ind (not_lt.1 h1) h2]
    rcases List.mem_pair.1 hsl with rfl | rfl
    · show entry _ s.ino.din.iIndirect _ = 0
      rw [show s.ino.din.iIndirect = 0 from h0, entry_zero]
    · exact h0
  · rw [path_dent (not_lt.1 h2)] at hsl
    rw [slotOf_dent (not_lt.1 h2)]
    simp only [List.mem_cons, List.not_mem_nil, or_false] at hsl
    rcases hsl with rfl | rfl | rfl
    · show entry _ (entry _ s.ino.din.iDindirect _) _ = 0
      rw [show s.ino.din.iDindirect = 0 from h0, entry_zero, entry_zero]
    · show entry _ (s.ptr (.dind (dindOf l))) _ = 0
      rw [h0, entry_zero]
    · exact h0

theorem need_of_mapped (h : s.Mapped l) : s.need l = 0 := by
  unfold need
  rw [List.length_eq_zero_iff, List.filter_eq_nil_iff]
  intro sl hsl
  simpa using path_filled h sl hsl

theorem dindirect_mem_path : Slot.dindirect ∈ path l ↔ dindStart ≤ l := by
  by_cases h1 : l < indStart
  · rw [path_direct h1]
    have : l < dindStart := by rw [indStart_eq] at h1; rw [dindStart_eq]; omega
    simp [this]
  by_cases h2 : l < dindStart
  · rw [path_ind (not_lt.1 h1) h2]; simp [h2]
  · rw [path_dent (not_lt.1 h2)]; simp [not_lt.1 h2]

theorem dind_mem_path {i : ℕ} : Slot.dind i ∈ path l ↔ dindStart ≤ l ∧ dindOf l = i := by
  by_cases h1 : l < indStart
  · rw [path_direct h1]
    have : l < dindStart := by rw [indStart_eq] at h1; rw [dindStart_eq]; omega
    simp [this]
  by_cases h2 : l < dindStart
  · rw [path_ind (not_lt.1 h1) h2]; simp [h2]
  · rw [path_dent (not_lt.1 h2)]; simp [not_lt.1 h2, eq_comm]

end FileState

/-- Different blocks have different slots, and a slot of a block is only on its own path. -/
theorem slotOf_mem_path_iff {l m : ℕ} : slotOf l ∈ path m ↔ l = m := by
  constructor
  · intro h
    by_cases h1 : l < indStart
    · rw [slotOf_direct h1] at h
      unfold path at h
      split at h
      · simpa using h
      · split at h <;> simp at h
    by_cases h2 : l < dindStart
    · rw [slotOf_ind (not_lt.1 h1) h2] at h
      unfold path at h
      split at h
      · simp at h
      · split at h
        · simp at h; omega
        · simp at h
    · rw [slotOf_dent (not_lt.1 h2)] at h
      unfold path at h
      split at h
      · simp at h
      · split at h
        · simp at h
        · simp only [List.mem_cons, reduceCtorEq, Slot.dent.injEq, List.not_mem_nil, or_false,
            false_or] at h
          obtain ⟨e1, e2⟩ := h
          unfold dindOf at e1
          unfold dentOf at e2
          have d1 := Nat.div_add_mod (l - dindStart) nrIndirectBlocks
          have d2 := Nat.div_add_mod (m - dindStart) nrIndirectBlocks
          rw [e1, e2] at d1
          omega
  · rintro rfl
    exact slotOf_mem_path l

/-- **What a write of the blocks from `a` to `b` has done.** The bytes from `lo` to `hi` of the
file are those of the buffer, which starts at byte `base` of the file. -/
structure Written (F : Set ℤ) (s : FileState) (buf : Buf) (base : ℤ) (a b : ℕ) (lo hi : ℤ)
    (s' : FileState) : Prop where
  file : FileOK F s'
  kept : ∀ sl, s.ptr sl ≠ 0 → s'.ptr sl = s.ptr sl
  slots : ∀ sl, s'.ptr sl ≠ 0 ↔ s.ptr sl ≠ 0 ∨ ∃ l, a ≤ l ∧ l < b ∧ sl ∈ path l
  left : s'.sb.left + s.missing a b = s.sb.left
  inside : ∀ p : ℕ, lo ≤ p → p < hi → (a ≤ p / blockSize ∧ p / blockSize < b) ∧
    buf.get (p - base).toNat = some (s'.content p)
  outside : ∀ p : ℕ, ¬(lo ≤ p ∧ p < hi) →
    s.Mapped (p / blockSize) ∨ ¬(a ≤ p / blockSize ∧ p / blockSize < b) → s'.content p = s.content p
  zero : ∀ p : ℕ, ¬(lo ≤ p ∧ p < hi) → ¬s.Mapped (p / blockSize) → ¬s.NoTable a (p / blockSize) →
    s'.content p = 0
  iType : s'.ino.din.iType = s.ino.din.iType
  iSize : s'.ino.din.iSize = s.ino.din.iSize
  grows : s.sb.live ⊆ s'.sb.live
  frame : FileFrame F s s'

namespace Written

theorem mapped (h : Written F s buf base a b lo hi s') :
    s'.Mapped l ↔ s.Mapped l ∨ a ≤ l ∧ l < b := by
  unfold FileState.Mapped
  rw [h.slots]
  constructor
  · rintro (h | ⟨m, h1, h2, h3⟩)
    · exact Or.inl h
    · rw [slotOf_mem_path_iff] at h3
      exact Or.inr (h3 ▸ ⟨h1, h2⟩)
  · rintro (h | ⟨h1, h2⟩)
    · exact Or.inl h
    · exact Or.inr ⟨l, h1, h2, slotOf_mem_path l⟩

theorem content_unmapped (h : ¬s.Mapped (p / blockSize)) : s.content p = 0 := by
  unfold FileState.content FileState.blockAt
  rw [if_pos (not_not.1 h)]
  unfold Block.get Block.zero
  split <;> rfl

/-- What is missing from `b` on after the blocks up to `b` are written. -/
theorem missing (h : Written F s buf base a b lo hi s') (hab : a ≤ b) (hbc : b ≤ c) :
    s.missing a b + s'.missing b c = s.missing a c := by
  unfold FileState.missing
  have h1 : s'.empties b c = s.empties a c \ s.empties a b := by
    ext sl
    have hsl := h.slots sl
    rw [Finset.mem_sdiff, FileState.mem_empties, FileState.mem_empties, FileState.mem_empties]
    constructor
    · rintro ⟨⟨l, h1, h2, h3⟩, h0⟩
      have hn : ¬(s.ptr sl ≠ 0 ∨ ∃ l, a ≤ l ∧ l < b ∧ sl ∈ path l) := fun hh => (hsl.2 hh) h0
      rw [not_or, not_not] at hn
      exact ⟨⟨⟨l, by omega, h2, h3⟩, hn.1⟩, fun hh => hn.2 hh.1⟩
    · rintro ⟨⟨⟨l, h1, h2, h3⟩, h0⟩, hn⟩
      have hn' : ¬∃ l, a ≤ l ∧ l < b ∧ sl ∈ path l := fun hh => hn ⟨hh, h0⟩
      refine ⟨⟨l, ?_, h2, h3⟩, ?_⟩
      · by_contra hlb
        exact hn' ⟨l, h1, by omega, h3⟩
      · by_contra hne
        rcases hsl.1 hne with hh | hh
        · exact hh h0
        · exact hn' hh
  have h2 : s.empties a b ⊆ s.empties a c := by
    intro sl hsl
    obtain ⟨⟨l, h1, h2, h3⟩, h4⟩ := FileState.mem_empties.1 hsl
    exact FileState.mem_empties.2 ⟨⟨l, h1, by omega, h3⟩, h4⟩
  rw [h1, Finset.card_sdiff_of_subset h2]
  have := Finset.card_le_card h2
  omega

theorem noTable (h : Written F s buf base a b lo hi s') (hab : a ≤ b) (hl : b ≤ l)
    (hn : ¬s.NoTable a l) : ¬s'.NoTable b l := by
  rintro ⟨h1, h2, h3, h4⟩
  apply hn
  have hd := h.slots .dindirect
  have hi := h.slots (.dind (dindOf l))
  have hi' : ¬(s.ptr (.dind (dindOf l)) ≠ 0 ∨ ∃ k, a ≤ k ∧ k < b ∧ Slot.dind (dindOf l) ∈ path k) :=
    fun hh => (hi.2 hh) h3
  rw [not_or, not_not] at hi'
  refine ⟨h1, ?_, hi'.1, ?_⟩
  · rcases h2 with h2 | ⟨k, h5, h6, h7⟩
    · rcases hd.1 h2 with h8 | ⟨k, h5, h6, h7⟩
      · exact Or.inl h8
      · exact Or.inr ⟨k, h5, by omega, FileState.dindirect_mem_path.1 h7⟩
    · exact Or.inr ⟨k, by omega, h6, h7⟩
  · intro k h5 h6 h7 h8
    by_cases hkb : k < b
    · exact hi'.2 ⟨k, h5, hkb, FileState.dind_mem_path.2 ⟨h7, h8⟩⟩
    · exact h4 k (not_lt.1 hkb) h6 h7 h8

/-- Writing the blocks up to `b` and then those from `b` on. -/
theorem trans (h₁ : Written F s buf base a b lo mid s₁) (h₂ : Written F s₁ buf base b c mid hi s₂)
    (hab : a ≤ b) (hbc : b ≤ c) (hmid : mid = blockSize * b) (hlo : lo ≤ mid) (hhi : mid ≤ hi) :
    Written F s buf base a c lo hi s₂ := by
  have hbs : (blockSize : ℤ) = 8192 := rfl
  have hdiv : ∀ p : ℕ, p / blockSize < b ↔ (p : ℤ) < mid := by
    intro p
    rw [hmid, hbs, blockSize_eq]
    omega
  refine ⟨h₂.file, fun sl h0 => ?_, fun sl => ?_, ?_, fun p h1 h2 => ?_, fun p hp hm => ?_,
    fun p hp hm hn => ?_, h₂.iType.trans h₁.iType, h₂.iSize.trans h₁.iSize, h₁.grows.trans h₂.grows,
    h₁.frame.trans h₂.frame⟩
  · rw [h₂.kept sl (by rw [h₁.kept sl h0]; exact h0), h₁.kept sl h0]
  · rw [h₂.slots, h₁.slots]
    constructor
    · rintro ((h | ⟨l, h1, h2, h3⟩) | ⟨l, h1, h2, h3⟩)
      · exact Or.inl h
      · exact Or.inr ⟨l, h1, by omega, h3⟩
      · exact Or.inr ⟨l, by omega, h2, h3⟩
    · rintro (h | ⟨l, h1, h2, h3⟩)
      · exact Or.inl (Or.inl h)
      · by_cases hlb : l < b
        · exact Or.inl (Or.inr ⟨l, h1, hlb, h3⟩)
        · exact Or.inr ⟨l, not_lt.1 hlb, h2, h3⟩
  · have := h₁.missing hab hbc
    have := h₁.left
    have := h₂.left
    omega
  · by_cases hpm : (p : ℤ) < mid
    · obtain ⟨⟨h3, h4⟩, h5⟩ := h₁.inside p h1 hpm
      refine ⟨⟨h3, by omega⟩, ?_⟩
      rw [h5, h₂.outside p (by omega) (Or.inl (h₁.mapped.2 (Or.inr ⟨h3, h4⟩)))]
    · obtain ⟨⟨h3, h4⟩, h5⟩ := h₂.inside p (not_lt.1 hpm) h2
      exact ⟨⟨by omega, h4⟩, h5⟩
  · have hpl : ¬(lo ≤ p ∧ p < mid) := fun hh => hp ⟨hh.1, by omega⟩
    have hpr : ¬(mid ≤ p ∧ p < hi) := fun hh => hp ⟨by omega, hh.2⟩
    rcases hm with hm | hm
    · rw [h₂.outside p hpr (Or.inl (h₁.mapped.2 (Or.inl hm))), h₁.outside p hpl (Or.inl hm)]
    · rw [h₂.outside p hpr (Or.inr fun hh => hm ⟨by omega, hh.2⟩),
        h₁.outside p hpl (Or.inr fun hh => hm ⟨hh.1, by omega⟩)]
  · have hpl : ¬(lo ≤ p ∧ p < mid) := fun hh => hp ⟨hh.1, by omega⟩
    have hpr : ¬(mid ≤ p ∧ p < hi) := fun hh => hp ⟨by omega, hh.2⟩
    have h1 := h₁.zero p hpl hm hn
    by_cases hm₁ : s₁.Mapped (p / blockSize)
    · rw [h₂.outside p hpr (Or.inl hm₁), h1]
    · by_cases hpb : p / blockSize < b
      · rw [h₂.outside p hpr (Or.inr fun hh => by omega), h1]
      · exact h₂.zero p hpr hm₁ (h₁.noTable hab (not_lt.1 hpb) hn)

/-- Nothing was written. -/
theorem refl (h : FileOK F s) (buf : Buf) (base : ℤ) (a : ℕ) (lo : ℤ) :
    Written F s buf base a a lo lo s where
  file := h
  kept _ _ := rfl
  slots sl := by simp only [iff_self_or]; omega
  left := by rw [FileState.missing_self, Nat.add_zero]
  inside p h1 h2 := by omega
  outside _ _ _ := rfl
  zero _ _ hm _ := content_unmapped hm
  iType := rfl
  iSize := rfl
  grows := subset_rfl
  frame := FileFrame.refl _ _

end Written

/-! ### One block -/

theorem Block.store_get {b' : Block} {ix off n : ℤ} (h : blk.store ix buf off n = some b') {i : ℕ}
    (hi : i < blockSize) :
    b'.get i = if ix ≤ i ∧ i < ix + n then (buf.get (i - ix + off).toNat).getD 0 else blk.get i := by
  unfold Block.store at h
  split at h
  · cases h
    rw [Block.get_ofFn _ hi]
  · cases h

theorem Block.store_bounds {b' : Block} {ix off n : ℤ} (h : blk.store ix buf off n = some b') :
    0 ≤ n ∧ 0 ≤ ix ∧ ix + n ≤ blockSize ∧ 0 ≤ off ∧
      ∀ i < n.toNat, (buf.get (off.toNat + i)).isSome := by
  unfold Block.store at h
  split at h
  · assumption
  · cases h

/-- Block `l` is in place as block `r`, and about to be written. -/
structure Ready (F : Set ℤ) (s : FileState) (l : ℕ) (r : ℤ) (s₁ : FileState) : Prop where
  holds : Holds F s₁.ptr s₁
  target : s₁.ptr (slotOf l) = r
  kept : ∀ sl, s.ptr sl ≠ 0 ∨ sl ∉ path l → s₁.ptr sl = s.ptr sl
  filled : ∀ sl ∈ path l, s₁.ptr sl ≠ 0
  left : s₁.sb.left + s.need l = s.sb.left
  inDev : ∀ b ∈ s₁.sb.live \ F, b ≠ r → b < s₁.sb.dev.len
  data : ∀ sl : Slot, ¬sl.IsTable → s.ptr sl ≠ 0 →
    s₁.sb.dev.data (s.ptr sl) = s.sb.dev.data (s.ptr sl)
  grows : s.sb.live ⊆ s₁.sb.live
  iType : s₁.ino.din.iType = s.ino.din.iType
  iSize : s₁.ino.din.iSize = s.ino.din.iSize
  frame : FileFrame F s s₁

theorem Extended.ready (h : Extended F s l r s₁) : Ready F s l r s₁ := { h with }

theorem Ready.of_mapped (h : FileOK F s) (hm : s.Mapped l) : Ready F s l (s.ptr (slotOf l)) s where
  holds := h.toHolds
  target := rfl
  kept _ _ := rfl
  filled := FileState.path_filled hm
  left := by rw [FileState.need_of_mapped hm, Nat.add_zero]
  inDev b hb _ := h.inDev b hb
  data _ _ _ := rfl
  grows := subset_rfl
  iType := rfl
  iSize := rfl
  frame := FileFrame.refl _ _

namespace Ready

theorem ne_zero (h : Ready F s l r s₁) : r ≠ 0 :=
  h.target ▸ h.filled _ (slotOf_mem_path l)

theorem ptr_put (h : Ready F s l r s₁) (b : Block) : (s₁.put r b).ptr = s₁.ptr := by
  refine ptr_congr fun sl hsl h0 => Function.update_of_ne ?_ _ _
  intro e
  have hu := h.holds.owns.unique (i := sl) (j := slotOf l) (e.trans h.target.symm) h0
  exact slotOf_notTable l (hu ▸ hsl)

theorem fileOK (h : Ready F s l r s₁) (b : Block) : FileOK F (s₁.put r b) := by
  have hge : (dataStart : ℤ) ≤ r :=
    h.target ▸ h.holds.ge (h.filled _ (slotOf_mem_path l))
  refine ⟨?_, fun x hx => ?_⟩
  · rw [h.ptr_put]; exact h.holds.put hge
  · rw [(FileState.put_fields ..).2.2.2.2]
    by_cases hxr : x = r
    · omega
    · have := h.inDev x hx hxr
      omega

theorem blockAt_self (h : Ready F s l r s₁) (b : Block) : (s₁.put r b).blockAt l = b := by
  unfold FileState.blockAt
  rw [h.ptr_put, h.target, if_neg h.ne_zero, (FileState.put_fields ..).2.2.2.1,
    Function.update_self]

theorem blockAt_of_ne (h : Ready F s l r s₁) (b : Block) {m : ℕ} (hm : m ≠ l) :
    (s₁.put r b).blockAt m = s.blockAt m := by
  unfold FileState.blockAt
  have hk : s₁.ptr (slotOf m) = s.ptr (slotOf m) :=
    h.kept _ (Or.inr fun hh => hm (slotOf_mem_path_iff.1 hh))
  rw [h.ptr_put, hk]
  by_cases h0 : s.ptr (slotOf m) = 0
  · rw [if_pos h0, if_pos h0]
  rw [if_neg h0, if_neg h0, (FileState.put_fields ..).2.2.2.1, Function.update_of_ne,
    h.data _ (slotOf_notTable m) h0]
  intro e
  rw [← hk, ← h.target] at e
  have hu := h.holds.owns.unique e (by rw [hk]; exact h0)
  exact hm (slotOf_mem_path_iff.1 (hu.symm ▸ slotOf_mem_path l))

/-- The block is written. -/
theorem written (h : Ready F s l r s₁) {b : Block} {ix off n : ℤ}
    (hst : (s.delivered l).store ix buf off n = some b) (hbase : blockSize * (l : ℤ) + ix = base + off) :
    Written F s buf base l (l + 1) (blockSize * (l : ℤ) + ix) (blockSize * (l : ℤ) + ix + n)
      (s₁.put r b) := by
  obtain ⟨hn, hix, hend, hoff, hsome⟩ := Block.store_bounds hst
  have hbs : (blockSize : ℤ) = 8192 := rfl
  have hptr := h.ptr_put b
  have hin : ∀ p : ℕ, p / blockSize = l → (s₁.put r b).content p =
      if ix ≤ (p % blockSize : ℕ) ∧ (p % blockSize : ℕ) < ix + n then
        (buf.get (((p % blockSize : ℕ) : ℤ) - ix + off).toNat).getD 0
      else (s.delivered l).get (p % blockSize) := by
    intro p hp
    unfold FileState.content
    rw [hp, h.blockAt_self, Block.store_get hst (Nat.mod_lt _ (by decide))]
  have hother : ∀ p : ℕ, p / blockSize ≠ l → (s₁.put r b).content p = s.content p := by
    intro p hp
    unfold FileState.content
    rw [h.blockAt_of_ne b hp]
  have hpos : ∀ p : ℕ, p / blockSize = l → (p : ℤ) = blockSize * l + (p % blockSize : ℕ) := by
    rintro p rfl
    have := Nat.div_add_mod p blockSize
    push_cast
    exact_mod_cast this.symm
  have hdel : ∀ p : ℕ, p / blockSize = l → ¬s.NoSecondLevel l →
      (s.delivered l).get (p % blockSize) = s.content p := by
    rintro p rfl hns
    unfold FileState.delivered FileState.content
    rw [if_neg hns]
  refine ⟨h.fileOK b, fun sl h0 => ?_, fun sl => ?_, ?_, fun p h1 h2 => ?_, fun p hp hm => ?_,
    fun p hp hm hnt => ?_, h.iType, h.iSize, h.grows, ?_⟩
  · rw [hptr]; exact h.kept sl (Or.inl h0)
  · rw [hptr]
    constructor
    · intro h1
      by_cases hsl : sl ∈ path l
      · exact Or.inr ⟨l, le_rfl, Nat.lt_succ_self l, hsl⟩
      · rw [h.kept sl (Or.inr hsl)] at h1; exact Or.inl h1
    · rintro (h1 | ⟨m, h1, h2, h3⟩)
      · rw [h.kept sl (Or.inl h1)]; exact h1
      · obtain rfl : m = l := by omega
        exact h.filled sl h3
  · rw [FileState.missing_one]; exact h.left
  · have hp : p / blockSize = l := by rw [hbs] at h1 h2 hend; rw [blockSize_eq]; omega
    have hpp := hpos p hp
    refine ⟨by omega, ?_⟩
    rw [hin p hp, if_pos (by omega)]
    have hget := hsome (p - (blockSize * l + ix)).toNat (by omega)
    have e1 : off.toNat + ((p : ℤ) - (blockSize * l + ix)).toNat = (p - base).toNat := by omega
    have e2 : (((p % blockSize : ℕ) : ℤ) - ix + off).toNat = (p - base).toNat := by omega
    rw [e1] at hget
    rw [e2]
    obtain ⟨x, hx⟩ := Option.isSome_iff_exists.1 hget
    rw [hx]
    rfl
  · by_cases hpl : p / blockSize = l
    · have hpp := hpos p hpl
      rw [hin p hpl, if_neg (by omega)]
      refine hdel p hpl fun hns => ?_
      have hml : s.Mapped l := by
        rcases hm with hm | hm
        · exact hpl ▸ hm
        · omega
      exact FileState.path_filled hml _ (FileState.dind_mem_path.2 ⟨hns.1, rfl⟩) hns.2.2
    · exact hother p hpl
  · by_cases hpl : p / blockSize = l
    · have hpp := hpos p hpl
      rw [hin p hpl, if_neg (by omega), hdel p hpl, Written.content_unmapped hm]
      intro hns
      rw [hpl] at hnt
      exact hnt ⟨hns.1, Or.inl hns.2.1, hns.2.2, fun k _ _ => by omega⟩
    · rw [hother p hpl, Written.content_unmapped hm]
  · have hr0 := h.filled _ (slotOf_mem_path l)
    exact h.frame.put (h.target ▸ h.holds.ge hr0) (h.target ▸ h.holds.notF hr0)

end Ready

/-- The block that could not be allocated, and what is left of the attempt. -/
structure Failed (F : Set ℤ) (s : FileState) (l : ℕ) (s' : FileState) : Prop where
  unmapped : ¬s.Mapped l
  left : s.sb.left < s.need l
  noSpace : NoSpace F s s'
  clean : ¬s.Leaves l → s'.ptr = s.ptr
  behind : s.Leaves l → ∃ sl p, LeftBehind l s sl p s'

theorem writeChunk_ok (h : FileOK F s) (hl : l < maxFileBlocks) {blockNr inc ix off n : ℤ}
    (hL : toInt32 (blockNr + inc) = l) (hbase : blockSize * (l : ℤ) + ix = base + off)
    (hok : ok ∨ blockSize * inc < 2 ^ 31 ∧ 0 ≤ n ∧ 0 ≤ ix ∧ ix + n ≤ blockSize ∧ 0 ≤ off ∧
      ∀ i < n.toNat, (buf.get (off.toNat + i)).isSome) :
    wp ok (writeChunk buf blockNr inc ix off n) (fun r s' =>
      (0 ≤ r ∧ 0 ≤ n ∧ Written F s buf base l (l + 1) (blockSize * (l : ℤ) + ix)
        (blockSize * (l : ℤ) + ix + n) s') ∨
      (r = -enospc ∧ Failed F s l s')) s := by
  have hrun : ∀ r block s₁, Ready F s l r s₁ → (0 ≤ r → block = s.delivered l) →
      wp ok (if r < 0 then return r
        else do
          require (blockSize * inc < 2 ^ 31)
          let block ← reads fun _ => block.store ix buf off n
          onSuper (writeBlock block r)
          return r) (fun r s' => (0 ≤ r ∧ 0 ≤ n ∧ Written F s buf base l (l + 1)
            (blockSize * (l : ℤ) + ix) (blockSize * (l : ℤ) + ix + n) s') ∨
            (r = -enospc ∧ Failed F s l s')) s₁ := by
    intro r block s₁ hr hb
    have hr0 : 0 ≤ r := by
      have := hr.holds.nonneg (slotOf l)
      rwa [hr.target] at this
    obtain rfl : block = s.delivered l := hb hr0
    simp only [wp_ite, wp_bind, wp_require, wp_pure]
    refine ⟨fun hn => absurd hr0 hn.not_ge, fun _ => ⟨fun _ => ?_, fun hn => ?_⟩⟩
    · cases hst : (s.delivered l).store ix buf off n with
      | none =>
        refine wp_of_none rfl (hok.resolve_right fun hh => ?_)
        unfold Block.store at hst
        rw [if_pos hh.2] at hst
        cases hst
      | some b =>
        refine wp_reads b rfl ?_
        rw [wp_writeBlockFile hr0]
        exact Or.inl ⟨hr0, (Block.store_bounds hst).1, hr.written hst hbase⟩
    · exact hok.resolve_right fun hh => hn hh.1
  unfold writeChunk
  rw [wp_bind, hL]
  refine wp_mono (wp.weaken (allocateBlock_ok h hl)) ?_
  intro rb s₁ hrb
  obtain ⟨ret, block⟩ := rb
  obtain ⟨hb, hcases⟩ := hrb
  rcases hcases with ⟨hm, h1, rfl⟩ | ⟨hm, h1, hext⟩ | ⟨hm, h1, h2, h3, h4, h5⟩
  · have h1 : ret = s₁.ptr (slotOf l) := h1
    exact hrun ret block s₁ (h1 ▸ Ready.of_mapped h hm) hb
  · exact hrun ret block s₁ hext.ready hb
  · have h2 : ret = -enospc := h2
    subst h2
    simp only [wp_ite, wp_pure]
    exact ⟨fun _ => Or.inr ⟨trivial, hm, h1, h3, h4, h5⟩,
      fun hn => absurd (show -enospc < 0 by decide) hn⟩

theorem writeChunk_big {blockNr inc ix off n : ℤ} {Q : ℤ → FileState → Prop}
    (hL : maxFileBlocks ≤ toInt32 (blockNr + inc)) (hQ : Q (-efbig) s) :
    wp ok (writeChunk buf blockNr inc ix off n) Q s := by
  unfold writeChunk
  rw [wp_bind]
  refine allocateBlock_big hL fun b => ?_
  simp only [wp_ite, wp_pure]
  exact ⟨fun _ => hQ, fun hn => absurd (show -efbig < 0 by decide) hn⟩

theorem writeChunk_neg {blockNr inc ix off n : ℤ} {Q : ℤ → FileState → Prop}
    (hL : toInt32 (blockNr + inc) < 0) : wp ok (writeChunk buf blockNr inc ix off n) Q s ↔ ok := by
  unfold writeChunk
  rw [wp_bind]
  exact allocateBlock_neg hL

/-! ### All blocks -/

/-- The write stops before block `l`: it is past the last block, or there is no space for it. -/
def Stop (F : Set ℤ) (s₁ : FileState) (l : ℕ) (r : ℤ) (s₂ : FileState) : Prop :=
  (maxFileBlocks ≤ l ∧ r = -efbig ∧ s₂ = s₁) ∨ (l < maxFileBlocks ∧ r = -enospc ∧ Failed F s₁ l s₂)

theorem Stop.neg (h : Stop F s₁ l r s₂) : r < 0 := by
  rcases h with ⟨-, rfl, -⟩ | ⟨-, rfl, -⟩ <;> decide

/-- The inode gets the size of the largest file. -/
def FileState.magic (s : FileState) : FileState :=
  (s.setDin fun d => { d with iSize := magicSize }).setDirty

/-- The number of blocks `writeRest` goes through. -/
def restCount (left : ℤ) : ℕ := if left ≤ blockSize then 1 else ((left + 8191) / 8192).toNat

theorem restCount_pos (left : ℤ) : 1 ≤ restCount left := by
  unfold restCount
  rw [blockSize_eq]
  split <;> omega

/-- A write of the blocks from `a` to `b` that starts at byte `lo` has stopped before block `l`.
The bytes of the blocks before are written. -/
def StoppedAt (F : Set ℤ) (s : FileState) (buf : Buf) (base : ℤ) (a l : ℕ) (lo r : ℤ)
    (s₂ : FileState) : Prop :=
  ∃ s₁, Written F s buf base a l lo (if l = a then lo else blockSize * l) s₁ ∧ Stop F s₁ l r s₂

/-- The write stops before the first block of its range. -/
theorem StoppedAt.first {a : ℕ} {lo : ℤ} (h : FileOK F s) (hs : Stop F s a r s₂) :
    StoppedAt F s buf base a a lo r s₂ := by
  refine ⟨s, ?_, hs⟩
  rw [if_pos rfl]
  exact Written.refl h ..

/-- The blocks up to `b` are written, and the write stops after that. -/
theorem StoppedAt.after {a b l : ℕ} {lo : ℤ}
    (hw : Written F s buf base a b lo (blockSize * b) s₁)
    (h : StoppedAt F s₁ buf base b l (blockSize * b) r s₂) (hab : a < b) (hbl : b ≤ l)
    (hlo : lo ≤ blockSize * b) : StoppedAt F s buf base a l lo r s₂ := by
  have hbs : (blockSize : ℤ) = 8192 := rfl
  obtain ⟨s₃, hw', hst⟩ := h
  have hhi : (if l = b then (blockSize : ℤ) * b else blockSize * l) = blockSize * l := by
    split
    · rename_i e
      rw [e]
    · rfl
  rw [hhi] at hw'
  refine ⟨s₃, ?_, hst⟩
  rw [if_neg (by omega)]
  exact hw.trans hw' hab.le hbl rfl hlo (by rw [hbs]; omega)

/-- What `writeRest` leads to from block `a` on: all blocks are written, or the write stops at
one of them; if that is the last, the file gets the size of the largest file. -/
def WroteRest (F : Set ℤ) (s : FileState) (buf : Buf) (base : ℤ) (a : ℕ) (left r : ℤ)
    (s' : FileState) : Prop :=
  (0 ≤ r ∧ 0 ≤ left ∧ Written F s buf base a (a + restCount left) (blockSize * a)
    (blockSize * a + left) s') ∨
  ∃ l s₂, a ≤ l ∧ l < a + restCount left ∧ StoppedAt F s buf base a l (blockSize * a) r s₂ ∧
    s' = if l + 1 = a + restCount left then s₂.magic else s₂

/-- One block is written, and then the others. -/
theorem WroteRest.after {a : ℕ} {left : ℤ} {s' : FileState} (hlong : (blockSize : ℤ) < left)
    (hw : Written F s buf base a (a + 1) (blockSize * a) (blockSize * (a + 1 : ℕ)) s₁)
    (h : WroteRest F s₁ buf base (a + 1) (left - blockSize) r s') :
    WroteRest F s buf base a left r s' := by
  have hbs : (blockSize : ℤ) = 8192 := rfl
  have hcount : restCount left = restCount (left - blockSize) + 1 := by
    unfold restCount
    rw [if_neg (not_le.2 hlong)]
    rw [hbs] at hlong ⊢
    split <;> omega
  rcases h with ⟨hr, hle, hw'⟩ | ⟨l, s₂, h1, h2, hst, rfl⟩
  · refine Or.inl ⟨hr, by rw [hbs] at hle; omega, ?_⟩
    have hfull := hw.trans hw' (by omega) (by omega) rfl (by rw [hbs]; omega)
      (by rw [hbs] at hle ⊢; omega)
    convert hfull using 1
    · omega
    · push_cast
      ring
  · refine Or.inr ⟨l, s₂, by omega, by omega, hst.after hw (by omega) h1 (by rw [hbs]; omega), ?_⟩
    rw [hcount]
    congr 1
    simp only [eq_iff_iff]
    omega

theorem writeRest_ok (h : FileOK F s) {blockNr ix : ℤ} {a : ℕ} (hL : toInt32 blockNr = a)
    (hix : 0 ≤ ix ∧ ix < blockSize) (left : ℤ) (inc : ℕ) (hinc : 1 ≤ inc)
    (hmax : a + inc ≤ maxFileBlocks)
    (hok : ok ∨ 0 ≤ left ∧ blockSize * (inc : ℤ) + left < 2 ^ 31 ∧
      ∀ i : ℕ, (i : ℤ) < blockSize * inc - ix + left → (buf.get i).isSome) :
    wp ok (writeRest buf blockNr ix left inc)
      (WroteRest F s buf (blockSize * a + ix) (a + inc) left) s := by
  have hbs : (blockSize : ℤ) = 8192 := rfl
  rw [hbs] at hix
  have hms := maxFileBlocks_eq
  -- induction on what is left, over the inode as it is then
  obtain ⟨m, hm⟩ : ∃ m : ℕ, m = left.toNat := ⟨_, rfl⟩
  induction m using Nat.strong_induction_on generalizing left inc s with
  | _ m ih =>
    have hLi : toInt32 (blockNr + inc) = (a + inc : ℕ) := by
      rw [toInt32_add hL (by omega) (by omega) (by omega)]
      push_cast; rfl
    have hbase : blockSize * ((a + inc : ℕ) : ℤ) + 0 =
        blockSize * (a : ℤ) + ix + (blockSize * (inc : ℤ) - ix) := by push_cast; ring
    have hpos := restCount_pos left
    unfold writeRest
    simp only
    by_cases hlong : (blockSize : ℤ) < left
    · -- a full block, and the others after it
      rw [if_pos hlong, wp_bind]
      have hstop : ∀ r s₂, Stop F s (a + inc) r s₂ → wp ok
          (if r < 0 then return r else writeRest buf blockNr ix (left - blockSize) (inc + 1))
          (WroteRest F s buf (blockSize * a + ix) (a + inc) left) s₂ := by
        intro r s₂ hs
        have hmore := restCount_pos (left - blockSize)
        have hcount : restCount left ≠ 1 := by
          unfold restCount
          rw [if_neg (not_le.2 hlong)]
          rw [hbs] at hlong
          omega
        rw [wp_ite]
        refine ⟨fun _ => ?_, fun hn => absurd hs.neg hn⟩
        rw [wp_pure]
        refine Or.inr ⟨a + inc, s₂, le_rfl, by omega, StoppedAt.first h hs, ?_⟩
        rw [if_neg (by omega)]
      rcases Nat.lt_or_ge (a + inc) maxFileBlocks with hlt | hge
      · refine wp_mono (writeChunk_ok h hlt hLi hbase (hok.imp_right ?_)) ?_
        · rintro ⟨h1, h2, h3⟩
          rw [hbs] at h2 h3 hlong ⊢
          exact ⟨by omega, by omega, le_rfl, by omega, by omega, fun i hi => h3 _ (by omega)⟩
        rintro r s₁ (⟨hr, -, hw⟩ | ⟨hr, hf⟩)
        · rw [wp_ite]
          refine ⟨fun hn => absurd hr hn.not_ge, fun _ => ?_⟩
          have hih := ih (left - blockSize).toNat (by rw [hbs] at hlong ⊢; omega) hw.file
            (left - blockSize) (inc + 1) (by omega) (by omega) (hok.imp_right fun ⟨h1, h2, h3⟩ => by
              rw [hbs] at h2 h3 hlong ⊢
              exact ⟨by omega, by push_cast; omega, fun i hi => h3 i (by push_cast at hi; omega)⟩) rfl
          rw [show ((inc + 1 : ℕ) : ℤ) = (inc : ℤ) + 1 by push_cast; rfl] at hih
          have hw1 : Written F s buf (blockSize * a + ix) (a + inc) (a + inc + 1)
              (blockSize * (a + inc : ℕ)) (blockSize * (a + inc + 1 : ℕ)) s₁ := by
            convert hw using 1
            · rw [add_zero]
            · push_cast; ring
          exact wp_mono hih fun r s' hrest => hrest.after hlong hw1
        · exact hstop r s₁ (Or.inr ⟨hlt, hr, hf⟩)
      · exact writeChunk_big (by rw [hLi]; exact_mod_cast hge) (hstop _ _ (Or.inl ⟨hge, rfl, rfl⟩))
    · -- the last block
      rw [if_neg hlong, wp_bind]
      have hcount : restCount left = 1 := by
        unfold restCount
        rw [if_pos (not_lt.1 hlong)]
      have hstop : ∀ r s₂, Stop F s (a + inc) r s₂ → wp ok
          (if r < 0 then do
            modify fun s => (s.setDin fun d => { d with iSize := magicSize }).setDirty
            return r
          else return r) (WroteRest F s buf (blockSize * a + ix) (a + inc) left) s₂ := by
        intro r s₂ hs
        rw [wp_ite]
        refine ⟨fun _ => ?_, fun hn => absurd hs.neg hn⟩
        rw [wp_bind, wp_modify, wp_pure]
        refine Or.inr ⟨a + inc, s₂, le_rfl, by omega, StoppedAt.first h hs, ?_⟩
        rw [if_pos (by rw [hcount])]
        rfl
      rcases Nat.lt_or_ge (a + inc) maxFileBlocks with hlt | hge
      · refine wp_mono (writeChunk_ok h hlt hLi hbase (hok.imp_right ?_)) ?_
        · rintro ⟨h1, h2, h3⟩
          rw [hbs] at h2 h3 hlong ⊢
          exact ⟨by omega, h1, le_rfl, by omega, by omega, fun i hi => h3 _ (by omega)⟩
        rintro r s₁ (⟨hr, hle, hw⟩ | ⟨hr, hf⟩)
        · rw [wp_ite]
          refine ⟨fun hn => absurd hr hn.not_ge, fun _ => (wp_pure _).2 (Or.inl ⟨hr, hle, ?_⟩)⟩
          rw [hcount]
          convert hw using 1 <;> rw [add_zero]
        · exact hstop r s₁ (Or.inr ⟨hlt, hr, hf⟩)
      · exact writeChunk_big (by rw [hLi]; exact_mod_cast hge) (hstop _ _ (Or.inl ⟨hge, rfl, rfl⟩))

/-- The number of blocks a write goes through. -/
def chunkCount (start size : ℤ) : ℕ :=
  if blockSize < toSize (start % blockSize + size) then
    1 + restCount (toInt32 (size - blockSize + start % blockSize))
  else 1

/-- The number of bytes a write that returns has copied. -/
def transferred (start size : ℤ) : ℤ :=
  if blockSize < toSize (start % blockSize + size) then
    blockSize - start % blockSize + toInt32 (size - blockSize + start % blockSize)
  else size

theorem transferred_eq {start size : ℤ} (hs : 0 ≤ size) (h : size ≤ 2 ^ 31) :
    transferred start size = size := by
  have hbs : (blockSize : ℤ) = 8192 := rfl
  have h1 := Int.emod_nonneg start (show (8192 : ℤ) ≠ 0 by decide)
  have h2 := Int.emod_lt_of_pos start (show (0 : ℤ) < 8192 by decide)
  unfold transferred
  rw [hbs]
  split
  · rw [toInt32_of_lt (by omega) (by omega)]
    omega
  · rfl

/-- A write ends at the block of its last byte. -/
theorem chunkCount_eq {start size : ℕ} (h0 : 0 < size) (h : size ≤ 2 ^ 31) :
    start / blockSize + chunkCount start size = (start + size - 1) / blockSize + 1 := by
  have hbs : (blockSize : ℤ) = 8192 := rfl
  unfold chunkCount restCount
  rw [hbs, toSize_of_lt (by omega) (by omega), blockSize_eq]
  split
  · rw [toInt32_of_lt (by omega) (by omega)]
    split <;> omega
  · omega

theorem chunkCount_pos (start size : ℤ) : 1 ≤ chunkCount start size := by
  unfold chunkCount
  split <;> omega

/-- The end of a write: the file grows, and its inode is dirty. -/
def FileState.grow (start size : ℤ) (s : FileState) : FileState :=
  if 0 < size then
    (s.setDin fun d => { d with iSize := max s.ino.din.iSize (start + size) }).setDirty
  else s.setDirty

theorem writeDone_ok {start size : ℤ} {Q : ℤ → FileState → Prop} (hok : ok ∨ start + size < 2 ^ 63)
    (hQ : (0 < size → start + size < 2 ^ 63) → Q (toInt32 size) (s.grow start size)) :
    wp ok (writeDone start size) Q s := by
  unfold writeDone
  unfold FileState.grow at hQ
  by_cases hs : 0 < size
  · rw [if_pos hs] at hQ
    simp only [wp_bind, wp_getState, wp_ite, wp_require, wp_modify, wp_pure]
    exact ⟨fun _ => ⟨fun hlt => hQ fun _ => hlt, fun hn => hok.resolve_right hn⟩,
      fun hn => absurd hs hn⟩
  · rw [if_neg hs] at hQ
    simp only [wp_bind, wp_getState, wp_ite, wp_modify, wp_pure]
    exact ⟨fun hn => absurd hn hs, fun _ => hQ fun hp => absurd hp hs⟩

/-- **What `testfs_write_data` does.** All blocks are written and the file grows, or the write
stops at the first block that cannot be allocated. When that is the last of several, the file
gets the size of the largest file. -/
theorem writeData_ok (h : FileOK F s) {start size : ℤ} {a : ℕ} (h0 : 0 ≤ start) (hs : 0 ≤ size)
    (hL : toInt32 (start / blockSize) = a)
    (hok : ok ∨ size < 2 ^ 31 - 8192 ∧ start + size < 2 ^ 63 ∧
      ∀ i : ℕ, (i : ℤ) < size → (buf.get i).isSome) :
    wp ok (testfsWriteData buf start size) (fun r s' =>
      (r = toInt32 size ∧ (0 < size → start + size < 2 ^ 63) ∧
        ∃ s₁, Written F s buf (blockSize * a + start % blockSize) a
          (a + chunkCount start size) (blockSize * a + start % blockSize)
          (blockSize * a + start % blockSize + transferred start size) s₁ ∧
        s' = s₁.grow start size) ∨
      ∃ l s₂, a ≤ l ∧ l < a + chunkCount start size ∧
        StoppedAt F s buf (blockSize * a + start % blockSize) a l (blockSize * a + start % blockSize)
          r s₂ ∧
        s' = if a < l ∧ l + 1 = a + chunkCount start size then s₂.magic else s₂) s := by
  have hbs : (blockSize : ℤ) = 8192 := rfl
  have hdiv : start.tdiv blockSize = start / blockSize := Int.tdiv_eq_ediv_of_nonneg h0
  have hmod : start.tmod blockSize = start % blockSize := Int.tmod_eq_emod_of_nonneg h0
  have hix0 : 0 ≤ start % blockSize := Int.emod_nonneg start (by rw [hbs]; decide)
  have hix1 : start % blockSize < blockSize := Int.emod_lt_of_pos start (by rw [hbs]; decide)
  set ix := start % blockSize with hix
  have hL0 : toInt32 (start / blockSize + 0) = a := by rw [add_zero]; exact hL
  have hbase : (blockSize : ℤ) * a + ix = blockSize * a + ix + 0 := (add_zero _).symm
  have hfirst : ∀ r s₂, Stop F s a r s₂ →
      StoppedAt F s buf (blockSize * a + ix) a a (blockSize * a + ix) r s₂ :=
    fun r s₂ hst => ⟨s, by rw [if_pos rfl]; exact Written.refl h .., hst⟩
  have hpos := chunkCount_pos start size
  -- a write that stops at its first block leaves the size alone
  have hstop : ∀ r s₂, Stop F s a r s₂ → ∀ c : Prog FileState ℤ, wp ok (if r < 0 then return r else c)
      (fun r s' =>
        (r = toInt32 size ∧ (0 < size → start + size < 2 ^ 63) ∧
          ∃ s₁, Written F s buf (blockSize * a + ix) a (a + chunkCount start size)
            (blockSize * a + ix) (blockSize * a + ix + transferred start size) s₁ ∧
          s' = s₁.grow start size) ∨
        ∃ l s₂, a ≤ l ∧ l < a + chunkCount start size ∧
          StoppedAt F s buf (blockSize * a + ix) a l (blockSize * a + ix) r s₂ ∧
          s' = if a < l ∧ l + 1 = a + chunkCount start size then s₂.magic else s₂) s₂ := by
    intro r s₂ hst c
    rw [wp_ite]
    refine ⟨fun _ => (wp_pure _).2 (Or.inr ⟨a, s₂, le_rfl, by omega, hfirst r s₂ hst, ?_⟩),
      fun hn => absurd hst.neg hn⟩
    rw [if_neg (fun hh => absurd hh.1 (lt_irrefl a))]
  unfold testfsWriteData
  simp only [hdiv, hmod]
  by_cases hbig : (blockSize : ℤ) < toSize (ix + size)
  · have hsz : (blockSize : ℤ) < ix + size :=
      hbig.trans_le (by unfold toSize; omega)
    have hcount : chunkCount start size = 1 + restCount (toInt32 (size - blockSize + ix)) := by
      unfold chunkCount; rw [← hix, if_pos hbig]
    have htr : transferred start size = blockSize - ix + toInt32 (size - blockSize + ix) := by
      unfold transferred; rw [← hix, if_pos hbig]
    rw [if_pos hbig, wp_bind]
    rcases Nat.lt_or_ge a maxFileBlocks with hlt | hge
    · refine wp_mono (writeChunk_ok h hlt hL0 hbase (hok.imp_right ?_)) ?_
      · rintro ⟨h1, h2, h3⟩
        rw [hbs] at hix1 hsz ⊢
        exact ⟨by decide, by omega, hix0, by omega, le_rfl, fun i hi => h3 _ (by omega)⟩
      rintro r s₁ (⟨hr, -, hw⟩ | ⟨hr, hf⟩)
      · rw [wp_ite]
        refine ⟨fun hn => absurd hr hn.not_ge, fun _ => ?_⟩
        rw [wp_bind]
        have hw1 : Written F s buf (blockSize * a + ix) a (a + 1) (blockSize * a + ix)
            (blockSize * (a + 1 : ℕ)) s₁ := by
          convert hw using 1
          push_cast; ring
        refine wp_mono (writeRest_ok hw.file hL ⟨hix0, hix1⟩ (toInt32 (size - blockSize + ix)) 1 le_rfl
          hlt (hok.imp_right fun ⟨h1, h2, h3⟩ => by
            rw [hbs] at hix1 hsz ⊢
            rw [toInt32_of_lt (by omega) (by omega)]
            exact ⟨by omega, by omega, fun i hi => h3 i (by omega)⟩)) ?_
        rintro r s' (⟨hr', hle, hw'⟩ | ⟨l, s₂, h1, h2, ⟨s₃, hw', hst⟩, rfl⟩)
        · rw [wp_ite]
          refine ⟨fun hn => absurd hr' hn.not_ge, fun _ =>
            writeDone_ok (hok.imp_right fun hh => hh.2.1) fun hlt => Or.inl ⟨rfl, hlt, s', ?_, rfl⟩⟩
          have hfull := hw1.trans hw' (by omega) (by omega) rfl (by rw [hbs] at hix1 ⊢; omega)
            (by omega)
          rw [hcount, htr]
          convert hfull using 1
          · omega
          · push_cast; ring
        · have hhi : (if l = a + 1 then (blockSize : ℤ) * (a + 1 : ℕ) else blockSize * l) =
              blockSize * l := by
            split
            · rename_i e; rw [e]
            · rfl
          rw [hhi] at hw'
          rw [wp_ite]
          refine ⟨fun _ => (wp_pure _).2 (Or.inr ⟨l, s₂, by omega, by omega, ⟨s₃, ?_, hst⟩, ?_⟩),
            fun hn => absurd hst.neg hn⟩
          · rw [if_neg (by omega)]
            exact hw1.trans hw' (by omega) h1 rfl (by rw [hbs] at hix1 ⊢; omega)
              (by rw [hbs]; omega)
          · rw [hcount]
            congr 1
            simp only [eq_iff_iff]
            omega
      · exact hstop r s₁ (Or.inr ⟨hlt, hr, hf⟩) _
    · exact writeChunk_big (by rw [hL0]; exact_mod_cast hge) (hstop _ _ (Or.inl ⟨hge, rfl, rfl⟩) _)
  · have hcount : chunkCount start size = 1 := by unfold chunkCount; rw [← hix, if_neg hbig]
    have htr : transferred start size = size := by unfold transferred; rw [← hix, if_neg hbig]
    rw [if_neg hbig, wp_bind]
    rcases Nat.lt_or_ge a maxFileBlocks with hlt | hge
    · refine wp_mono (writeChunk_ok h hlt hL0 hbase (hok.imp_right ?_)) ?_
      · rintro ⟨h1, h2, h3⟩
        rw [hbs] at hix1 hbig ⊢
        rw [toSize_of_lt (by omega) (by omega)] at hbig
        exact ⟨by decide, hs, hix0, by omega, le_rfl, fun i hi => h3 _ (by omega)⟩
      rintro r s₁ (⟨hr, -, hw⟩ | ⟨hr, hf⟩)
      · rw [wp_ite]
        refine ⟨fun hn => absurd hr hn.not_ge, fun _ =>
          writeDone_ok (hok.imp_right fun hh => hh.2.1) fun hlt => Or.inl ⟨rfl, hlt, s₁, ?_, rfl⟩⟩
        rw [hcount, htr]
        exact hw
      · exact hstop r s₁ (Or.inr ⟨hlt, hr, hf⟩) _
    · exact writeChunk_big (by rw [hL0]; exact_mod_cast hge) (hstop _ _ (Or.inl ⟨hge, rfl, rfl⟩) _)

/-- A write whose block number is negative as an `int` aborts. -/
theorem writeData_neg {start size : ℤ} {Q : ℤ → FileState → Prop} (h0 : 0 ≤ start)
    (hL : toInt32 (start / blockSize) < 0) : wp ok (testfsWriteData buf start size) Q s ↔ ok := by
  have hdiv : start.tdiv blockSize = start / blockSize := Int.tdiv_eq_ediv_of_nonneg h0
  have hL0 : toInt32 (start / blockSize + 0) < 0 := by rwa [add_zero]
  unfold testfsWriteData
  simp only [hdiv]
  split
  · rw [wp_bind, writeChunk_neg hL0]
  · rw [wp_bind, writeChunk_neg hL0]

end OSLab.Fs
