import OSLab.Fs.Proof.Allocate

/-!
# Freeing the blocks of a file

`testfs_free_blocks` works from the size of the file: it frees the slots `Below` the end.
`freeBlocks_ok`: it does so whenever a file that reaches past the first block of the double
indirect part has a double indirect table, and otherwise it never returns.
-/

namespace OSLab.Fs

open Prog

variable {F : Set ℤ} {s s' s₁ s₂ t : FileState} {D : Set Slot} {p e : ℤ} {sl : Slot} {ok : Prop}
  {i j k : ℕ} {blk : Block} {readTable : ℤ → Prog FileState Block}

/-- The slots of `D` of the file `s` have been given back. -/
structure Freed (F : Set ℤ) (s : FileState) (D : Set Slot) (t : FileState) : Prop where
  holds : ∃ own : Slot → ℤ, (∀ sl ∈ D, own sl = 0) ∧ (∀ sl ∉ D, own sl = s.ptr sl) ∧ Holds F own t
  sub : t.sb.live ⊆ s.sb.live
  data : ∀ b ∈ t.sb.live, t.sb.dev.data b = s.sb.dev.data b
  iType : t.ino.din.iType = s.ino.din.iType
  frame : FileFrame F s t

namespace Freed

theorem refl (h : FileOK F s) : Freed F s ∅ s :=
  ⟨⟨s.ptr, fun _ hs => absurd hs (Set.notMem_empty _), fun _ _ => rfl, h.toHolds⟩, subset_rfl,
    fun _ _ => rfl, rfl, FileFrame.refl _ _⟩

theorem super (h : Freed F s D t) : SuperOK t.sb := by
  obtain ⟨_, -, -, ho⟩ := h.holds
  exact ho.super

/-- A slot that has not been given back still holds its block. -/
theorem mem (h : Freed F s D t) (hsl : sl ∉ D) (h0 : s.ptr sl ≠ 0) : s.ptr sl ∈ t.sb.live := by
  obtain ⟨own, -, h2, ho⟩ := h.holds
  have := h2 sl hsl
  exact this ▸ (ho.owns.mem (this ▸ h0)).1

/-- An operation on the inode only. -/
theorem setDin (h : Freed F s D t) {f : DInode → DInode} (hd : t.ino.dirty = true)
    (hc : (f t.ino.din).blockCount = t.ino.din.blockCount)
    (hT : (f t.ino.din).iType = t.ino.din.iType) : Freed F s D (t.setDin f) := by
  obtain ⟨own, h1, h2, ho⟩ := h.holds
  exact ⟨⟨own, h1, h2, ho.congr ho.super rfl hc⟩, h.sub, h.data, hT.trans h.iType,
    h.frame.setDin hd f⟩

theorem mono (h : Freed F s D t) {D' : Set Slot} (hs : D ⊆ D')
    (h0 : ∀ sl ∈ D', sl ∉ D → s.ptr sl = 0) : Freed F s D' t := by
  obtain ⟨own, h1, h2, ho⟩ := h.holds
  refine ⟨⟨own, fun sl hsl => ?_, fun sl hsl => h2 sl fun hD => hsl (hs hD), ho⟩, h.sub, h.data,
    h.iType, h.frame⟩
  by_cases hD : sl ∈ D
  · exact h1 sl hD
  · rw [h2 sl hD, h0 sl hsl hD]

end Freed

/-- The inode after blocks were freed: only the count and the flag differ. -/
def SameSlots (t t' : FileState) : Prop :=
  ∃ n, t'.ino.din = { t.ino.din with blockCount := n }

theorem SameSlots.refl (t : FileState) : SameSlots t t := ⟨t.ino.din.blockCount, rfl⟩

theorem SameSlots.trans {t t' t'' : FileState} (h : SameSlots t t') (h' : SameSlots t' t'') :
    SameSlots t t'' := by
  obtain ⟨n, hn⟩ := h
  obtain ⟨m, hm⟩ := h'
  exact ⟨m, by rw [hm, hn]⟩

/-- **One slot is given back.** An empty slot is skipped. -/
theorem freeSlot_ok (h : Freed F s D t) (hsl : sl ∉ D) (hp : p = s.ptr sl) :
    wp ok (testfsFreeBlockFromInode p) (fun _ t' => Freed F s (insert sl D) t' ∧ SameSlots t t' ∧
      (p ≠ 0 → t'.ino.dirty = true)) t := by
  by_cases h0 : p = 0
  · subst h0
    rw [freeFromInode_zero]
    refine ⟨h.mono (Set.subset_insert _ _) ?_, SameSlots.refl t, fun hn => absurd rfl hn⟩
    rintro sl' (rfl | hsl') hn
    · exact hp.symm
    · exact absurd hsl' hn
  · refine wp_mono (freeFromInode_ok h.super (Or.inr (hp ▸ h.mem hsl (hp ▸ h0))) h0) ?_
    intro _ t' hg
    obtain ⟨own, h1, h2, ho⟩ := h.holds
    have howns : own sl = p := (h2 sl hsl).trans hp.symm
    refine ⟨⟨⟨_, fun sl' hsl' => ?_, fun sl' hsl' => ?_, ho.gave hg howns h0⟩, ?_, fun b hb => ?_, ?_,
      ?_⟩, ⟨_, by rw [hg.ino]; rfl⟩, fun _ => hg.dirty⟩
    · by_cases he : sl' = sl
      · rw [he, Function.update_self]
      · rw [Function.update_of_ne he]
        exact h1 sl' (hsl'.resolve_left he)
    · have hne : sl' ≠ sl := fun e => hsl' (Or.inl e)
      rw [Function.update_of_ne hne]
      exact h2 sl' fun hD => hsl' (Or.inr hD)
    · rw [hg.gave.live]; exact Set.sdiff_subset.trans h.sub
    · have hb' := hb
      rw [hg.gave.live] at hb'
      rw [hg.data (live_ge h.super hb'.1) hb'.2, h.data b hb'.1]
    · rw [hg.ino]; exact h.iType
    · exact h.frame.trans (hg.fileFrame (howns ▸ ho.ge (howns ▸ h0)) (howns ▸ ho.notF (howns ▸ h0)))

/-! ### The slots below the end -/

/-- The slots that `testfs_free_blocks` gives back in a file of `e` blocks. -/
def Below (e : ℤ) : Slot → Prop
  | .direct k => (k : ℤ) < e
  | .indirect => True
  | .ind k => (indStart + k : ℤ) < e
  | .dindirect => (dindStart : ℤ) ≤ e
  | .dind i => (dindStart + nrIndirectBlocks * i : ℤ) < e
  | .dent i j => (dindStart + nrIndirectBlocks * i + j : ℤ) < e

theorem freeDirect_ok (h : FileOK F s) (e : ℤ) :
    wp ok (freeDirect e) (fun _ t => Freed F s {sl | ∃ k < nrDirectBlocks, sl = .direct k ∧ (k : ℤ) < e} t ∧
      t.ino.din.iIndirect = s.ino.din.iIndirect ∧ t.ino.din.iDindirect = s.ino.din.iDindirect ∧
      t.ino.din.iSize = s.ino.din.iSize) s := by
  unfold freeDirect
  -- the invariant: the direct blocks before `n` are free, and the fields are as they were
  refine wp_mono (wp_forRange (fun n t => Freed F s {sl | ∃ k < n, sl = .direct k ∧ (k : ℤ) < e} t ∧
    (∀ k, n ≤ k → t.ino.din.blockNr k = s.ino.din.blockNr k) ∧
    t.ino.din.iIndirect = s.ino.din.iIndirect ∧ t.ino.din.iDindirect = s.ino.din.iDindirect ∧
      t.ino.din.iSize = s.ino.din.iSize) ?_ ?_) ?_
  · refine ⟨(Freed.refl h).mono (Set.empty_subset _) ?_, fun _ _ => rfl, rfl, rfl, rfl⟩
    rintro sl ⟨k, hk, -⟩
    omega
  · rintro n t hn ⟨hf, hb, hi, hd, hS⟩
    have hsub : {sl | ∃ k < n, sl = Slot.direct k ∧ (k : ℤ) < e} ⊆
        {sl | ∃ k < n + 1, sl = Slot.direct k ∧ (k : ℤ) < e} := by
      rintro sl ⟨k, hk, he⟩
      exact ⟨k, by omega, he⟩
    simp only [wp_bind, wp_getState, wp_ite, wp_pure]
    have hbn : t.ino.din.blockNr n = s.ptr (.direct n) := hb n le_rfl
    refine ⟨fun hc => ?_, fun hc => ⟨hf.mono hsub ?_, fun k hk => hb k (by omega), hi, hd, hS⟩⟩
    · have hnot : Slot.direct n ∉ {sl | ∃ k < n, sl = Slot.direct k ∧ (k : ℤ) < e} := by
        rintro ⟨k, hk, he, -⟩
        cases he
        omega
      refine wp_mono (freeSlot_ok hf hnot hbn) ?_
      rintro _ t' ⟨hf', ⟨m, hm⟩, hdirty⟩
      rw [wp_modify]
      refine ⟨(hf'.mono ?_ ?_).setDin (hdirty hc.2) rfl rfl, fun k hk => ?_, ?_, ?_, ?_⟩
      · rintro sl (rfl | ⟨k, hk, he⟩)
        · exact ⟨n, by omega, rfl, hc.1⟩
        · exact ⟨k, by omega, he⟩
      · rintro sl ⟨k, hk, rfl, he⟩ hno
        rw [Set.mem_insert_iff, not_or] at hno
        rcases Nat.lt_or_ge k n with hkn | hkn
        · exact absurd ⟨k, hkn, rfl, he⟩ hno.2
        · obtain rfl : k = n := by omega
          exact absurd rfl hno.1
      · have hkn : k ≠ n := by omega
        rw [← hb k (by omega)]
        show (t'.ino.din.setBlockNr n 0).blockNr k = _
        rw [hm]
        unfold DInode.blockNr DInode.setBlockNr
        simp [hkn]
      · show t'.ino.din.iIndirect = _
        rw [hm]; exact hi
      · show t'.ino.din.iDindirect = _
        rw [hm]; exact hd
      · show t'.ino.din.iSize = _
        rw [hm]; exact hS
    · rintro sl ⟨k, hk, rfl, he⟩ hno
      rcases Nat.lt_or_ge k n with hkn | hkn
      · exact absurd ⟨k, hkn, rfl, he⟩ hno
      · obtain rfl : k = n := by omega
        -- the test skips an entry only when it is empty or past the end
        by_contra h0
        exact hc ⟨he, by rw [hbn]; exact h0⟩
  · rintro _ t ⟨hf, -, hi, hd, hS⟩
    exact ⟨hf, hi, hd, hS⟩

/-- The entries of a table, held by the slots `f k`. -/
theorem freeEntries_ok (h : Freed F s D t) {f : ℕ → Slot} (hf : Function.Injective f)
    (hD : ∀ k, f k ∉ D) (hw : ∀ k < nrIndirectBlocks, blk.word k = s.ptr (f k)) (e : ℤ) :
    wp ok (freeEntries blk e) (fun _ t' =>
      Freed F s (D ∪ {sl | ∃ k < nrIndirectBlocks, sl = f k ∧ (k : ℤ) < e}) t' ∧ SameSlots t t') t := by
  unfold freeEntries
  refine wp_forRange (fun n t' =>
    Freed F s (D ∪ {sl | ∃ k < n, sl = f k ∧ (k : ℤ) < e}) t' ∧ SameSlots t t') ?_ ?_
  · refine ⟨h.mono Set.subset_union_left ?_, SameSlots.refl t⟩
    rintro sl (hsl | ⟨k, hk, -⟩) hn
    · exact absurd hsl hn
    · omega
  · rintro n t' hn ⟨hfr, hs⟩
    have hsub : D ∪ {sl | ∃ k < n, sl = f k ∧ (k : ℤ) < e} ⊆
        D ∪ {sl | ∃ k < n + 1, sl = f k ∧ (k : ℤ) < e} := by
      rintro sl (hsl | ⟨k, hk, he⟩)
      · exact Or.inl hsl
      · exact Or.inr ⟨k, by omega, he⟩
    rw [wp_ite]
    refine ⟨fun hc => ?_, fun hc => (wp_pure _).2 ⟨hfr.mono hsub ?_, hs⟩⟩
    · have hnot : f n ∉ D ∪ {sl | ∃ k < n, sl = f k ∧ (k : ℤ) < e} := by
        rintro (hsl | ⟨k, hk, he, -⟩)
        · exact hD n hsl
        · have := hf he
          omega
      refine wp_mono (freeSlot_ok hfr hnot (hw n hn)) ?_
      rintro _ t'' ⟨hfr', hs', -⟩
      refine ⟨hfr'.mono ?_ ?_, hs.trans hs'⟩
      · rintro sl (rfl | hsl)
        · exact Or.inr ⟨n, by omega, rfl, hc⟩
        · exact hsub hsl
      · rintro sl (hsl | ⟨k, hk, rfl, he⟩) hno
        · exact absurd (Or.inr (Or.inl hsl)) hno
        · rcases Nat.lt_or_ge k n with hkn | hkn
          · exact absurd (Or.inr (Or.inr ⟨k, hkn, rfl, he⟩)) hno
          · obtain rfl : k = n := by omega
            exact absurd (Or.inl rfl) hno
    · rintro sl (hsl | ⟨k, hk, rfl, he⟩) hno
      · exact absurd (Or.inl hsl) hno
      · rcases Nat.lt_or_ge k n with hkn | hkn
        · exact absurd (Or.inr ⟨k, hkn, rfl, he⟩) hno
        · obtain rfl : k = n := by omega
          exact absurd he hc

/-- How a table that belongs to the file is read. -/
def ReadsTable (ok : Prop) (readTable : ℤ → Prog FileState Block) : Prop :=
  ∀ (t : FileState) (p : ℤ) (Q : Block → FileState → Prop), SuperOK t.sb → p ∈ t.sb.live →
    p < t.sb.dev.len → Q (t.sb.dev.data p) t → wp ok (readTable p) Q t

/-- The table in a slot that has not been given back is as at the start. -/
theorem Freed.read (h : Freed F s D t) (hs : FileOK F s) (hr : ReadsTable ok readTable)
    (hsl : sl ∉ D) (h0 : s.ptr sl ≠ 0) {Q : Block → FileState → Prop}
    (hQ : Q (s.sb.dev.data (s.ptr sl)) t) : wp ok (readTable (s.ptr sl)) Q t := by
  have hm := h.mem hsl h0
  refine hr t _ Q h.super hm ?_ (by rw [h.data _ hm]; exact hQ)
  exact (hs.inDev _ (hs.owns.mem h0)).trans_le h.frame.frame.len

theorem freeIndirect_ok (hs : FileOK F s) (h : Freed F s D t) (hr : ReadsTable ok readTable)
    (hD : Slot.indirect ∉ D ∧ ∀ k, Slot.ind k ∉ D) (hi : t.ino.din.iIndirect = s.ino.din.iIndirect)
    (e : ℤ) :
    wp ok (freeIndirect readTable e) (fun _ t' =>
      Freed F s (D ∪ {sl | sl = .indirect ∨ ∃ k < nrIndirectBlocks, sl = .ind k ∧ (k : ℤ) < e}) t' ∧
      t'.ino.din.iDindirect = t.ino.din.iDindirect ∧ t'.ino.din.iSize = t.ino.din.iSize) t := by
  have hip : s.ino.din.iIndirect = s.ptr .indirect := rfl
  simp only [freeIndirect, wp_bind, wp_getState, wp_ite, wp_pure, hi, hip]
  refine ⟨fun hp => ?_, fun hp => ⟨h.mono Set.subset_union_left ?_, trivial, trivial⟩⟩
  · -- first the entries of the table, then the table
    have h0 : s.ptr .indirect ≠ 0 := hp.ne'
    refine h.read hs hr hD.1 h0 ?_
    have hw : ∀ k < nrIndirectBlocks, (s.sb.dev.data (s.ptr .indirect)).word k = s.ptr (.ind k) := by
      intro k hk
      show _ = entry _ _ _
      rw [entry, if_pos ⟨h0, hk⟩]
      rfl
    refine wp_mono (freeEntries_ok h (f := Slot.ind) (fun a b he => by cases he; rfl) hD.2 hw e) ?_
    rintro _ t₁ ⟨h₁, m, hm⟩
    have hnot : Slot.indirect ∉ D ∪ {sl | ∃ k < nrIndirectBlocks, sl = Slot.ind k ∧ (k : ℤ) < e} := by
      rintro (hsl | ⟨k, -, he, -⟩)
      · exact hD.1 hsl
      · cases he
    have hi₁ : t₁.ino.din.iIndirect = s.ptr .indirect := by rw [hm]; exact hi
    rw [hi₁]
    refine wp_mono (freeSlot_ok h₁ hnot rfl) ?_
    rintro _ t₂ ⟨h₂, ⟨m', hm'⟩, hd⟩
    rw [wp_modify]
    refine ⟨(h₂.mono ?_ ?_).setDin (hd h0) rfl rfl, ?_, ?_⟩
    · rintro sl (rfl | hsl | hsl)
      · exact Or.inr (Or.inl rfl)
      · exact Or.inl hsl
      · exact Or.inr (Or.inr hsl)
    · rintro sl (hsl | rfl | hsl) hno
      · exact absurd (Or.inr (Or.inl hsl)) hno
      · exact absurd (Or.inl rfl) hno
      · exact absurd (Or.inr (Or.inr hsl)) hno
    · show t₂.ino.din.iDindirect = _
      rw [hm', hm]
    · show t₂.ino.din.iSize = _
      rw [hm', hm]
  · -- no table: nothing is held in it
    have h0 : s.ptr .indirect = 0 := by
      by_contra hn
      exact hp ((hs.pos .indirect).2 hn)
    rintro sl (hsl | rfl | ⟨k, -, rfl, -⟩) hno
    · exact absurd hsl hno
    · exact h0
    · show entry _ (s.ptr .indirect) _ = 0
      rw [h0, entry_zero]

/-- The slots that the loop over the double indirect table has given back after `n` entries. -/
def doubleSlots (n : ℕ) (e : ℤ) : Set Slot :=
  {sl | ∃ i < n, (nrIndirectBlocks * i : ℤ) < e ∧
    (sl = .dind i ∨ ∃ j < nrIndirectBlocks, sl = .dent i j ∧ (j : ℤ) < e - nrIndirectBlocks * i)}

theorem freeSecondLevel_ok (hs : FileOK F s) (h : Freed F s D t) (hr : ReadsTable ok readTable)
    (hD : ∀ i, Slot.dind i ∉ D ∧ ∀ j, Slot.dent i j ∉ D) (h0 : s.ptr .dindirect ≠ 0) (e : ℤ) :
    wp ok (freeSecondLevel readTable (s.sb.dev.data (s.ptr .dindirect)) e) (fun _ t' =>
      Freed F s (D ∪ doubleSlots nrIndirectBlocks e) t' ∧ SameSlots t t') t := by
  have hnr : (nrIndirectBlocks : ℤ) = 2048 := rfl
  unfold freeSecondLevel
  -- the invariant: the tables before `n` are free, and the counter is where the code has it
  refine wp_mono (wp_forAcc (fun n counter t' => Freed F s (D ∪ doubleSlots n e) t' ∧ SameSlots t t' ∧
    (counter < e → counter = nrIndirectBlocks * n) ∧ (e ≤ counter → e ≤ nrIndirectBlocks * n)) ?_ ?_)
    fun _ _ hh => ⟨hh.1, hh.2.1⟩
  · refine ⟨h.mono Set.subset_union_left ?_, SameSlots.refl t, fun _ => by simp, fun hh => by simpa using hh⟩
    rintro sl (hsl | ⟨i, hi, -⟩) hn
    · exact absurd hsl hn
    · omega
  · rintro n counter t' hn ⟨hf, hss, hc1, hc2⟩
    -- the code reads entry `n` of the double indirect table
    have hw : (s.sb.dev.data (s.ptr .dindirect)).word n = s.ptr (.dind n) := by
      show _ = entry _ _ _
      rw [entry, if_pos ⟨h0, hn⟩]
      rfl
    have hsub : D ∪ doubleSlots n e ⊆ D ∪ doubleSlots (n + 1) e := by
      rintro sl (hsl | ⟨i, hi, he⟩)
      · exact Or.inl hsl
      · exact Or.inr ⟨i, by omega, he⟩
    simp only [wp_ite, wp_bind, wp_pure, hw]
    refine ⟨fun hlt => ?_, fun hge => ⟨hf.mono hsub ?_, hss, fun hh => absurd hh hge, fun hh => ?_⟩⟩
    · have hcn := hc1 hlt
      refine ⟨fun hz => ⟨hf.mono hsub ?_, hss, fun _ => ?_, fun _ => ?_⟩, fun hz => ?_⟩
      · -- the entry is empty
        have hz' : s.ptr (.dind n) = 0 := le_antisymm hz (hs.nonneg _)
        rintro sl (hsl | ⟨i, hi, he, hsl⟩) hno
        · exact absurd (Or.inl hsl) hno
        · rcases Nat.lt_or_ge i n with hin | hin
          · exact absurd (Or.inr ⟨i, hin, he, hsl⟩) hno
          · obtain rfl : i = n := by omega
            rcases hsl with rfl | ⟨j, -, rfl, -⟩
            · exact hz'
            · show entry _ (s.ptr (.dind i)) _ = 0
              rw [hz', entry_zero]
      · rw [hcn]; push_cast; ring
      · rw [hcn] at *; rw [hnr] at *; push_cast; omega
      · have hz' : s.ptr (.dind n) ≠ 0 := by omega
        -- neither the table nor its entries were freed before
        have hnotd : Slot.dind n ∉ D ∪ doubleSlots n e := by
          rintro (hsl | ⟨i, hi, -, hsl | ⟨j, -, hsl, -⟩⟩)
          · exact (hD n).1 hsl
          · cases hsl; omega
          · cases hsl
        have hnote : ∀ j, Slot.dent n j ∉ D ∪ doubleSlots n e := by
          rintro j (hsl | ⟨i, hi, -, hsl | ⟨j', -, hsl, -⟩⟩)
          · exact (hD n).2 j hsl
          · cases hsl
          · cases hsl; omega
        refine hf.read hs hr hnotd hz' ?_
        have hwe : ∀ k < nrIndirectBlocks,
            (s.sb.dev.data (s.ptr (.dind n))).word k = s.ptr (.dent n k) := by
          intro k hk
          show _ = entry _ (s.ptr (.dind n)) _
          rw [entry, if_pos ⟨hz', hk⟩]
        -- first its entries
        refine wp_mono (freeEntries_ok hf (f := Slot.dent n) (fun a b he => by cases he; rfl) hnote hwe
          (e - counter)) ?_
        rintro _ t₁ ⟨h₁, hs₁⟩
        have hnot : Slot.dind n ∉ D ∪ doubleSlots n e ∪
            {sl | ∃ k < nrIndirectBlocks, sl = Slot.dent n k ∧ (k : ℤ) < e - counter} := by
          rintro (hsl | ⟨k, -, hsl, -⟩)
          · exact hnotd hsl
          · cases hsl
        -- then the table itself
        refine wp_mono (freeSlot_ok h₁ hnot rfl) ?_
        rintro _ t₂ ⟨h₂, hs₂, -⟩
        refine ⟨h₂.mono ?_ ?_, hss.trans (hs₁.trans hs₂), fun hh => ?_, fun hh => ?_⟩
        · rintro sl (rfl | hsl | ⟨k, hk, rfl, hke⟩)
          · exact Or.inr ⟨n, by omega, by rw [← hcn]; exact hlt, Or.inl rfl⟩
          · exact hsub hsl
          · exact Or.inr ⟨n, by omega, by rw [← hcn]; exact hlt,
              Or.inr ⟨k, hk, rfl, by rw [← hcn]; exact hke⟩⟩
        · rintro sl (hsl | ⟨i, hi, he, hsl⟩) hno
          · exact absurd (Or.inr (Or.inl (Or.inl hsl))) hno
          · rcases Nat.lt_or_ge i n with hin | hin
            · exact absurd (Or.inr (Or.inl (Or.inr ⟨i, hin, he, hsl⟩))) hno
            · obtain rfl : i = n := by omega
              rcases hsl with rfl | ⟨j, hj, rfl, hje⟩
              · exact absurd (Or.inl rfl) hno
              · exact absurd (Or.inr (Or.inr ⟨j, hj, rfl, by rw [hcn]; exact hje⟩)) hno
        · rw [hcn] at hh ⊢
          rw [hnr] at *
          push_cast
          omega
        · rw [hcn] at hh
          rw [hnr] at *
          push_cast
          omega
    · rintro sl (hsl | ⟨i, hi, he, hsl⟩) hno
      · exact absurd (Or.inl hsl) hno
      · rcases Nat.lt_or_ge i n with hin | hin
        · exact absurd (Or.inr ⟨i, hin, he, hsl⟩) hno
        · obtain rfl : i = n := by omega
          have := hc2 (not_lt.1 hge)
          omega
    · have := hc2 hh
      rw [hnr] at *
      push_cast
      omega

/-- The slots of the double indirect part that are given back. -/
def doubleBelow (e : ℤ) : Set Slot :=
  {sl | 0 ≤ e ∧ (sl = .dindirect ∨ sl ∈ doubleSlots nrIndirectBlocks e)}

theorem freeDouble_ok (hs : FileOK F s) (h : Freed F s D t) (hr : ReadsTable ok readTable)
    (hD : Slot.dindirect ∉ D ∧ ∀ i, Slot.dind i ∉ D ∧ ∀ j, Slot.dent i j ∉ D)
    (hd : t.ino.din.iDindirect = s.ino.din.iDindirect) {e : ℤ}
    (h0 : 0 ≤ e → s.ptr .dindirect ≠ 0) :
    wp ok (freeDouble readTable e) (fun _ t' => Freed F s (D ∪ doubleBelow e) t') t := by
  have hdp : s.ino.din.iDindirect = s.ptr .dindirect := rfl
  simp only [freeDouble, wp_ite, wp_bind, wp_getState, wp_pure, hd, hdp]
  refine ⟨fun he => ?_, fun he => h.mono Set.subset_union_left ?_⟩
  · refine h.read hs hr hD.1 (h0 he) ?_
    refine wp_mono (freeSecondLevel_ok hs h hr hD.2 (h0 he) e) ?_
    rintro _ t₁ ⟨h₁, m, hm⟩
    have hd₁ : t₁.ino.din.iDindirect = s.ptr .dindirect := by rw [hm]; exact hd
    have hnot : Slot.dindirect ∉ D ∪ doubleSlots nrIndirectBlocks e := by
      rintro (hsl | ⟨i, -, -, hsl | ⟨j, -, hsl, -⟩⟩)
      · exact hD.1 hsl
      · cases hsl
      · cases hsl
    rw [hd₁]
    refine wp_mono (freeSlot_ok h₁ hnot rfl) ?_
    rintro _ t₂ ⟨h₂, -, hdirty⟩
    rw [wp_modify]
    refine (h₂.mono ?_ ?_).setDin (hdirty (h0 he)) rfl rfl
    · rintro sl (rfl | hsl | hsl)
      · exact Or.inr ⟨he, Or.inl rfl⟩
      · exact Or.inl hsl
      · exact Or.inr ⟨he, Or.inr hsl⟩
    · rintro sl (hsl | ⟨-, rfl | hsl⟩) hno
      · exact absurd (Or.inr (Or.inl hsl)) hno
      · exact absurd (Or.inl rfl) hno
      · exact absurd (Or.inr (Or.inr hsl)) hno
  · rintro sl (hsl | ⟨h1, -⟩) hno
    · exact absurd hsl hno
    · exact absurd h1 he

/-- What is left of the block tree: the slots at and above the end. -/
structure FreedBelow (F : Set ℤ) (s : FileState) (e : ℤ) (t : FileState) : Prop where
  freed : Freed F s {sl | Below e sl} t
  iSize : t.ino.din.iSize = 0
  dirty : t.ino.dirty = true

theorem entry_of_ge {f : ℤ → Block} (h : nrIndirectBlocks ≤ k) : entry f p k = 0 := by
  unfold entry
  rw [if_neg fun hh => absurd hh.2 (not_lt.2 h)]

theorem blockNr_of_ge {d : DInode} (h : nrDirectBlocks ≤ k) : d.blockNr k = 0 := by
  unfold DInode.blockNr
  rw [dif_neg (not_lt.2 h)]

/-- **Freeing the blocks of a file**, given what the last part, the double indirect one, does. -/
theorem freeBlocksWith_ok {R : Prop} (hs : FileOK F s) (hr : ReadsTable ok readTable)
    (he : endBlockNr s.ino.din.iSize = e) (hov : ok ∨ -2 ^ 31 ≤ e - dindStart)
    (hd : ∀ D t, Freed F s D t → (Slot.dindirect ∉ D ∧ ∀ i, Slot.dind i ∉ D ∧ ∀ j, Slot.dent i j ∉ D) →
      t.ino.din.iDindirect = s.ino.din.iDindirect →
      wp ok (freeDouble readTable (e - dindStart)) (fun _ t' =>
        R ∧ Freed F s (D ∪ doubleBelow (e - dindStart)) t') t) :
    wp ok (freeBlocksWith readTable) (fun _ t => FreedBelow F s e t ∧ R) s := by
  have h1 : ∀ x : ℤ, x - (nrDirectBlocks : ℕ) - (nrIndirectBlocks : ℕ) = x - dindStart := by
    intro x; unfold dindStart; push_cast; ring
  simp only [freeBlocksWith, wp_bind, wp_getState, he, h1]
  -- the parts one after another: what one frees, the next ones do not hold
  refine wp_mono (freeDirect_ok hs e) ?_
  rintro _ t₁ ⟨hf₁, hi₁, hd₁, -⟩
  rw [wp_require]
  refine ⟨fun _ => ?_, fun hn => hov.resolve_right fun hh => hn (by rw [he, h1]; exact hh)⟩
  have hD₁ : Slot.indirect ∉ {sl | ∃ k < nrDirectBlocks, sl = Slot.direct k ∧ (k : ℤ) < e} ∧
      ∀ k, Slot.ind k ∉ {sl | ∃ k < nrDirectBlocks, sl = Slot.direct k ∧ (k : ℤ) < e} := by
    refine ⟨?_, fun k => ?_⟩ <;> rintro ⟨k, -, hsl, -⟩ <;> cases hsl
  refine wp_mono (freeIndirect_ok hs hf₁ hr hD₁ hi₁ _) ?_
  rintro _ t₂ ⟨hf₂, hd₂, -⟩
  refine wp_mono (hd _ t₂ hf₂ ?_ (hd₂.trans hd₁)) ?_
  · refine ⟨?_, fun i => ⟨?_, fun j => ?_⟩⟩ <;>
      rintro (⟨k, -, hsl, -⟩ | hsl | ⟨k, -, hsl, -⟩) <;> cases hsl
  · rintro _ t₃ ⟨hR, hf₃⟩
    rw [wp_modify]
    have hnd : (nrDirectBlocks : ℤ) = 10 := rfl
    have hni : (nrIndirectBlocks : ℤ) = 2048 := rfl
    have his : (indStart : ℤ) = 10 := rfl
    have hds : (dindStart : ℤ) = 2058 := rfl
    -- together they are the slots below the end
    have hf : Freed F s {sl | Below e sl} t₃ := by
      refine hf₃.mono ?_ ?_
      · rintro sl ((⟨k, -, rfl, hk⟩ | rfl | ⟨k, -, rfl, hk⟩) |
          ⟨h2, rfl | ⟨i, -, hi, rfl | ⟨j, -, rfl, hj⟩⟩⟩)
        · exact hk
        · trivial
        · show (indStart + k : ℤ) < e
          rw [hnd] at hk; rw [his]; omega
        · show (dindStart : ℤ) ≤ e
          omega
        · show (dindStart + nrIndirectBlocks * i : ℤ) < e
          omega
        · show (dindStart + nrIndirectBlocks * i + j : ℤ) < e
          omega
      · intro sl hsl hno
        cases sl with
        | direct k =>
          refine blockNr_of_ge (Nat.le_of_not_lt fun hk => hno ?_)
          exact Or.inl (Or.inl ⟨k, hk, rfl, hsl⟩)
        | indirect => exact absurd (Or.inl (Or.inr (Or.inl rfl))) hno
        | ind k =>
          have hsl' : (indStart + k : ℤ) < e := hsl
          refine entry_of_ge (Nat.le_of_not_lt fun hk => hno ?_)
          exact Or.inl (Or.inr (Or.inr ⟨k, hk, rfl, by rw [his] at hsl'; rw [hnd]; omega⟩))
        | dindirect =>
          have hsl' : (dindStart : ℤ) ≤ e := hsl
          exact absurd (Or.inr ⟨by omega, Or.inl rfl⟩) hno
        | dind i =>
          have hsl' : (dindStart + nrIndirectBlocks * i : ℤ) < e := hsl
          refine entry_of_ge (Nat.le_of_not_lt fun hi => hno ?_)
          refine Or.inr ⟨?_, Or.inr ⟨i, hi, by omega, Or.inl rfl⟩⟩
          rw [hni] at hsl'; omega
        | dent i j =>
          have hsl' : (dindStart + nrIndirectBlocks * i + j : ℤ) < e := hsl
          by_cases hi : i < nrIndirectBlocks
          · refine entry_of_ge (Nat.le_of_not_lt fun hj => hno ?_)
            refine Or.inr ⟨?_, Or.inr ⟨i, hi, ?_, Or.inr ⟨j, hj, rfl, ?_⟩⟩⟩ <;>
              rw [hni] at * <;> omega
          · show entry _ (entry _ _ i) j = 0
            rw [entry_of_ge (not_lt.1 hi), entry_zero]
    have hdirty : t₃.setDirty.ino.dirty = true := rfl
    obtain ⟨own, g1, g2, ho⟩ := hf.holds
    refine ⟨⟨⟨⟨own, g1, g2, ho.congr ho.super rfl rfl⟩, hf.sub, hf.data, hf.iType, ?_⟩, rfl, rfl⟩, hR⟩
    exact ⟨hf.frame.frame, hf.frame.iNr, hf.frame.iCount, Or.inl rfl⟩

/-- Everything has been given back exactly when no block is counted any more. -/
theorem Freed.live_eq (h : Freed F s D t) : t.ino.din.blockCount = 0 ↔ t.sb.live = F := by
  obtain ⟨own, -, -, ho⟩ := h.holds
  rw [ho.count, Int.natCast_eq_zero, Set.ncard_eq_zero ho.finite]
  constructor
  · intro he
    exact (Set.sdiff_eq_empty.1 he).antisymm ho.sub
  · rintro rfl
    exact Set.sdiff_self

/-- A file whose blocks all lie below the end gives everything back. -/
theorem FreedBelow.all (h : FreedBelow F s e t) (hb : ∀ sl, s.ptr sl ≠ 0 → Below e sl) :
    t.sb.live = F := by
  rw [← h.freed.live_eq]
  obtain ⟨own, h1, h2, ho⟩ := h.freed.holds
  have hz : ∀ sl, own sl = 0 := by
    intro sl
    by_cases hsl : Below e sl
    · exact h1 sl hsl
    · rw [h2 sl hsl]
      by_contra hn
      exact hsl (hb sl hn)
  rw [ho.count, (ho.owns.empty_iff.2 hz), Set.ncard_empty]
  rfl

/-! ### As the code reads the tables -/

theorem readsTable_readBlock : ReadsTable ok fun nr => onSuper (readBlock nr) := by
  intro t p Q h hp hlen hQ
  rw [wp_onSuper]
  have hge := (live_bounds h.toLayout hp).1
  have hrd : t.sb.dev.readBlock p = some (t.sb.dev.data p) := by
    unfold Device.readBlock
    rw [if_pos ⟨by rw [dataStart_eq] at hge; omega, hlen⟩]
  exact wp_reads _ hrd hQ

/-- Word 0 of the super block is not zero. -/
theorem word_super (h : SuperOK t.sb) : (t.sb.dev.data 0).word 0 = 1 := by
  rw [h.diskSuper]
  unfold Block.word
  have hb : ∀ i < 4, (Block.ofFn t.sb.sb.encode).get (4 * 0 + i) = leByte 1 i := by
    intro i hi
    rw [Block.get_ofFn _ (by unfold blockSize; omega)]
    unfold DSuperBlock.encode
    rw [if_pos (by omega), show (4 * 0 + i) / 4 = 0 by omega, show (4 * 0 + i) % 4 = i by omega]
    show leByte (t.sb.sb.inodeFreemapStart : ℤ) i = _
    rw [h.inodeFreemapStart]
    rfl
  rw [leInt_congr hb]
  exact leInt_leByte (by decide) (by decide)

theorem wp_readBlock_meta {Q : Block → FileState → Prop} (h : SuperOK t.sb) (h0 : 0 ≤ p)
    (hp : p < dataStart) (hQ : Q (t.sb.dev.data p) t) : wp ok (onSuper (readBlock p)) Q t := by
  rw [wp_onSuper]
  have hrd : t.sb.dev.readBlock p = some (t.sb.dev.data p) := by
    unfold Device.readBlock
    rw [if_pos ⟨h0, hp.trans_le h.len⟩]
  exact wp_reads _ hrd hQ

/-- Freeing whatever a table names keeps the super block consistent, when it returns. -/
theorem freeEntries_super (h : SuperOK t.sb) (hok : ok) (b : Block) (e : ℤ) :
    wp ok (freeEntries b e) (fun _ t' => SuperOK t'.sb) t := by
  unfold freeEntries
  refine wp_forRange (fun _ (t' : FileState) => SuperOK t'.sb) h fun n t' _ h' => ?_
  rw [wp_ite]
  refine ⟨fun _ => ?_, fun _ => (wp_pure _).2 h'⟩
  by_cases h0 : b.word n = 0
  · rw [h0, freeFromInode_zero]; exact h'
  · exact wp_mono (freeFromInode_ok h' (Or.inl hok) h0) fun _ _ hg => hg.gave.ok

/-- **Without a double indirect table** nothing is freed, unless the file is said to reach into
that part: then the super block is read as the table, and freeing the block it names first, the
inode freemap, aborts. -/
theorem freeDouble_none (h : SuperOK t.sb) (hd : t.ino.din.iDindirect = 0) (hok : ok ∨ e ≤ 0) :
    wp ok (freeDouble (fun nr => onSuper (readBlock nr)) e) (fun _ t' => e ≤ 0 ∧ t' = t) t := by
  simp only [freeDouble, wp_ite, wp_bind, wp_getState, wp_pure, hd]
  refine ⟨fun he => ?_, fun he => ⟨by omega, trivial⟩⟩
  refine wp_readBlock_meta h le_rfl (by decide) ?_
  rcases lt_or_ge 0 e with hpos | hle
  · have hok' : ok := hok.resolve_right (by omega)
    refine wp_mono (Q := fun _ _ => False) ?_ fun _ _ hf => hf.elim
    unfold freeSecondLevel
    refine wp_mono (wp_forAcc (fun n counter t' => n = 0 ∧ counter = 0 ∧ t' = t) ⟨rfl, rfl, rfl⟩ ?_)
      fun _ _ hh => absurd hh.1 (by decide)
    rintro n counter t' - ⟨rfl, rfl, rfl⟩
    simp only [wp_ite, wp_bind, wp_pure, word_super h]
    refine ⟨fun _ => ⟨fun hn => absurd hn (by decide), fun _ => ?_⟩, fun hn => absurd hpos hn⟩
    refine wp_readBlock_meta h (by decide) (by decide) ?_
    refine wp_mono (freeEntries_super h hok' _ _) fun _ t₁ h₁ => ?_
    refine wp_mono (freeFromInode_ok h₁ (Or.inl hok') (by decide)) fun _ t₂ hg => ?_
    have := (live_bounds h₁.toLayout hg.gave.member).1
    rw [dataStart_eq] at this
    omega
  · obtain rfl : e = 0 := by omega
    have hself : t.setDin (fun d => { d with iDindirect := 0 }) = t := by
      unfold FileState.setDin
      have : { t.ino.din with iDindirect := 0 } = t.ino.din := by
        rw [← hd]
      simp only [this]
    unfold freeSecondLevel
    refine wp_mono (wp_forAcc (fun n counter t' => (n : ℤ) ≤ n ∧ 0 ≤ counter ∧ t' = t) ⟨le_rfl, le_rfl, rfl⟩ ?_)
      ?_
    · rintro n counter t' - ⟨-, hc, rfl⟩
      rw [wp_ite]
      exact ⟨fun hn => absurd hn (not_lt.2 hc), fun _ => (wp_pure _).2 ⟨le_rfl, hc, rfl⟩⟩
    · rintro _ t' ⟨-, -, rfl⟩
      rw [hd, freeFromInode_zero, wp_modify]
      exact ⟨le_rfl, hself⟩

/-- **What `testfs_free_blocks` does.** -/
theorem freeBlocks_ok (hs : FileOK F s) (he : endBlockNr s.ino.din.iSize = e)
    (hok : ok ∨ -2 ^ 31 ≤ e - dindStart ∧ (dindStart < e → s.ptr .dindirect ≠ 0)) :
    wp ok testfsFreeBlocks (fun _ t => FreedBelow F s e t ∧
      (dindStart < e → s.ptr .dindirect ≠ 0)) s := by
  unfold testfsFreeBlocks
  by_cases h0 : s.ptr .dindirect = 0
  · refine freeBlocksWith_ok hs readsTable_readBlock he (hok.imp_right And.left) ?_
    intro D t hf _ hd
    refine wp_mono (freeDouble_none hf.super (hd.trans h0) (hok.imp_right fun hh => ?_)) ?_
    · by_contra hn
      exact hh.2 (by omega) h0
    · rintro _ t' ⟨hle, rfl⟩
      refine ⟨fun hlt => absurd hlt (by omega), hf.mono Set.subset_union_left ?_⟩
      have hzi : ∀ i, s.ptr (.dind i) = 0 := fun i => by
        show entry _ s.ino.din.iDindirect _ = 0
        rw [show s.ino.din.iDindirect = 0 from h0, entry_zero]
      rintro sl (hsl | ⟨-, rfl | ⟨i, -, -, rfl | ⟨j, -, rfl, -⟩⟩⟩) hno
      · exact absurd hsl hno
      · exact h0
      · exact hzi i
      · show entry _ (s.ptr (.dind i)) _ = 0
        rw [hzi, entry_zero]
  · refine freeBlocksWith_ok hs readsTable_readBlock he (hok.imp_right And.left) ?_
    intro D t hf hD hd
    exact wp_mono (freeDouble_ok hs hf readsTable_readBlock hD hd fun _ => h0)
      fun _ t' ht => ⟨fun _ => h0, ht⟩

end OSLab.Fs
