import OSLab.Fs.Proof.DirMap
import OSLab.Fs.Proof.FreeOnce

/-!
# What a write that succeeds does to a file

`writeData_wrote` says it byte by byte, and `Wrote.shaped`: the size keeps covering the blocks, and
no table is left without an entry, so that the file can be removed later.
-/

namespace OSLab.Fs

open Prog

variable {F : Set ℤ} {s t : FileState} {buf : Buf} {r : ℤ} {start size l p : ℕ} {sl tb : Slot}

/-- `size` bytes of a buffer were written from byte `start` on. -/
structure Wrote (F : Set ℤ) (s : FileState) (buf : Buf) (start size : ℕ) (t : FileState) :
    Prop where
  file : FileOK F t
  frame : FileFrame F s t
  iType : t.ino.din.iType = s.ino.din.iType
  iSize : t.ino.din.iSize = max s.ino.din.iSize (start + size)
  inside : ∀ p, start ≤ p → p < start + size →
    t.Mapped (p / blockSize) ∧ buf.get (p - start) = some (t.content p)
  outside : ∀ p, ¬(start ≤ p ∧ p < start + size) → s.Mapped (p / blockSize) →
    t.Mapped (p / blockSize) ∧ t.content p = s.content p
  slots : ∀ sl, t.ptr sl ≠ 0 ↔ s.ptr sl ≠ 0 ∨
    ∃ l, start / blockSize ≤ l ∧ l ≤ (start + size - 1) / blockSize ∧ sl ∈ path l

theorem FileFrame.grow (h : FileFrame F s t) (x y : ℤ) : FileFrame F s (t.grow x y) := by
  unfold FileState.grow
  split
  · exact ⟨h.frame, h.iNr, h.iCount, Or.inl rfl⟩
  · exact ⟨h.frame, h.iNr, h.iCount, Or.inl rfl⟩

/-- **A write that succeeds** stores its bytes and leaves the others. -/
theorem writeData_wrote (h : FileOK F s) (hmax : start + size ≤ maxFileSize) (hpos : 0 < size)
    (hsize : size ≤ 2 ^ 31) (hr : testfsWriteData buf start size s = some (r, t)) (h0 : 0 ≤ r) :
    Wrote F s buf start size t := by
  obtain ⟨s₁, hw, rfl⟩ := writeData_success h hmax hr h0
  rw [transferred_eq (by omega) (by omega), chunkCount_eq hpos hsize] at hw
  have hrest := s₁.grow_rest start size
  have htype : (s₁.grow start size).ino.din.iType = s₁.ino.din.iType := by
    unfold FileState.grow
    split <;> rfl
  refine ⟨hw.file.grow _ _, hw.frame.grow _ _, htype.trans hw.iType, ?_, fun p h1 h2 => ?_,
    fun p hp hm => ?_, fun sl => ?_⟩
  · rw [s₁.grow_iSize _ (by omega), hw.iSize]
  · obtain ⟨hrange, hb⟩ := hw.inside p (by omega) (by omega)
    have hoff : ((p : ℤ) - start).toNat = p - start := by omega
    rw [mapped_congr hrest, content_congr hrest, ← hb, hoff]
    exact ⟨hw.mapped.2 (Or.inr hrange), rfl⟩
  · rw [mapped_congr hrest, content_congr hrest]
    exact ⟨hw.mapped.2 (Or.inl hm), hw.outside p (by omega) (Or.inl hm)⟩
  · rw [hrest.2, hw.slots]
    refine or_congr Iff.rfl (exists_congr fun l => ?_)
    rw [Nat.lt_succ_iff]

/-- A table on the path to a block has an entry on it. -/
theorem table_path (ht : tb.IsTable) (h : tb ∈ path l) : ∃ sl ∈ path l, sl.table = some tb := by
  by_cases h1 : l < indStart
  · rw [path_direct h1, List.mem_singleton] at h
    rw [h] at ht
    exact absurd ht id
  by_cases h2 : l < dindStart
  · rw [path_ind (not_lt.1 h1) h2] at h ⊢
    rcases List.mem_pair.1 h with rfl | rfl
    · exact ⟨.ind (l - indStart), List.mem_cons_of_mem _ (List.mem_singleton.2 rfl), rfl⟩
    · exact absurd ht id
  · rw [path_dent (not_lt.1 h2)] at h ⊢
    rcases List.mem_cons.1 h with rfl | h
    · exact ⟨.dind (dindOf l), List.mem_cons_of_mem _ List.mem_cons_self, rfl⟩
    · rcases List.mem_pair.1 h with rfl | rfl
      · exact ⟨.dent (dindOf l) (dentOf l),
          List.mem_cons_of_mem _ (List.mem_cons_of_mem _ (List.mem_singleton.2 rfl)), rfl⟩
      · exact absurd ht id

/-- **The size keeps covering the blocks**, and no table is left without an entry. -/
theorem Wrote.shaped (h : Wrote F s buf start size t) (hs : Shaped s) (hpos : 0 < size)
    (hmax : start + size ≤ maxFileSize) : Shaped t := by
  have hbs : (blockSize : ℤ) = 8192 := rfl
  have hle := hs.le
  have hnn := hs.nonneg
  have hend : t.blocksEnd = max s.blocksEnd ((start + size - 1) / blockSize + 1 : ℕ) := by
    have hbn : blockSize = 8192 := rfl
    unfold FileState.blocksEnd
    rw [h.iSize, hbs, hbn]
    omega
  refine ⟨?_, ?_, fun l hl => ?_, fun tb ht htb => ?_, fun hd => ?_⟩
  · rw [h.iSize]
    omega
  · rw [h.iSize]
    exact max_le hle (by exact_mod_cast hmax)
  · rw [hend]
    rcases (h.slots _).1 hl with hm | ⟨m, -, hm, hpath⟩
    · exact (hs.below l hm).trans_le (le_max_left _ _)
    · obtain rfl := slotOf_mem_path_iff.1 hpath
      exact lt_max_of_lt_right (by exact_mod_cast Nat.lt_succ_of_le hm)
  · rcases (h.slots _).1 htb with htb | ⟨m, h1, h2, hpath⟩
    · obtain ⟨sl, hsl, h0⟩ := hs.tables tb ht htb
      exact ⟨sl, hsl, (h.slots sl).2 (Or.inl h0)⟩
    · obtain ⟨sl, hpath', hsl⟩ := table_path ht hpath
      exact ⟨sl, hsl, (h.slots sl).2 (Or.inr ⟨m, h1, h2, hpath'⟩)⟩
  · -- the double indirect table is there already, or on the path to the last block
    rw [hend, lt_max_iff] at hd
    refine (h.slots .dindirect).2 ?_
    rcases hd with hd | hd
    · exact Or.inl (hs.double hd)
    · refine Or.inr ⟨(start + size - 1) / blockSize, ?_, le_rfl, ?_⟩
      · exact Nat.div_le_div_right (by omega)
      · rw [FileState.dindirect_mem_path]
        have : dindStart < (start + size - 1) / blockSize + 1 := by exact_mod_cast hd
        omega

/-- **A write fails only for lack of space.** -/
theorem writeData_error (h : FileOK F s) (hmax : start + size ≤ maxFileSize) (hpos : 0 < size)
    (hsize : size < 2 ^ 31) (hr : testfsWriteData buf start size s = some (r, t)) (hneg : r < 0) :
    r = -enospc ∧
      s.sb.left < s.missing (start / blockSize) ((start + size - 1) / blockSize + 1) := by
  obtain ⟨hL, -⟩ := start_block hmax
  have hwp : wp True (testfsWriteData buf start size) _ s :=
    writeData_ok h (Int.natCast_nonneg start) (Int.natCast_nonneg size) hL (Or.inl trivial)
  rcases hwp.of_run hr with ⟨hret, -⟩ | ⟨l, s₂, hal, hl, hst, -⟩
  · rw [toInt32_of_lt (by omega) (by omega)] at hret
    omega
  rw [chunkCount_eq hpos hsize.le] at hl
  have hlast : (start + size - 1) / blockSize < maxFileBlocks := by
    rw [maxFileSize_eq] at hmax
    rw [maxFileBlocks_eq, blockSize_eq]
    omega
  have hlt : l < maxFileBlocks := by omega
  obtain ⟨-, -, hstop⟩ := hst.stopsBefore (hal.trans_lt hlt) hal
  refine ⟨?_, (hstop.resolve_left hlt.ne).trans_le (s.missing_mono hl)⟩
  obtain ⟨s₁, -, ⟨hge, -⟩ | ⟨-, he, -⟩⟩ := hst
  · exact absurd hlt hge.not_gt
  · exact he

/-! ### Entries of a directory -/

variable {l₁ l₂ ls : List DirSlot} {name : CString} {n : ℤ}

/-- Adding an entry is a write. -/
theorem addDirent_keeps (h : DirHolds F ls s) (hfree : SlotTable.find name ls = none)
    (hr : testfsAddDirent name n s = some (r, t)) (h0 : 0 ≤ r)
    (hsmall : t.ino.din.iSize < 2 ^ 31) : FileFrame F s t ∧ (Shaped s → Shaped t) := by
  rcases addDirent_cases h hfree hr with ⟨-, he⟩ | ⟨l₁, old, l₂, hl, -, -, -, hlt, hw⟩
  · rw [he] at h0
    exact absurd h0 (by decide)
  have hlen := length_slotBytes ⟨name, some n⟩
  have hkey : (⟨name, some n⟩ : DirSlot).key.length = name.length := rfl
  have hd : direntSize = 8 := rfl
  rw [hkey, hd] at hlen
  have hs := h.small
  rw [hl, dirBytes_splice, List.length_append, List.length_append] at hs
  have hpos : 0 < (slotBytes ⟨name, some n⟩).length := by omega
  have hmax : (dirBytes l₁).length + (slotBytes ⟨name, some n⟩).length ≤ maxFileSize := by
    rw [maxFileSize_eq]
    omega
  have hsize := writeData_iSize h.file hmax hpos hw h0
  have hwrote := writeData_wrote h.file hmax hpos (by omega) hw h0
  exact ⟨hwrote.frame, fun hsh => hwrote.shaped hsh hpos hmax⟩

/-- An entry is not added only for lack of space. -/
theorem addDirent_error (h : DirHolds F ls s) (hfree : SlotTable.find name ls = none)
    (hname : name.length < 2 ^ 31 - 9) (hr : testfsAddDirent name n s = some (r, t))
    (hneg : r < 0) : r = -enospc ∧ ∃ p size : ℕ, 0 < size ∧
      p + size ≤ (dirBytes ls).length + name.length + 9 ∧
      s.sb.left < s.missing (p / blockSize) ((p + size - 1) / blockSize + 1) := by
  rcases addDirent_cases h hfree hr with ⟨hge, -⟩ | ⟨l₁, old, l₂, hl, -, -, -, hlt, hw⟩
  · omega
  have hlen := length_slotBytes ⟨name, some n⟩
  have hkey : (⟨name, some n⟩ : DirSlot).key.length = name.length := rfl
  have hd : direntSize = 8 := rfl
  rw [hkey, hd] at hlen
  have hs := h.small
  rw [hl, dirBytes_splice, List.length_append, List.length_append] at hs ⊢
  have hmax : (dirBytes l₁).length + (slotBytes ⟨name, some n⟩).length ≤ maxFileSize := by
    rw [maxFileSize_eq]
    omega
  obtain ⟨he, hleft⟩ := writeData_error h.file hmax (by omega) (by omega) hw hneg
  exact ⟨he, _, _, by omega, by omega, hleft⟩

/-- Removing an entry is a write. -/
theorem freeSlot_keeps (h : DirHolds F (l₁ ++ ⟨name, some n⟩ :: l₂) s)
    (hw : testfsWriteData (removedBuf (slotDirent ⟨name, some n⟩)) (dirBytes l₁).length
      (slotBytes ⟨name, none⟩).length s = some (r, t)) :
    FileFrame F s t ∧ (Shaped s → Shaped t) := by
  have h0 := (h.freeSlot hw).1
  have hlen : (slotBytes ⟨name, some n⟩).length = (slotBytes ⟨name, none⟩).length := by
    rw [length_slotBytes, length_slotBytes]
  have hpos : 0 < (slotBytes ⟨name, none⟩).length := by
    rw [length_slotBytes]
    omega
  have hs := h.small
  rw [dirBytes_append, dirBytes_cons, List.length_append, List.length_append, hlen] at hs
  have hmax : (dirBytes l₁).length + (slotBytes ⟨name, none⟩).length ≤ maxFileSize := by
    rw [maxFileSize_eq]
    omega
  have hwrote := writeData_wrote h.file hmax hpos (by omega) hw h0
  exact ⟨hwrote.frame, fun hsh => hwrote.shaped hsh hpos hmax⟩

end OSLab.Fs
