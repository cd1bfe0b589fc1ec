import OSLab.Fs.Proof.OutOfSpace

/-!
# Sparse files

A file that starts without blocks is written by any sequence of `testfs_write_data` calls.
`holes_read_zero`: a byte that no write has covered is read as zero, unless its second-level
table is missing while the double indirect table is there. Then the bytes of that table are read
(and a write of a part of such a block leaves them in the rest of it).
-/

namespace OSLab.Fs

open Prog

variable {F : Set ℤ} {C : Set ℕ} {s t : FileState} {buf : Buf} {r : ℤ} {start size p : ℕ}

/-! ### Writes that succeed -/

/-- A call of `testfs_write_data`. -/
structure WriteCall where
  buf : Buf
  start : ℕ
  size : ℕ

/-- The bytes of the file that a call is to write. -/
def WriteCall.range (w : WriteCall) : Set ℕ := {p | w.start ≤ p ∧ p < w.start + w.size}

/-- The bytes that a sequence of calls is to write. -/
def covered (ws : List WriteCall) : Set ℕ := {p | ∃ w ∈ ws, p ∈ w.range}

theorem covered_concat (ws : List WriteCall) (w : WriteCall) :
    covered (ws ++ [w]) = covered ws ∪ w.range := by
  ext p
  constructor
  · intro ⟨v, hv, hp⟩
    rcases List.mem_append.1 hv with hv | hv
    · exact Or.inl ⟨v, hv, hp⟩
    · rw [List.mem_singleton.1 hv] at hp
      exact Or.inr hp
  · intro hp
    rcases hp with ⟨v, hv, hp⟩ | hp
    · exact ⟨v, List.mem_append_left _ hv, hp⟩
    · exact ⟨w, List.mem_append_right _ (List.mem_singleton_self w), hp⟩

/-- A call within the largest file that succeeds. -/
def writeStep (s : FileState) (w : WriteCall) (t : FileState) : Prop :=
  w.start + w.size ≤ maxFileSize ∧ ∃ r, 0 ≤ r ∧ testfsWriteData w.buf w.start w.size s = some (r, t)

/-- The call covers each block that it takes while the second-level table of the block is missing
and the double indirect table is there. -/
def FileState.CleanFor (s : FileState) (w : WriteCall) : Prop :=
  ∀ l, w.start / blockSize ≤ l → l < w.start / blockSize + chunkCount w.start w.size →
    s.NoTable (w.start / blockSize) l →
    w.start ≤ blockSize * l ∧ blockSize * (l + 1) ≤ w.start + w.size

/-- A call that succeeds and does not keep bytes of the double indirect table. -/
def cleanWrite (s : FileState) (w : WriteCall) (t : FileState) : Prop :=
  s.CleanFor w ∧ writeStep s w t

theorem start_block (hmax : start + size ≤ maxFileSize) :
    toInt32 ((start : ℤ) / blockSize) = (start / blockSize : ℕ) ∧
      (blockSize : ℤ) * (start / blockSize : ℕ) + (start : ℤ) % blockSize = start := by
  rw [maxFileSize_eq] at hmax
  have hdiv : ((start : ℤ) / blockSize) = (start / blockSize : ℕ) := rfl
  have hlt : start / blockSize ≤ 4196362 := by
    rw [blockSize_eq]
    omega
  refine ⟨?_, ?_⟩
  · have h0 := Int.natCast_nonneg (start / blockSize)
    have hle : ((start / blockSize : ℕ) : ℤ) ≤ 4196362 := by exact_mod_cast hlt
    rw [hdiv]
    exact toInt32_of_lt (by omega) (by omega)
  · rw [← hdiv]
    exact Int.mul_ediv_add_emod start blockSize

theorem transferred_le {start size : ℤ} (hs : 0 ≤ size) : transferred start size ≤ size := by
  have hbs : (blockSize : ℤ) = 8192 := rfl
  have hix := Int.emod_nonneg start (show (8192 : ℤ) ≠ 0 by decide)
  unfold transferred
  rw [hbs]
  split
  · have := toInt32_le (show -2 ^ 31 ≤ size - 8192 + start % 8192 by omega)
    omega
  · exact le_rfl

/-- A call that succeeded has written all its blocks. -/
theorem writeData_success (h : FileOK F s) (hmax : start + size ≤ maxFileSize)
    (hr : testfsWriteData buf start size s = some (r, t)) (h0 : 0 ≤ r) :
    ∃ s₁, Written F s buf start (start / blockSize) (start / blockSize + chunkCount start size) start
      (start + transferred start size) s₁ ∧ t = s₁.grow start size := by
  obtain ⟨hL, hbase⟩ := start_block hmax
  have hwp : wp True (testfsWriteData buf start size) _ s :=
    writeData_ok h (Int.natCast_nonneg start) (Int.natCast_nonneg size) hL (Or.inl trivial)
  rw [hbase] at hwp
  rcases hwp.of_run hr with ⟨-, -, s₁, hw, ht⟩ | ⟨l, s₂, -, -, ⟨s₁, -, hst⟩, -⟩
  · exact ⟨s₁, hw, ht⟩
  · exact absurd h0 hst.neg.not_ge

/-- The file then reaches at least to the end of the write. -/
theorem writeData_iSize (h : FileOK F s) (hmax : start + size ≤ maxFileSize) (hpos : 0 < size)
    (hr : testfsWriteData buf start size s = some (r, t)) (h0 : 0 ≤ r) :
    t.ino.din.iSize = max s.ino.din.iSize (start + size) := by
  obtain ⟨s₁, hw, rfl⟩ := writeData_success h hmax hr h0
  rw [s₁.grow_iSize _ (by omega), hw.iSize]

/-- A call succeeds when there is space for all its blocks. -/
theorem writeData_fits (h : FileOK F s) (hmax : start + size ≤ maxFileSize)
    (hsize : size < 2 ^ 31 - 8192) (hbuf : ∀ i < size, (buf.get i).isSome)
    (hlast : start / blockSize + chunkCount start size ≤ maxFileBlocks)
    (hspace : s.missing (start / blockSize) (start / blockSize + chunkCount start size) ≤ s.sb.left) :
    ∃ t, testfsWriteData buf start size s = some ((size : ℤ), t) := by
  obtain ⟨hL, hbase⟩ := start_block hmax
  have hpos := chunkCount_pos start size
  rw [maxFileSize_eq] at hmax
  have hwp : wp False (testfsWriteData buf start size) _ s :=
    writeData_ok h (Int.natCast_nonneg start) (Int.natCast_nonneg size) hL
      (Or.inr ⟨by omega, by omega, fun i hi => hbuf i (by omega)⟩)
  obtain ⟨r, t, hr, hrun⟩ := hwp.returns
  rcases hrun with ⟨hsz, -⟩ | ⟨l, s₂, hal, hl, hst, -⟩
  · rw [toInt32_of_lt (by omega) (by omega)] at hsz
    rw [hsz] at hr
    exact ⟨t, hr⟩
  · have hstop := hst.stopsBefore (by omega) hal
    have hmono : s.missing (start / blockSize) (l + 1) ≤ s.missing (start / blockSize)
        (start / blockSize + chunkCount start size) := s.missing_mono (by omega)
    rcases hstop.2.2 with hm | hm
    · omega
    · omega

/-! ### The bytes that no write has covered -/

/-- The file is zero outside `C`. -/
structure Holes (F : Set ℤ) (C : Set ℕ) (s : FileState) : Prop where
  file : FileOK F s
  iSize : s.ino.din.iSize ≤ maxFileSize
  zero : ∀ p ∉ C, s.content p = 0

/-- A file without blocks. -/
theorem Holes.new (h : FileOK F s) (hptr : ∀ sl, s.ptr sl = 0)
    (hsize : s.ino.din.iSize ≤ maxFileSize) : Holes F ∅ s where
  file := h
  iSize := hsize
  zero _ _ := Written.content_unmapped fun hm => hm (hptr _)

/-- One write. -/
theorem Holes.write (h : Holes F C s) {w : WriteCall} (hw : cleanWrite s w t) :
    Holes F (C ∪ w.range) t := by
  obtain ⟨hclean, hmax, r, h0, hr⟩ := hw
  obtain ⟨s₁, hwr, rfl⟩ := writeData_success h.file hmax hr h0
  have htr : transferred w.start w.size ≤ w.size := transferred_le (by omega)
  refine ⟨hwr.file.grow _ _, ?_, fun p hp => ?_⟩
  · have hle : s₁.ino.din.iSize ≤ maxFileSize := hwr.iSize ▸ h.iSize
    unfold FileState.grow
    split
    · exact max_le hle (by exact_mod_cast hmax)
    · exact hle
  · rw [content_congr (s₁.grow_rest _ _)]
    have hpC : p ∉ C := fun hh => hp (Or.inl hh)
    have hpw : ¬(w.start ≤ p ∧ p < w.start + w.size) := fun hh => hp (Or.inr hh)
    have hpt : ¬((w.start : ℤ) ≤ p ∧ (p : ℤ) < w.start + transferred w.start w.size) := by
      intro hh
      exact hpw ⟨by omega, by omega⟩
    by_cases hm : s.Mapped (p / blockSize)
    · rw [hwr.outside p hpt (Or.inl hm)]
      exact h.zero p hpC
    by_cases htouched : w.start / blockSize ≤ p / blockSize ∧
        p / blockSize < w.start / blockSize + chunkCount w.start w.size
    · -- the block is taken: it would hold bytes of the table only if the call covers it
      refine hwr.zero p hpt hm fun hn => hpw ?_
      obtain ⟨h1, h2⟩ := hclean _ htouched.1 htouched.2 hn
      rw [blockSize_eq] at h1 h2
      omega
    · rw [hwr.outside p hpt (Or.inr htouched)]
      exact h.zero p hpC

/-- A sequence of writes. -/
theorem Holes.run (h : Holes F C s) {ws : List WriteCall} (hr : Run cleanWrite s ws t) :
    Holes F (C ∪ covered ws) t := by
  induction hr with
  | nil =>
    have hnil : covered [] = ∅ := by
      ext p
      simp [covered]
    rw [hnil, Set.union_empty]
    exact h
  | snoc _ hw ih =>
    rw [covered_concat, ← Set.union_assoc]
    exact ih.write hw

/-! ### Reading them -/

/-- A read within the file delivers its bytes as `testfs_read_block` does. -/
theorem readData_bytes (h : FileOK F s) (hmax : s.ino.din.iSize ≤ maxFileSize) (h0 : 0 < size)
    (hin : (start + size : ℕ) ≤ s.ino.din.iSize) (hint : start % blockSize + size ≤ 2 ^ 31)
    (hcap : size ≤ buf.cap) :
    ∃ buf', testfsReadData s.sb s.ino buf start size = some (toInt32 size, buf') ∧
      ∀ i < size, buf'.get i = some (s.readByte (start + i)) := by
  have hbs : (blockSize : ℤ) = 8192 := rfl
  rw [blockSize_eq] at hint
  have hint' : (start : ℤ) % blockSize + size ≤ 2 ^ 31 := by
    rw [hbs]
    omega
  have hread : testfsReadData s.sb s.ino buf start size = none ∧ _ ∨ _ :=
    readData_ok h (Int.natCast_nonneg start) (Int.natCast_nonneg size) (by omega)
    (by push_cast at hin; exact hin) hmax
  rcases hread with ⟨-, hn⟩ | ⟨n, buf', hr, -, -, hd, hn⟩
  · exact absurd ⟨hint', by exact_mod_cast hcap⟩ hn
  · refine ⟨buf', hr, fun i hi => ?_⟩
    obtain rfl := hn.2 hint'
    rw [hd.get, if_pos ⟨by omega, by omega⟩]
    rfl

/-- Where only the double indirect table is there, its bytes are read. -/
theorem readByte_hole (hn : s.NoSecondLevel (p / blockSize)) :
    s.readByte p = (s.sb.dev.data (s.ptr .dindirect)).get (p % blockSize) := by
  unfold FileState.readByte FileState.delivered
  rw [if_pos hn]

/-- A byte of a hole is read as zero, or as the byte of the double indirect table. -/
theorem readByte_zero_iff (hz : s.content p = 0) : s.readByte p = 0 ↔
    (s.NoSecondLevel (p / blockSize) →
      (s.sb.dev.data (s.ptr .dindirect)).get (p % blockSize) = 0) := by
  by_cases hn : s.NoSecondLevel (p / blockSize)
  · rw [readByte_hole hn]
    exact ⟨fun h _ => h, fun h => h hn⟩
  · have hb : s.readByte p = s.content p := by
      unfold FileState.readByte FileState.delivered
      rw [if_neg hn]
      rfl
    rw [hb]
    exact iff_of_true hz fun h => absurd h hn

/-- **Holes are read as zero**, as long as no block of the double indirect part whose second-level
table is missing was written in part: a byte that no write has covered is read as zero if and only
if its second-level table is there, the double indirect table is missing too, or the byte of that
table happens to be zero. -/
theorem holes_read_zero (h : FileOK F s) (hptr : ∀ sl, s.ptr sl = 0) (hnew : s.ino.din.iSize = 0)
    {ws : List WriteCall} (hrun : Run cleanWrite s ws t) {i : ℕ} (hi : i < size)
    (hin : (start + size : ℕ) ≤ t.ino.din.iSize) (hint : start % blockSize + size ≤ 2 ^ 31)
    (hcap : size ≤ buf.cap) (hp : start + i ∉ covered ws) :
    (∃ r buf', testfsReadData t.sb t.ino buf start size = some (r, buf') ∧ buf'.get i = some 0) ↔
      (t.NoSecondLevel ((start + i) / blockSize) →
        (t.sb.dev.data (t.ptr .dindirect)).get ((start + i) % blockSize) = 0) := by
  have hsize : s.ino.din.iSize ≤ maxFileSize := by
    rw [hnew]
    exact Int.natCast_nonneg _
  have ht := (Holes.new h hptr hsize).run hrun
  rw [Set.empty_union] at ht
  obtain ⟨buf', hr, hbytes⟩ := readData_bytes ht.file ht.iSize (by omega) hin hint hcap
  rw [← readByte_zero_iff (ht.zero _ hp)]
  constructor
  · intro ⟨r, buf₁, hr₁, hb⟩
    rw [hr] at hr₁
    obtain ⟨-, rfl⟩ := Prod.mk.inj (Option.some.inj hr₁)
    rw [hbytes i hi] at hb
    exact Option.some.inj hb
  · intro hz
    exact ⟨_, buf', hr, by rw [hbytes i hi, hz]⟩

/-! ### Two short files -/

/-- A write of one block to a file that has space for it and its tables. -/
theorem writeStep_one (h : FileOK F s) {w : WriteCall} (hmax : w.start + w.size ≤ maxFileSize)
    (hpos : 0 < w.size) (hfit : w.start % blockSize + w.size ≤ blockSize)
    (hbuf : ∀ i < w.size, (w.buf.get i).isSome) (hleft : 3 ≤ s.sb.left) :
    ∃ t, writeStep s w t ∧ FileOK F t ∧ s.sb.left ≤ t.sb.left + 3 ∧
      t.ino.din.iSize = max s.ino.din.iSize (w.start + w.size) ∧
      (∀ sl, t.ptr sl ≠ 0 ↔ s.ptr sl ≠ 0 ∨ sl ∈ path (w.start / blockSize)) ∧
      t.ino.iNr = s.ino.iNr := by
  rw [blockSize_eq] at hfit
  have hone : chunkCount w.start w.size = 1 := by
    have hbs : (blockSize : ℤ) = 8192 := rfl
    unfold chunkCount
    rw [hbs, toSize_of_lt (by omega) (by omega), if_neg (by omega)]
  have hneed : s.missing (w.start / blockSize) (w.start / blockSize + 1) ≤ 3 := by
    rw [FileState.missing_one]
    exact (List.length_filter_le _ _).trans (length_path _)
  have hlast : w.start / blockSize + 1 ≤ maxFileBlocks := by
    rw [maxFileSize_eq] at hmax
    rw [blockSize_eq, maxFileBlocks_eq]
    omega
  obtain ⟨t, hr⟩ := writeData_fits h hmax (by omega) hbuf (by rwa [hone])
    (by rw [hone]; exact hneed.trans hleft)
  have hn : (0 : ℤ) ≤ w.size := Int.natCast_nonneg _
  obtain ⟨s₁, hw, rfl⟩ := writeData_success h hmax hr hn
  rw [hone] at hw
  obtain ⟨hsb, hptr⟩ := s₁.grow_rest w.start w.size
  refine ⟨_, ⟨hmax, _, hn, hr⟩, hw.file.grow _ _, ?_, ?_, fun sl => ?_, ?_⟩
  · have := hw.left
    rw [hsb]
    omega
  · rw [s₁.grow_iSize _ (by omega), hw.iSize]
  · rw [hptr, hw.slots]
    constructor
    · intro hsl
      rcases hsl with h0 | ⟨l, h1, h2, hl⟩
      · exact Or.inl h0
      · obtain rfl : l = w.start / blockSize := by omega
        exact Or.inr hl
    · intro hsl
      rcases hsl with h0 | hl
      · exact Or.inl h0
      · exact Or.inr ⟨_, le_rfl, Nat.lt_succ_self _, hl⟩
  · rw [← hw.frame.iNr]
    unfold FileState.grow
    split_ifs <;> rfl

/-- Ten bytes are written from byte 100 on, and a byte before them is read. -/
theorem holes_read_zero_before : ∃ t, Run cleanWrite (freshFile 3) [⟨⟨10, fun _ => some 7⟩, 100, 10⟩] t ∧
    ∃ r buf', testfsReadData t.sb t.ino (Buf.fresh 10) (0 : ℕ) (10 : ℕ) = some (r, buf') ∧
      buf'.get 5 = some 0 := by
  obtain ⟨h, hleft, hptr⟩ := freshFile_ok (n := 3) (by decide)
  obtain ⟨t, hw, -, -, hsize, -⟩ := writeStep_one h (w := ⟨⟨10, fun _ => some 7⟩, 100, 10⟩)
    (by decide) (by decide) (by decide) (fun _ _ => rfl) hleft.ge
  have hrun : Run cleanWrite (freshFile 3) [⟨⟨10, fun _ => some 7⟩, 100, 10⟩] t := by
    refine .snoc (.nil _) ⟨fun l _ hl hn => ?_, hw⟩
    have hone : 100 / blockSize + chunkCount ((100 : ℕ) : ℤ) ((10 : ℕ) : ℤ) = 1 := by decide
    have hdind := hn.1
    rw [dindStart_eq] at hdind
    have hl' : l < 1 := hone ▸ hl
    omega
  refine ⟨t, hrun, (holes_read_zero h hptr rfl hrun (show 5 < 10 by decide) ?_ (by decide) le_rfl
    ?_).2 fun hn => ?_⟩
  · rw [hsize]
    exact le_max_of_le_right (by decide)
  · intro ⟨w, hw, h100, _⟩
    rw [List.mem_singleton.1 hw] at h100
    exact absurd h100 (by decide)
  · exact absurd hn.1 (by decide)

/-- One byte is written to the first block of the double indirect part and one to block 4096 of it.
The second-level table of block 2048 of that part is missing: the bytes read there are not all
zero. -/
theorem hole_reads_table : ∃ t, Run writeStep (freshFile 6)
      [⟨⟨1, fun _ => some 7⟩, 16859136, 1⟩, ⟨⟨1, fun _ => some 7⟩, 50413568, 1⟩] t ∧
    ((33636352 + 4 : ℕ) : ℤ) ≤ t.ino.din.iSize ∧ ∃ buf',
      testfsReadData t.sb t.ino (Buf.fresh 4) (33636352 : ℕ) (4 : ℕ) = some (4, buf') ∧
      ∃ i < 4, 33636352 + i ∉ covered
        [⟨⟨1, fun _ => some 7⟩, 16859136, 1⟩, ⟨⟨1, fun _ => some 7⟩, 50413568, 1⟩] ∧
        buf'.get i ≠ some 0 := by
  obtain ⟨h, hleft, hptr⟩ := freshFile_ok (n := 6) (by decide)
  obtain ⟨s, hw, hs, hleft', hsize₁, hslots, -⟩ := writeStep_one h
    (w := ⟨⟨1, fun _ => some 7⟩, 16859136, 1⟩) (by decide) (by decide) (by decide) (fun _ _ => rfl)
    (by rw [hleft]; decide)
  obtain ⟨t, hw', ht, -, hsize, hslots', -⟩ := writeStep_one hs
    (w := ⟨⟨1, fun _ => some 7⟩, 50413568, 1⟩) (by decide) (by decide) (by decide) (fun _ _ => rfl)
    (by omega)
  have hl : 16859136 / blockSize = 2058 := by decide
  have hl' : 50413568 / blockSize = 6154 := by decide
  have hslot : ∀ sl, t.ptr sl ≠ 0 ↔ sl ∈ path 2058 ∨ sl ∈ path 6154 := by
    intro sl
    rw [hslots', hslots, hptr]
    simp only [ne_eq, not_true_eq_false, false_or, hl, hl']
  have htable : t.ptr (.dind 0) ≠ 0 :=
    (hslot _).2 (Or.inl (FileState.dind_mem_path.2 ⟨by decide, by decide⟩))
  have hmiss : t.ptr (.dind 1) = 0 := by
    by_contra h0
    rcases (hslot _).1 h0 with hm | hm
    · exact absurd (FileState.dind_mem_path.1 hm).2 (by decide)
    · exact absurd (FileState.dind_mem_path.1 hm).2 (by decide)
  have hdind : t.ptr .dindirect ≠ 0 :=
    (hslot _).2 (Or.inl (FileState.dindirect_mem_path.2 (by decide)))
  have hin : ((33636352 + 4 : ℕ) : ℤ) ≤ t.ino.din.iSize := by
    rw [hsize]
    exact le_max_of_le_right (by decide)
  -- a number in the table is not zero, so one of its bytes is not
  obtain ⟨i, hi, hbyte⟩ : ∃ i < 4, (t.sb.dev.data (t.ptr .dindirect)).get i ≠ 0 := by
    by_contra hn
    push Not at hn
    refine htable ?_
    show entry t.sb.dev.data (t.ptr .dindirect) 0 = 0
    unfold entry
    rw [if_pos ⟨hdind, by decide⟩]
    unfold Block.word
    exact leInt_eq_zero fun i hi => by rw [Nat.mul_zero, Nat.zero_add, hn i hi]
  have hmax : t.ino.din.iSize ≤ maxFileSize := by
    rw [hsize, hsize₁]
    decide
  obtain ⟨buf', hr, hbytes⟩ := readData_bytes ht hmax (by decide) hin (by decide)
    (show 4 ≤ (Buf.fresh 4).cap from le_rfl)
  refine ⟨t, (Run.snoc (.nil _) hw).snoc hw', hin, buf', hr, i, hi, ?_, ?_⟩
  · intro ⟨w, hw, hlo, hhi⟩
    rcases List.mem_pair.1 hw with rfl | rfl
    · have hlt : 33636352 + i < 16859136 + 1 := hhi
      omega
    · have hle : 50413568 ≤ 33636352 + i := hlo
      omega
  · have hdiv : (33636352 + i) / blockSize = 4106 := by
      rw [blockSize_eq]
      omega
    have hmod : (33636352 + i) % blockSize = i := by
      rw [blockSize_eq]
      omega
    have hn : t.NoSecondLevel ((33636352 + i) / blockSize) := by
      rw [hdiv]
      exact ⟨by decide, hdind, hmiss⟩
    rw [hbytes i hi, readByte_hole hn, hmod]
    exact fun he => hbyte (Option.some.inj he)

end OSLab.Fs
