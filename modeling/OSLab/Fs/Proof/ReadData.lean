import OSLab.Fs.Proof.Allocate

/-!
# Reading a file

`readByte` is byte `p` of a file as `testfs_read_block` delivers it. `readData_ok`: reading
an interval of the file delivers these bytes, unless the transfer is too long for the `int`
offsets in the buffer, where it aborts.
-/

namespace OSLab.Fs

open Prog

variable {F : Set ℤ} {s : FileState} {buf buf' : Buf} {blockNr inc ix left off n : ℤ} {l p : ℕ}

/-- Byte `p` of the file as it is read. -/
def FileState.readByte (s : FileState) (p : ℕ) : Byte :=
  (s.delivered (p / blockSize)).get (p % blockSize)

theorem blockSize_eq : blockSize = 8192 := rfl

/-- The number of bytes of the largest file. -/
def maxFileSize : ℕ := maxFileBlocks * blockSize

theorem maxFileSize_eq : maxFileSize = 34376597504 := rfl

theorem readChunk_ok (h : FileOK F s) (hl : l < maxFileBlocks) (hL : blockNr + inc = l) :
    readChunk s.sb s.ino blockNr inc buf off ix n =
      if 2 ^ 31 ≤ blockSize * inc then none
      else (buf.store off (s.delivered l) ix n).map fun buf => (s.ptr (slotOf l), buf) := by
  have hlt : (l : ℤ) < 2 ^ 31 := by rw [maxFileBlocks_eq] at hl; omega
  unfold readChunk
  rw [hL, toInt32_of_lt (by omega) hlt, readBlock_ok h hl]
  simp only
  rw [if_neg (not_lt.2 (h.nonneg _))]

/-- The bytes of one block of the file are those of the file. -/
theorem delivered_get {k : ℤ} (hp : p / blockSize = l) (hk : k = (p % blockSize : ℕ)) :
    (s.delivered l).get k.toNat = s.readByte p := by
  subst hp hk
  rw [Int.toNat_natCast]
  rfl

theorem Buf.store_get {block : Block} (h : buf.store off block ix n = some buf') (i : ℕ) :
    buf'.cap = buf.cap ∧ buf'.get i =
      if off ≤ i ∧ i < off + n then some (block.get (i - off + ix).toNat) else buf.get i := by
  unfold Buf.store at h
  split at h
  · cases h; exact ⟨rfl, rfl⟩
  · cases h

theorem Buf.store_bounds {block : Block} (h : buf.store off block ix n = some buf') :
    0 ≤ n ∧ 0 ≤ ix ∧ ix + n ≤ blockSize ∧ 0 ≤ off ∧ off + n ≤ buf.cap := by
  unfold Buf.store at h
  split at h
  · assumption
  · cases h

theorem Buf.store_isSome (block : Block) (h : 0 ≤ n ∧ 0 ≤ ix ∧ ix + n ≤ blockSize ∧ 0 ≤ off ∧
    off + n ≤ buf.cap) : ∃ buf', buf.store off block ix n = some buf' :=
  ⟨_, if_pos h⟩

/-- What a read that returned has delivered: bytes `lo` to `hi` of the buffer, which starts at
byte `base` of the file. -/
structure Delivers (s : FileState) (base lo hi : ℤ) (buf buf' : Buf) : Prop where
  cap : buf'.cap = buf.cap
  get : ∀ i : ℕ, buf'.get i =
    if lo ≤ i ∧ i < hi then some (s.readByte (base + i).toNat) else buf.get i

theorem Delivers.trans {buf'' : Buf} {base a b c : ℤ} (h₁ : Delivers s base a b buf buf')
    (h₂ : Delivers s base b c buf' buf'') (hab : a ≤ b) (hbc : b ≤ c) :
    Delivers s base a c buf buf'' where
  cap := h₂.cap.trans h₁.cap
  get i := by
    rw [h₂.get, h₁.get]
    by_cases h1 : (i : ℤ) < b
    · rw [if_neg (by omega)]
      by_cases h2 : a ≤ i
      · rw [if_pos ⟨h2, h1⟩, if_pos ⟨h2, by omega⟩]
      · rw [if_neg (by omega), if_neg (by omega)]
    · by_cases h2 : (i : ℤ) < c
      · rw [if_pos (by omega), if_pos (by omega)]
      · rw [if_neg (by omega), if_neg (by omega), if_neg (by omega)]

/-- One chunk. -/
theorem readChunk_delivers (h : FileOK F s) (buf : Buf) (off ix n : ℤ) (hl : l < maxFileBlocks)
    (hL : blockNr + inc = l) {base : ℤ} (hb : blockSize * (l : ℤ) + ix = base + off) :
    (readChunk s.sb s.ino blockNr inc buf off ix n = none ∧
      ¬(blockSize * inc < 2 ^ 31 ∧ 0 ≤ n ∧ 0 ≤ ix ∧ ix + n ≤ blockSize ∧ 0 ≤ off ∧ off + n ≤ buf.cap)) ∨
    ∃ buf', readChunk s.sb s.ino blockNr inc buf off ix n = some (s.ptr (slotOf l), buf') ∧ 0 ≤ n ∧
      blockSize * inc < 2 ^ 31 ∧ Delivers s base off (off + n) buf buf' := by
  rw [readChunk_ok h hl hL]
  by_cases hov : (2 : ℤ) ^ 31 ≤ blockSize * inc
  · rw [if_pos hov]
    exact Or.inl ⟨rfl, fun hn => absurd hn.1 (not_lt.2 hov)⟩
  rw [if_neg hov]
  cases hs : buf.store off (s.delivered l) ix n with
  | none =>
    refine Or.inl ⟨rfl, fun hn => ?_⟩
    obtain ⟨buf', hb'⟩ := Buf.store_isSome (s.delivered l) hn.2
    rw [hs] at hb'
    cases hb'
  | some buf' =>
    obtain ⟨h1, h2, h3, h4, -⟩ := Buf.store_bounds hs
    refine Or.inr ⟨buf', rfl, h1, not_le.1 hov, (Buf.store_get hs 0).1, fun i => ?_⟩
    rw [(Buf.store_get hs i).2]
    split
    · congr 1
      rw [blockSize_eq] at hb h3
      refine delivered_get ?_ ?_ <;> rw [blockSize_eq] <;> omega
    · rfl

theorem readRest_ok (h : FileOK F s) (buf : Buf) (left inc : ℤ) (hix : 0 ≤ ix ∧ ix < blockSize) (hinc : 1 ≤ inc)
    (h0 : 0 ≤ blockNr) (hmax : blockNr + inc < maxFileBlocks)
    (hend : (blockNr + inc) * blockSize + left ≤ maxFileSize) :
    (readRest s.sb s.ino blockNr ix buf left inc = none ∧
      ¬(0 ≤ left ∧ blockSize * inc < 2 ^ 31 ∧ blockSize * inc + left ≤ 2 ^ 31 ∧
        blockSize * inc - ix + left ≤ buf.cap)) ∨
    ∃ ret buf', readRest s.sb s.ino blockNr ix buf left inc = some (ret, buf') ∧ 0 ≤ ret ∧ 0 ≤ left ∧
      blockSize * inc + left ≤ 2 ^ 31 ∧
      Delivers s (blockSize * blockNr + ix) (blockSize * inc - ix) (blockSize * inc - ix + left)
        buf buf' := by
  have hbs : (blockSize : ℤ) = 8192 := rfl
  rw [maxFileSize_eq] at hend
  rw [maxFileBlocks_eq] at hmax
  obtain ⟨m, hm⟩ : ∃ m : ℕ, m = left.toNat := ⟨_, rfl⟩
  induction m using Nat.strong_induction_on generalizing left inc buf with
  | _ m ih =>
    obtain ⟨l, hl⟩ : ∃ l : ℕ, blockNr + inc = l := ⟨(blockNr + inc).toNat, by omega⟩
    have hlt : l < maxFileBlocks := by rw [maxFileBlocks_eq]; omega
    rw [hbs] at hend hix
    have hbase : (blockSize : ℤ) * l + 0 = blockSize * blockNr + ix + (blockSize * inc - ix) := by
      rw [← hl]; ring
    have hchunk := fun k => readChunk_delivers h buf (blockSize * inc - ix) 0 k hlt hl hbase
    unfold readRest
    simp only
    split
    · rename_i hbig
      rcases hchunk blockSize with ⟨hc, hn⟩ | ⟨buf₁, hc, -, -, hd⟩
      · rw [hc]
        refine Or.inl ⟨rfl, fun hs => hn ?_⟩
        rw [hbs] at hs hbig ⊢
        omega
      · rw [hc]
        simp only [if_neg (not_lt.2 (h.nonneg _))]
        rw [hbs] at hbig
        have e1 : (blockSize : ℤ) * (inc + 1) - ix = blockSize * inc - ix + blockSize := by ring
        have e2 : (blockSize : ℤ) * inc - ix + blockSize + (left - blockSize) =
          blockSize * inc - ix + left := by ring
        have e3 : (blockSize : ℤ) * (inc + 1) + (left - blockSize) = blockSize * inc + left := by ring
        rcases ih (left - blockSize).toNat (by rw [hbs]; omega) buf₁ (left - blockSize) (inc + 1)
          (by omega) (by omega) (by rw [hbs]; omega) rfl with
          ⟨hr, hn⟩ | ⟨ret, buf', hr, hret, hle, hsum, hd'⟩
        · rw [hr]
          refine Or.inl ⟨rfl, fun hs => hn ?_⟩
          rw [hd.cap, e3, e1, e2]
          exact ⟨by rw [hbs]; omega, by rw [hbs] at hs ⊢; omega, hs.2.2⟩
        · rw [hr]
          rw [hbs] at hle
          refine Or.inr ⟨ret, buf', rfl, hret, by omega, by rwa [e3] at hsum, ?_⟩
          rw [e1, e2] at hd'
          exact hd.trans hd' (by rw [hbs]; omega) (by rw [hbs]; omega)
    · rename_i hsmall
      rcases hchunk left with ⟨hc, hn⟩ | ⟨buf₁, hc, hle, hlt31, hd⟩
      · rw [hc]
        refine Or.inl ⟨rfl, fun hs => hn ?_⟩
        rw [hbs] at hs hsmall ⊢
        omega
      · rw [hbs] at hlt31 hsmall
        exact Or.inr ⟨_, buf₁, hc, h.nonneg _, hle, by rw [hbs]; omega, hd⟩

/-- **Reading an interval of a file.** A call that returns has delivered what it read, and one
of at most 2^31 bytes, counted from the start of its first block, into a large enough buffer
returns. -/
theorem readData_ok (h : FileOK F s) {start size : ℤ} (h0 : 0 ≤ start) (hs : 0 ≤ size)
    (hblock : start < maxFileSize) (hin : start + size ≤ s.ino.din.iSize)
    (hmax : s.ino.din.iSize ≤ maxFileSize) :
    (testfsReadData s.sb s.ino buf start size = none ∧
      ¬(start % blockSize + size ≤ 2 ^ 31 ∧ size ≤ buf.cap)) ∨
    ∃ n buf', testfsReadData s.sb s.ino buf start size = some (toInt32 size, buf') ∧ 0 ≤ n ∧
      n ≤ size ∧ Delivers s start 0 n buf buf' ∧ (n = size ↔ start % blockSize + size ≤ 2 ^ 31) := by
  have hbs : (blockSize : ℤ) = 8192 := rfl
  rw [maxFileSize_eq] at hmax hblock
  have hdiv : start.tdiv blockSize = start / blockSize := Int.tdiv_eq_ediv_of_nonneg h0
  have hmod : start.tmod blockSize = start % blockSize := Int.tmod_eq_emod_of_nonneg h0
  have hsplit : start / 8192 * 8192 + start % 8192 = start := Int.ediv_mul_add_emod start 8192
  have hix0 := Int.emod_nonneg start (show (8192 : ℤ) ≠ 0 by decide)
  have hix1 := Int.emod_lt_of_pos start (show (0 : ℤ) < 8192 by decide)
  obtain ⟨l, hl⟩ : ∃ l : ℕ, start / 8192 + 0 = l := ⟨(start / 8192).toNat, by omega⟩
  have hlt : l < maxFileBlocks := by rw [maxFileBlocks_eq]; omega
  have hbase : (blockSize : ℤ) * (start / 8192) + start % 8192 = start := by rw [hbs]; omega
  have hbase' : (blockSize : ℤ) * l + start % 8192 = start + 0 := by rw [← hl, hbs]; omega
  have hchunk := fun k => readChunk_delivers h buf 0 (start % 8192) k hlt hl hbase'
  unfold testfsReadData
  simp only [hdiv, hmod]
  have hnc : ¬s.ino.din.iSize < start + size := not_lt.2 hin
  rw [hbs, toInt64_of_lt (by omega) (by omega), if_neg (by omega)]
  simp only [if_neg hnc]
  rw [toSize_of_lt (by omega) (by omega)]
  split
  · rename_i hbig
    rcases hchunk (8192 - start % 8192) with ⟨hc, hn⟩ | ⟨buf₁, hc, -, -, hd⟩
    · rw [hc]
      refine Or.inl ⟨rfl, fun hsm => hn ?_⟩
      rw [hbs]
      omega
    · rw [hc]
      simp only [if_neg (not_lt.2 (h.nonneg _))]
      have hle32 := toInt32_le (x := size - 8192 + start % 8192) (by omega)
      rcases readRest_ok h buf₁ (toInt32 (size - 8192 + start % 8192)) 1
        ⟨hix0, by rw [hbs]; exact hix1⟩ (le_refl 1) (show 0 ≤ start / 8192 by omega)
        (by rw [maxFileBlocks_eq]; omega)
        (by rw [hbs, maxFileSize_eq]; omega) with
        ⟨hr, hn⟩ | ⟨ret, buf', hr, hret, hle, hsum, hd'⟩
      · rw [hr]
        refine Or.inl ⟨rfl, fun hsm => hn ?_⟩
        rw [hd.cap, hbs, toInt32_of_lt (by omega) (by omega)]
        omega
      · rw [hr]
        simp only [if_neg (not_lt.2 hret)]
        rw [hbase, hbs] at hd'
        rw [show (8192 : ℤ) * 1 - start % 8192 = 0 + (8192 - start % 8192) by ring] at hd'
        rw [hbs] at hsum
        refine Or.inr ⟨_, buf', rfl, ?_, ?_, hd.trans hd' (by omega) (by omega), fun hn => ?_,
          fun hsm => ?_⟩
        · omega
        · omega
        · omega
        · rw [toInt32_of_lt (by omega) (by omega)]
          omega
  · rename_i hsmall
    rcases hchunk size with ⟨hc, hn⟩ | ⟨buf', hc, -, -, hd⟩
    · rw [hc]
      refine Or.inl ⟨rfl, fun hsm => hn ?_⟩
      rw [hbs]
      omega
    · rw [hc]
      simp only [if_neg (not_lt.2 (h.nonneg _))]
      refine Or.inr ⟨size, buf', rfl, hs, le_rfl, by rwa [zero_add] at hd, iff_of_true rfl ?_⟩
      omega

end OSLab.Fs
