import OSLab.Fs.File
import OSLab.Fs.Proof.Holes
import OSLab.Fs.Proof.Refs

/-!
# The range checks of `cmd_read` and `cmd_write`

Offsets and sizes come from strings, as 64-bit integers.

* `readFile_sound`: the checks of `cmd_read` let `testfs_read_data` read inside the file, unless the
  size is the largest, for which `size + 1` is 0, the sum overflows, or the range reaches 2^31 bytes
  past the start of its first block.
* `cmdWrite_beyond`: an offset past the largest file is refused if its block number is too
  large as an `int`; if it wraps to the number of a block of the file, the write goes there.
-/

namespace OSLab.Fs

open Prog

variable {F : Set ℤ} {s : Testfs} {ino : Inode} {buf : Buf} {nr offset size : ℤ}
  {offsetStr sizeStr : CString}

/-! ### Reading -/

theorem strToSize_range (h : strToSize sizeStr = some size) : 0 ≤ size ∧ size < 2 ^ 64 := by
  unfold strToSize at h
  simp only at h
  split at h
  · cases h
  · split at h
    · cases h
      decide
    · cases h
      unfold toSize
      omega

/-- A read of the whole range: it lies in the file, the buffer has room for it and the `NUL`, the
length of the rest fits an `int`, and exactly the bytes of the range are stored. -/
structure ReadSound (s : FileState) (offset size : ℤ) : Prop where
  inFile : offset + size ≤ s.ino.din.iSize
  room : size + 1 ≤ toSize (size + 1)
  leftover : blockSize < toSize (offset % blockSize + size) →
    toInt32 (size - blockSize + offset % blockSize) = size - blockSize + offset % blockSize
  exact : ∃ ret buf', testfsReadData s.sb s.ino (Buf.fresh (toSize (size + 1)).toNat) offset size =
    some (ret, buf') ∧ ∀ i : ℕ, buf'.get i =
      if (i : ℤ) < size then some (s.readByte (offset + i).toNat) else none

/-- Reading nothing at the very end of the largest file. -/
theorem readData_end (s : FileState) (buf : Buf) (h : s.ino.din.iSize = maxFileSize) :
    testfsReadData s.sb s.ino buf maxFileSize 0 = some (-efbig, buf) := by
  have hchunk : readChunk s.sb s.ino ((maxFileSize : ℤ).tdiv blockSize) 0 buf 0
      ((maxFileSize : ℤ).tmod blockSize) 0 = some (-efbig, buf) := by
    unfold readChunk
    rw [readBlock_big (by decide)]
    rfl
  unfold testfsReadData
  simp only [h]
  rw [if_neg (by decide), if_neg (by decide), if_neg (by decide), hchunk]
  rfl

theorem readSound_iff {s : FileState} (h : FileOK F s) (hmax : s.ino.din.iSize ≤ maxFileSize)
    (h0 : 0 ≤ offset) (hs : 0 ≤ size) : ReadSound s offset size ↔
      offset + size ≤ s.ino.din.iSize ∧ offset % blockSize + size ≤ 2 ^ 31 := by
  have hbs : (blockSize : ℤ) = 8192 := rfl
  have hms : (maxFileSize : ℤ) = 34376597504 := rfl
  have hix0 := Int.emod_nonneg offset (show (8192 : ℤ) ≠ 0 by decide)
  have hix1 := Int.emod_lt_of_pos offset (show (0 : ℤ) < 8192 by decide)
  rw [hms] at hmax
  by_cases hin : offset + size ≤ s.ino.din.iSize
  swap
  · exact iff_of_false (fun hr => hin hr.inFile) fun hr => hin hr.1
  have hroom : toSize (size + 1) = size + 1 := toSize_of_lt (by omega) (by omega)
  have hleft : offset % blockSize + size ≤ 2 ^ 31 → blockSize < toSize (offset % blockSize + size) →
      toInt32 (size - blockSize + offset % blockSize) = size - blockSize + offset % blockSize := by
    rw [hbs]
    intro hle hlt
    rw [toSize_of_lt (by omega) (by omega)] at hlt
    exact toInt32_of_lt (by omega) (by omega)
  by_cases hend : offset < maxFileSize
  · have hcap : (Buf.fresh (toSize (size + 1)).toNat).cap = size + 1 := by
      rw [hroom]
      show (((size + 1).toNat : ℕ) : ℤ) = size + 1
      omega
    have hread : (testfsReadData s.sb s.ino (Buf.fresh (toSize (size + 1)).toNat) offset size = none ∧
        _) ∨ _ := readData_ok h h0 hs hend hin (by rw [hms]; exact hmax)
    rcases hread with ⟨hr, hn⟩ | ⟨n, buf', hr, hn0, hle, hd, hnsize⟩
    · rw [hcap] at hn
      refine iff_of_false (fun hsound => ?_) fun hh => hn ⟨hh.2, by omega⟩
      obtain ⟨_, _, hx, -⟩ := hsound.exact
      rw [hr] at hx
      cases hx
    · have hget : ∀ i : ℕ, buf'.get i =
          if (i : ℤ) < n then some (s.readByte (offset + i).toNat) else none := by
        intro i
        rw [hd.get]
        by_cases hi : (i : ℤ) < n
        · rw [if_pos hi, if_pos ⟨Int.natCast_nonneg i, hi⟩]
        · rw [if_neg hi, if_neg fun hh => hi hh.2]
          rfl
      constructor
      · intro hsound
        refine ⟨hin, hnsize.1 ?_⟩
        obtain ⟨ret, buf₂, hx, hstored⟩ := hsound.exact
        rw [hr] at hx
        obtain ⟨-, rfl⟩ := Prod.mk.inj (Option.some.inj hx)
        -- the byte after the last one stored is in the range, unless all are stored
        by_contra hne
        have hat := hstored n.toNat
        rw [hget, Int.toNat_of_nonneg hn0, if_neg (lt_irrefl n), if_pos (by omega)] at hat
        cases hat
      · rintro ⟨-, hb⟩
        obtain rfl := hnsize.2 hb
        exact ⟨hin, hroom.ge, hleft hb, _, buf', hr, hget⟩
  · -- nothing can be read at the end of the largest file, and nothing is
    obtain rfl : size = 0 := by rw [hms] at hend; omega
    obtain rfl : offset = maxFileSize := by rw [hms] at hend ⊢; omega
    refine iff_of_true ⟨hin, hroom.ge, hleft (by decide), _, _, readData_end s _ ?_, fun i => ?_⟩
      ⟨hin, by decide⟩
    · rw [hms] at hin ⊢
      omega
    · rw [if_neg (by omega)]
      rfl

/-- What the checks of `cmd_read` make of a range: it is refused, there is no buffer for it, or it
is read whole. -/
def ReadChecked (s : FileState) (offset size : ℤ) (reply : Reply) : Prop :=
  s.ino.din.iSize < offset + toInt64 size ∧ reply = (-einval, []) ∨
    offset + toInt64 size ≤ s.ino.din.iSize ∧ ptrdiffMax < toSize (size + 1) ∧
      reply = (-enomem, []) ∨
    ReadSound s offset size

/-- `malloc` fails for the sizes that `(off_t)size` makes negative, except the largest, for which
`size + 1` wraps. -/
theorem ptrdiffMax_lt_iff (hs : 0 ≤ size) (hs64 : size < 2 ^ 64) :
    ptrdiffMax < toSize (size + 1) ↔ 2 ^ 63 ≤ size + 1 ∧ size < 2 ^ 64 - 1 := by
  unfold ptrdiffMax toSize
  omega

/-- What `cmd_read` does once it has the inode. -/
theorem readFile_iff (hn : s.find nr = some ino) (h : FileOK F ⟨s.sb, ino⟩)
    (hmax : ino.din.iSize ≤ maxFileSize) (h0 : 0 ≤ offset) (hs : 0 ≤ size)
    (hs64 : size < 2 ^ 64) :
    wp False (readFile nr offset size) (fun reply t => t = s ∧
      ReadChecked ⟨s.sb, ino⟩ offset size reply) s ↔
    offset + toInt64 size < 2 ^ 63 ∧ (ino.din.iSize < offset + toInt64 size ∨
      2 ^ 63 ≤ size ∧ size < 2 ^ 64 - 1 ∨
      offset + size ≤ ino.din.iSize ∧ offset % blockSize + size ≤ 2 ^ 31) := by
  have hsound := readSound_iff h hmax h0 hs
  have hmalloc := ptrdiffMax_lt_iff hs hs64
  constructor
  · intro hwp
    obtain ⟨reply, t, -, -, hq⟩ := hwp.returns
    unfold readFile at hwp
    rw [wp_bind, wp_inode hn, wp_bind, wp_require] at hwp
    refine ⟨by_contra fun hov => hwp.2 hov, ?_⟩
    rcases hq with ⟨hlt, -⟩ | ⟨hle, hno, -⟩ | hq
    · exact Or.inl hlt
    · obtain ⟨hlarge, hless⟩ := hmalloc.1 hno
      refine Or.inr (Or.inl ⟨?_, hless⟩)
      -- the size 2^63 - 1 is larger than the file
      by_contra hlt
      rw [maxFileSize_eq] at hmax
      rw [toInt64_of_lt (by omega) (by omega)] at hle
      have hle' : offset + size ≤ ino.din.iSize := hle
      omega
    · exact Or.inr (Or.inr (hsound.1 hq))
  · rintro ⟨hov, hc⟩
    unfold readFile
    rw [wp_bind, wp_inode hn, wp_bind, wp_require]
    refine ⟨fun _ => ?_, fun hn => hn hov⟩
    rw [wp_ite]
    refine ⟨fun hlt => (wp_pure _).2 ⟨rfl, Or.inl ⟨hlt, rfl⟩⟩, fun hge => ?_⟩
    rw [wp_ite]
    refine ⟨fun hno => (wp_pure _).2 ⟨rfl, Or.inr (Or.inl ⟨not_lt.1 hge, hno, rfl⟩)⟩, fun hyes => ?_⟩
    have hread : ReadSound ⟨s.sb, ino⟩ offset size := by
      rcases hc with hlt | ⟨hlarge, hless⟩ | hc
      · exact absurd hlt hge
      · exact absurd (hmalloc.2 ⟨by omega, hless⟩) hyes
      · exact hsound.2 hc
    obtain ⟨ret, buf', hr, -⟩ := hread.exact
    rw [wp_bind]
    refine wp_reads _ hr ?_
    simp only [wp_ite, wp_bind, wp_require, wp_pure]
    have hroom := hread.room
    exact ⟨fun _ => ⟨fun _ => ⟨trivial, Or.inr (Or.inr hread)⟩, fun hno => hno (by omega)⟩,
      fun _ => ⟨trivial, Or.inr (Or.inr hread)⟩⟩

/-- **The range check of `cmd_read`** refuses a range, or finds no buffer for it, or lets it be
read whole, exactly when `offset + (off_t)size` does not overflow and a range that is not refused
has a size from 2^63 on, except the largest, for which `malloc` fails, or lies in the file and ends
at most 2^31 bytes past the start of its first block. -/
theorem readFile_sound (hn : s.find nr = some ino) (h : FileOK F ⟨s.sb, ino⟩)
    (hmax : ino.din.iSize ≤ maxFileSize) :
    ∀ offset size, strToOffset offsetStr = some offset → 0 ≤ offset →
      strToSize sizeStr = some size →
      (wp False (readFile nr offset size) (fun reply t => t = s ∧
          ReadChecked ⟨s.sb, ino⟩ offset size reply) s ↔
        offset + toInt64 size < 2 ^ 63 ∧ (ino.din.iSize < offset + toInt64 size ∨
          2 ^ 63 ≤ size ∧ size < 2 ^ 64 - 1 ∨
          offset + size ≤ ino.din.iSize ∧ offset % blockSize + size ≤ 2 ^ 31)) :=
  fun _ _ _ h0 hs => readFile_iff hn h hmax h0 (strToSize_range hs).1 (strToSize_range hs).2

/-- A file system with one file in memory, inode 1. -/
def FileState.alone (g : FileState) : Testfs := ⟨g.sb, [g.ino], 0⟩

/-- Of three bytes the last two are read; a size of `-5` is too large for a buffer. -/
theorem readFile_sound_three : ∃ g : FileState, g.alone.find 1 = some g.ino ∧ FileOK ∅ g ∧
    g.ino.din.iSize = 3 ∧ strToOffset ⟨[0x31], by decide⟩ = some 1 ∧
    strToSize ⟨[0x32], by decide⟩ = some 2 ∧
    strToSize ⟨[0x2d, 0x35], by decide⟩ = some (2 ^ 64 - 5) ∧
    wp False (readFile 1 1 2) (fun reply t => t = g.alone ∧ ReadChecked g 1 2 reply) g.alone ∧
    ReadSound g 1 2 ∧
    wp False (readFile 1 1 (2 ^ 64 - 5)) (fun reply t => t = g.alone ∧
      ReadChecked g 1 (2 ^ 64 - 5) reply) g.alone ∧
    ¬ReadSound g 1 (2 ^ 64 - 5) := by
  obtain ⟨h, hleft, -⟩ := freshFile_ok (n := 3) (by decide)
  obtain ⟨g, -, hg, -, hsize, -, hnr⟩ := writeStep_one h (w := ⟨⟨3, fun _ => some 7⟩, 0, 3⟩)
    (by decide) (by decide) (by decide) (fun _ _ => rfl) hleft.ge
  have hsize : g.ino.din.iSize = 3 := hsize
  have hmax : g.ino.din.iSize ≤ maxFileSize := by
    rw [hsize]
    decide
  have hfind : g.alone.find 1 = some g.ino := by
    have hg1 : g.ino.iNr = 1 := hnr
    unfold Testfs.find FileState.alone inodeHashFind
    rw [List.find?_cons_of_pos (by rw [hg1]; rfl)]
  have ho : strToOffset ⟨[0x31], by decide⟩ = some 1 := by decide
  have hs : strToSize ⟨[0x32], by decide⟩ = some 2 := by decide
  have hs' : strToSize ⟨[0x2d, 0x35], by decide⟩ = some (2 ^ 64 - 5) := by decide
  refine ⟨g, hfind, hg, hsize, ho, hs, hs', ?_, ?_, ?_, fun hr => ?_⟩
  · refine (readFile_sound hfind hg hmax 1 2 ho (by decide) hs).2
      ⟨by decide, Or.inr (Or.inr ⟨?_, by decide⟩)⟩
    rw [hsize]
    decide
  · refine (readSound_iff hg hmax (by decide) (by decide)).2 ⟨?_, by decide⟩
    rw [hsize]
    decide
  · exact (readFile_sound hfind hg hmax 1 (2 ^ 64 - 5) ho (by decide) hs').2
      ⟨by decide, Or.inr (Or.inl (by decide))⟩
  · have hin := hr.inFile
    rw [hsize] at hin
    exact absurd hin (by decide)

/-- The size `-1` is accepted, passes the check for an empty file, and the buffer gets no room. -/
theorem readFile_minus_one :
    strToOffset ⟨[0x30], by decide⟩ = some 0 ∧
    strToSize ⟨[0x2d, 0x31], by decide⟩ = some (2 ^ 64 - 1) ∧
    ¬(freshFile 1).ino.din.iSize < 0 + toInt64 (2 ^ 64 - 1) ∧
    toSize (2 ^ 64 - 1 + 1) = 0 ∧
    ¬wp False (readFile 1 0 (2 ^ 64 - 1)) (fun reply t => t = (freshFile 1).alone ∧
      ReadChecked (freshFile 1) 0 (2 ^ 64 - 1) reply) (freshFile 1).alone := by
  have hpass : ¬(freshFile 1).ino.din.iSize < 0 + toInt64 (2 ^ 64 - 1) := by decide
  refine ⟨by decide, by decide, hpass, by decide, fun hwp => ?_⟩
  obtain ⟨-, -, -, -, ⟨hlt, -⟩ | ⟨-, hno, -⟩ | hr⟩ := hwp.returns
  · exact hpass hlt
  · exact absurd hno (by decide)
  · exact absurd hr.inFile (by decide)

/-! ### Writing what is there already -/

section Redundant

variable {s s' : FileState} {blockNr inc ix off n base left : ℤ} {a l k : ℕ}

/-- Writing a block the bytes it has. -/
theorem FileOK.put_same (h : FileOK F s) (hm : s.Mapped l) :
    s.put (s.ptr (slotOf l)) (s.blockAt l) = s := by
  have hmem := h.owns.mem hm
  have hlen := h.inDev _ hmem
  have hb : s.blockAt l = s.sb.dev.data (s.ptr (slotOf l)) := by
    unfold FileState.blockAt
    exact if_neg hm
  have hdev : s.sb.dev.put (s.ptr (slotOf l)) (s.blockAt l) = s.sb.dev := by
    unfold Device.put
    rw [hb, Function.update_eq_self, max_eq_left (by omega)]
  unfold FileState.put SuperBlock.put
  rw [hdev]

theorem store_same {b : Block} (h0 : 0 ≤ n) (hix : 0 ≤ ix) (hend : ix + n ≤ blockSize)
    (hoff : 0 ≤ off) (hbuf : ∀ i : ℕ, ix ≤ i → i < ix + n →
      buf.get (i - ix + off).toNat = some (b.get i)) : b.store ix buf off n = some b := by
  unfold Block.store
  rw [if_pos]
  · congr 1
    funext i
    unfold Block.ofFn
    simp only
    split
    · rename_i hi
      rw [hbuf i hi.1 hi.2]
      unfold Block.get
      rw [dif_pos i.isLt]
      rfl
    · unfold Block.get
      rw [dif_pos i.isLt]
  · refine ⟨h0, hix, hend, hoff, fun i hi => ?_⟩
    have := hbuf (i + ix.toNat) (by omega) (by omega)
    rw [show ((((i + ix.toNat : ℕ) : ℤ) - ix + off).toNat) = off.toNat + i by omega] at this
    rw [this]
    rfl

/-- The bytes of the file from `lo` on, as far as block `m`, are those of the data that start at
byte `base`. -/
def Same (s : FileState) (buf : Buf) (base lo : ℤ) : Prop :=
  ∀ p : ℕ, lo ≤ p → p < maxFileSize → buf.get (p - base).toNat = some (s.content p)

theorem writeChunk_same (h : FileOK F s) (hl : l < maxFileBlocks) (hm : s.Mapped l)
    (hL : toInt32 (blockNr + inc) = l) (hbase : blockSize * (l : ℤ) + ix = base + off)
    (hinc : blockSize * inc < 2 ^ 31) (hix : 0 ≤ ix) (hn : ix + n = blockSize) (h0 : 0 ≤ n)
    (hoff : 0 ≤ off) (hsame : Same s buf base (blockSize * (l : ℤ) + ix)) :
    wp False (writeChunk buf blockNr inc ix off n) (fun r s' => 0 ≤ r ∧ s' = s) s := by
  have hms := maxFileSize_eq
  have hbs : (blockSize : ℤ) = 8192 := rfl
  rw [maxFileBlocks_eq] at hl
  rw [hbs] at hn hbase
  have hst : (s.delivered l).store ix buf off n = some (s.blockAt l) := by
    have hdel : s.delivered l = s.blockAt l := by
      unfold FileState.delivered
      rw [if_neg]
      rintro ⟨h1, -, h2⟩
      exact FileState.path_filled hm _ (FileState.dind_mem_path.2 ⟨h1, rfl⟩) h2
    rw [hdel]
    refine store_same h0 hix (by rw [hbs]; omega) hoff fun i hi hlt => ?_
    have hp := hsame (l * blockSize + i) (by rw [hbs, blockSize_eq]; push_cast; omega)
      (by rw [hms, blockSize_eq]; omega)
    have hpos : ((l * blockSize + i : ℕ) : ℤ) - base = i - ix + off := by
      rw [blockSize_eq]; push_cast; omega
    rw [hpos] at hp
    rw [hp]
    unfold FileState.content
    rw [blockSize_eq, show (l * 8192 + i) / 8192 = l by omega,
      show (l * 8192 + i) % 8192 = i by omega]
  unfold writeChunk
  rw [wp_bind, hL]
  refine wp_mono (allocateBlock_ok h (by rw [maxFileBlocks_eq]; exact hl)) ?_
  rintro ⟨ret, block⟩ s' ⟨hb, ⟨-, hr, rfl⟩ | ⟨hno, -⟩ | ⟨hno, -⟩⟩
  · have hret : ret = s'.ptr (slotOf l) := hr
    have hpos := (h.pos (slotOf l)).2 hm
    rw [← hret] at hpos
    obtain rfl : block = s'.delivered l := hb hpos.le
    simp only [wp_ite, wp_bind, wp_require, wp_pure]
    refine ⟨fun hneg => absurd hneg hpos.le.not_gt, fun _ => ⟨fun _ => ?_, fun hno => hno hinc⟩⟩
    refine wp_reads _ hst ?_
    rw [wp_writeBlockFile hpos.le]
    exact ⟨hpos.le, by rw [hret]; exact h.put_same hm⟩
  · exact absurd hm hno
  · exact absurd hm hno

/-- The blocks from `a` on are there, and hold the data that start at byte `base` as far as they
reach: to the end of the largest file. -/
structure AllSame (s : FileState) (buf : Buf) (base : ℤ) (a : ℕ) (lo : ℤ) : Prop where
  mapped : ∀ l, a ≤ l → l < maxFileBlocks → s.Mapped l
  same : Same s buf base lo

theorem writeRest_same (h : FileOK F s) {ix : ℤ} {a : ℕ} (hL : toInt32 blockNr = a)
    (hix : 0 ≤ ix ∧ ix < blockSize) (left : ℤ) (inc : ℕ) (hinc : 1 ≤ inc)
    (hmax : a + inc ≤ maxFileBlocks) (hpast : maxFileBlocks < a + inc + restCount left)
    (hfit : blockSize * ((inc : ℤ) - 1) + left < 2 ^ 31)
    (hall : AllSame s buf (blockSize * a + ix) (a + inc) (blockSize * (a + inc : ℕ))) :
    wp False (writeRest buf blockNr ix left inc) (fun r s' => r = -efbig ∧
      s' = if a + inc + restCount left = maxFileBlocks + 1 then s.magic else s) s := by
  have hbs : (blockSize : ℤ) = 8192 := rfl
  have hms := maxFileBlocks_eq
  rw [hbs] at hix hfit
  obtain ⟨m, hm⟩ : ∃ m : ℕ, m = left.toNat := ⟨_, rfl⟩
  induction m using Nat.strong_induction_on generalizing left inc with
  | _ m ih =>
    have hLi : toInt32 (blockNr + inc) = (a + inc : ℕ) := by
      rw [toInt32_add hL (by omega) (by omega) (by omega)]
      push_cast; rfl
    unfold writeRest
    simp only
    by_cases hlong : (blockSize : ℤ) < left
    · have hcount : restCount left = restCount (left - blockSize) + 1 := by
        unfold restCount
        rw [if_neg (not_le.2 hlong)]
        rw [hbs] at hlong ⊢
        split <;> omega
      have hpos := restCount_pos (left - blockSize)
      rw [if_pos hlong, wp_bind]
      rw [hbs] at hlong
      rcases Nat.lt_or_ge (a + inc) maxFileBlocks with hlt | hge
      · have hchunk := writeChunk_same h hlt (hall.mapped _ le_rfl hlt) hLi
          (show blockSize * ((a + inc : ℕ) : ℤ) + 0 =
            blockSize * (a : ℤ) + ix + (blockSize * (inc : ℤ) - ix) by push_cast; ring)
          (n := blockSize) (by rw [hbs]; omega) le_rfl (by ring) (by rw [hbs]; decide)
          (by rw [hbs]; omega) (by rw [add_zero]; exact hall.same)
        refine wp_mono hchunk ?_
        rintro r _ ⟨hr, rfl⟩
        rw [wp_ite]
        refine ⟨fun hn => absurd hr hn.not_ge, fun _ => ?_⟩
        have hnext := ih (left - blockSize).toNat (by rw [hbs]; omega) (left - blockSize) (inc + 1)
          (by omega) (by omega) (by omega) (by rw [hbs]; push_cast; omega)
          ⟨fun l hl => hall.mapped l (by omega), fun p hp =>
            hall.same p (by rw [hbs] at hp ⊢; push_cast at hp ⊢; omega)⟩ rfl
        rw [show ((inc + 1 : ℕ) : ℤ) = (inc : ℤ) + 1 by push_cast; rfl] at hnext
        rw [hcount, show a + inc + (restCount (left - blockSize) + 1) =
          a + (inc + 1) + restCount (left - blockSize) by omega]
        exact hnext
      · refine writeChunk_big (by rw [hLi]; exact_mod_cast hge) ?_
        rw [wp_ite]
        refine ⟨fun _ => (wp_pure _).2 ⟨rfl, ?_⟩, fun hn => absurd (by decide) hn⟩
        rw [if_neg (by omega)]
    · -- the last block, which is past the last of the file
      rw [if_neg hlong, wp_bind]
      have hcount : restCount left = 1 := by
        unfold restCount
        rw [if_pos (not_lt.1 hlong)]
      refine writeChunk_big (by rw [hLi]; exact_mod_cast (by omega)) ?_
      rw [wp_ite]
      refine ⟨fun _ => ?_, fun hn => absurd (by decide) hn⟩
      rw [wp_bind, wp_modify, wp_pure, if_pos (by omega)]
      exact ⟨rfl, rfl⟩

/-- A write from block `a` on that changes nothing: the data go on past the last block of the
largest file, the blocks up to there are allocated and hold the data, and the file has the size
the write gives it, if it gives it one. -/
structure Redundant (s : FileState) (buf : Buf) (offset size : ℤ) (a : ℕ) : Prop where
  past : maxFileBlocks < a + chunkCount offset size
  all : AllSame s buf (blockSize * a + offset % blockSize) a (blockSize * a + offset % blockSize)
  size : a + chunkCount offset size = maxFileBlocks + 1 → s.ino.din.iSize = maxFileSize

variable {offset size : ℤ}

theorem writeData_same (h : FileOK F s) (h0 : 0 ≤ offset) (hL : toInt32 (offset / blockSize) = a)
    (ha : a < maxFileBlocks) (hr : Redundant s buf offset size a) :
    wp False (testfsWriteData buf offset size) (fun r s' => r = -efbig ∧
      s' = if a + chunkCount offset size = maxFileBlocks + 1 then s.magic else s) s := by
  have hbs : (blockSize : ℤ) = 8192 := rfl
  have hdiv : offset.tdiv blockSize = offset / blockSize := Int.tdiv_eq_ediv_of_nonneg h0
  have hmod : offset.tmod blockSize = offset % blockSize := Int.tmod_eq_emod_of_nonneg h0
  have hix0 : 0 ≤ offset % blockSize := Int.emod_nonneg offset (by rw [hbs]; decide)
  have hix1 : offset % blockSize < blockSize := Int.emod_lt_of_pos offset (by rw [hbs]; decide)
  have hpast := hr.past
  have hbig : blockSize < toSize (offset % blockSize + size) := by
    by_contra hn
    unfold chunkCount at hpast
    rw [if_neg hn] at hpast
    omega
  have hcount : a + chunkCount offset size =
      a + 1 + restCount (toInt32 (size - blockSize + offset % blockSize)) := by
    unfold chunkCount
    rw [if_pos hbig, add_assoc]
  have hlt := (Int.bmod_lt (x := size - blockSize + offset % blockSize) (m := 2 ^ 32) (by decide))
  unfold testfsWriteData
  simp only [hdiv, hmod]
  rw [if_pos hbig, wp_bind]
  have hchunk := writeChunk_same h ha (hr.all.mapped a le_rfl ha)
    (show toInt32 (offset / blockSize + 0) = a by rw [add_zero]; exact hL)
    (show blockSize * (a : ℤ) + offset % blockSize = blockSize * (a : ℤ) + offset % blockSize + 0 by
      rw [add_zero]) (n := blockSize - offset % blockSize) (by decide) hix0 (by ring) (by omega) le_rfl
    hr.all.same
  refine wp_mono hchunk ?_
  rintro r _ ⟨hr0, rfl⟩
  rw [wp_ite]
  refine ⟨fun hn => absurd hr0 hn.not_ge, fun _ => ?_⟩
  rw [wp_bind]
  rw [hcount] at hpast ⊢
  refine wp_mono (writeRest_same h hL ⟨hix0, hix1⟩ _ 1 le_rfl ha hpast ?_ ?_) ?_
  · have hfit : toInt32 (size - blockSize + offset % blockSize) < 2 ^ 31 := hlt
    simpa using hfit
  · refine ⟨fun l hl => hr.all.mapped l (by omega), fun p hp => hr.all.same p ?_⟩
    rw [hbs] at hp hix1 ⊢
    push_cast at hp
    omega
  · rintro r s' ⟨rfl, hs'⟩
    rw [wp_ite]
    exact ⟨fun _ => (wp_pure _).2 ⟨rfl, hs'⟩, fun hn => absurd (by decide) hn⟩

theorem writeData_refused (h0 : 0 ≤ offset) (hL : maxFileBlocks ≤ toInt32 (offset / blockSize)) :
    wp False (testfsWriteData buf offset size) (fun r s' => r = -efbig ∧ s' = s) s := by
  have hdiv : offset.tdiv blockSize = offset / blockSize := Int.tdiv_eq_ediv_of_nonneg h0
  have hL0 : maxFileBlocks ≤ toInt32 (offset / blockSize + 0) := by rwa [add_zero]
  unfold testfsWriteData
  simp only [hdiv]
  have hret : ∀ c : Prog FileState ℤ, wp False (if -efbig < 0 then pure (-efbig) else c)
      (fun r s' => r = -efbig ∧ s' = s) s := by
    intro c
    rw [if_pos (by decide), wp_pure]
    exact ⟨rfl, rfl⟩
  split
  · rw [wp_bind]
    exact writeChunk_big hL0 (hret _)
  · rw [wp_bind]
    exact writeChunk_big hL0 (hret _)

/-- No block is missing, so all are there. -/
theorem mapped_of_missing {b : ℕ} (h : s.missing a b = 0) (hal : a ≤ l) (hlb : l < b) :
    s.Mapped l := by
  intro h0
  have hempty := Finset.card_eq_zero.1 h
  have hm : slotOf l ∈ s.empties a b :=
    FileState.mem_empties.2 ⟨⟨l, hal, hlb, slotOf_mem_path l⟩, h0⟩
  rw [hempty] at hm
  exact Finset.notMem_empty _ hm

/-- A write far past the end that fails with `-EFBIG` and has changed nothing was redundant. -/
theorem writeData_redundant (h : FileOK F s) (hmax : s.ino.din.iSize ≤ maxFileSize)
    (hoff : maxFileSize ≤ offset) (hs : 0 < size) (hL : toInt32 (offset / blockSize) = a)
    (ha : a < maxFileBlocks) :
    wp True (testfsWriteData buf offset size) (fun r s' => SuperOK s'.sb ∧ (r = -efbig →
      s'.sb.live = s.sb.live → (∀ b, (dataStart : ℤ) ≤ b → s'.sb.dev.data b = s.sb.dev.data b) →
      (s'.ino.dirty = true → 0 ≤ s'.ino.din.iSize → s'.ino.din.iSize < 2 ^ 63 →
        s'.ino.din.iSize = s.ino.din.iSize) → Redundant s buf offset size a)) s := by
  have hms : (maxFileSize : ℤ) = 34376597504 := rfl
  rw [hms] at hoff hmax
  refine wp_mono (writeData_ok h (by omega) hs.le hL (Or.inl trivial)) ?_
  rintro r s' (⟨-, hlt, s₁, hw, rfl⟩ | ⟨l, s₂, hal, hl, ⟨s₁, hw, hst⟩, hs'⟩)
  · refine ⟨?_, fun hr hlive hdata hsize => ?_⟩
    · rw [(s₁.grow_rest offset size).1]
      exact hw.file.super
    -- the size has become larger than that of the largest file
    have hi : (s₁.grow offset size).ino.din.iSize = max s.ino.din.iSize (offset + size) := by
      rw [s₁.grow_iSize _ hs, hw.iSize]
    have hd : (s₁.grow offset size).ino.dirty = true := by
      unfold FileState.grow
      rw [if_pos hs]
      rfl
    have hlt := hlt hs
    have := hsize hd (by rw [hi]; omega) (by rw [hi]; omega)
    rw [hi] at this
    omega
  have hsb : s'.sb = s₂.sb := by
    rw [hs']
    split <;> rfl
  rw [hsb]
  rcases hst with ⟨hge, -, rfl⟩ | ⟨-, hr', hf⟩
  swap
  · refine ⟨hf.noSpace.super, fun hr => ?_⟩
    rw [hr'] at hr
    exact absurd hr (by decide)
  refine ⟨hw.file.super, fun hr hlive hdata hsize => ?_⟩
  have hle := hw.le_max (by omega)
  obtain rfl : l = maxFileBlocks := by omega
  have hleft : s₂.sb.left = s.sb.left := by
    have h1 := left_add_ncard hw.file.super
    have h2 := left_add_ncard h.super
    rw [hlive, hw.frame.frame.maxFsBlocks] at h1
    omega
  have hmiss : s.missing a maxFileBlocks = 0 := by
    have := hw.left
    omega
  have hmapped : ∀ l, a ≤ l → l < maxFileBlocks → s.Mapped l := fun l h1 h2 =>
    mapped_of_missing hmiss h1 h2
  refine ⟨hl, ⟨hmapped, fun p hp hpm => ?_⟩, fun hlast => ?_⟩
  · have hcont : s₂.content p = s.content p := by
      have hpb : p / blockSize < maxFileBlocks := Nat.div_lt_of_lt_mul (by rwa [mul_comm])
      have hm := hmapped _ ?_ hpb
      · unfold FileState.content FileState.blockAt
        rw [hw.kept _ hm, if_neg hm, if_neg hm, hdata _ (h.ge hm)]
      · rw [blockSize_eq]
        rw [show (blockSize : ℤ) = 8192 from rfl] at hp
        omega
    rw [← hcont]
    refine (hw.inside p hp ?_).2
    rw [if_neg ha.ne', show (blockSize : ℤ) * maxFileBlocks = maxFileSize from rfl]
    exact_mod_cast hpm
  · rw [if_pos ⟨ha, by omega⟩] at hs'
    have hi : s'.ino.din.iSize = maxFileSize := by rw [hs']; rfl
    rw [← hsize (by rw [hs']; rfl) (by omega) (by omega), hi]

end Redundant

/-! ### `cmd_write` -/

/-- Inode `nr` is in memory as it is on the device. -/
structure Clean (s : Testfs) (nr : ℤ) (ino : Inode) : Prop where
  find : s.find nr = some ino
  dirty : ino.dirty = false
  disk : s.sb.diskInode nr = ino.din
  range : 0 ≤ nr ∧ nr < maxInodes
  nodup : (s.inodes.map (·.iNr)).Nodup

/-- The file of inode `nr` is what it was: its inode, and all blocks. -/
structure Untouched (s : Testfs) (nr : ℤ) (t : Testfs) : Prop where
  dinode : t.dinode nr = s.dinode nr
  live : t.sb.live = s.sb.live
  data : ∀ b, (dataStart : ℤ) ≤ b → t.sb.dev.data b = s.sb.dev.data b

/-- Where the inode is found after it was given up: as it was in memory, or on the device. -/
theorem closeFile_ok {ret : ℤ} (hf : s.find nr = some ino) (h : SuperOK s.sb)
    (hr : 0 ≤ nr ∧ nr < maxInodes) (hn : (s.inodes.map (·.iNr)).Nodup) :
    wp False (do testfsSyncInode nr; testfsPutInode nr; return (ret, ([] : List Byte)))
      (fun reply t => reply = (ret, []) ∧ t.sb.live = s.sb.live ∧
        (∀ b, (dataStart : ℤ) ≤ b → t.sb.dev.data b = s.sb.dev.data b) ∧
        (t.dinode nr = ino.din ∨ t.dinode nr =
          if ino.dirty then DInode.decode ino.din.encode else s.sb.diskInode nr)) s := by
  rw [wp_bind]
  refine wp_mono (syncInode_ok hf h hr hn) ?_
  rintro _ s₁ hs
  rw [wp_bind]
  refine wp_mono (putInode_ok hs.find rfl hs.nodup) ?_
  rintro _ t ⟨hsb, hfind⟩
  rw [wp_pure, hsb]
  refine ⟨rfl, hs.live, hs.data, ?_⟩
  unfold Testfs.dinode
  rcases hfind with hfind | ⟨c, hfind⟩
  · rw [hfind, hsb]
    exact Or.inr hs.disk
  · rw [hfind]
    exact Or.inl rfl

theorem getFileInode_found (s : Testfs) (name : CString) : wp True (testfsGetFileInode name)
    (fun nr t => 0 ≤ nr → t.sb = s.sb ∧ t.dinode nr = s.dinode nr) s := by
  simp only [testfsGetFileInode, lookupCur, inode, wp_bind, wp_getState]
  refine wp_reads_of fun dir _ => wp_reads_of fun nr _ => ?_
  rw [wp_ite]
  refine ⟨fun hneg => (wp_pure _).2 fun h0 => absurd hneg h0.not_gt, fun _ => ?_⟩
  rw [wp_bind]
  refine wp_mono (getInode_found s nr) ?_
  rintro _ t ⟨hsb, -, ⟨ino, hf, hdin⟩, -⟩
  rw [wp_bind]
  refine wp_reads_of fun ino' _ => ?_
  rw [wp_ite, wp_bind]
  refine ⟨fun _ => ?_, fun _ => (wp_pure _).2 fun _ => ⟨hsb, ?_⟩⟩
  · exact wp_of_run fun _ _ _ => (wp_pure _).2 fun h0 => absurd h0 (by decide)
  · rw [← hdin]
    unfold Testfs.dinode
    rw [hf]
    rfl

/-- The state after a write of the file, before its inode is written back. -/
def Testfs.wrote (s : Testfs) (nr : ℤ) (f : FileState) : Testfs :=
  { s.updateInode nr fun ino => { ino with din := f.ino.din, dirty := f.ino.dirty } with sb := f.sb }

section Write

variable {s₁ : Testfs} {f : FileState} {filename data : CString} {r : ℤ}

theorem Clean.wrote (h : Clean s₁ nr ino) : (s₁.wrote nr f).find nr =
      some { ino with din := f.ino.din, dirty := f.ino.dirty } ∧
    ((s₁.wrote nr f).inodes.map (·.iNr)).Nodup := by
  have hg : Assigns 0 fun ino : Inode => { ino with din := f.ino.din, dirty := f.ino.dirty } :=
    ⟨fun _ => rfl, fun ino => (add_zero _).symm⟩
  constructor
  · have hu : (s₁.updateInode nr _).find nr = _ := find_update hg
    rw [h.find, Option.map_some, if_pos (find_mem h.find).2] at hu
    exact hu
  · show ((inodeHashUpdate s₁.inodes nr _).map _).Nodup
    unfold inodeHashUpdate
    rw [List.map_map]
    convert h.nodup using 2
    funext x
    simp only [Function.comp]
    split <;> rfl

/-- `cmd_write` of an existing file is a write, after which the inode is written back. -/
theorem cmdWrite_iff {Q : Reply → Testfs → Prop}
    (hget : testfsGetFileInode filename s = some (nr, s₁)) (h : Clean s₁ nr ino)
    (ho : strToOffset offsetStr = some offset) (h0 : 0 ≤ offset) :
    wp False (cmdWrite [filename, offsetStr, data]) Q s ↔
      wp False (testfsWriteData (Buf.ofList data.bytes) offset data.length) (fun r f =>
        wp False (do testfsSyncInode nr; testfsPutInode nr; return (r, ([] : List Byte))) Q
          (s₁.wrote nr f)) ⟨s₁.sb, ino⟩ := by
  have hpart : (s₁.find nr).map (fun ino => FileState.mk s₁.sb ino) = some ⟨s₁.sb, ino⟩ := by
    rw [h.find]
    rfl
  unfold cmdWrite
  simp only [ho]
  rw [if_neg (not_lt.2 h0), wp_bind, wp_run_iff hget, if_neg (not_lt.2 h.range.1), wp_bind]
  exact wp_zoom_iff hpart

/-- The inode that is read back from the device has the size that was written. -/
theorem decode_encode_iSize {d : DInode} (h0 : 0 ≤ d.iSize) (h1 : d.iSize < 2 ^ 63) :
    (DInode.decode d.encode).iSize = d.iSize := by
  have hlow : -2 ^ 63 ≤ d.iSize := by omega
  unfold DInode.decode
  simp only
  exact DInode.leInt_encode_iSize hlow h1

/-- An inode that is as on the device can be written back and read again. -/
theorem Clean.decode_encode (h : Clean s₁ nr ino) : DInode.decode ino.din.encode = ino.din := by
  rw [← h.disk]
  unfold SuperBlock.diskInode
  exact DInode.decode_congr fun i hi => DInode.encode_decode _ hi

theorem Clean.untouched (h : Clean s₁ nr ino) (hs : SuperOK s₁.sb) (hsb : f.sb = s₁.sb)
    (hdin : f.ino.din = ino.din) :
    wp False (do testfsSyncInode nr; testfsPutInode nr; return (r, ([] : List Byte)))
      (fun reply t => reply.1 = r ∧ Untouched s₁ nr t) (s₁.wrote nr f) := by
  have hsb' : (s₁.wrote nr f).sb = s₁.sb := hsb
  refine wp_mono (closeFile_ok h.wrote.1 (hsb' ▸ hs) h.range h.wrote.2) ?_
  rintro _ t ⟨rfl, hlive, hdata, hdi⟩
  rw [hsb'] at hlive hdata hdi
  have hd : s₁.dinode nr = ino.din := by
    unfold Testfs.dinode
    rw [h.find]
    rfl
  refine ⟨rfl, ?_, hlive, hdata⟩
  rw [hd]
  rcases hdi with hdi | hdi
  · rw [hdi]
    exact hdin
  · rw [hdi]
    split
    · rw [hdin, h.decode_encode]
    · exact h.disk

/-- **Offsets beyond the largest file.** `cmd_write` refuses such an offset with `-EFBIG` and leaves
the file alone if and only if its block number is too large as an `int`, or is that of a block of
the file from which on the data are there already. -/
theorem cmdWrite_beyond (hget : testfsGetFileInode filename s = some (nr, s₁))
    (hc : Clean s₁ nr ino) (h : FileOK F ⟨s₁.sb, ino⟩) (hmax : ino.din.iSize ≤ maxFileSize)
    (ho : strToOffset offsetStr = some offset) (hoff : maxFileSize ≤ offset)
    (hdata : 0 < data.length) :
    wp False (cmdWrite [filename, offsetStr, data])
      (fun reply t => reply.1 = -efbig ∧ Untouched s nr t) s ↔
    maxFileBlocks ≤ toInt32 (offset / blockSize) ∨
      ∃ a : ℕ, toInt32 (offset / blockSize) = a ∧ a < maxFileBlocks ∧
        Redundant ⟨s₁.sb, ino⟩ (Buf.ofList data.bytes) offset data.length a := by
  have h0 : 0 ≤ offset := by omega
  have hsize : (0 : ℤ) < data.length := by omega
  -- looking the file up has left it as it was
  obtain ⟨hsb, hdin⟩ := (getFileInode_found s filename).of_run hget hc.range.1
  have hun : ∀ t, Untouched s nr t ↔ Untouched s₁ nr t := by
    intro t
    constructor
    · intro hu
      exact ⟨hdin ▸ hu.dinode, hsb ▸ hu.live, fun b hb => hsb ▸ hu.data b hb⟩
    · intro hu
      exact ⟨hdin ▸ hu.dinode, hsb ▸ hu.live, fun b hb => hsb ▸ hu.data b hb⟩
  have hd : s₁.dinode nr = ino.din := by
    unfold Testfs.dinode
    rw [hc.find]
    rfl
  rw [cmdWrite_iff hget hc ho h0]
  simp only [hun]
  constructor
  · intro hwp
    by_cases hneg : toInt32 (offset / blockSize) < 0
    · exact ((writeData_neg h0 hneg).1 hwp).elim
    by_cases hbig : maxFileBlocks ≤ toInt32 (offset / blockSize)
    · exact Or.inl hbig
    obtain ⟨a, ha⟩ := Int.eq_ofNat_of_zero_le (not_lt.1 hneg)
    have hlt : a < maxFileBlocks := by omega
    refine Or.inr ⟨a, ha, hlt, ?_⟩
    obtain ⟨r, f, hr, hq⟩ := hwp.returns
    obtain ⟨hok, hred⟩ := (writeData_redundant h hmax hoff hsize ha hlt).of_run hr
    have hclose := wp_and hq (closeFile_ok hc.wrote.1 hok hc.range hc.wrote.2)
    obtain ⟨reply, t, -, ⟨hrep, hu⟩, rfl, hlive, hdata', hdi⟩ := hclose.returns
    refine hred hrep (hlive.symm.trans hu.live) (fun b hb => (hdata' b hb).symm.trans (hu.data b hb))
      fun hdirty hi0 hi1 => ?_
    have hdn : ino.din.iSize = (t.dinode nr).iSize := by rw [hu.dinode, hd]
    show _ = ino.din.iSize
    rw [hdn]
    rcases hdi with hdi | hdi
    · rw [hdi]
    · rw [hdi]
      simp only [hdirty, if_true]
      exact (decode_encode_iSize hi0 hi1).symm
  · rintro (hbig | ⟨a, ha, hlt, hred⟩)
    · refine wp_mono (writeData_refused h0 hbig) ?_
      rintro r f ⟨rfl, rfl⟩
      exact hc.untouched h.super rfl rfl
    · refine wp_mono (writeData_same h h0 ha hlt hred) ?_
      rintro r f ⟨rfl, hf⟩
      refine hc.untouched h.super ?_ ?_
      · rw [hf]
        split <;> rfl
      · rw [hf]
        split
        · rename_i hlast
          have hi := hred.size hlast
          show { ino.din with iSize := magicSize } = ino.din
          rw [show magicSize = maxFileSize from rfl, ← hi]
        · rfl

end Write

/-! A root directory in block 146, with one entry: for inode 1, which is zero. -/

def listedFreemap : Bitmap :=
  (freshFile 2).sb.blockFreemap.setWord 0 ((freshFile 2).sb.blockFreemap.v 0 ||| wordMask 0)

def listedSuper : SuperBlock :=
  (blockCommit (freshFile 2).sb listedFreemap 0 1).put 146
    (Block.ofFn fun i => ((direntBuf nameA 2 1).get i).getD 0)

def listedFs : Testfs :=
  ⟨listedSuper, [⟨⟨iDir, fun k => if (k : ℕ) = 0 then 146 else 0, 0, 0, 1, 10⟩, false, 0, 1⟩], 0⟩

theorem listedFreemap_members : listedFreemap.members = {0} := by
  have h := (freshFile_ok (n := 2) (by decide)).1.super
  have hempty : (freshFile 2).sb.blockFreemap.members = ∅ := Finset.card_eq_zero.1 h.usedBlocks.symm
  ext i
  have hi := mem_members (b := (freshFile 2).sb.blockFreemap) (i := i)
  rw [hempty] at hi
  have hmark := bitmapIsset_mark (freshFile 2).sb.blockFreemap 0 i
  have hset : bitmapIsset listedFreemap i = _ := hmark
  have hbits : listedFreemap.nbits = (freshFile 2).sb.blockFreemap.nbits := rfl
  rw [mem_members, hset, hbits, Finset.mem_singleton]
  constructor
  · rintro ⟨hlt, hor⟩
    by_contra hne
    rw [decide_eq_false hne, Bool.false_or] at hor
    exact Finset.notMem_empty _ (hi.2 ⟨hlt, hor⟩)
  · rintro rfl
    exact ⟨by rw [h.blockBits]; decide, rfl⟩

theorem listedSuper_ok : SuperOK listedSuper ∧ ∀ nr, (nr : ℤ) = 1 → listedSuper.diskInode nr = DInode.zero := by
  have h := (freshFile_ok (n := 2) (by decide)).1.super
  have hcommit : SuperOK (blockCommit (freshFile 2).sb listedFreemap 0 1) := by
    refine blockCommit_ok h rfl (fun ix hix => Function.update_of_ne hix ..) ?_ (by decide)
    rw [listedFreemap_members]
    rfl
  refine ⟨hcommit.put (by decide), ?_⟩
  rintro nr rfl
  have h18 : listedSuper.dev.data 18 = Block.zero := by
    unfold listedSuper
    rw [(SuperBlock.put_fields ..).2.1, Device.put_data, Function.update_of_ne (by decide),
      (blockCommit_frame _ _ (by decide)).data 18 (Or.inr le_rfl) (Set.notMem_empty _)]
    exact (newDevice_blank 2).rest 18 (by decide)
  refine decode_zero fun i => ?_
  show (listedSuper.dev.data 18).get _ = 0
  rw [h18, Block.get_zero]

attribute [irreducible] listedSuper

/-- What `testfs_get_file_inode` makes of it. -/
theorem listedFs_get : ∃ s₁ ino, testfsGetFileInode nameA listedFs = some (1, s₁) ∧
    Clean s₁ 1 ino ∧ ino.din = DInode.zero ∧ s₁.sb = listedSuper := by
  have hrun : (testfsGetFileInode nameA listedFs).any (fun p => p.1 = 1 &&
      ((p.2.find 1).any (fun ino => !ino.dirty) && (p.2.inodes.map (·.iNr)).Nodup)) = true := by
    decide +kernel
  obtain ⟨⟨nr, s₁⟩, hr, hp⟩ := (Option.any_eq_true _ _).1 hrun
  simp only [Bool.and_eq_true, decide_eq_true_eq] at hp
  obtain ⟨rfl, hfind, hnodup⟩ := hp
  obtain ⟨ino, hf, hd⟩ := (Option.any_eq_true _ _).1 hfind
  obtain ⟨hsb, hdin⟩ := (getFileInode_found listedFs nameA).of_run hr (by decide)
  have hsb : s₁.sb = listedSuper := hsb
  have hino : ino.din = listedSuper.diskInode 1 := by
    unfold Testfs.dinode at hdin
    rw [hf] at hdin
    exact hdin
  have hzero := listedSuper_ok.2 1 rfl
  exact ⟨s₁, ino, hr, ⟨hf, by simpa using hd, hsb ▸ hino.symm, by decide, hnodup⟩,
    hino.trans hzero, hsb⟩

theorem cmdWrite_beyond_refused :
    wp False (cmdWrite [nameA, ⟨printString "34376597504", by decide⟩, nameB])
      (fun reply t => reply.1 = -efbig ∧ Untouched listedFs 1 t) listedFs := by
  obtain ⟨s₁, ino, hget, hc, hdin, hsb⟩ := listedFs_get
  have hok : SuperOK s₁.sb := by
    rw [hsb]
    exact listedSuper_ok.1
  have hfile : FileOK s₁.sb.live ⟨s₁.sb, ino⟩ := by
    refine noBlocks_ok (s := ⟨s₁.sb, ino⟩) hok (fun sl => ?_) ?_
    · show ptr ino.din _ sl = 0
      rw [hdin]
      exact newInode_ptr _ 0 0 sl
    · show ino.din.blockCount = 0
      rw [hdin]
      rfl
  have hsize : ino.din.iSize ≤ maxFileSize := by
    rw [hdin]
    exact Int.natCast_nonneg _
  have ho : strToOffset ⟨printString "34376597504", by decide⟩ = some 34376597504 := by decide
  have hbig : (maxFileBlocks : ℤ) ≤ toInt32 (34376597504 / blockSize) := by decide
  exact (cmdWrite_beyond hget hc hfile hsize ho (by decide) (by decide)).2 (Or.inl hbig)

/-- Create a file, write a byte at offset `2 ^ 32 * BLOCK_SIZE`, and read the first byte. -/
def aliasRun : List Event :=
  [⟨⟨.create, [nameA]⟩, (0, [])⟩,
    ⟨⟨.write, [nameA, ⟨printString "35184372088832", by decide⟩, nameB]⟩, (1, [])⟩,
    ⟨⟨.read, [nameA, ⟨printString "0", by decide⟩, ⟨printString "1", by decide⟩]⟩,
      (1, [0x62, newline])⟩]

theorem aliasRun_ends : (smallFs.bind fun s => runAll (fun s e => e.next s) s aliasRun).isSome =
    true := by decide +kernel

/-- The block number of a large offset wraps: the write succeeds, and changes the first block. -/
theorem write_wraps :
    strToOffset ⟨printString "35184372088832", by decide⟩ = some 35184372088832 ∧
    (maxFileSize : ℤ) ≤ 35184372088832 ∧ (1 : ℤ) ≠ -efbig ∧
    ∃ dev s t, mktestfs 1 = some dev ∧ mount dev = some s ∧ Run step s aliasRun t := by
  refine ⟨by decide, by decide, by decide, ?_⟩
  obtain ⟨t, ht⟩ := Option.isSome_iff_exists.1 aliasRun_ends
  obtain ⟨s, hs, hrun⟩ := Option.bind_eq_some_iff.1 ht
  obtain ⟨dev, hdev, hm⟩ := Option.bind_eq_some_iff.1 hs
  have hr : Run (fun s e t => e.next s = some t) s aliasRun t := runAll_run (.nil s) hrun
  exact ⟨dev, s, t, hdev, hm, hr.mono fun _ _ _ => Event.next_step⟩

end OSLab.Fs
