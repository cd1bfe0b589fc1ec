import OSLab.Fs.Proof.Entries
import OSLab.Fs.Proof.Holes
import OSLab.Lib.SlotTable

/-!
# The bytes of a directory

A directory is the list of its slots, live and removed, one after the other.

* `nextDirent_slot`: `testfs_next_dirent` parses the slot at its offset.
* `scan_stops`, `scan_ends`: what a loop of `fs/dir.c` comes to.
-/

namespace OSLab.Fs

open Prog

/-- A slot of a directory: its name, and the inode number of its entry if that is live. -/
abbrev DirSlot : Type := SlotTable.Entry CString ℤ

variable {β : Type} {F : Set ℤ} {s : FileState} {l l₁ l₂ : List DirSlot} {e : DirSlot}
  {A B C : List Byte} {sb : SuperBlock} {ino : Inode}

/-- `d_inode_nr`. -/
def slotNr (e : DirSlot) : ℤ := e.val.getD (-1)

def slotBytes (e : DirSlot) : List Byte := direntBytes e.key (slotNr e)

def dirBytes (l : List DirSlot) : List Byte := l.flatMap slotBytes

/-- The entry that is read from a slot. -/
def slotDirent (e : DirSlot) : Dirent := ⟨e.key.length + 1, slotNr e, Buf.ofList e.key.bytes⟩

theorem length_bytes (c : CString) : c.bytes.length = c.length + 1 := by
  unfold CString.bytes CString.length
  rw [List.length_append, List.length_singleton]

theorem length_slotBytes (e : DirSlot) : (slotBytes e).length = direntSize + e.key.length + 1 := by
  unfold slotBytes direntBytes
  rw [List.length_append, List.length_map, List.length_range, length_bytes, Nat.add_assoc]

theorem dirBytes_append (l₁ l₂ : List DirSlot) : dirBytes (l₁ ++ l₂) = dirBytes l₁ ++ dirBytes l₂ :=
  List.flatMap_append

theorem dirBytes_cons (e : DirSlot) (l : List DirSlot) : dirBytes (e :: l) = slotBytes e ++ dirBytes l :=
  List.flatMap_cons

/-- **A directory whose slots are `l`**: all its bytes are in allocated blocks. -/
structure DirHolds (F : Set ℤ) (l : List DirSlot) (s : FileState) : Prop where
  file : FileOK F s
  iType : s.ino.din.iType = iDir
  iSize : s.ino.din.iSize = (dirBytes l).length
  small : (dirBytes l).length < 2 ^ 31
  mapped : ∀ p < (dirBytes l).length, s.Mapped (p / blockSize)
  content : ∀ p < (dirBytes l).length, (dirBytes l)[p]? = some (s.content p)
  numbers : ∀ e ∈ l, ∀ n, e.val = some n → 0 ≤ n ∧ n < 2 ^ 31

/-! ### Reading it -/

theorem readByte_mapped {p : ℕ} (hm : s.Mapped (p / blockSize)) : s.readByte p = s.content p := by
  have hn : ¬s.NoSecondLevel (p / blockSize) := by
    intro ⟨hd, _, h0⟩
    refine FileState.path_filled hm (.dind (dindOf (p / blockSize))) ?_ h0
    exact FileState.dind_mem_path.2 ⟨hd, rfl⟩
  unfold FileState.readByte FileState.delivered
  rw [if_neg hn]
  rfl

/-- A read inside the directory delivers its bytes. -/
theorem DirHolds.read (h : DirHolds F l s) (hl : dirBytes l = A ++ B ++ C) {n : ℕ} {start size : ℤ}
    (hn : n = B.length) (hstart : start = A.length) (hsize : size = B.length) :
    testfsReadData s.sb s.ino (Buf.fresh n) start size = some (size, Buf.ofList B) := by
  subst hn hstart hsize
  have hlen : (dirBytes l).length = A.length + B.length + C.length := by
    rw [hl, List.length_append, List.length_append]
  have hsmall := h.small
  have hsize := h.iSize
  have hmax : s.ino.din.iSize ≤ maxFileSize := by
    rw [maxFileSize_eq]
    omega
  have hstart : (A.length : ℤ) < maxFileSize := by
    rw [maxFileSize_eq]
    omega
  have hbs : (blockSize : ℤ) = 8192 := rfl
  have hint : (A.length : ℤ) % blockSize + B.length ≤ 2 ^ 31 := by
    rw [hbs]
    omega
  have hread : testfsReadData s.sb s.ino (Buf.fresh B.length) A.length B.length = none ∧ _ ∨ _ :=
    readData_ok h.file (Int.natCast_nonneg A.length) (Int.natCast_nonneg B.length) hstart (by omega)
      hmax
  rcases hread with ⟨-, hn⟩ | ⟨n, buf', hr, -, -, hd, hn⟩
  · have hcap : (B.length : ℤ) ≤ (Buf.fresh B.length).cap := le_refl (B.length : ℤ)
    exact absurd ⟨hint, hcap⟩ hn
  · obtain rfl := hn.2 hint
    obtain ⟨cap, get⟩ := buf'
    obtain rfl : cap = B.length := hd.cap
    have hget : get = fun i => B[i]? := by
      funext i
      have hi : get i = _ := hd.get i
      rw [hi]
      by_cases hlt : i < B.length
      · have hp : A.length + i < (dirBytes l).length := by omega
        have hc := h.content _ hp
        rw [hl, List.append_assoc, List.getElem?_append_right (by omega), Nat.add_sub_cancel_left,
          List.getElem?_append_left hlt] at hc
        have hnat : ((A.length : ℤ) + i).toNat = A.length + i := by omega
        rw [if_pos ⟨by omega, by omega⟩, hc, hnat, readByte_mapped (h.mapped _ hp)]
      · rw [if_neg (by omega), List.getElem?_eq_none (not_lt.1 hlt)]
        rfl
    rw [hr, hget, toInt32_of_lt (by omega) (by omega)]
    rfl

/-- The two integers of an entry are read back. -/
theorem readHeader_ofList {len nr : ℤ} (hlen : -2 ^ 31 ≤ len ∧ len < 2 ^ 31)
    (hnr : -2 ^ 31 ≤ nr ∧ nr < 2 ^ 31) :
    readHeader (Buf.ofList ((List.range direntSize).map (direntHeader len nr))) = some (len, nr) := by
  have hget : ∀ i < direntSize, (Buf.ofList ((List.range direntSize).map (direntHeader len nr))).get i =
      some (direntHeader len nr i) := by
    intro i hi
    show ((List.range direntSize).map (direntHeader len nr))[i]? = _
    rw [List.getElem?_map, List.getElem?_range hi, Option.map_some]
  have h8 : direntSize = 8 := rfl
  unfold readHeader
  rw [if_pos fun i hi => by rw [hget i hi]; rfl]
  have hfst : leInt 4 (fun i => ((Buf.ofList ((List.range direntSize).map
      (direntHeader len nr))).get i).getD 0) = len := by
    rw [leInt_congr (g := leByte len)]
    · exact leInt_leByte (by norm_num; omega) (by norm_num; omega)
    · intro i hi
      rw [hget i (by omega), Option.getD_some]
      exact if_pos hi
  have hsnd : leInt 4 (fun i => ((Buf.ofList ((List.range direntSize).map
      (direntHeader len nr))).get (4 + i)).getD 0) = nr := by
    rw [leInt_congr (g := leByte nr)]
    · exact leInt_leByte (by norm_num; omega) (by norm_num; omega)
    · intro i hi
      rw [hget (4 + i) (by omega), Option.getD_some]
      unfold direntHeader
      rw [if_neg (by omega), Nat.add_sub_cancel_left]
  rw [hfst, hsnd]

theorem slotNr_range (h : DirHolds F l s) (he : e ∈ l) : -2 ^ 31 ≤ slotNr e ∧ slotNr e < 2 ^ 31 := by
  unfold slotNr
  cases hv : e.val with
  | none => decide
  | some n =>
    have := h.numbers e he n hv
    rw [Option.getD_some]
    omega

/-- **`testfs_next_dirent` parses the slot at its offset.** -/
theorem nextDirent_slot (h : DirHolds F (l₁ ++ e :: l₂) s) :
    testfsNextDirent s.sb s.ino (dirBytes l₁).length =
      some (some (slotDirent e, ((dirBytes (l₁ ++ [e])).length : ℤ))) := by
  have hnr := slotNr_range h (List.mem_append_right l₁ List.mem_cons_self)
  have hsmall := h.small
  have hsize := h.iSize
  have hslot := length_slotBytes e
  have h8 : direntSize = 8 := rfl
  have hlen : (dirBytes (l₁ ++ e :: l₂)).length =
      (dirBytes l₁).length + (slotBytes e).length + (dirBytes l₂).length := by
    rw [dirBytes_append, dirBytes_cons, List.length_append, List.length_append, Nat.add_assoc]
  obtain ⟨H, hH⟩ : ∃ H, H = (List.range direntSize).map (direntHeader (e.key.length + 1) (slotNr e)) :=
    ⟨_, rfl⟩
  have hHlen : H.length = direntSize := by rw [hH, List.length_map, List.length_range]
  have hbytes : slotBytes e = H ++ e.key.bytes := by rw [hH]; rfl
  have hhead : testfsReadData s.sb s.ino (Buf.fresh direntSize) (dirBytes l₁).length direntSize =
      some ((direntSize : ℤ), Buf.ofList H) := by
    refine h.read (C := e.key.bytes ++ dirBytes l₂) ?_ hHlen.symm rfl (by rw [hHlen])
    rw [dirBytes_append, dirBytes_cons, hbytes, List.append_assoc, List.append_assoc]
  have hname : testfsReadData s.sb s.ino (Buf.fresh (e.key.length + 1))
      ((dirBytes l₁).length + direntSize) ((e.key.length : ℤ) + 1) =
      some ((e.key.length : ℤ) + 1, Buf.ofList e.key.bytes) := by
    refine h.read (A := dirBytes l₁ ++ H) (C := dirBytes l₂) ?_ (length_bytes _).symm ?_ ?_
    · rw [dirBytes_append, dirBytes_cons, hbytes, List.append_assoc, List.append_assoc,
        List.append_assoc]
    · rw [List.length_append, hHlen]
      exact (Nat.cast_add _ _).symm
    · rw [length_bytes]
      exact (Nat.cast_succ _).symm
  have hheader : readHeader (Buf.ofList H) = some ((e.key.length : ℤ) + 1, slotNr e) := by
    rw [hH]
    exact readHeader_ofList (by omega) hnr
  have hnext : ((dirBytes (l₁ ++ [e])).length : ℤ) =
      (dirBytes l₁).length + direntSize + ((e.key.length : ℤ) + 1) := by
    have hone : dirBytes [e] = slotBytes e := by
      rw [dirBytes_cons]
      exact List.append_nil _
    rw [dirBytes_append, List.length_append, hone, hslot]
    push_cast
    ring
  have hnat : ((e.key.length : ℤ) + 1).toNat = e.key.length + 1 := by omega
  unfold testfsNextDirent
  rw [if_neg (not_not.2 h.iType), if_neg (by omega), hhead]
  simp only
  rw [if_neg (by omega), hheader]
  simp only
  rw [if_neg (by omega), hnat, hname]
  simp only
  rw [if_neg (by omega), hnext]
  rfl

/-- There is no entry after the last slot. -/
theorem nextDirent_end (h : DirHolds F l s) :
    testfsNextDirent s.sb s.ino (dirBytes l).length = some none := by
  unfold testfsNextDirent
  rw [if_neg (not_not.2 h.iType), if_pos h.iSize.le]

/-! ### Loops over it -/

variable {visit : ℤ → Dirent → Option (Option β)} {off off' : ℤ} {d : Dirent} {b : β}

theorem scan_skip (hn : testfsNextDirent sb ino off = some (some (d, off')))
    (hv : visit off d = some none) : testfsScan sb ino visit off = testfsScan sb ino visit off' := by
  rw [testfsScan]
  split
  · rename_i h
    rw [hn] at h
    cases h
  · rename_i h
    rw [hn] at h
    cases h
  · rename_i d₁ off₁ h
    rw [hn] at h
    cases h
    rw [hv]

theorem scan_hit (hn : testfsNextDirent sb ino off = some (some (d, off')))
    (hv : visit off d = some (some b)) : testfsScan sb ino visit off = some (.inl b) := by
  rw [testfsScan]
  split
  · rename_i h
    rw [hn] at h
    cases h
  · rename_i h
    rw [hn] at h
    cases h
  · rename_i d₁ off₁ h
    rw [hn] at h
    cases h
    rw [hv]

theorem scan_end (hn : testfsNextDirent sb ino off = some none) :
    testfsScan sb ino visit off = some (.inr off) := by
  rw [testfsScan]
  split
  · rename_i h
    rw [hn] at h
    cases h
  · rfl
  · rename_i d₁ off₁ h
    rw [hn] at h
    cases h

/-- The slots that the body goes on from are passed. -/
theorem scan_passes (h : DirHolds F (l ++ l₁ ++ l₂) s)
    (hpass : ∀ e ∈ l₁, ∀ off, visit off (slotDirent e) = some none) :
    testfsScan s.sb s.ino visit (dirBytes l).length =
      testfsScan s.sb s.ino visit (dirBytes (l ++ l₁)).length := by
  induction l₁ generalizing l with
  | nil => rw [List.append_nil]
  | cons e l₁ ih =>
    have hnext := nextDirent_slot (show DirHolds F (l ++ e :: (l₁ ++ l₂)) s by
      rwa [List.append_assoc] at h)
    have hsplit : l ++ e :: l₁ = l ++ [e] ++ l₁ := by
      rw [List.append_assoc]
      rfl
    rw [hsplit] at h ⊢
    rw [scan_skip hnext (hpass e List.mem_cons_self _)]
    exact ih h fun a ha => hpass a (List.mem_cons_of_mem e ha)

/-- **A loop stops** at the first slot whose entry gives a result. -/
theorem scan_stops (h : DirHolds F (l₁ ++ e :: l₂) s)
    (hpass : ∀ a ∈ l₁, ∀ off, visit off (slotDirent a) = some none)
    (hstop : visit (dirBytes l₁).length (slotDirent e) = some (some b)) :
    testfsScan s.sb s.ino visit 0 = some (.inl b) := by
  have hp := scan_passes (l := []) h hpass
  rw [List.nil_append] at hp
  exact hp.trans (scan_hit (nextDirent_slot h) hstop)

/-- **Otherwise it ends** exactly at the size of the directory. -/
theorem scan_ends (h : DirHolds F l s)
    (hpass : ∀ a ∈ l, ∀ off, visit off (slotDirent a) = some none) :
    testfsScan s.sb s.ino visit 0 = some (.inr s.ino.din.iSize) := by
  have hl : DirHolds F ([] ++ l ++ []) s := by rwa [List.append_nil]
  have hp := scan_passes hl hpass
  rw [List.nil_append] at hp
  rw [h.iSize]
  exact hp.trans (scan_end (nextDirent_end h))

/-- A body that returns at every slot makes a loop that does, and that ends at the size unless it
stops before. -/
theorem scan_total (h : DirHolds F (l₁ ++ l₂) s)
    (ht : ∀ e ∈ l₂, ∀ off, (visit off (slotDirent e)).isSome) :
    ∃ x, testfsScan s.sb s.ino visit (dirBytes l₁).length = some x ∧
      ∀ p, x = .inr p → p = s.ino.din.iSize := by
  induction l₂ generalizing l₁ with
  | nil =>
    rw [List.append_nil] at h
    refine ⟨.inr (dirBytes l₁).length, scan_end (nextDirent_end h), ?_⟩
    intro p hp
    rw [← Sum.inr.inj hp, h.iSize]
  | cons e l₂ ih =>
    have hnext := nextDirent_slot h
    obtain ⟨o, ho⟩ := Option.isSome_iff_exists.1
      (ht e List.mem_cons_self ((dirBytes l₁).length : ℤ))
    cases o with
    | some b => exact ⟨.inl b, scan_hit hnext ho, fun p hp => by cases hp⟩
    | none =>
      rw [scan_skip hnext ho]
      refine ih ?_ fun a ha => ht a (List.mem_cons_of_mem e ha)
      rwa [List.append_assoc]

/-! ### What the bodies find -/

theorem named_slot (e : DirSlot) (name : CString) :
    (slotDirent e).named name = some (decide (e.key = name)) := by
  have hget : ∀ i, (Buf.ofList e.key.bytes).get i = e.key.bytes[i]? := fun _ => rfl
  have heq : strcmpEq (Buf.ofList e.key.bytes) 0 name.val = some (decide (e.key.val = name.val)) := by
    refine strcmpEq_eq (fun i hi => ?_) ?_ e.key.property name.property
    · rw [Nat.zero_add, hget]
      exact List.getElem?_append_left hi
    · rw [Nat.zero_add, hget]
      exact List.getElem?_concat_length
  unfold Dirent.named
  refine heq.trans ?_
  congr 1
  exact decide_eq_decide.2 Subtype.ext_iff.symm

theorem slotNr_live {n : ℤ} (h : e.val = some n) : slotNr e = n := by
  unfold slotNr
  rw [h, Option.getD_some]

theorem slotNr_free (h : e.val = none) : slotNr e = -1 := by
  unfold slotNr
  rw [h, Option.getD_none]

/-- What the body of `testfs_dir_name_to_inode_nr` does at a slot. -/
theorem nameVisit_slot (h : DirHolds F l s) (he : e ∈ l) (name : CString) :
    nameVisit name (slotDirent e) = some (if e.key = name then e.val else none) := by
  unfold nameVisit
  rw [named_slot]
  cases hv : e.val with
  | none =>
    have hnr : (slotDirent e).dInodeNr = -1 := slotNr_free hv
    rw [if_pos (by omega)]
    simp
  | some n =>
    have hnr : (slotDirent e).dInodeNr = n := slotNr_live hv
    have := h.numbers e he n hv
    rw [if_neg (by omega), hnr]
    by_cases hk : e.key = name
    · simp [hk]
    · simp [hk]

theorem DirHolds.name_lookup (h : DirHolds F l s) (name : CString) :
    testfsDirNameToInodeNr s.sb s.ino name =
      some ((SlotTable.find name l).getD (-enoent)) := by
  have hscan : ∀ x, testfsScan s.sb s.ino (fun _ => nameVisit name) 0 = some x →
      testfsDirNameToInodeNr s.sb s.ino name = some (x.getLeft?.getD (-enoent)) := by
    intro x hx
    unfold testfsDirNameToInodeNr
    rw [if_neg (not_not.2 h.iType)]
    exact congrArg (Option.map fun r => r.getLeft?.getD (-enoent)) hx
  rcases SlotTable.remove_cases name l with ⟨l₁, n, l₂, rfl, hno, hfind, -⟩ | ⟨hnone, -⟩
  · rw [hscan (.inl n), hfind]
    · rfl
    refine scan_stops h (fun a ha off => ?_) ?_
    · rw [nameVisit_slot h (List.mem_append_left _ ha)]
      by_cases hk : a.key = name
      · have hv : ¬a.val.isSome := fun hs => hno a ha hs hk
        rw [if_pos hk, Option.not_isSome_iff_eq_none.1 hv]
      · rw [if_neg hk]
    · rw [nameVisit_slot h (List.mem_append_right _ List.mem_cons_self)]
      exact congrArg some (if_pos rfl)
  · rw [hscan (.inr s.ino.din.iSize), hnone]
    · rfl
    refine scan_ends h fun a ha off => ?_
    rw [nameVisit_slot h ha]
    by_cases hk : a.key = name
    · have hv : ¬a.val.isSome := fun hs => SlotTable.find_eq_none.1 hnone a ha hs hk
      rw [if_pos hk, Option.not_isSome_iff_eq_none.1 hv]
    · rw [if_neg hk]

/-! ### The entries -/

theorem cname_slot (e : DirSlot) : (slotDirent e).cname = some e.key := by
  obtain ⟨⟨c, hc⟩, val⟩ := e
  have hget : ∀ i, (slotDirent ⟨⟨c, hc⟩, val⟩).dName.get i = (c ++ [0])[i]? := fun _ => rfl
  have hprint : printName (slotDirent ⟨⟨c, hc⟩, val⟩) = c := by
    have hmap : (List.range (c ++ [0]).length).map
        (fun i => ((c ++ [(0 : Byte)])[i]?).getD 0) = c ++ [0] := by
      refine List.ext_getElem (by simp) fun i h1 h2 => ?_
      rw [List.getElem_map, List.getElem_range, List.getElem?_eq_getElem h2, Option.getD_some]
    have htake : ∀ x ∈ c, decide (x ≠ (0 : Byte)) = true := by
      intro x hx
      exact decide_eq_true fun h0 => hc (h0 ▸ hx)
    refine (congrArg (List.takeWhile (· ≠ 0)) hmap).trans ?_
    rw [List.takeWhile_append_of_pos htake]
    simp
  unfold Dirent.cname
  rw [if_pos]
  · exact congrArg some (Subtype.ext hprint)
  · rw [hprint, hget]
    exact List.getElem?_concat_length

theorem direntsFrom_slots (h : DirHolds F (l₁ ++ l₂) s) :
    direntsFrom s.sb s.ino.din (l₂.length + 1) (dirBytes l₁).length =
      some (l₂.map slotDirent) := by
  have hdin : s.ino.din.inode.din = s.ino.din := rfl
  induction l₂ generalizing l₁ with
  | nil =>
    rw [List.append_nil] at h
    unfold direntsFrom
    rw [nextDirent_congr hdin, nextDirent_end h]
    rfl
  | cons e l₂ ih =>
    have hrest := @ih (l₁ ++ [e]) (by rwa [List.append_assoc])
    rw [List.length_cons]
    unfold direntsFrom
    rw [nextDirent_congr hdin, nextDirent_slot h]
    simp only
    rw [hrest]
    rfl

/-- The live slots, in order. -/
def liveSlots (l : List DirSlot) : List (CString × ℤ) :=
  l.filterMap fun e => e.val.map fun n => (e.key, n)

theorem liveEntries_slots (hn : ∀ e ∈ l, ∀ n, e.val = some n → 0 ≤ n) :
    liveEntries (l.map slotDirent) = some (liveSlots l) := by
  induction l with
  | nil => rfl
  | cons e l ih =>
    have hl := ih fun a ha => hn a (List.mem_cons_of_mem e ha)
    unfold liveSlots at hl ⊢
    rw [List.map_cons, List.filterMap_cons]
    unfold liveEntries
    cases hv : e.val with
    | none =>
      have hnr : (slotDirent e).dInodeNr = -1 := slotNr_free hv
      rw [if_pos (by omega), hl]
      rfl
    | some n =>
      have hnr : (slotDirent e).dInodeNr = n := slotNr_live hv
      have := hn e List.mem_cons_self n hv
      rw [if_neg (by omega), cname_slot, hl, hnr]
      rfl

theorem liveSlots_nodup (hd : SlotTable.Distinct l) : ((liveSlots l).map Prod.fst).Nodup := by
  unfold liveSlots
  rw [List.map_filterMap, List.nodup_iff_pairwise_ne]
  refine List.Pairwise.filterMap _ ?_ hd
  intro a b hab x hx y hy
  cases hv : a.val with
  | none =>
    rw [hv] at hx
    cases hx
  | some n =>
    cases hw : b.val with
    | none =>
      rw [hw] at hy
      cases hy
    | some m =>
      rw [hv] at hx
      rw [hw] at hy
      cases hx
      cases hy
      exact hab (by rw [hv]; rfl) (by rw [hw]; rfl)

end OSLab.Fs
