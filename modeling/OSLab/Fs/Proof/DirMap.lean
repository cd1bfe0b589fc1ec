import OSLab.Fs.Proof.DirBytes
import OSLab.Fs.Proof.Refs

/-!
# A directory is a map from names to inode numbers

* `addDirent_ok`, `removeDirent_ok`: what `testfs_add_dirent` and `testfs_remove_dirent` do to the
  slots of a directory.
* `dir_refines_map`: after every sequence of them the loops over the directory end at its size, the
  live names are different, and a name is found with the number of its latest entry.
-/

namespace OSLab.Fs

open Prog

variable {F : Set ℤ} {s t : FileState} {l l₁ l₂ old : List DirSlot} {e : DirSlot} {buf : Buf}
  {r n start size : ℤ} {name : CString}

/-! ### Writing a slot -/

theorem DirHolds.congr (h : DirHolds F l s) (hsb : t.sb = s.sb) (hd : t.ino.din = s.ino.din) :
    DirHolds F l t := by
  obtain ⟨sb, din, dirty, nr, count⟩ := s
  obtain ⟨sb', din', dirty', nr', count'⟩ := t
  obtain rfl : sb' = sb := hsb
  obtain rfl : din' = din := hd
  have hf := h.file
  exact ⟨⟨⟨hf.super, hf.sub, hf.owns, hf.count⟩, hf.inDev⟩, h.iType, h.iSize, h.small, h.mapped,
    h.content, h.numbers⟩

section Splice

variable {A O E C : List Byte} {p : ℕ}

/-- `O` is replaced by bytes of the same length, or is empty and at the end. -/
def Replaces (E O C : List Byte) : Prop := O = [] ∧ C = [] ∨ O.length = E.length

theorem Replaces.length (h : Replaces E O C) :
    (A ++ E ++ C).length = max (A ++ O ++ C).length (A.length + E.length) := by
  simp only [List.length_append]
  rcases h with ⟨rfl, rfl⟩ | h
  · simp only [List.length_nil]
    omega
  · omega

/-- The bytes before and after are the old ones. -/
theorem Replaces.getElem? (h : Replaces E O C) (hp : p < (A ++ E ++ C).length) :
    if A.length ≤ p ∧ p < A.length + E.length then (A ++ E ++ C)[p]? = E[p - A.length]?
    else (A ++ E ++ C)[p]? = (A ++ O ++ C)[p]? ∧ p < (A ++ O ++ C).length := by
  have hA : A.length ≤ (A ++ O ++ C).length := by
    rw [List.append_assoc, List.length_append]
    omega
  have hlen := h.length (A := A)
  split
  · rename_i hin
    rw [List.append_assoc, List.getElem?_append_right hin.1, List.getElem?_append_left (by omega)]
  · rename_i hout
    refine ⟨?_, by omega⟩
    by_cases hlt : p < A.length
    · rw [List.append_assoc, List.append_assoc, List.getElem?_append_left hlt,
        List.getElem?_append_left hlt]
    · rcases h with ⟨rfl, rfl⟩ | h
      · rw [List.append_nil, List.length_append] at hp
        omega
      · have hE : (A ++ E).length ≤ p := by
          rw [List.length_append]
          omega
        have hO : (A ++ O).length = (A ++ E).length := by rw [List.length_append, h, List.length_append]
        rw [List.getElem?_append_right hE, List.getElem?_append_right (hO ▸ hE), hO]

end Splice

theorem dirBytes_splice (l₁ m l₂ : List DirSlot) :
    dirBytes (l₁ ++ m ++ l₂) = dirBytes l₁ ++ dirBytes m ++ dirBytes l₂ := by
  rw [dirBytes_append, dirBytes_append]

theorem dirBytes_singleton (e : DirSlot) : dirBytes [e] = slotBytes e := by
  rw [dirBytes_cons]
  exact List.append_nil _

/-- The slot is written in the place of an entry of the same length, or at the end. -/
theorem DirHolds.write (h : DirHolds F (l₁ ++ old ++ l₂) s)
    (hold : Replaces (slotBytes e) (dirBytes old) (dirBytes l₂))
    (hbuf : ∀ i < (slotBytes e).length, buf.get i = (slotBytes e)[i]?)
    (hnum : ∀ n, e.val = some n → 0 ≤ n ∧ n < 2 ^ 31) (hlen : (slotBytes e).length < 2 ^ 32)
    (hr : testfsWriteData buf start size s = some (r, t)) (hstart : start = (dirBytes l₁).length)
    (hsize : size = (slotBytes e).length) (h0 : 0 ≤ r) (hsmall : t.ino.din.iSize < 2 ^ 31) :
    DirHolds F (l₁ ++ [e] ++ l₂) t := by
  subst hstart hsize
  have hs := h.small
  have hi := h.iSize
  have hmapped := h.mapped
  have hcontent := h.content
  rw [dirBytes_splice] at hs hi hmapped hcontent
  obtain ⟨A, hA⟩ : ∃ A, A = dirBytes l₁ := ⟨_, rfl⟩
  obtain ⟨E, hE⟩ : ∃ E, E = slotBytes e := ⟨_, rfl⟩
  obtain ⟨O, hO⟩ : ∃ O, O = dirBytes old := ⟨_, rfl⟩
  obtain ⟨C, hC⟩ : ∃ C, C = dirBytes l₂ := ⟨_, rfl⟩
  have hpos : 0 < E.length := by
    rw [hE, length_slotBytes]
    omega
  have hbytes : dirBytes (l₁ ++ [e] ++ l₂) = A ++ E ++ C := by
    rw [dirBytes_splice, dirBytes_singleton, hA, hE, hC]
  rw [← hA, ← hO, ← hC] at hs hi hmapped hcontent
  rw [← hA, ← hE] at hr
  rw [← hE] at hbuf hlen hold
  rw [← hO, ← hC] at hold
  have hnew := hold.length (A := A)
  have hAle : A.length ≤ (A ++ O ++ C).length := by
    rw [List.length_append, List.length_append]
    omega
  have hmax : A.length + E.length ≤ maxFileSize := by
    rw [maxFileSize_eq]
    omega
  obtain ⟨s₁, hw, rfl⟩ := writeData_success h.file hmax hr h0
  have hgrow : (s₁.grow A.length E.length).ino.din.iSize = ((A ++ E ++ C).length : ℕ) := by
    rw [s₁.grow_iSize _ (by omega), hw.iSize, hi, hnew]
    omega
  rw [hgrow] at hsmall
  rw [transferred_eq (by omega) (by omega)] at hw
  have hrest := s₁.grow_rest A.length E.length
  have htype : (s₁.grow A.length E.length).ino.din.iType = s₁.ino.din.iType := by
    unfold FileState.grow
    split <;> rfl
  have hbyte : ∀ p < (A ++ E ++ C).length, s₁.Mapped (p / blockSize) ∧
      (A ++ E ++ C)[p]? = some (s₁.content p) := by
    intro p hp
    have hget := hold.getElem? hp
    split at hget
    · rename_i hin
      obtain ⟨hrange, hb⟩ := hw.inside p (by omega) (by omega)
      have hoff : ((p : ℤ) - A.length).toNat = p - A.length := by omega
      refine ⟨hw.mapped.2 (Or.inr hrange), ?_⟩
      rw [hget, ← hb, hoff, hbuf _ (by omega)]
    · -- the other bytes are the old ones
      rename_i hout
      have hm := hmapped p hget.2
      refine ⟨hw.mapped.2 (Or.inl hm), ?_⟩
      rw [hget.1, hcontent p hget.2, hw.outside p (by omega) (Or.inl hm)]
  rw [← hbytes] at hbyte hgrow hsmall
  refine ⟨hw.file.grow _ _, ?_, hgrow, by omega, fun p hp => ?_, fun p hp => ?_, ?_⟩
  · rw [htype, hw.iType]
    exact h.iType
  · rw [mapped_congr hrest]
    exact (hbyte p hp).1
  · rw [content_congr hrest]
    exact (hbyte p hp).2
  · intro a ha
    rcases List.mem_append.1 ha with ha | ha
    · rcases List.mem_append.1 ha with ha | ha
      · exact h.numbers a (List.mem_append_left _ (List.mem_append_left _ ha))
      · rw [List.mem_singleton.1 ha]
        exact hnum
    · exact h.numbers a (List.mem_append_right _ ha)

/-- A write inside the directory does not run out of space. -/
theorem DirHolds.overwrite (h : DirHolds F l s) {a k : ℕ} (hk : 0 < k)
    (hin : a + k ≤ (dirBytes l).length) (hr : testfsWriteData buf a k s = some (r, t)) : 0 ≤ r := by
  have hs := h.small
  have hmax : a + k ≤ maxFileSize := by
    rw [maxFileSize_eq]
    omega
  obtain ⟨hL, hbase⟩ := start_block hmax
  have hwp : wp True (testfsWriteData buf a k) _ s :=
    writeData_ok h.file (Int.natCast_nonneg a) (Int.natCast_nonneg k) hL (Or.inl trivial)
  rcases hwp.of_run hr with ⟨hr, -⟩ | ⟨m, s₂, ham, hm, ⟨s₁, hw, hst⟩, -⟩
  · rw [hr, toInt32_of_lt (by omega) (by omega)]
    exact Int.natCast_nonneg k
  · -- the block where the write stops is allocated
    rw [chunkCount_eq hk (by omega)] at hm
    have hbn : blockSize = 8192 := rfl
    rw [hbn] at hm ham
    have hmap := h.mapped (blockSize * m) (by rw [hbn]; omega)
    rw [Nat.mul_div_cancel_left _ (by decide)] at hmap
    rcases hst with ⟨hge, -⟩ | ⟨-, -, hf⟩
    · rw [maxFileBlocks_eq] at hge
      omega
    · exact absurd (hw.mapped.2 (Or.inl hmap)) hf.unmapped

/-! ### Adding an entry -/

/-- The slots that `testfs_add_dirent` uses again: the length of the name is an `int`. -/
def fitsName (name : CString) (c : CString) : Bool :=
  decide ((c.length : ℤ) + 1 = toInt32 (name.length + 1))

/-- What the body of `testfs_add_dirent` does at a slot, when the name is not live. -/
theorem addVisit_slot (h : DirHolds F l s) (hfree : SlotTable.find name l = none) (he : e ∈ l)
    (off : ℤ) : addVisit name (toInt32 (name.length + 1)) off (slotDirent e) =
      some (if e.val = none ∧ fitsName name e.key then some (.ok off) else none) := by
  have hlen : (slotDirent e).dNameLen = (e.key.length : ℤ) + 1 := rfl
  unfold addVisit fitsName
  rw [named_slot, hlen]
  cases hv : e.val with
  | none =>
    have hnr : (slotDirent e).dInodeNr = -1 := slotNr_free hv
    simp only [hnr]
    by_cases hfit : (e.key.length : ℤ) + 1 = toInt32 (name.length + 1)
    · simp [hfit]
    · simp [hfit]
  | some n =>
    have hnr : (slotDirent e).dInodeNr = n := slotNr_live hv
    have hn := (h.numbers e he n hv).1
    have hne : e.key ≠ name := SlotTable.find_eq_none.1 hfree e he (by rw [hv]; rfl)
    simp [hnr, hn, hne]

theorem slotBytes_get (e : DirSlot) (i : ℕ) : (slotBytes e)[i]? = if i < direntSize then
    some (direntHeader (e.key.length + 1) (slotNr e) i) else e.key.bytes[i - direntSize]? := by
  have hr : (List.range direntSize).length = direntSize := List.length_range
  unfold slotBytes direntBytes
  split
  · rename_i hlt
    rw [List.getElem?_append_left (by rwa [List.length_map, hr]), List.getElem?_map,
      List.getElem?_range hlt, Option.map_some]
  · rename_i hge
    rw [List.getElem?_append_right (by rw [List.length_map, hr]; omega), List.length_map, hr]

/-- The buffer that is written holds the bytes of the slot. -/
theorem direntBuf_slot (name : CString) (n : ℤ) (i : ℕ) :
    (direntBuf name (name.length + 1) n).get i = (slotBytes ⟨name, some n⟩)[i]? :=
  (slotBytes_get ⟨name, some n⟩ i).symm

/-- Where the loop of `testfs_add_dirent` comes to for a name that is not live. -/
theorem addScan_cases (h : DirHolds F l s) (hfree : SlotTable.find name l = none) (n : ℤ) :
    (∃ l₁ e l₂, l = l₁ ++ e :: l₂ ∧ fitsName name e.key ∧
      SlotTable.put (fitsName name) name n l = l₁ ++ ⟨name, some n⟩ :: l₂ ∧
      reads (fun s : FileState => testfsScan s.sb s.ino
        (addVisit name (toInt32 (name.length + 1))) 0) s =
          some (.inl (.ok ((dirBytes l₁).length : ℤ)), s)) ∨
    (SlotTable.put (fitsName name) name n l = l ++ [⟨name, some n⟩] ∧
      reads (fun s : FileState => testfsScan s.sb s.ino
        (addVisit name (toInt32 (name.length + 1))) 0) s = some (.inr s.ino.din.iSize, s)) := by
  have hpass : ∀ a ∈ l, (a.val = none → fitsName name a.key = false) → ∀ off,
      addVisit name (toInt32 (name.length + 1)) off (slotDirent a) = some none := by
    intro a ha hno off
    rw [addVisit_slot h hfree ha, if_neg]
    rintro ⟨hv, hf⟩
    rw [hno hv] at hf
    cases hf
  rcases SlotTable.put_cases (fitsName name) name n l with
    ⟨l₁, e, l₂, rfl, hv, hfit, hno, hput⟩ | ⟨hno, hput⟩
  · refine Or.inl ⟨l₁, e, l₂, rfl, hfit, hput, reads_run ?_⟩
    refine scan_stops h (fun a ha => hpass a (List.mem_append_left _ ha) (hno a ha)) ?_
    rw [addVisit_slot h hfree (List.mem_append_right _ List.mem_cons_self), if_pos ⟨hv, hfit⟩]
  · exact Or.inr ⟨hput, reads_run (scan_ends h fun a ha => hpass a ha (hno a ha))⟩

/-- Where `testfs_add_dirent` writes the entry of a name that is not live: over the first slot that
fits, or at the end. -/
theorem addDirent_cases (h : DirHolds F l s) (hfree : SlotTable.find name l = none)
    (hr : testfsAddDirent name n s = some (r, t)) : 2 ^ 31 ≤ name.length + 1 ∧ r = -enomem ∨
      ∃ l₁ old l₂, l = l₁ ++ old ++ l₂ ∧
        Replaces (slotBytes ⟨name, some n⟩) (dirBytes old) (dirBytes l₂) ∧
        SlotTable.put (fitsName name) name n l = l₁ ++ [⟨name, some n⟩] ++ l₂ ∧
        0 ≤ n ∧ (name.length : ℤ) + 1 < 2 ^ 31 ∧
        testfsWriteData (direntBuf name (name.length + 1) n) (dirBytes l₁).length
          (slotBytes ⟨name, some n⟩).length s = some (r, t) := by
  have hs := h.small
  unfold testfsAddDirent at hr
  rw [bind_of_run (getState_run s), bind_of_run (require_run h.iType)] at hr
  -- the entry is written when its length is not cut to an `int`
  have hwrite : ∀ p : ℕ, p < 2 ^ 31 → testfsWriteDirent name (toInt32 (name.length + 1)) n
      (toInt32 p) s = some (r, t) → 2 ^ 31 ≤ name.length + 1 ∧ r = -enomem ∨ 0 ≤ n ∧
        toInt32 (name.length + 1) = (name.length : ℤ) + 1 ∧ (name.length : ℤ) + 1 < 2 ^ 31 ∧
        testfsWriteData (direntBuf name (name.length + 1) n) p
          (slotBytes ⟨name, some n⟩).length s = some (r, t) := by
    intro p hp hw
    unfold testfsWriteDirent at hw
    rw [toInt32_of_lt (x := p) (by omega) (by omega)] at hw
    split_ifs at hw with hneg
    · obtain ⟨rfl, -⟩ := pure_eq_some.1 hw
      refine Or.inl ⟨?_, rfl⟩
      by_contra hlt
      rw [toInt32_of_lt (by omega) (by omega)] at hneg
      omega
    · by_cases hlen : toInt32 (name.length + 1) = (name.length : ℤ) + 1
      · rw [bind_of_run (require_run hlen)] at hw
        by_cases hn0 : 0 ≤ n
        · rw [bind_of_run (require_run hn0), hlen] at hw
          refine Or.inr ⟨hn0, hlen, hlen ▸ toInt32_lt _, ?_⟩
          rw [length_slotBytes]
          push_cast
          rw [add_assoc]
          exact hw
        · rw [bind_of_none (require_none hn0)] at hw
          cases hw
      · rw [bind_of_none (require_none hlen)] at hw
        cases hw
  rcases addScan_cases h hfree n with ⟨l₁, e, l₂, rfl, hfit, hput, hscan⟩ | ⟨hput, hscan⟩
  · rw [bind_of_run hscan] at hr
    have hle : (dirBytes l₁).length < 2 ^ 31 := by
      rw [dirBytes_append, List.length_append] at hs
      omega
    rcases hwrite _ hle hr with he | ⟨hn0, hlen, hlt, hw⟩
    · exact Or.inl he
    have hkey : (e.key.length : ℤ) + 1 = name.length + 1 := hlen ▸ of_decide_eq_true hfit
    refine Or.inr ⟨l₁, [e], l₂, ?_, Or.inr ?_, ?_, hn0, hlt, hw⟩
    · rw [List.append_assoc]
      rfl
    · rw [dirBytes_singleton, length_slotBytes, length_slotBytes]
      show direntSize + e.key.length + 1 = direntSize + name.length + 1
      omega
    · rw [hput, List.append_assoc]
      rfl
  · rw [bind_of_run hscan] at hr
    dsimp only at hr
    rw [bind_of_run (require_run rfl), h.iSize] at hr
    rcases hwrite _ hs hr with he | ⟨hn0, -, hlt, hw⟩
    · exact Or.inl he
    refine Or.inr ⟨l, [], [], ?_, Or.inl ⟨rfl, rfl⟩, ?_, hn0, hlt, hw⟩
    · rw [List.append_nil, List.append_nil]
    · rw [hput, List.append_nil]

/-- **`testfs_add_dirent`** of a name that is not live adds the entry, in the first slot that fits
or at the end. -/
theorem addDirent_ok (h : DirHolds F l s) (hfree : SlotTable.find name l = none)
    (hn : n < 2 ^ 31) (hr : testfsAddDirent name n s = some (r, t)) (h0 : 0 ≤ r)
    (hsmall : t.ino.din.iSize < 2 ^ 31) :
    DirHolds F (SlotTable.put (fitsName name) name n l) t := by
  rcases addDirent_cases h hfree hr with ⟨-, he⟩ | ⟨l₁, old, l₂, hl, hold, hput, hn0, hlt, hw⟩
  · rw [he] at h0
    exact absurd h0 (by decide)
  rw [hput]
  rw [hl] at h
  refine h.write hold (fun i _ => direntBuf_slot name n i)
    (fun m hm => Option.some.inj hm ▸ ⟨hn0, hn⟩) ?_ hw rfl rfl h0 hsmall
  rw [length_slotBytes]
  show 8 + name.length + 1 < 2 ^ 32
  omega

/-! ### Removing an entry -/

variable {u v : Testfs} {D nr : ℤ} {ino : Inode}

/-- Directory `D` is open, and its slots are `l`. -/
structure DirAt (D : ℤ) (F : Set ℤ) (l : List DirSlot) (u : Testfs) : Prop where
  counted : Counted u
  dir : ∃ ino, u.find D = some ino ∧ DirHolds F l ⟨u.sb, ino⟩

/-- A write to the directory. -/
theorem DirAt.onInode {c : Prog FileState ℤ} (h : DirAt D F l u)
    (hr : onInode D c u = some (r, v)) : ∃ s t, DirHolds F l s ∧ c s = some (r, t) ∧
      (∃ ino, v.find D = some ino ∧ ino.din = t.ino.din) ∧
      ∀ l', DirHolds F l' t → DirAt D F l' v := by
  obtain ⟨ino, hf, hd⟩ := h.dir
  obtain ⟨ino', t, hf', hc, rfl⟩ := onInode_cases hr
  rw [hf] at hf'
  obtain rfl := Option.some.inj hf'
  refine ⟨_, t, hd, hc, ⟨_, find_onInode hf, rfl⟩,
    fun l' hl' => ⟨?_, _, find_onInode hf, hl'.congr rfl rfl⟩⟩
  exact ((onInode_balanced D c).of_run h.counted hr).1

/-- Looking at another directory, or at this one, leaves it alone. -/
theorem DirAt.removeAllowed (h : DirAt D F l u)
    (hr : testfsRemoveDirentAllowed nr u = some (r, v)) : DirAt D F l v := by
  obtain ⟨ino, hf, hd⟩ := h.dir
  have hcounted := ((removeDirentAllowed_balanced nr).of_run h.counted hr).1
  unfold testfsRemoveDirentAllowed at hr
  obtain ⟨_, u₁, h₁, hr⟩ := bind_eq_some.1 hr
  obtain ⟨dir, u₂, h₂, hr⟩ := bind_eq_some.1 hr
  obtain ⟨ret, u₃, h₃, hr⟩ := bind_eq_some.1 hr
  obtain ⟨_, u₄, h₄, hr⟩ := bind_eq_some.1 hr
  cases hr
  obtain ⟨-, rfl⟩ := reads_eq_some.1 h₂
  obtain ⟨-, rfl⟩ := reads_eq_some.1 h₃
  by_cases hD : D = nr
  · -- one more reference, and one less
    subst hD
    rw [getInode_hit hf] at h₁
    cases h₁
    have hpos := h.counted.pos ino (find_mem hf).1
    have hg : ∀ k, Assigns k fun ino : Inode => { ino with iCount := ino.iCount + k } :=
      fun k => ⟨fun _ => rfl, fun _ => rfl⟩
    have hf₁ := @find_update u D D 1 _ (hg 1)
    rw [hf, Option.map_some, if_pos (find_mem hf).2] at hf₁
    cases hdirty : ino.dirty with
    | true =>
      rw [putInode_dirty hf₁ hdirty] at h₄
      cases h₄
    | false =>
      rw [putInode_release hf₁ hdirty (by show ino.iCount + 1 ≠ 1; omega)] at h₄
      cases h₄
      have hf₂ := @find_update
        (u.updateInode D fun ino => { ino with iCount := ino.iCount + 1 }) D D (-1) _ (hg (-1))
      rw [hf₁, Option.map_some, if_pos (find_mem hf₁).2] at hf₂
      exact ⟨hcounted, _, hf₂, hd.congr rfl rfl⟩
  · obtain ⟨hsb, -, -, hother⟩ := (getInode_found u nr).of_run h₁
    have hc₁ := ((getInode_adds nr).of_run h.counted h₁).1
    obtain ⟨hsb', -, hother'⟩ := putInode_others hc₁.nodup h₄
    refine ⟨hcounted, ?_⟩
    rw [hsb', hsb, hother' D hD, hother D hD]
    exact ⟨ino, hf, hd⟩

/-- What the body of `testfs_remove_dirent` does at a slot. -/
theorem removeVisit_slot (h : DirHolds F l s) (he : e ∈ l) (name : CString) (off : ℤ) :
    removeVisit name off (slotDirent e) =
      some (if e.val.isSome ∧ e.key = name then some (off, slotDirent e) else none) := by
  unfold removeVisit
  rw [named_slot]
  cases hv : e.val with
  | none =>
    have hnr : (slotDirent e).dInodeNr = -1 := slotNr_free hv
    rw [if_pos (by omega)]
    simp
  | some n =>
    have hnr : (slotDirent e).dInodeNr = n := slotNr_live hv
    have := h.numbers e he n hv
    rw [if_neg (by omega)]
    by_cases hk : e.key = name
    · simp [hk]
    · simp [hk]

/-- The buffer that is written back holds the bytes of the slot without its entry. -/
theorem removedBuf_slot (name : CString) (o : Option ℤ) (i : ℕ) :
    (removedBuf (slotDirent ⟨name, o⟩)).get i = (slotBytes ⟨name, none⟩)[i]? :=
  (slotBytes_get ⟨name, none⟩ i).symm

/-- The slot of a removed entry is written over the entry, which does not fail. -/
theorem DirHolds.freeSlot (h : DirHolds F (l₁ ++ ⟨name, some n⟩ :: l₂) s)
    (hw : testfsWriteData (removedBuf (slotDirent ⟨name, some n⟩)) (dirBytes l₁).length
      (slotBytes ⟨name, none⟩).length s = some (r, t)) :
    0 ≤ r ∧ DirHolds F (l₁ ++ ⟨name, none⟩ :: l₂) t := by
  have hsame : (slotBytes ⟨name, some n⟩).length = (slotBytes ⟨name, none⟩).length := by
    rw [length_slotBytes, length_slotBytes]
  have hpos : 0 < (slotBytes ⟨name, none⟩).length := by
    rw [length_slotBytes]
    omega
  have hin : (dirBytes l₁).length + (slotBytes ⟨name, none⟩).length ≤
      (dirBytes (l₁ ++ ⟨name, some n⟩ :: l₂)).length := by
    rw [dirBytes_append, dirBytes_cons, List.length_append, List.length_append, hsame]
    omega
  have hsmall := h.small
  have h0 := h.overwrite hpos hin hw
  have hsize : t.ino.din.iSize < 2 ^ 31 := by
    have hi := h.iSize
    rw [writeData_iSize h.file (by rw [maxFileSize_eq]; omega) hpos hw h0]
    omega
  have hold : DirHolds F (l₁ ++ [⟨name, some n⟩] ++ l₂) s := by rwa [List.append_assoc]
  have hrest := hold.write (Or.inr ?_) (fun i _ => removedBuf_slot name _ i)
    (fun m hm => by cases hm) (by omega) hw rfl rfl h0 hsize
  · rw [List.append_assoc] at hrest
    exact ⟨h0, hrest⟩
  · rw [dirBytes_singleton, hsame]

/-- Where the loop of `testfs_remove_dirent` comes to. -/
theorem removeScan_cases (h : DirHolds F l s) (name : CString) :
    (∃ l₁ n l₂, l = l₁ ++ ⟨name, some n⟩ :: l₂ ∧ SlotTable.find name l = some n ∧
      SlotTable.remove name l = l₁ ++ ⟨name, none⟩ :: l₂ ∧
      testfsScan s.sb s.ino (removeVisit name) 0 =
        some (.inl (((dirBytes l₁).length : ℤ), slotDirent ⟨name, some n⟩))) ∨
    (SlotTable.find name l = none ∧
      testfsScan s.sb s.ino (removeVisit name) 0 = some (.inr s.ino.din.iSize)) := by
  rcases SlotTable.remove_cases name l with ⟨l₁, n, l₂, rfl, hno, hfind, hrem⟩ | ⟨hnone, -⟩
  · refine Or.inl ⟨l₁, n, l₂, rfl, hfind, hrem, scan_stops h (fun a ha off => ?_) ?_⟩
    · rw [removeVisit_slot h (List.mem_append_left _ ha), if_neg fun hh => hno a ha hh.1 hh.2]
    · rw [removeVisit_slot h (List.mem_append_right _ List.mem_cons_self), if_pos ⟨rfl, rfl⟩]
  · refine Or.inr ⟨hnone, scan_ends h fun a ha off => ?_⟩
    rw [removeVisit_slot h ha, if_neg fun hh => SlotTable.find_eq_none.1 hnone a ha hh.1 hh.2]

/-- The ways through `testfs_remove_dirent`. -/
theorem removeDirent_cases (hf : u.find D = some ino) (hd : DirHolds F l ⟨u.sb, ino⟩)
    (hr : testfsRemoveDirent D name u = some (r, v)) :
    ((name = CString.dot ∨ name = CString.dotdot) ∧ r = -einval ∧ v = u) ∨
    (¬(name = CString.dot ∨ name = CString.dotdot) ∧ SlotTable.find name l = none ∧ r = -enoent ∧
      v = u) ∨
    ∃ l₁ n l₂ ret u₁, ¬(name = CString.dot ∨ name = CString.dotdot) ∧
      l = l₁ ++ ⟨name, some n⟩ :: l₂ ∧ SlotTable.find name l = some n ∧
      SlotTable.remove name l = l₁ ++ ⟨name, none⟩ :: l₂ ∧
      testfsRemoveDirentAllowed n u = some (ret, u₁) ∧
      (ret < 0 ∧ r = ret ∧ v = u₁ ∨ 0 ≤ ret ∧ ∃ ret',
        onInode D (testfsWriteData (removedBuf (slotDirent ⟨name, some n⟩)) (dirBytes l₁).length
          (slotBytes ⟨name, none⟩).length) u₁ = some (ret', v) ∧ r = if 0 ≤ ret' then n else ret') := by
  unfold testfsRemoveDirent at hr
  split at hr
  · cases hr
    exact Or.inl ⟨‹_›, rfl, rfl⟩
  rw [bind_of_run (inode_run hf)] at hr
  obtain ⟨x, u', h₁, hr₁⟩ := bind_eq_some.1 hr
  obtain ⟨hscan, rfl⟩ := reads_eq_some.1 h₁
  clear hr
  refine Or.inr ?_
  rcases removeScan_cases hd name with ⟨l₁, n, l₂, rfl, hfind, hrem, hstop⟩ | ⟨hnone, hend⟩
  · have hstop : testfsScan u'.sb ino (removeVisit name) 0 = _ := hstop
    obtain rfl := Option.some.inj (hscan.symm.trans hstop)
    dsimp only at hr₁
    obtain ⟨ret, u₃, h₃, hr₂⟩ := bind_eq_some.1 hr₁
    refine Or.inr ⟨l₁, n, l₂, ret, u₃, ‹_›, rfl, hfind, hrem, h₃, ?_⟩
    split at hr₂
    · cases hr₂
      exact Or.inl ⟨‹_›, rfl, rfl⟩
    obtain ⟨ret', u₄, h₄, hr₃⟩ := bind_eq_some.1 hr₂
    have hlen : ((direntSize : ℤ) + (slotDirent ⟨name, some n⟩).dNameLen) =
        ((slotBytes ⟨name, none⟩).length : ℕ) := by
      rw [length_slotBytes]
      push_cast
      exact (add_assoc _ _ _).symm
    rw [hlen] at h₄
    refine Or.inr ⟨not_lt.1 ‹_›, ret', ?_⟩
    split at hr₃
    · cases hr₃
      rw [if_pos ‹_›]
      exact ⟨h₄, rfl⟩
    · cases hr₃
      rw [if_neg ‹_›]
      exact ⟨h₄, rfl⟩
  · have hend : testfsScan u'.sb ino (removeVisit name) 0 = _ := hend
    obtain rfl := Option.some.inj (hscan.symm.trans hend)
    cases hr₁
    exact Or.inl ⟨‹_›, hnone, rfl, rfl⟩

/-- **`testfs_remove_dirent`** frees the slot of the live entry, or changes nothing and returns an
error. Its write does not fail. -/
theorem removeDirent_ok (h : DirAt D F l u) (hr : testfsRemoveDirent D name u = some (r, v)) :
    (0 ≤ r ∧ SlotTable.find name l = some r ∧ DirAt D F (SlotTable.remove name l) v) ∨
      (r < 0 ∧ DirAt D F l v) := by
  obtain ⟨ino, hf, hd⟩ := h.dir
  rcases removeDirent_cases hf hd hr with ⟨-, rfl, rfl⟩ | ⟨-, -, rfl, rfl⟩ |
    ⟨l₁, n, l₂, ret, u₁, -, rfl, hfind, hrem, hallowed, hret⟩
  · exact Or.inr ⟨by decide, h⟩
  · exact Or.inr ⟨by decide, h⟩
  have hat := h.removeAllowed hallowed
  rcases hret with ⟨hneg, rfl, rfl⟩ | ⟨-, ret', hw, rfl⟩
  · exact Or.inr ⟨hneg, hat⟩
  · obtain ⟨s, t, hs, hw, -, hnew⟩ := hat.onInode hw
    obtain ⟨h0, hrest⟩ := hs.freeSlot hw
    have hn := (hd.numbers _ (List.mem_append_right _ List.mem_cons_self) n rfl).1
    rw [if_pos h0, hrem]
    exact Or.inl ⟨hn, hfind, hnew _ hrest⟩

/-! ### Sequences of additions and removals -/

inductive DirOp
  | add (name : CString) (inodeNr : ℤ)
  | remove (name : CString)

/-- An operation and what it returned. -/
structure DirEvent where
  op : DirOp
  ret : ℤ

/-- `testfs_add_dirent` or `testfs_remove_dirent` on directory `dir`. -/
def DirOp.run (dir : ℤ) : DirOp → Prog Testfs ℤ
  | .add name inodeNr => onInode dir (testfsAddDirent name inodeNr)
  | .remove name => testfsRemoveDirent dir name

/-- `create` and `mkdir` add a name after they did not find it. -/
def Absent (dir : ℤ) (name : CString) (u : Testfs) : Prop :=
  ∃ ino r, u.find dir = some ino ∧ testfsDirNameToInodeNr u.sb ino name = some r ∧ r < 0

/-- An operation that returns. An addition is of an absent name, its inode number is an `int`, and
it succeeds; the directory stays below 2^31 bytes. -/
structure dirStep (dir : ℤ) (u : Testfs) (e : DirEvent) (v : Testfs) : Prop where
  run : e.op.run dir u = some (e.ret, v)
  absent : ∀ name inodeNr, e.op = .add name inodeNr →
    Absent dir name u ∧ inodeNr < 2 ^ 31 ∧ 0 ≤ e.ret
  small : ∀ ino, v.find dir = some ino → ino.din.iSize < 2 ^ 31

/-- The map from names to numbers after an operation: a removal that returns an error has changed
nothing. -/
def DirEvent.apply (m : CString → Option ℤ) (e : DirEvent) : CString → Option ℤ :=
  match e.op with
  | .add name inodeNr => Function.update m name (some inodeNr)
  | .remove name => if 0 ≤ e.ret then Function.update m name none else m

/-- The latest addition of each name that is not followed by its removal. -/
def latest (es : List DirEvent) : CString → Option ℤ := es.foldl DirEvent.apply fun _ => none

/-- The directory is the map `m`. -/
structure DirRefines (m : CString → Option ℤ) (sb : SuperBlock) (ino : Inode) : Prop where
  /-- Passing all entries leads exactly to the size. -/
  parses : testfsScan sb ino (fun _ _ => (some none : Option (Option Empty))) 0 =
    some (.inr ino.din.iSize)
  /-- So does looking for a place for any name, unless one is found before. -/
  adds : ∀ name, ∃ x, testfsScan sb ino (addVisit name (toInt32 (name.length + 1))) 0 = some x ∧
    ∀ p, x = .inr p → p = ino.din.iSize
  distinct : ∃ f ds l, direntsFrom sb ino.din f 0 = some ds ∧ liveEntries ds = some l ∧
    (l.map Prod.fst).Nodup
  lookup : ∀ name, testfsDirNameToInodeNr sb ino name = some ((m name).getD (-enoent))

variable {m : CString → Option ℤ} {es : List DirEvent} {ev : DirEvent}

/-- The slots of an open directory are those of the map `m`. -/
def DirState (D : ℤ) (F : Set ℤ) (m : CString → Option ℤ) (u : Testfs) : Prop :=
  ∃ l, DirAt D F l u ∧ SlotTable.Distinct l ∧ ∀ name, SlotTable.find name l = m name

theorem latest_concat (es : List DirEvent) (ev : DirEvent) :
    latest (es ++ [ev]) = DirEvent.apply (latest es) ev := List.foldl_concat ..

/-- A name that is found has a number of its own. -/
theorem DirHolds.find_nonneg {k : ℤ} (h : DirHolds F l s) (hf : SlotTable.find name l = some k) :
    0 ≤ k := by
  rcases SlotTable.remove_cases name l with ⟨l₁, n, l₂, rfl, -, hn, -⟩ | ⟨hn, -⟩
  · rw [hf] at hn
    obtain rfl := Option.some.inj hn
    exact (h.numbers _ (List.mem_append_right _ List.mem_cons_self) k rfl).1
  · rw [hf] at hn
    cases hn

theorem DirAt.absent (h : DirAt D F l u) (ha : Absent D name u) :
    SlotTable.find name l = none := by
  obtain ⟨ino, x, hf, hx, hneg⟩ := ha
  obtain ⟨ino', hf', hl⟩ := h.dir
  rw [hf] at hf'
  obtain rfl := Option.some.inj hf'
  have hlook := hl.name_lookup name
  rw [hx, Option.some_inj] at hlook
  cases hfind : SlotTable.find name l with
  | none => rfl
  | some k =>
    have := hl.find_nonneg hfind
    rw [hfind, Option.getD_some] at hlook
    omega

/-- One operation. -/
theorem DirState.step (h : DirState D F m u) (hs : dirStep D u ev v) :
    DirState D F (ev.apply m) v := by
  obtain ⟨l, hat, hd, hm⟩ := h
  obtain ⟨op, ret⟩ := ev
  have hr := hs.run
  cases op with
  | add name n =>
    obtain ⟨habsent, hn, h0⟩ := hs.absent name n rfl
    have hfree := hat.absent habsent
    obtain ⟨s, t, hl, hc, ⟨ino, hf, hdin⟩, hnew⟩ := hat.onInode hr
    have hsmall : t.ino.din.iSize < 2 ^ 31 := hdin ▸ hs.small ino hf
    refine ⟨_, hnew _ (addDirent_ok hl hfree hn hc h0 hsmall), hd.put hfree, fun name' => ?_⟩
    rw [SlotTable.find_put hfree, hm]
    show _ = Function.update m name (some n) name'
    rw [Function.update_apply]
  | remove name =>
    rcases removeDirent_ok hat hr with ⟨h0, -, hv⟩ | ⟨hneg, hv⟩
    · refine ⟨_, hv, hd.remove, fun name' => ?_⟩
      rw [SlotTable.find_remove hd, hm]
      show _ = (if 0 ≤ ret then Function.update m name none else m) name'
      rw [if_pos h0, Function.update_apply]
    · refine ⟨l, hv, hd, fun name' => ?_⟩
      show _ = (if 0 ≤ ret then Function.update m name none else m) name'
      rw [if_neg (not_le.2 hneg), hm]

theorem DirState.run (h : DirState D F (fun _ => none) u) (hr : Run (dirStep D) u es v) :
    DirState D F (latest es) v := by
  induction hr with
  | nil => exact h
  | snoc _ hs ih =>
    rw [latest_concat]
    exact ih.step hs

theorem addVisit_isSome (name : CString) (len off : ℤ) (e : DirSlot) :
    (addVisit name len off (slotDirent e)).isSome := by
  unfold addVisit
  rw [named_slot]
  by_cases h : 0 ≤ (slotDirent e).dInodeNr
  · simp only [if_pos h]
    rfl
  · simp only [if_neg h]
    rfl

theorem DirHolds.refines (h : DirHolds F l s) (hd : SlotTable.Distinct l)
    (hm : ∀ name, SlotTable.find name l = m name) : DirRefines m s.sb s.ino where
  parses := scan_ends h fun _ _ _ => rfl
  adds name := scan_total (show DirHolds F ([] ++ l) s from h) fun e _ off => addVisit_isSome name _ off e
  distinct := ⟨_, _, _, direntsFrom_slots (show DirHolds F ([] ++ l) s from h),
    liveEntries_slots fun e he n hn => (h.numbers e he n hn).1, liveSlots_nodup hd⟩
  lookup name := by rw [h.name_lookup, hm]

/-- A directory without entries. -/
theorem DirState.new (hc : Counted u) (hf : u.find D = some ino) (hfile : FileOK F ⟨u.sb, ino⟩)
    (htype : ino.din.iType = iDir) (hsize : ino.din.iSize = 0) :
    DirState D F (fun _ => none) u := by
  refine ⟨[], ⟨hc, ino, hf, ⟨hfile, htype, hsize, by decide, fun p hp => ?_, fun p hp => ?_, ?_⟩⟩,
    List.Pairwise.nil, fun _ => rfl⟩
  · exact absurd hp (Nat.not_lt_zero p)
  · exact absurd hp (Nat.not_lt_zero p)
  · exact fun e he => absurd he List.not_mem_nil

/-- **A directory refines a finite map.** From an empty directory, after every sequence of
additions of absent names that succeed and of removals, the loops over its entries end exactly at
its size, the live names are different, and each name is found with the number of its latest
addition that was not removed. -/
theorem dir_refines_map (hc : Counted u) (hf : u.find D = some ino) (hfile : FileOK F ⟨u.sb, ino⟩)
    (htype : ino.din.iType = iDir) (hsize : ino.din.iSize = 0) (hr : Run (dirStep D) u es v) :
    ∃ ino', v.find D = some ino' ∧ DirRefines (latest es) v.sb ino' := by
  obtain ⟨l, hat, hd, hm⟩ := (DirState.new hc hf hfile htype hsize).run hr
  obtain ⟨ino', hf', hl⟩ := hat.dir
  exact ⟨ino', hf', hl.refines hd hm⟩

def DirEvent.allowed (dir : ℤ) (e : DirEvent) (u : Testfs) : Bool :=
  match e.op with
  | .add name inodeNr =>
    ((u.find dir).bind fun ino => testfsDirNameToInodeNr u.sb ino name).any (· < 0) &&
      (decide (inodeNr < 2 ^ 31) && decide (0 ≤ e.ret))
  | .remove _ => true

/-- Run an event's operation, when it gives the event's result and is a step. -/
def DirEvent.next (dir : ℤ) (e : DirEvent) (u : Testfs) : Option Testfs :=
  (e.op.run dir u).bind fun p =>
    if e.allowed dir u ∧ p.1 = e.ret ∧ (p.2.find dir).all fun ino => ino.din.iSize < 2 ^ 31 then
      some p.2
    else none

theorem DirEvent.next_step (h : ev.next D u = some v) : dirStep D u ev v := by
  obtain ⟨⟨r, v'⟩, hr, h⟩ := Option.bind_eq_some_iff.1 h
  split at h
  swap
  · cases h
  rename_i hall
  obtain rfl : v' = v := Option.some.inj h
  obtain ⟨hallowed, hret, hsmall⟩ := hall
  refine ⟨by rw [hr, ← hret], fun name n hop => ?_, fun ino hf => ?_⟩
  · unfold DirEvent.allowed at hallowed
    rw [hop] at hallowed
    simp only [Bool.and_eq_true, decide_eq_true_eq] at hallowed
    obtain ⟨hab, hn, h0⟩ := hallowed
    obtain ⟨x, hx, hneg⟩ := (Option.any_eq_true _ _).1 hab
    obtain ⟨ino, hf, hx⟩ := Option.bind_eq_some_iff.1 hx
    exact ⟨⟨ino, x, hf, hx, of_decide_eq_true hneg⟩, hn, h0⟩
  · simp only [hf, Option.all_some, decide_eq_true_eq] at hsmall
    exact hsmall

/-- A new directory, open, on a new file system. -/
def freshDir : Testfs := ⟨openedSuper 6 (newDevice 6), [newInode iDir 1], 1⟩

/-- The slot of `"a"` is used again for `"b"`. -/
def slotRun : List DirEvent := [⟨.add nameA 5, 10⟩, ⟨.remove nameA, 5⟩, ⟨.add nameB 6, 10⟩]

theorem slotRun_ends :
    (runAll (fun u e => DirEvent.next 1 e u) freshDir slotRun).isSome = true := by decide +kernel

theorem dir_refines_map_sample : ∃ v ino, Run (dirStep 1) freshDir slotRun v ∧
    v.find 1 = some ino ∧ testfsDirNameToInodeNr v.sb ino nameA = some (-enoent) ∧
    testfsDirNameToInodeNr v.sb ino nameB = some 6 := by
  obtain ⟨v, hv⟩ := Option.isSome_iff_exists.1 slotRun_ends
  have hr : Run (dirStep 1) freshDir slotRun v :=
    (runAll_run (.nil freshDir) hv).mono fun _ _ _ => DirEvent.next_step
  obtain ⟨hok, hlive⟩ := openedSuper_ok (newDevice_blank 6) (by decide) le_rfl
  have hfile := noBlocks_ok (s := ⟨freshDir.sb, newInode iDir 1⟩) hok
    (newInode_ptr _ iDir 1) rfl
  have hcounted : Counted freshDir := ⟨List.nodup_singleton _, by simp [freshDir, newInode]⟩
  obtain ⟨ino, hf, hd⟩ := dir_refines_map hcounted (D := 1) rfl hfile rfl rfl hr
  exact ⟨v, ino, hr, hf, hd.lookup nameA, hd.lookup nameB⟩

end OSLab.Fs
