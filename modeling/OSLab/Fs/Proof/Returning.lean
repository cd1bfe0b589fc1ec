import OSLab.Lib.Returns
import OSLab.Fs.Proof.Consistency
import OSLab.Fs.Proof.Pwd
import OSLab.Fs.Proof.Ranges
import Mathlib.Data.Int.Interval

/-!
# Commands that return

A command returns when no assertion fails on its way, no memory outside an object is used, no block
outside the device, and no loop goes on for ever. The proofs about what the commands do say what
holds after each step; here the next step returns from there. This module has the commands that make
no new entry.
-/

namespace OSLab.Fs

open Prog

variable {N : ℤ → Option Node} {W : Set ℤ} {v w : Volume} {s t u : Testfs} {n m r : ℤ} {ino : Inode}
  {nd : Node} {name : CString} {args : List CString} {reply : Reply} {entries : CString → Option ℤ}
  {F : Set ℤ} {f g : FileState} {l l₁ l₂ : List DirSlot} {buf : Buf} {p size : ℕ}

/-! ### Inodes -/

namespace Held

theorem getInode_returns (h : Held N W s) (hn : 0 ≤ n ∧ n < maxInodes) :
    Returns (testfsGetInode n) s := by
  cases hf : s.find n with
  | some ino => exact .of_run (getInode_hit hf)
  | none => exact .of_run (getInode_load hf h.hasInodes hn)

theorem get_returns (h : Held N W s) (hN : N n = some nd) : Returns (testfsGetInode n) s :=
  h.getInode_returns (h.stores.range n (by rw [hN]; rfl))

theorem putInode_returns (h : Held N W s) (hf : s.find n = some ino) (hn : n ∉ W) :
    Returns (testfsPutInode n) s := by
  have hclean : ino.dirty = false := Bool.eq_false_iff.2 fun hd => hn ((h.inMemory n ino hf).2.2 hd)
  exact .of_wp (putInode_ok hf hclean h.counted.nodup)

theorem syncInode_returns (h : Held N W s) (hf : s.find n = some ino) :
    Returns (testfsSyncInode n) s :=
  .of_wp (syncInode_ok hf h.stores.super (h.inMemory n ino hf).1 h.counted.nodup)

end Held

theorem onInode_returns {α : Type} {c : Prog FileState α} (hf : s.find n = some ino)
    (h : Returns c ⟨s.sb, ino⟩) : Returns (onInode n c) s := by
  obtain ⟨a, f, hr⟩ := h
  refine .of_run (a := a) (zoom_run ?_ hr)
  rw [hf]
  rfl

/-! ### Looking up -/

namespace Rests

theorem lookupCur_returns (h : Rests v s) (name : CString) : Returns (Fs.lookupCur name) s := by
  obtain ⟨ino, hf⟩ := h.find_cur
  refine .bind_run (getState_run s) (.bind_run (inode_run hf) ?_)
  exact .of_run (reads_run (h.held.lookup hf h.node_cur name))

/-- The current directory stays in memory when an inode is loaded. -/
theorem find_getInode (h : Rests v s) (hr : testfsGetInode n s = some ((), t)) :
    ∃ ino, t.find s.curDir = some ino := by
  obtain ⟨-, -, ⟨ino, hf, -⟩, hother⟩ := (getInode_found s n).of_run hr
  by_cases hn : s.curDir = n
  · exact ⟨ino, hn ▸ hf⟩
  · rw [hother _ hn]
    exact h.find_cur

end Rests

theorem cmdStat_returns (h : Rests v s) : Returns (cmdStat args) s := by
  rcases args with _ | ⟨name, _ | ⟨b, l⟩⟩
  · exact .pure _
  · refine .bind (h.lookupCur_returns name) fun r s₁ hlook => ?_
    obtain ⟨rfl, ⟨hl, rfl⟩ | ⟨nd, hl, hnd, h0⟩⟩ := h.lookupCur hlook
    · exact .pure _
    rw [if_neg (not_lt.2 h0)]
    refine .bind (h.held.get_returns hnd) fun _ s₂ hget => ?_
    obtain ⟨hlook₂, ino, hf, -⟩ := h.held.load hnd hget
    refine .bind_run (inode_run hf) ?_
    refine .bind (hlook₂.held.putInode_returns hf (Set.notMem_empty r)) ?_
    exact fun _ _ _ => .pure _
  · exact .pure _

theorem cmdCd_returns (h : Rests v s) : Returns (cmdCd args) s := by
  rcases args with _ | ⟨name, _ | ⟨b, l⟩⟩
  · exact .pure _
  · refine .bind (h.lookupCur_returns name) fun r s₁ hlook => ?_
    obtain ⟨rfl, ⟨hl, rfl⟩ | ⟨nd, hl, hnd, h0⟩⟩ := h.lookupCur hlook
    · exact .pure _
    rw [if_neg (not_lt.2 h0)]
    refine .bind (h.held.get_returns hnd) fun _ s₂ hget => ?_
    obtain ⟨hlook₂, ino, hf, -⟩ := h.held.load hnd hget
    refine .bind_run (inode_run hf) ?_
    split_ifs
    · refine .bind (hlook₂.held.putInode_returns hf (Set.notMem_empty r)) fun _ _ _ => ?_
      exact .pure _
    · obtain ⟨ino', hf'⟩ := h.find_getInode hget
      rw [← hlook₂.curDir] at hf'
      refine .bind_run (getState_run s₂) ?_
      refine .bind (hlook₂.held.putInode_returns hf' (Set.notMem_empty _)) fun _ _ _ => ?_
      exact .bind (.of_run rfl) fun _ _ _ => .pure _
  · exact .pure _

theorem cmdFsstat_returns : Returns (cmdFsstat args) s := by
  cases args with
  | nil => exact .bind_run (getState_run s) (.pure _)
  | cons => exact .pure _

/-! ### Files -/

/-- What holds after a write that may have stopped for lack of space: other files are as before. -/
structure Attempted (F : Set ℤ) (f g : FileState) : Prop where
  super : SuperOK g.sb
  others : F ⊆ g.sb.live
  frame : FileFrame F f g

/-- **A write returns**, with or without space for it. -/
theorem writeData_attempt (h : FileOK F f) (hmax : p + size ≤ maxFileSize)
    (hsize : size < 2 ^ 31 - blockSize) (hbuf : ∀ i < size, (buf.get i).isSome) :
    wp False (testfsWriteData buf p size) (fun _ g => Attempted F f g) f := by
  have hbs : blockSize = 8192 := rfl
  obtain ⟨hL, -⟩ := start_block hmax
  have hmax' := hmax
  rw [maxFileSize_eq] at hmax'
  have hok : size < 2 ^ 31 - 8192 ∧ (p : ℤ) + size < 2 ^ 63 ∧
      ∀ i : ℕ, (i : ℤ) < size → (buf.get i).isSome :=
    ⟨by omega, by omega, fun i hi => hbuf i (by omega)⟩
  have hwp : wp False (testfsWriteData buf p size) _ f :=
    writeData_ok h (Int.natCast_nonneg p) (Int.natCast_nonneg size) hL
      (Or.inr ⟨by omega, hok.2.1, hok.2.2⟩)
  refine wp_mono hwp ?_
  rintro r g (⟨-, -, s₁, hw, rfl⟩ | ⟨l, s₂, -, -, ⟨s₁, hw, hstop⟩, rfl⟩)
  · have hfile := hw.file.grow p size
    exact ⟨hfile.super, hfile.sub, hw.frame.grow _ _⟩
  · have hno : Attempted F f s₂ := by
      rcases hstop with ⟨-, -, rfl⟩ | ⟨-, -, hfail⟩
      · exact ⟨hw.file.super, hw.file.sub, hw.frame⟩
      · exact ⟨hfail.noSpace.super, hfail.noSpace.live ▸ hw.file.sub,
          hw.frame.trans hfail.noSpace.frame⟩
    split_ifs
    · exact ⟨hno.super, hno.others, hno.frame.frame, hno.frame.iNr, hno.frame.iCount, Or.inl rfl⟩
    · exact hno

theorem ofList_isSome {l : List Byte} {i : ℕ} (hi : i < l.length) : ((Buf.ofList l).get i).isSome :=
  Option.isSome_iff_exists.2 ⟨l[i], List.getElem?_eq_getElem hi⟩

theorem Rests.getFileInode_returns (h : Rests v s) : Returns (testfsGetFileInode name) s := by
  refine .bind (h.lookupCur_returns name) fun r s₁ hlook => ?_
  obtain ⟨rfl, ⟨hl, rfl⟩ | ⟨nd, hl, hnd, h0⟩⟩ := h.lookupCur hlook
  · exact .pure _
  rw [if_neg (not_lt.2 h0)]
  refine .bind (h.held.get_returns hnd) fun _ s₂ hget => ?_
  obtain ⟨hlook₂, ino, hf, -⟩ := h.held.load hnd hget
  refine .bind_run (inode_run hf) ?_
  split_ifs
  · refine .bind (hlook₂.held.putInode_returns hf (Set.notMem_empty r)) fun _ _ _ => .pure _
  · exact .pure _

/-- The sums that a command makes of its arguments do not overflow: the end of what is read, and the
size of an entry with one more block. -/
def Command.Sums (c : Command) : Prop :=
  match c.cmd, c.args with
  | .read, [_, offset, size] => ∀ p k : ℕ, strToOffset offset = some (p : ℤ) →
    strToSize size = some (k : ℤ) → p + k < 2 ^ 63
  | .create, [name] | .mkdir, [name] | .rm, [name] => name.length + 9 < 2 ^ 31 - blockSize
  | _, _ => True

theorem cmdRead_returns (h : Rests v s) (hin : (⟨.read, args⟩ : Command).InRange s)
    (hsum : (⟨.read, args⟩ : Command).Sums) : Returns (cmdRead args) s := by
  rcases args with _ | ⟨name, _ | ⟨offset, _ | ⟨size, _ | ⟨b, l⟩⟩⟩⟩
  · exact .pure _
  · exact .pure _
  · exact .pure _
  · unfold cmdRead
    rcases offset_cases offset with ⟨-, ho | ⟨o, hneg, ho⟩⟩ | ⟨p, ho⟩
    · simp only [ho]
      exact .pure _
    · simp only [ho, if_pos hneg]
      exact .pure _
    simp only [ho, if_neg (not_lt.2 (Int.natCast_nonneg p))]
    cases hs : strToSize size with
    | none => exact .pure _
    | some c =>
      obtain ⟨c, rfl⟩ := Int.eq_ofNat_of_zero_le (strToSize_range hs).1
      refine .bind h.getFileInode_returns fun r s₁ hget => ?_
      obtain ⟨hlook, ⟨-, rfl⟩ | ⟨n, -, -, rfl⟩ | ⟨h0, -, k, bytes, ino, hnd, hf, hfile⟩⟩ :=
        h.getFileInode hget
      · exact .pure _
      · exact .pure _
      rw [if_neg (not_lt.2 h0)]
      obtain ⟨hfit, hpos⟩ := hin p c ho hs
      have hsum := hsum p c ho hs
      have hc : toInt64 (c : ℤ) = c := toInt64_of_lt (by omega) (by omega)
      have hread : Returns (readFile r p c) s₁ := by
        refine .of_wp ((readFile_iff hf hfile.file hfile.shaped.le (Int.natCast_nonneg p)
          (Int.natCast_nonneg c) (strToSize_range hs).2).2 ⟨by rw [hc]; omega, ?_⟩)
        rw [hc]
        by_cases hlt : ino.din.iSize < p + c
        · exact Or.inl hlt
        · exact Or.inr (Or.inr ⟨not_lt.1 hlt, by omega⟩)
      refine .bind hread fun reply s₂ hrd => ?_
      obtain ⟨rfl, -⟩ := readFile_does hf hfile hfit hpos hrd
      refine .bind (hlook.held.putInode_returns hf (Set.notMem_empty r)) fun _ _ _ => .pure _
  · exact .pure _

theorem cmdWrite_returns (h : Rests v s) (hin : (⟨.write, args⟩ : Command).InRange s) :
    Returns (cmdWrite args) s := by
  rcases args with _ | ⟨name, _ | ⟨offset, _ | ⟨data, _ | ⟨b, l⟩⟩⟩⟩
  · exact .pure _
  · exact .pure _
  · exact .pure _
  · unfold cmdWrite
    rcases offset_cases offset with ⟨-, ho | ⟨o, hneg, ho⟩⟩ | ⟨p, ho⟩
    · simp only [ho]
      exact .pure _
    · simp only [ho, if_pos hneg]
      exact .pure _
    simp only [ho, if_neg (not_lt.2 (Int.natCast_nonneg p))]
    refine .bind h.getFileInode_returns fun r s₁ hget => ?_
    obtain ⟨hlook, ⟨-, rfl⟩ | ⟨n, -, -, rfl⟩ | ⟨h0, -, k, bytes, ino, hnd, hf, hfile⟩⟩ :=
      h.getFileInode hget
    · exact .pure _
    · exact .pure _
    rw [if_neg (not_lt.2 h0)]
    obtain ⟨-, hlen, hmax⟩ := hin p ho
    have hbuf : ∀ i < data.length, ((Buf.ofList data.bytes).get i).isSome := fun i hi =>
      ofList_isSome (by rw [CString.bytes, List.length_append]; exact Nat.lt_add_right _ hi)
    have hwrite := writeData_attempt hfile.file hmax hlen hbuf
    refine .bind (onInode_returns hf (.of_wp hwrite)) fun ret s₂ hon => ?_
    obtain ⟨ino', f, hf', hr, rfl⟩ := onInode_cases hon
    obtain rfl := Option.some.inj (hf.symm.trans hf')
    have hdone := hwrite.of_run hr
    exact .of_wp (closeFile_ok (wrote_find hf) hdone.super (hlook.held.inMemory r _ hf).1
      (wrote_counted hlook.held.counted).nodup)
  · exact .pure _

/-! ### Removing -/

theorem OneInode.find (h : OneInode s) : ∃ ino, s.find s.curDir = some ino := by
  obtain ⟨ino, hs, hnr, -⟩ := h
  refine ⟨ino, ?_⟩
  unfold Testfs.find inodeHashFind
  rw [hs, List.find?_cons, decide_eq_true hnr]

/-- **An inode is removed** whose file is in order. -/
theorem removeInode_returns {j : ℕ} (hf : s.find j = some ino) (hfile : FileOK F ⟨s.sb, ino⟩)
    (hshape : Shaped ⟨s.sb, ino⟩) (hj : (j : ℤ) < maxInodes) (hm : j ∈ s.sb.inodeFreemap.members)
    (hc : Counted s) : Returns (testfsRemoveInode j) s := by
  obtain ⟨_, f, hrun, hfreed⟩ := (freeBlocks_once hfile hshape).returns
  have hbelow : wp True testfsFreeBlocks _ ⟨s.sb, ino⟩ :=
    freeBlocks_ok hfile hshape.endBlockNr_eq (Or.inl trivial)
  have hfr := (hbelow.of_run hrun).1.freed
  -- the blocks are freed, and the inode is cleared
  refine .bind (onInode_returns hf (.of_run hrun)) fun _ s₁ hfree => ?_
  obtain ⟨ino', f', hf', hrun', hs₁⟩ := onInode_cases hfree
  obtain rfl := Option.some.inj (hf.symm.trans hf')
  obtain ⟨-, rfl⟩ := Prod.mk.inj (Option.some.inj (hrun.symm.trans hrun'))
  obtain rfl : s₁ = s.wrote j f := hs₁
  refine .bind_run (inode_run (wrote_find hf)) (.bind_run (require_run hfreed.blockCount) ?_)
  refine .bind (onInode_returns (wrote_find hf) (.of_run rfl)) fun _ s₂ hzero => ?_
  obtain ⟨ino₂, g, hf₂, hmod, hs₂⟩ := onInode_cases hzero
  obtain rfl : s₂ = (s.wrote j f).wrote j g := hs₂
  obtain ⟨-, hg⟩ := Prod.mk.inj (Option.some.inj hmod)
  have hgsb : g.sb = f.sb := by
    rw [← hg]
    rfl
  -- its number is given back
  have hmem : j ∈ g.sb.inodeFreemap.members := by
    rw [hgsb, hfr.frame.frame.inodeFreemap]
    exact hm
  have hput : wp False (testfsPutInodeFreemap j) _ g.sb :=
    testfsPutInodeFreemap_ok (hgsb ▸ hfr.super) (Or.inr hmem)
  obtain ⟨_, sb, hputRun, hgave⟩ := hput.returns
  refine .bind_run (a := ()) (zoom_run rfl (by rw [Int.toNat_natCast]; exact hputRun)) ?_
  have hf₃ := wrote_find (f := g) (wrote_find (f := f) hf)
  have hc₃ : Counted ((s.wrote j f).wrote j g) := wrote_counted (wrote_counted hc)
  have hsync := syncInode_ok (s := { (s.wrote j f).wrote j g with sb := sb }) hf₃ hgave.ok
    ⟨Int.natCast_nonneg j, hj⟩ hc₃.nodup
  refine .bind (.of_wp hsync) fun _ s₄ hrun₄ => ?_
  have hsynced := hsync.of_run hrun₄
  exact .of_wp (putInode_ok hsynced.find rfl hsynced.nodup)

namespace Held

theorem removeInode_returns (h : Held N W s) (hN : N n = some nd) (hf : s.find n = some ino) :
    Returns (testfsRemoveInode n) s := by
  have hsome : (N n).isSome := by
    rw [hN]
    rfl
  obtain ⟨h0, h1⟩ := h.stores.range n hsome
  obtain ⟨j, rfl⟩ := Int.eq_ofNat_of_zero_le h0
  have hnode := h.node hf hN
  exact Fs.removeInode_returns hf hnode.file hnode.shaped h1 ((h.stores.alloc j).2 hsome) h.counted

theorem removeAllowed_returns (h : Held N W s) (hN : N n = some nd) (hn : n ∉ W) :
    Returns (testfsRemoveDirentAllowed n) s := by
  refine .bind (h.get_returns hN) fun _ s₁ hget => ?_
  obtain ⟨hlook, dir, hf, -, htype⟩ := h.load hN hget
  refine .bind_run (inode_run hf) (.bind ?_ fun ret s₂ hret => ?_)
  · cases nd with
    | file k bytes =>
      refine .of_run (reads_run (if_pos fun hx => ?_))
      exact Bool.false_ne_true (htype.1 hx)
    | dir entries =>
      obtain ⟨l, hl, -⟩ := hlook.held.slots hf hN
      have hl' : DirHolds (others s₁.sb (s₁.dinode n)) ([] ++ l) ⟨s₁.sb, dir⟩ := hl
      have htotal : ∀ e ∈ l, ∀ off, (allowedVisit off (slotDirent e)).isSome := by
        intro e he off
        rw [allowedVisit_slot hl he]
        rfl
      obtain ⟨x, hx, -⟩ := scan_total hl' htotal
      refine .of_run (a := x.getLeft?.getD 0) (reads_run ?_)
      rw [if_neg (not_not.2 (htype.2 rfl))]
      exact congrArg (Option.map _) hx
  · obtain ⟨-, rfl⟩ := reads_eq_some.1 hret
    exact .bind (hlook.held.putInode_returns hf hn) fun _ _ _ => .pure _

end Held

theorem slotBytes_length (name : CString) (o : Option ℤ) :
    (slotBytes ⟨name, o⟩).length = name.length + 9 := by
  have h8 : direntSize = 8 := rfl
  have hlen := length_slotBytes ⟨name, o⟩
  dsimp only at hlen
  omega

/-- **An entry is removed**, or refused. -/
theorem Rests.removeDirent_returns (h : Rests v s) (hname : name.length + 9 < 2 ^ 31 - blockSize) :
    Returns (testfsRemoveDirent s.curDir name) s := by
  obtain ⟨ino, hf⟩ := h.find_cur
  obtain ⟨l, hl, hdist, hfind⟩ := h.held.slots hf h.node_cur
  unfold testfsRemoveDirent
  split_ifs with hd
  · exact .pure _
  refine .bind_run (inode_run hf) ?_
  rcases removeScan_cases hl name with ⟨l₁, n, l₂, rfl, hn, -, hstop⟩ | ⟨-, hend⟩
  · refine .bind_run (reads_run hstop) ?_
    have hentry : v.lookup name = some n := by
      rw [← hn, hfind, ← h.cur]
      rfl
    obtain ⟨nd, hnd⟩ := Option.isSome_iff_exists.1 (h.ok.target _ _ _ hentry)
    refine .bind (h.held.removeAllowed_returns hnd (Set.notMem_empty n)) fun ret u hallowed => ?_
    split_ifs
    · exact .pure _
    -- the write finds the current directory where it was
    obtain ⟨hlook, -⟩ := h.held.removeAllowed hnd hallowed
    obtain ⟨hc, hsur⟩ := (removeDirentAllowed_balanced n).of_run h.held.counted hallowed
    rw [(oneInode_iff.1 h.one).2, add_zero] at hsur
    obtain ⟨ino', hf'⟩ := (oneInode_iff.2 ⟨hc, hsur⟩).find
    rw [hlook.curDir] at hf'
    have hl' : DirHolds (others s.sb (s.dinode s.curDir)) (l₁ ++ ⟨name, some n⟩ :: l₂)
        ⟨u.sb, ino'⟩ :=
      hl.congr hlook.sb (by rw [din_of_find hf', hlook.dinode, din_of_find hf])
    have hlen : ((direntSize : ℤ) + (slotDirent ⟨name, some n⟩).dNameLen) =
        ((slotBytes ⟨name, none⟩).length : ℕ) := by
      rw [length_slotBytes]
      push_cast
      exact (add_assoc _ _ _).symm
    rw [hlen]
    have hmax : (dirBytes l₁).length + (slotBytes ⟨name, none⟩).length ≤ maxFileSize := by
      have hsmall := hl.small
      rw [dirBytes_append, dirBytes_cons, List.length_append, List.length_append,
        slotBytes_length] at hsmall
      rw [maxFileSize_eq, slotBytes_length]
      omega
    have hwrite := writeData_attempt (p := (dirBytes l₁).length) hl'.file hmax
      (by rw [slotBytes_length]; exact hname) fun i hi => by
        rw [removedBuf_slot name (some n) i, List.getElem?_eq_getElem hi]
        rfl
    refine .bind (onInode_returns hf' (.of_wp hwrite)) fun ret' _ _ => ?_
    split_ifs
    · exact .pure _
    · exact .pure _
  · exact .bind_run (reads_run hend) (.pure _)

theorem cmdRm_returns (h : Rests v s) (hsum : (⟨.rm, args⟩ : Command).Sums) :
    Returns (cmdRm args) s := by
  rcases args with _ | ⟨name, _ | ⟨b, l⟩⟩
  · exact .pure _
  · refine .bind_run (getState_run s) (.bind (h.removeDirent_returns hsum) fun r s₁ hremove => ?_)
    obtain ⟨hc₁, hsur₁⟩ := (removeDirent_balanced _ _).of_run h.held.counted hremove
    rw [(oneInode_iff.1 h.one).2, add_zero] at hsur₁
    rcases h.removeDirent hremove with ⟨-, rfl, -⟩ | ⟨hd, ⟨-, rfl, -⟩ |
      ⟨n, nd, hl, hnd, h0, ⟨-, rfl, -⟩ | ⟨hremovable, hn, hheld, hcur⟩⟩⟩
    · exact .pure _
    · exact .pure _
    · exact .pure _
    subst hn
    rw [if_neg (not_lt.2 h0)]
    have hchild := h.ok.child hl (fun hx => hd (Or.inl hx)) fun hx => hd (Or.inr hx)
    have hne := h.ok.child_ne_cur hchild
    have hnd' : (v.setEntry name none).node r = some nd := (Function.update_of_ne hne ..).trans hnd
    refine .bind (hheld.get_returns hnd') fun _ s₂ hget => ?_
    obtain ⟨hlook₂, ino, hf₂, -⟩ := hheld.load hnd' hget
    obtain ⟨hc₂, hsur₂⟩ := (getInode_adds r).of_run hc₁ hget
    refine .bind (hlook₂.held.removeInode_returns hnd' hf₂) fun _ s₃ hrem => ?_
    obtain ⟨hheld₃, hcur₃, -⟩ := hlook₂.held.removeInode hnd' hrem
    obtain ⟨hc₃, hsur₃⟩ := (removeInode_adds r).of_run hc₂ hrem
    rw [hsur₂, hsur₁, zero_add, add_neg_cancel] at hsur₃
    obtain ⟨ino', hf₃⟩ := (oneInode_iff.2 ⟨hc₃, hsur₃⟩).find
    rw [hcur₃, hlook₂.curDir, hcur] at hf₃
    exact .bind (hheld₃.syncInode_returns hf₃) fun _ _ _ => .pure _
  · exact .pure _

/-! ### Listing -/

theorem Rests.atRest (h : Rests v s) : AtRest s.curDir s where
  nodup := h.held.counted.nodup
  onDevice := h.held.hasInodes
  counted _ ino hf := h.held.counted.pos ino (find_mem hf).1
  clean n ino hf _ := Bool.eq_false_iff.2 fun hd => (h.held.inMemory n ino hf).2.2 hd

theorem cmdPwd_returns (h : Rests v s) : ∃ k, ∀ fuel, k ≤ fuel → Returns (cmdPwd fuel args) s := by
  cases args with
  | nil =>
    have hcur : v.isDir s.curDir = true := h.cur ▸ h.ok.curDir
    obtain ⟨ns, hr, -⟩ := h.dirTree.tree.path s.curDir (h.dir_isSome.2 hcur)
    obtain ⟨r, t, hrun, -⟩ := pwd_run h.dirTree rfl hr (.nil _) h.atRest rfl
      (Option.isSome_iff_exists.2 h.find_cur)
    refine ⟨ns.length + 1, fun fuel hfuel => ?_⟩
    exact .bind_run (getState_run s) (.bind_run (hrun fuel hfuel) (.pure _))
  | cons => exact ⟨0, fun _ _ => .pure _⟩

/-- An inode that somebody holds is in memory. -/
theorem find_of_refs (h : 0 < s.refs n) : ∃ ino, s.find n = some ino := by
  unfold Testfs.refs at h
  cases hf : s.find n with
  | none =>
    rw [hf] at h
    exact absurd h (lt_irrefl 0)
  | some ino => exact ⟨ino, rfl⟩

theorem refs_of_find (hc : Counted s) (hf : s.find n = some ino) : 0 < s.refs n := by
  unfold Testfs.refs
  rw [hf]
  exact hc.pos ino (find_mem hf).1

/-- A program that gives back what it takes leaves an inode with its holders. -/
theorem refs_of_surplus (hsur : t.surplus = s.surplus) (hcur : t.curDir = s.curDir) :
    t.refs = s.refs := by
  unfold Testfs.surplus at hsur
  rw [hcur] at hsur
  exact sub_left_injective hsur

/-- The nodes below a directory. -/
def Volume.below (v : Volume) (n : ℤ) : Set ℤ := {m | (v.node m).isSome ∧ ∃ ns, Run v.Child n ns m}

theorem Held.below_lt (h : Held v.node W s) (hok : v.OK) (hc : v.Child n name m) :
    (v.below m).ncard < (v.below n).ncard := by
  have hfin : (v.below n).Finite := by
    refine (Set.finite_Ico (0 : ℤ) maxInodes).subset fun x hx => ?_
    obtain ⟨h0, h1⟩ := h.stores.range x hx.1
    exact ⟨h0, h1⟩
  obtain ⟨hn, hm⟩ := hok.edge _ _ _ hc
  refine Set.ncard_lt_ncard ⟨fun x hx => ?_, fun hsub => ?_⟩ hfin
  · obtain ⟨hx, ns, hr⟩ := hx
    exact ⟨hx, name :: ns, Run.cons hc hr⟩
  · -- a directory is not below itself
    obtain ⟨-, ns, hr⟩ := hsub ⟨hn, [], .nil n⟩
    have hcycle := hok.tree.no_cycle hn (Run.cons hc hr)
    cases hcycle

/-- With enough fuel `testfs_ls` returns from an offset in a directory on, wherever files have only
been looked at. -/
def LsReturns (v : Volume) (s : Testfs) (recursive : Bool) (n offset : ℤ) : Prop :=
  ∃ k, ∀ fuel, k ≤ fuel → ∀ t, Looked v.node ∅ s t → 0 < t.refs n →
    Returns (testfsLs fuel n recursive offset) t

/-- Listing leaves every inode with its holders. -/
theorem testfsLs_looked {fuel : ℕ} {recursive : Bool} {out : List Byte} (hok : v.OK)
    (h : Held v.node ∅ s) (hd : v.isDir n = true)
    (hr : testfsLs fuel n recursive 0 s = some (out, t)) :
    Looked v.node ∅ s t ∧ t.refs = s.refs := by
  obtain ⟨l, hl⟩ := h.dirSlots hd
  have hl' : Slots v s n ([] ++ l) := hl
  have hlook := (testfsLs_lists hok h hl' rfl hr).1
  obtain ⟨-, hsur⟩ := (ls_balanced _ _ _ _).of_run h.counted hr
  rw [add_zero] at hsur
  exact ⟨hlook, refs_of_surplus hsur hlook.curDir⟩

section Slots

variable {recursive : Bool} {e : DirSlot}

theorem Slots.next (hl : Slots v s n (l₁ ++ e :: l₂)) (ht : Looked v.node ∅ s t)
    (hf : t.find n = some ino) : testfsNextDirent t.sb ino (dirBytes l₁).length =
      some (some (slotDirent e, ((dirBytes (l₁ ++ [e])).length : ℤ))) :=
  (nextDirent_fileOf hf _).trans (nextDirent_slot (hl.looked ht).holds)

theorem Slots.ls_end (hl : Slots v s n l) : LsReturns v s recursive n (dirBytes l).length := by
  refine ⟨1, fun fuel hfuel t ht hrefs => ?_⟩
  obtain ⟨fuel, rfl⟩ : ∃ f, fuel = f + 1 := ⟨fuel - 1, by omega⟩
  obtain ⟨ino, hf⟩ := find_of_refs hrefs
  have hnext : testfsNextDirent t.sb ino (dirBytes l).length = some none :=
    (nextDirent_fileOf hf _).trans (nextDirent_end (hl.looked ht).holds)
  exact .bind_run (inode_run hf) (.bind_run (reads_run hnext) (.pure _))

theorem Slots.ls_free (hl : Slots v s n (l₁ ++ e :: l₂)) (he : e.val = none)
    (hrest : LsReturns v s recursive n (dirBytes (l₁ ++ [e])).length) :
    LsReturns v s recursive n (dirBytes l₁).length := by
  obtain ⟨k, hk⟩ := hrest
  refine ⟨k + 1, fun fuel hfuel t ht hrefs => ?_⟩
  obtain ⟨fuel, rfl⟩ : ∃ f, fuel = f + 1 := ⟨fuel - 1, by omega⟩
  obtain ⟨ino, hf⟩ := find_of_refs hrefs
  refine .bind_run (inode_run hf) (.bind_run (reads_run (hl.next ht hf)) ?_)
  dsimp only
  rw [if_pos (slotDirent_free he)]
  exact hk fuel (by omega) t ht hrefs

/-- The entry is taken into memory, what is below it is listed if it is a directory, it is given
back, and the loop goes on. -/
theorem Slots.ls_entry (hok : v.OK) (hl : Slots v s n (l₁ ++ e :: l₂)) (he : e.val = some m)
    (hdown : v.isDir m = true → e.key ≠ CString.dot ∧ e.key ≠ CString.dotdot →
      LsReturns v s recursive m 0)
    (hrest : LsReturns v s recursive n (dirBytes (l₁ ++ [e])).length) :
    LsReturns v s recursive n (dirBytes l₁).length := by
  have hmem : e ∈ l₁ ++ e :: l₂ := List.mem_append_right _ List.mem_cons_self
  have hnr : (slotDirent e).dInodeNr = m := slotNr_live he
  have h0 := (hl.holds.numbers e hmem m he).1
  obtain ⟨nd, hnd⟩ := Option.isSome_iff_exists.1 (hok.target _ _ _ (hl.entry hmem he))
  -- fuel for what is below, when it is listed
  obtain ⟨k₁, hk₁⟩ : ∃ k₁, v.isDir m = true → e.key ≠ CString.dot ∧ e.key ≠ CString.dotdot →
      ∀ fuel, k₁ ≤ fuel → ∀ t, Looked v.node ∅ s t → 0 < t.refs m →
        Returns (testfsLs fuel m recursive 0) t := by
    by_cases hlist : v.isDir m = true ∧ e.key ≠ CString.dot ∧ e.key ≠ CString.dotdot
    · obtain ⟨k₁, hk₁⟩ := hdown hlist.1 hlist.2
      exact ⟨k₁, fun _ _ => hk₁⟩
    · exact ⟨0, fun h1 h2 => absurd ⟨h1, h2⟩ hlist⟩
  obtain ⟨k₂, hk₂⟩ := hrest
  refine ⟨max k₁ k₂ + 1, fun fuel hfuel t ht hrefs => ?_⟩
  obtain ⟨fuel, rfl⟩ : ∃ f, fuel = f + 1 := ⟨fuel - 1, by omega⟩
  have hf₁ : k₁ ≤ fuel := by omega
  have hf₂ : k₂ ≤ fuel := by omega
  obtain ⟨ino, hf⟩ := find_of_refs hrefs
  refine .bind_run (inode_run hf) (.bind_run (reads_run (hl.next ht hf)) ?_)
  dsimp only
  rw [hnr, if_neg (not_lt.2 h0)]
  refine .bind (ht.held.get_returns hnd) fun _ t₁ hget => ?_
  obtain ⟨hlook₁, cin, hcin, -, htype⟩ := ht.held.load hnd hget
  obtain ⟨hc₁, hsur₁⟩ := (getInode_adds m).of_run ht.held.counted hget
  have hrefs₁ : 0 < t₁.refs m := refs_of_find hc₁ hcin
  refine .bind_run (inode_run hcin) (.bind ?_ fun down t₂ hproper => ?_)
  · rw [isProper_slot]
    split_ifs
    · exact .of_run rfl
    · exact .of_run rfl
  obtain ⟨hdown, rfl⟩ := reads_eq_some.1 hproper
  have hcond := slot_descends hnd htype hdown
  refine .bind ?_ fun below t₃ hrun => ?_
  · cases down with
    | true =>
      obtain ⟨-, h1, h2⟩ := hcond.1 rfl
      exact hk₁ h1 h2 fuel hf₁ _ (ht.trans hlook₁) hrefs₁
    | false => exact .pure _
  obtain ⟨hlook₃, hrefs₃⟩ : Looked v.node ∅ t₂ t₃ ∧ t₃.refs = t₂.refs := by
    cases down with
    | true => exact testfsLs_looked hok hlook₁.held (hcond.1 rfl).2.1 hrun
    | false =>
      obtain ⟨-, rfl⟩ := pure_eq_some.1 hrun
      exact ⟨hlook₁.held.looked, rfl⟩
  rw [← hrefs₃] at hrefs₁
  obtain ⟨cin', hcin'⟩ := find_of_refs hrefs₁
  refine .bind (hlook₃.held.putInode_returns hcin' (Set.notMem_empty m)) fun _ t₄ hput => ?_
  have hlook := (hlook₁.trans hlook₃).trans (hlook₃.held.putInode hput)
  obtain ⟨-, hsur₄⟩ := (putInode_adds m).of_run hlook₃.held.counted hput
  have hsur₃ : t₃.surplus = t₂.surplus := by
    unfold Testfs.surplus
    rw [hrefs₃, hlook₃.curDir]
  rw [hsur₃, hsur₁, add_neg_cancel_right] at hsur₄
  rw [← refs_of_surplus hsur₄ hlook.curDir] at hrefs
  exact .bind (hk₂ fuel hf₂ t₄ (ht.trans hlook) hrefs) fun _ _ _ => .pure _

end Slots

/-- **The loop of `testfs_ls` returns**, with fuel for the slots and for what is below them. -/
theorem testfsLs_returns (recursive : Bool) (hok : v.OK) (h : Held v.node ∅ s)
    (hd : v.isDir n = true) : LsReturns v s recursive n 0 := by
  induction hk : (v.below n).ncard using Nat.strong_induction_on generalizing n with
  | _ k ih =>
    obtain ⟨l, hl⟩ := h.dirSlots hd
    suffices hrest : ∀ l₂ l₁, l = l₁ ++ l₂ → LsReturns v s recursive n (dirBytes l₁).length from
      hrest l [] rfl
    intro l₂
    induction l₂ with
    | nil =>
      intro l₁ hl₁
      rw [List.append_nil] at hl₁
      subst hl₁
      exact hl.ls_end
    | cons e l₂ ihl =>
      intro l₁ hl₁
      have hrest := ihl (l₁ ++ [e]) (by rw [hl₁, List.append_assoc]; rfl)
      subst hl₁
      cases he : e.val with
      | none => exact hl.ls_free he hrest
      | some m =>
        refine hl.ls_entry hok he (fun hdir hkey => ?_) hrest
        have hmem : e ∈ l₁ ++ e :: l₂ := List.mem_append_right _ List.mem_cons_self
        exact ih _ (hk ▸ h.below_lt hok ⟨hl.entry hmem he, hkey⟩) hdir rfl

theorem cmdLs_returns (h : Rests v s) {recursive : Bool} :
    ∃ k, ∀ fuel, k ≤ fuel → Returns (cmdLsInternal fuel args recursive) s := by
  rcases args with _ | ⟨name, _ | ⟨b, l⟩⟩
  · exact ⟨0, fun _ _ => .pure _⟩
  · obtain ⟨r, s₁, hlook⟩ := h.lookupCur_returns name
    obtain ⟨rfl, ⟨hl, rfl⟩ | ⟨nd, hl, hnd, h0⟩⟩ := h.lookupCur hlook
    · exact ⟨0, fun _ _ => .bind_run hlook (.pure _)⟩
    obtain ⟨_, s₂, hget⟩ := h.held.get_returns hnd
    obtain ⟨hlook₂, ino, hf, -, htype⟩ := h.held.load hnd hget
    obtain ⟨hc₂, -⟩ := (getInode_adds r).of_run h.held.counted hget
    have hrefs := refs_of_find hc₂ hf
    by_cases hd : v.isDir r = true
    · obtain ⟨k, hk⟩ := testfsLs_returns recursive h.ok hlook₂.held hd
      refine ⟨k, fun fuel hfuel => .bind_run hlook ?_⟩
      rw [if_neg (not_lt.2 h0)]
      refine .bind_run hget (.bind_run (inode_run hf) ?_)
      rw [if_pos (htype.2 (by rw [← Volume.isDir_of_node hnd]; exact hd))]
      refine .bind (hk fuel hfuel s₂ hlook₂.held.looked hrefs) fun out s₃ hls => ?_
      obtain ⟨hlook₃, hrefs₃⟩ := testfsLs_looked h.ok hlook₂.held hd hls
      rw [← hrefs₃] at hrefs
      obtain ⟨ino', hf'⟩ := find_of_refs hrefs
      exact .bind (hlook₃.held.putInode_returns hf' (Set.notMem_empty r)) fun _ _ _ => .pure _
    · refine ⟨0, fun fuel _ => .bind_run hlook ?_⟩
      rw [if_neg (not_lt.2 h0)]
      refine .bind_run hget (.bind_run (inode_run hf) ?_)
      rw [if_neg fun hx => hd (by rw [Volume.isDir_of_node hnd]; exact htype.1 hx)]
      exact .pure _
  · exact ⟨0, fun _ _ => .pure _⟩

end OSLab.Fs
