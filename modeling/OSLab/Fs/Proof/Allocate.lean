import OSLab.Fs.Proof.Tree

/-!
# Allocating a block of a file

`allocateBlock_ok` says what `testfs_allocate_block` does for each logical block. Either
the block is mapped already; or there is space for it and for the tables on the way, and
the block tree is extended (`Extended`); or the space does not suffice (`NoSpace`), and
the tree is as before, except that in the double indirect part with some space left a
number of a block that was freed again stays behind.
-/

namespace OSLab.Fs

open Prog

variable {F W : Set ℤ} {own : Slot → ℤ} {s s' s₁ s₂ : FileState} {p r : ℤ} {l n k : ℕ}
  {ok : Prop} {sl : Slot} {blk : Block}

/-- The data blocks that belong to nobody else. -/
def mine (F : Set ℤ) : Set ℤ := {b | dataStart ≤ b ∧ b ∉ F}

/-- What an operation on a file leaves alone. A changed inode is marked dirty. -/
structure FileFrame (F : Set ℤ) (s s' : FileState) : Prop where
  frame : Frame (mine F) s.sb s'.sb
  iNr : s'.ino.iNr = s.ino.iNr
  iCount : s'.ino.iCount = s.ino.iCount
  dirty : s'.ino.dirty = true ∨ s'.ino = s.ino

theorem FileFrame.refl (F : Set ℤ) (s : FileState) : FileFrame F s s :=
  ⟨Frame.refl _ _, rfl, rfl, Or.inr rfl⟩

theorem FileFrame.trans (h₁ : FileFrame F s s₁) (h₂ : FileFrame F s₁ s₂) : FileFrame F s s₂ where
  frame := by simpa using h₁.frame.trans h₂.frame
  iNr := h₂.iNr.trans h₁.iNr
  iCount := h₂.iCount.trans h₁.iCount
  dirty := by
    rcases h₂.dirty with h | h
    · exact Or.inl h
    · rw [h]; exact h₁.dirty

/-! ### Taking and giving back one block -/

/-- The inode after a block was added to it or taken from it. -/
def Inode.withCount (ino : Inode) (n : ℤ) : Inode :=
  { ino with din := { ino.din with blockCount := n }, dirty := true }

/-- Block `p` was allocated for the inode. -/
structure TookFor (s : FileState) (p : ℤ) (s' : FileState) : Prop where
  took : Took s.sb p s'.sb
  ino : s'.ino = s.ino.withCount (s.ino.din.blockCount + 1)

/-- Block `p` of the inode was freed. -/
structure GaveFor (s : FileState) (p : ℤ) (s' : FileState) : Prop where
  gave : Gave s.sb p s'.sb
  ino : s'.ino = s.ino.withCount (s.ino.din.blockCount - 1)

theorem TookFor.pos (h : TookFor s p s') : 0 < p := by
  have h1 := h.took.lower
  have h2 : dataStart = 146 := rfl
  omega

theorem wp_onSuper {α : Type} {c : Prog SuperBlock α} {Q : α → FileState → Prop} :
    wp ok (onSuper c) Q s ↔ wp ok c (fun a sb => Q a { s with sb := sb }) s.sb := wp_zoom_iff rfl

theorem allocForInode_ok (h : SuperOK s.sb) :
    wp False testfsAllocBlockForInode (fun r s' =>
      (s.sb.left = 0 ∧ r = -enospc ∧ s' = s) ∨ (0 < s.sb.left ∧ TookFor s r s')) s := by
  simp only [testfsAllocBlockForInode, wp_bind, wp_onSuper]
  refine wp_mono (testfsAllocBlock_ok h) ?_
  rintro r sb' (⟨h0, rfl, rfl⟩ | ⟨h0, ht⟩)
  · simp only [wp_ite, wp_pure]
    refine ⟨fun hn => absurd hn (by decide), fun _ => Or.inl ⟨h0, trivial, trivial⟩⟩
  · have h1 := ht.lower
    simp only [wp_ite, wp_pure, wp_bind, wp_modify]
    exact ⟨fun _ => Or.inr ⟨h0, ht, rfl⟩, fun hn => absurd (show 0 ≤ r by omega) hn⟩

theorem freeFromInode_ok (h : SuperOK s.sb) (hp : ok ∨ p ∈ s.sb.live) (h0 : p ≠ 0) :
    wp ok (testfsFreeBlockFromInode p) (fun _ s' => GaveFor s p s') s := by
  simp only [testfsFreeBlockFromInode, wp_ite, wp_bind, wp_onSuper]
  refine ⟨fun hz => absurd hz h0, fun _ => ?_⟩
  refine wp_mono (testfsFreeBlock_ok h hp) ?_
  intro _ sb' hg
  exact (wp_modify _).2 ⟨hg, rfl⟩

theorem freeFromInode_zero {Q : Unit → FileState → Prop} :
    wp ok (testfsFreeBlockFromInode 0) Q s ↔ Q () s := by
  simp [testfsFreeBlockFromInode]

theorem TookFor.fileFrame (h : TookFor s p s') : FileFrame F s s' where
  frame := h.took.frame.mono (Set.empty_subset _)
  iNr := by rw [h.ino]; rfl
  iCount := by rw [h.ino]; rfl
  dirty := Or.inl (by rw [h.ino]; rfl)

theorem GaveFor.fileFrame (h : GaveFor s p s') (h1 : dataStart ≤ p) (h2 : p ∉ F) :
    FileFrame F s s' where
  frame := h.gave.frame.mono (Set.singleton_subset_iff.2 ⟨h1, h2⟩)
  iNr := by rw [h.ino]; rfl
  iCount := by rw [h.ino]; rfl
  dirty := Or.inl (by rw [h.ino]; rfl)

/-- A block nobody holds goes to an empty place. -/
theorem Holds.took (h : Holds F own s) (ht : TookFor s p s') (hs : own sl = 0) :
    Holds F (Function.update own sl p) s' := by
  have hpF : p ∉ F := fun hp => ht.took.fresh (h.sub hp)
  have hset : s'.sb.live \ F = insert p (s.sb.live \ F) := by
    rw [ht.took.live, Set.insert_sdiff_of_notMem _ hpF]
  have hnot : p ∉ s.sb.live \ F := fun hp => ht.took.fresh hp.1
  refine ⟨ht.took.ok, ?_, ?_, ?_⟩
  · rw [ht.took.live]; exact h.sub.trans (Set.subset_insert _ _)
  · rw [hset]; exact h.owns.insert hs hnot ht.pos.ne'
  · rw [hset, Set.ncard_insert_of_notMem hnot h.finite, ht.ino]
    show s.ino.din.blockCount + 1 = _
    rw [h.count]; push_cast; rfl

/-- A place gives its block back. -/
theorem Holds.gave (h : Holds F own s) (hg : GaveFor s p s') (hs : own sl = p) (h0 : p ≠ 0) :
    Holds F (Function.update own sl 0) s' := by
  have hmem : p ∈ s.sb.live \ F := hs ▸ h.owns.mem (hs ▸ h0)
  have hset : s'.sb.live \ F = (s.sb.live \ F) \ {p} := by
    rw [hg.gave.live]
    ext x
    simp only [Set.mem_sdiff, Set.mem_singleton_iff]
    tauto
  refine ⟨hg.gave.ok, ?_, ?_, ?_⟩
  · rw [hg.gave.live]
    intro x hx
    exact ⟨h.sub hx, fun hxp => hmem.2 (hxp ▸ hx)⟩
  · rw [hset, ← hs]; exact h.owns.erase sl
  · rw [hset, hg.ino]
    show s.ino.din.blockCount - 1 = _
    have := Set.ncard_sdiff_singleton_add_one hmem h.finite
    rw [h.count]
    omega

/-- The invariant looks at the super block, its freemap and the count only. -/
theorem Holds.congr (h : Holds F own s) (hok : SuperOK s'.sb) (hl : s'.sb.live = s.sb.live)
    (hc : s'.ino.din.blockCount = s.ino.din.blockCount) : Holds F own s' :=
  ⟨hok, hl ▸ h.sub, hl ▸ h.owns, by rw [hc, hl]; exact h.count⟩

theorem SuperOK.put {sb : SuperBlock} (h : SuperOK sb) (hp : dataStart ≤ p) :
    SuperOK (sb.put p blk) := by
  have hd : dataStart = 146 := rfl
  refine { h with len := h.len.trans (by simp), diskSuper := ?_, diskInodes := ?_,
                  diskBlocks := ?_ }
  · simp only [SuperBlock.put_fields, Device.put_data]
    rw [Function.update_of_ne (by omega)]; exact h.diskSuper
  · simp only [SuperBlock.put_fields, Device.put_data]
    rw [Function.update_of_ne (by omega)]; exact h.diskInodes
  · intro k hk
    simp only [SuperBlock.put_fields, Device.put_data]
    rw [Function.update_of_ne (by omega)]; exact h.diskBlocks k hk

/-- The state after a block was written. -/
def FileState.put (s : FileState) (p : ℤ) (blk : Block) : FileState :=
  { s with sb := s.sb.put p blk }

@[simp] theorem FileState.put_fields (s : FileState) (p : ℤ) (blk : Block) :
    (s.put p blk).ino = s.ino ∧ (s.put p blk).sb.live = s.sb.live ∧
    (s.put p blk).sb.left = s.sb.left ∧
    (s.put p blk).sb.dev.data = Function.update s.sb.dev.data p blk ∧
    (s.put p blk).sb.dev.len = max s.sb.dev.len (p + 1) := ⟨rfl, rfl, rfl, rfl, rfl⟩

theorem wp_writeBlockFile {Q : Unit → FileState → Prop} (h : 0 ≤ p) :
    wp ok (onSuper (writeBlock blk p)) Q s ↔ Q () (s.put p blk) := by
  rw [wp_onSuper, wp_writeBlock h]
  rfl

theorem wp_readBlockFile {Q : Block → FileState → Prop} (h : FileOK F s)
    (hp : p ∈ s.sb.live \ F) :
    wp ok (onSuper (readBlock p)) Q s ↔ Q (s.sb.dev.data p) s := by
  rw [wp_onSuper]
  unfold readBlock reads wp
  simp only [readBlock_dev h hp]
  rfl

theorem Holds.put (h : Holds F own s) (hp : dataStart ≤ p) : Holds F own (s.put p blk) :=
  h.congr (SuperOK.put h.super hp) rfl rfl

theorem FileFrame.put (h : FileFrame F s s') (h1 : dataStart ≤ p) (h2 : p ∉ F) :
    FileFrame F s (s'.put p blk) where
  frame := by
    have hf : Frame (mine F) s'.sb (s'.put p blk).sb := by
      refine ⟨rfl, rfl, rfl, by simp, fun b _ hb => ?_⟩
      rw [(FileState.put_fields ..).2.2.2.1, Function.update_of_ne]
      rintro rfl
      exact hb ⟨h1, h2⟩
    simpa using h.frame.trans hf
  iNr := h.iNr
  iCount := h.iCount
  dirty := h.dirty

/-! ### What allocating does to the tree -/

/-- Block `l` was not mapped, and now it is block `r`; the empty slots on its path are
filled, everything else in the tree is as before. Block `r` itself need not be written. -/
structure Extended (F : Set ℤ) (s : FileState) (l : ℕ) (r : ℤ) (s' : FileState) : Prop where
  holds : Holds F s'.ptr s'
  target : s'.ptr (slotOf l) = r
  kept : ∀ sl, s.ptr sl ≠ 0 ∨ sl ∉ path l → s'.ptr sl = s.ptr sl
  filled : ∀ sl ∈ path l, s'.ptr sl ≠ 0
  left : s'.sb.left + s.need l = s.sb.left
  inDev : ∀ b ∈ s'.sb.live \ F, b ≠ r → b < s'.sb.dev.len
  data : ∀ sl : Slot, ¬sl.IsTable → s.ptr sl ≠ 0 →
    s'.sb.dev.data (s.ptr sl) = s.sb.dev.data (s.ptr sl)
  fresh : r ∉ s.sb.live
  grows : s.sb.live ⊆ s'.sb.live
  iType : s'.ino.din.iType = s.ino.din.iType
  iSize : s'.ino.din.iSize = s.ino.din.iSize
  dirty : s'.ino.dirty = true
  frame : FileFrame F s s'

/-- There was not enough space: the blocks taken on the way were given back. -/
structure NoSpace (F : Set ℤ) (s s' : FileState) : Prop where
  super : SuperOK s'.sb
  live : s'.sb.live = s.sb.live
  left : s'.sb.left = s.sb.left
  blockCount : s'.ino.din.blockCount = s.ino.din.blockCount
  mapped : ∀ l < maxFileBlocks, s.Mapped l → s'.ptr (slotOf l) = s.ptr (slotOf l)
  data : ∀ sl : Slot, ¬sl.IsTable → s.ptr sl ≠ 0 →
    s'.sb.dev.data (s.ptr sl) = s.sb.dev.data (s.ptr sl)
  iType : s'.ino.din.iType = s.ino.din.iType
  iSize : s'.ino.din.iSize = s.ino.din.iSize
  frame : FileFrame F s s'

theorem NoSpace.refl (h : SuperOK s.sb) : NoSpace F s s :=
  ⟨h, rfl, rfl, rfl, fun _ _ _ => rfl, fun _ _ _ => rfl, rfl, rfl, FileFrame.refl _ _⟩

theorem FileFrame.setDin (h : FileFrame F s s') (hd : s'.ino.dirty = true) (f : DInode → DInode) :
    FileFrame F s (s'.setDin f) := ⟨h.frame, h.iNr, h.iCount, Or.inl hd⟩

theorem TookFor.dirty (h : TookFor s p s') : s'.ino.dirty = true := by rw [h.ino]; rfl

theorem GaveFor.dirty (h : GaveFor s p s') : s'.ino.dirty = true := by rw [h.ino]; rfl

/-- The slots that do not lie in a table are not those of the count. -/
theorem ptr_withCount (ino : Inode) (n : ℤ) (data : ℤ → Block) :
    ptr (ino.withCount n).din data = ptr ino.din data := by
  funext sl; cases sl <;> rfl

theorem TookFor.data (h : TookFor s p s') {b : ℤ} (hb : 18 ≤ b) :
    s'.sb.dev.data b = s.sb.dev.data b :=
  h.took.frame.data b (Or.inr hb) (Set.notMem_empty b)

theorem GaveFor.data (h : GaveFor s p s') {b : ℤ} (hb : 18 ≤ b) (hp : b ≠ p) :
    s'.sb.dev.data b = s.sb.dev.data b :=
  h.gave.frame.data b (Or.inr hb) (by simpa using hp)

theorem Holds.ge (h : Holds F own s) (h0 : own sl ≠ 0) : dataStart ≤ own sl :=
  (h.bounds (h.owns.mem h0)).1

theorem Holds.notF (h : Holds F own s) (h0 : own sl ≠ 0) : own sl ∉ F := (h.owns.mem h0).2

/-- A block that is not live is in no slot. -/
theorem Holds.ne_fresh (h : Holds F own s) (hp : p ∉ s.sb.live) (h0 : p ≠ 0) (sl : Slot) :
    own sl ≠ p := fun e => hp (e ▸ (h.owns.mem (e ▸ h0)).1)

theorem dataStart_eq : dataStart = 146 := rfl

theorem TookFor.range (h : TookFor s p s') : -2 ^ 31 ≤ p ∧ p < 2 ^ 31 := by
  have h1 := h.took.lower
  have h2 := h.took.upper
  have h3 : blockBits = 1048576 := rfl
  rw [dataStart_eq] at h1 h2
  omega

/-- `ptr` reads the tables only, and they are data blocks. -/
theorem ptr_agree {d : DInode} {data data' : ℤ → Block} (hge : ∀ sl, ptr d data sl = 0 ∨
    (dataStart : ℤ) ≤ ptr d data sl) (h : ∀ b, 18 ≤ b → data' b = data b) :
    ptr d data' = ptr d data :=
  ptr_congr fun sl _ h0 => h _ (by
    have := (hge sl).resolve_left h0
    rw [dataStart_eq] at this
    omega)

theorem Holds.zero_or_ge (h : Holds F own s) (sl : Slot) : own sl = 0 ∨ (dataStart : ℤ) ≤ own sl := by
  rcases h.zero_or sl with h0 | ⟨-, h1, -⟩
  · exact Or.inl h0
  · exact Or.inr h1

/-- The data blocks after steps that leave them alone. -/
theorem Holds.keeps (h : Holds F s.ptr s) (hd : ∀ b ∈ s.sb.live, 18 ≤ b → (∀ sl : Slot, sl.IsTable →
    s.ptr sl ≠ b) → s'.sb.dev.data b = s.sb.dev.data b) (hsl : ¬sl.IsTable) (h0 : s.ptr sl ≠ 0) :
    s'.sb.dev.data (s.ptr sl) = s.sb.dev.data (s.ptr sl) := by
  have hge := h.ge h0
  rw [dataStart_eq] at hge
  refine hd _ (h.owns.mem h0).1 (by omega) fun sl' ht e => ?_
  have := h.owns.unique e (by rw [e]; exact h0)
  exact hsl (this ▸ ht)

/-! ### Steps of an allocation

`Grown F P s own s'`: from `s` blocks were taken for slots and tables were written. `own`
is what the slots hold, and the blocks of `P` need not be written yet. -/

structure Grown (F P : Set ℤ) (s : FileState) (own : Slot → ℤ) (s' : FileState) : Prop where
  holds : Holds F own s'
  grows : s.sb.live ⊆ s'.sb.live
  pending : ∀ b ∈ s'.sb.live \ F, b ∉ P → b < s'.sb.dev.len
  data : ∀ b ∈ s.sb.live, (∀ sl : Slot, sl.IsTable → s.ptr sl ≠ b) →
    s'.sb.dev.data b = s.sb.dev.data b
  iType : s'.ino.din.iType = s.ino.din.iType
  iSize : s'.ino.din.iSize = s.ino.din.iSize
  frame : FileFrame F s s'

variable {P : Set ℤ}

theorem Grown.refl (h : FileOK F s) : Grown F ∅ s s.ptr s :=
  ⟨h.toHolds, subset_rfl, fun b hb _ => h.inDev b hb, fun _ _ _ => rfl, rfl, rfl, FileFrame.refl _ _⟩

theorem live_ge {sb : SuperBlock} (h : SuperOK sb) {b : ℤ} (hb : b ∈ sb.live) : 18 ≤ b := by
  have := (live_bounds h.toLayout hb).1
  rw [dataStart_eq] at this
  omega

/-- A block is taken for an empty slot. -/
theorem Grown.took (h : Grown F P s own s₁) (hs : SuperOK s.sb) (ht : TookFor s₁ p s₂)
    (hsl : own sl = 0) : Grown F (insert p P) s (Function.update own sl p) s₂ where
  holds := h.holds.took ht hsl
  grows := by rw [ht.took.live]; exact h.grows.trans (Set.subset_insert _ _)
  pending b hb hn := by
    rw [Set.mem_insert_iff, not_or] at hn
    have h1 : b ∈ s₂.sb.live := hb.1
    rw [ht.took.live, Set.mem_insert_iff] at h1
    exact (h.pending b ⟨h1.resolve_left hn.1, hb.2⟩ hn.2).trans_le ht.took.frame.len
  data b hb hn := by rw [ht.data (live_ge hs hb), h.data b hb hn]
  iType := by rw [ht.ino]; exact h.iType
  iSize := by rw [ht.ino]; exact h.iSize
  frame := h.frame.trans ht.fileFrame

/-- A table is written. -/
theorem Grown.put (h : Grown F P s own s₁) (sl : Slot) (hsl : own sl = p) (h0 : p ≠ 0)
    (hp : p ∈ s.sb.live → ∃ sl : Slot, sl.IsTable ∧ s.ptr sl = p) :
    Grown F (P \ {p}) s own (s₁.put p blk) where
  holds := h.holds.put (hsl ▸ h.holds.ge (hsl ▸ h0))
  grows := h.grows
  pending b hb hn := by
    rw [(FileState.put_fields ..).2.2.2.2]
    by_cases hbp : b = p
    · omega
    · have := h.pending b hb fun hb' => hn ⟨hb', hbp⟩
      omega
  data b hb hn := by
    rw [(FileState.put_fields ..).2.2.2.1, Function.update_of_ne, h.data b hb hn]
    rintro rfl
    obtain ⟨sl', ht, he⟩ := hp hb
    exact hn sl' ht he
  iType := h.iType
  iSize := h.iSize
  frame := h.frame.put (hsl ▸ h.holds.ge (hsl ▸ h0)) (hsl ▸ h.holds.notF (hsl ▸ h0))

/-- A pointer of the inode is set. -/
theorem Grown.setDin (h : Grown F P s own s₁) {f : DInode → DInode} (hd : s₁.ino.dirty = true)
    (hc : (f s₁.ino.din).blockCount = s₁.ino.din.blockCount)
    (hT : (f s₁.ino.din).iType = s₁.ino.din.iType) (hS : (f s₁.ino.din).iSize = s₁.ino.din.iSize) :
    Grown F P s own (s₁.setDin f) :=
  ⟨h.holds.congr h.holds.super rfl hc, h.grows, h.pending, h.data, hT.trans h.iType,
    hS.trans h.iSize, h.frame.setDin hd f⟩

/-- At the end the slots hold what the pointers say, and the last block taken may be
unwritten. -/
theorem Grown.extended (h : Grown F {r} s s'.ptr s') (hok : FileOK F s) (htarget : s'.ptr (slotOf l) = r)
    (hkept : ∀ sl, s.ptr sl ≠ 0 ∨ sl ∉ path l → s'.ptr sl = s.ptr sl)
    (hfilled : ∀ sl ∈ path l, s'.ptr sl ≠ 0) (hleft : s'.sb.left + s.need l = s.sb.left)
    (hfresh : r ∉ s.sb.live) (hd : s'.ino.dirty = true) : Extended F s l r s' where
  holds := h.holds
  target := htarget
  kept := hkept
  filled := hfilled
  left := hleft
  inDev b hb hbr := h.pending b hb hbr
  data _ hsl h0 := hok.toHolds.keeps (fun b hb _ hn => h.data b hb hn) hsl h0
  fresh := hfresh
  grows := h.grows
  iType := h.iType
  iSize := h.iSize
  dirty := hd
  frame := h.frame

/-- A slot gives back a block that was taken. -/
theorem Grown.gave (h : Grown F P s own s₁) (hs : SuperOK s.sb) (hg : GaveFor s₁ p s₂)
    (hsl : own sl = p) (h0 : p ≠ 0) (hp : p ∉ s.sb.live) :
    Grown F P s (Function.update own sl 0) s₂ where
  holds := h.holds.gave hg hsl h0
  grows b hb := by
    rw [hg.gave.live]
    exact ⟨h.grows hb, fun e => hp (e ▸ hb)⟩
  pending b hb hn := by
    have h1 : b ∈ s₂.sb.live := hb.1
    rw [hg.gave.live] at h1
    exact (h.pending b ⟨h1.1, hb.2⟩ hn).trans_le hg.gave.frame.len
  data b hb hn := by
    rw [hg.data (live_ge hs hb) fun e => hp (e ▸ hb), h.data b hb hn]
  iType := by rw [hg.ino]; exact h.iType
  iSize := by rw [hg.ino]; exact h.iSize
  frame := h.frame.trans (hg.fileFrame (hsl ▸ h.holds.ge (hsl ▸ h0)) (hsl ▸ h.holds.notF (hsl ▸ h0)))

/-- Everything that was taken has been given back. -/
theorem Grown.noSpace (h : Grown F P s s.ptr s') (hok : FileOK F s)
    (hleft : s'.sb.left = s.sb.left)
    (hmapped : ∀ l < maxFileBlocks, s.Mapped l → s'.ptr (slotOf l) = s.ptr (slotOf l)) :
    NoSpace F s s' := by
  have hset : s'.sb.live \ F = s.sb.live \ F := h.holds.owns.set_unique hok.owns
  have hlive : s'.sb.live = s.sb.live := by
    rw [← Set.sdiff_union_of_subset h.holds.sub, hset, Set.sdiff_union_of_subset hok.sub]
  exact {
    super := h.holds.super
    live := hlive
    left := hleft
    blockCount := by rw [h.holds.count, hok.count, hset]
    mapped := hmapped
    data := fun _ hsl h0 => hok.toHolds.keeps (fun b hb _ hn => h.data b hb hn) hsl h0
    iType := h.iType
    iSize := h.iSize
    frame := h.frame }

theorem Grown.mono (h : Grown F P s own s') {P' : Set ℤ} (hP : P ⊆ P') : Grown F P' s own s' :=
  { h with pending := fun b hb hn => h.pending b hb fun hp => hn (hP hp) }

/-! ### The direct part -/

theorem allocateDirect_ok (h : FileOK F s) (hl : l < indStart) (h0 : s.ptr (slotOf l) = 0) :
    wp False (allocateDirect l) (fun r s' =>
      (s.need l ≤ s.sb.left ∧ Extended F s l r s') ∨
      (s.sb.left < s.need l ∧ r = -enospc ∧ s' = s)) s := by
  have hslot := slotOf_direct hl
  have hpath := path_direct hl
  rw [hslot] at h0
  have hneed : s.need l = 1 := by simp [FileState.need, hpath, h0]
  have hb : s.ino.din.blockNr l = 0 := h0
  simp only [allocateDirect, wp_bind, wp_getState, wp_require, Int.toNat_natCast]
  refine ⟨fun _ => wp_mono (allocForInode_ok h.super) ?_, fun hn => hn hb⟩
  rintro r s₁ (⟨hleft, rfl, rfl⟩ | ⟨hleft, ht⟩)
  · simp only [wp_ite, wp_pure]
    exact ⟨fun hn => absurd hn (by decide), fun _ => Or.inr ⟨by omega, trivial, trivial⟩⟩
  have hpos := ht.pos
  simp only [wp_ite, wp_bind, wp_modify, wp_pure]
  refine ⟨fun _ => Or.inl ⟨by omega, ?_⟩, fun hn => absurd hpos.le hn⟩
  set s₂ := s₁.setDin fun d => d.setBlockNr l r with hs₂
  have hown : s₂.ptr = Function.update s.ptr (.direct l) r := by
    show ptr (s₁.ino.din.setBlockNr l r) s₁.sb.dev.data = _
    rw [ptr_new_direct (by unfold indStart at hl; exact hl)]
    congr 1
    rw [ht.ino, ptr_withCount]
    exact ptr_agree h.zero_or_ge fun b hb => ht.data hb
  have hg : Grown F {r} s s₂.ptr s₂ := by
    rw [hown, ← LawfulSingleton.insert_empty_eq]
    exact ((Grown.refl h).took h.super ht h0).setDin ht.dirty rfl rfl rfl
  refine hg.extended h ?_ ?_ ?_ (by rw [hneed]; exact ht.took.left) ht.took.fresh ht.dirty
  · rw [hown, hslot, Function.update_self]
  · intro sl hsl
    rw [hown, Function.update_of_ne]
    rintro rfl
    rcases hsl with hsl | hsl
    · exact hsl h0
    · rw [hpath] at hsl; simp at hsl
  · intro sl hsl
    rw [hpath, List.mem_singleton] at hsl
    rw [hown, hsl, Function.update_self]
    exact hpos.ne'

/-! ### The indirect part -/

/-- The data block of the indirect part: what is taken, and what is undone. -/
theorem allocateDirectOfIndirect_ok (h : SuperOK s.sb) {indirect : Block}
    (hw : indirect.word n = 0) (h0 : 0 < s.ino.din.iIndirect)
    (hlive : s.ino.din.iIndirect ∈ s.sb.live) (flag : Bool) :
    wp False (allocateDirectOfIndirect n indirect flag) (fun r s' =>
      (0 < s.sb.left ∧ ∃ s₁, TookFor s r s₁ ∧
        s' = s₁.put s.ino.din.iIndirect (indirect.setWord n r)) ∨
      (s.sb.left = 0 ∧ r = -enospc ∧ if flag then
        ∃ s₁, GaveFor s s.ino.din.iIndirect s₁ ∧ s' = s₁.setDin fun d => { d with iIndirect := 0 }
        else s' = s)) s := by
  simp only [allocateDirectOfIndirect, wp_bind, wp_require, Int.toNat_natCast]
  refine ⟨fun _ => wp_mono (allocForInode_ok h) ?_, fun hn => hn hw⟩
  rintro r s₁ (⟨hleft, rfl, rfl⟩ | ⟨hleft, ht⟩)
  · simp only [wp_getState, wp_ite, wp_bind, wp_pure, wp_modify]
    refine ⟨fun hn => absurd hn (by decide), fun _ => ⟨fun hf => ?_, fun hf => ?_⟩⟩
    · refine wp_mono (freeFromInode_ok h (Or.inr hlive) h0.ne') ?_
      intro _ s₂ hg
      rw [if_pos hf]
      exact Or.inr ⟨hleft, trivial, s₂, hg, rfl⟩
    · rw [if_neg hf]
      exact Or.inr ⟨hleft, trivial, trivial⟩
  · have hpos := ht.pos
    have hsame : s₁.ino.din.iIndirect = s.ino.din.iIndirect := by rw [ht.ino]; rfl
    simp only [wp_getState, wp_ite, wp_bind, wp_pure, hsame]
    exact ⟨fun _ => (wp_writeBlockFile h0.le).2 (Or.inl ⟨hleft, s₁, ht, rfl⟩),
      fun hn => absurd hpos.le hn⟩

/-- The last slot of the indirect part is filled, through the table in memory. -/
theorem Grown.ind (h : Grown F P s own s₁) (hs : SuperOK s.sb) (ht : TookFor s₁ r s₂)
    (hn : n < nrIndirectBlocks) (hown : ptr s₁.ino.din (Function.update s₁.sb.dev.data p blk) = own)
    (hp : s₁.ino.din.iIndirect = p) (h0 : p ≠ 0) (hz : own (.ind n) = 0)
    (hpl : p ∈ s.sb.live → s.ptr .indirect = p) :
    (s₂.put p (blk.setWord n r)).ptr = Function.update own (.ind n) r ∧
    Grown F (insert r P \ {p}) s (Function.update own (.ind n) r) (s₂.put p (blk.setWord n r)) := by
  have hpo : own .indirect = p := by rw [← hown]; exact hp
  have hne : p ≠ r := fun e => ht.took.fresh (e ▸ hpo ▸ (h.holds.owns.mem (hpo ▸ h0)).1)
  refine ⟨?_, (h.took hs ht hz).put .indirect ?_ h0 fun hl => ⟨.indirect, trivial, hpl hl⟩⟩
  · have hagree : ptr s₁.ino.din (Function.update s₂.sb.dev.data p blk) = own := by
      rw [← hown]
      refine ptr_agree (hown ▸ h.holds.zero_or_ge) fun b hb => ?_
      by_cases hbp : b = p
      · rw [hbp, Function.update_self, Function.update_self]
      · rw [Function.update_of_ne hbp, Function.update_of_ne hbp, ht.data hb]
    have hnew := ptr_new_ind (d := s₁.ino.din) (f := Function.update s₂.sb.dev.data p blk)
      (n := n) (q := r) hp h0 ?_ hn ht.range.1 ht.range.2
    · rw [Function.update_self, Function.update_idem, hagree] at hnew
      rw [← hnew]
      show ptr s₂.ino.din _ = _
      rw [ht.ino, ptr_withCount]
      rfl
    · intro sl hsl
      rw [hagree] at hsl
      exact h.holds.owns.unique (hsl.trans hpo.symm) (hsl ▸ h0)
  · rw [Function.update_of_ne (by simp)]; exact hpo

/-- What `allocateIndirect` leads to: the blocks that are missing are taken, or there is no space
for all of them and what was taken is given back. -/
def IndirectOutcome (F : Set ℤ) (l : ℕ) (s : FileState) (r : ℤ) (s' : FileState) : Prop :=
  (s.need l ≤ s.sb.left ∧ Extended F s l r s') ∨
  (s.sb.left < s.need l ∧ r = -enospc ∧ NoSpace F s s' ∧ s'.ptr = s.ptr)

/-- The table is missing. -/
theorem allocateIndirect_table (h : FileOK F s) (h1 : indStart ≤ l) (h2 : l < dindStart)
    (h0 : s.ptr (slotOf l) = 0) (hz : s.ino.din.iIndirect = 0) :
    wp False (allocateIndirect ((l - indStart : ℕ) : ℤ)) (IndirectOutcome F l s) s := by
  have hn : l - indStart < nrIndirectBlocks := by
    rw [indStart_eq, nrIndirectBlocks_eq]; rw [dindStart_eq] at h2; omega
  have hslot := slotOf_ind h1 h2
  have hpath := path_ind h1 h2
  rw [hslot] at h0
  set n := l - indStart
  simp only [allocateIndirect, wp_bind, wp_getState, wp_ite]
  refine ⟨fun _ => ?_, fun hn => absurd hz hn⟩
  have hz' : s.ptr .indirect = 0 := hz
  have hneed : s.need l = 2 := by simp [FileState.need, hpath, h0, hz']
  refine wp_mono (allocForInode_ok h.super) ?_
  rintro q s₁ (⟨hleft, rfl, rfl⟩ | ⟨hleft, hq⟩)
  · simp only [wp_pure]
    exact ⟨fun _ => Or.inr ⟨by omega, rfl, NoSpace.refl h.super, rfl⟩,
      fun hn => absurd (show -enospc < 0 by decide) hn⟩
  have hqpos := hq.pos
  simp only [wp_pure, wp_modify]
  refine ⟨fun hn => absurd hqpos (by omega), fun _ => ?_⟩
  set s₂ := s₁.setDin fun d => { d with iIndirect := q } with hs₂
  have hagree : ptr s.ino.din s₁.sb.dev.data = s.ptr :=
    ptr_agree h.zero_or_ge fun b hb => hq.data hb
  -- the tree with the new table in place, as if the table had been cleared on the device
  have hown : ptr s₂.ino.din (Function.update s₂.sb.dev.data q Block.zero) =
      Function.update s.ptr .indirect q := by
    have hnew := ptr_new_indirect (d := s.ino.din) (f := s₁.sb.dev.data) hz
      (by rw [hagree]; exact h.ne_fresh hq.took.fresh hqpos.ne')
    rw [hagree] at hnew
    rw [← hnew]
    show ptr { s₁.ino.din with iIndirect := q } _ = _
    rw [hq.ino]
    funext sl; cases sl <;> rfl
  have hg : Grown F {q} s (Function.update s.ptr .indirect q) s₂ := by
    rw [← LawfulSingleton.insert_empty_eq]
    exact ((Grown.refl h).took h.super hq hz').setDin hq.dirty rfl rfl rfl
  have hlive : q ∈ s₂.sb.live := by
    show q ∈ s₁.sb.live
    rw [hq.took.live]; exact Set.mem_insert _ _
  have hl₂ : s₂.sb.left + 1 = s.sb.left := hq.took.left
  have hzn : Function.update s.ptr .indirect q (.ind n) = 0 := by
    rw [Function.update_of_ne (by simp)]; exact h0
  refine wp_mono (allocateDirectOfIndirect_ok hg.holds.super (Block.word_zero n) hqpos hlive
    true) ?_
  rintro r s₃ (⟨hleft₂, s₄, hr, rfl⟩ | ⟨hleft₂, rfl, hund⟩)
  · left
    obtain ⟨hptr, hg₃⟩ := hg.ind h.super hr hn (p := s₂.ino.din.iIndirect) hown rfl
      hqpos.ne' hzn fun hl => absurd hl hq.took.fresh
    refine ⟨by omega, (Grown.mono (hptr ▸ hg₃) ?_).extended h ?_ ?_ ?_ ?_ ?_ ?_⟩
    · intro b hb
      exact hb.1.resolve_right hb.2
    · rw [hslot, hptr, Function.update_self]
    · intro sl hsl
      have hne : sl ≠ .indirect ∧ sl ≠ .ind n := by
        constructor <;> rintro rfl <;> rcases hsl with hsl | hsl <;> simp_all
      rw [hptr, Function.update_of_ne hne.2, Function.update_of_ne hne.1]
    · intro sl hsl
      rw [hpath] at hsl
      rw [hptr]
      rcases List.mem_pair.1 hsl with rfl | rfl
      · rw [Function.update_of_ne (by simp), Function.update_self]; exact hqpos.ne'
      · rw [Function.update_self]; exact hr.pos.ne'
    · have : s₄.sb.left + 1 = s₂.sb.left := hr.took.left
      rw [hneed]
      show s₄.sb.left + 2 = _
      omega
    · intro hl
      apply hr.took.fresh
      exact hg.grows hl
    · exact hr.dirty
  · right
    rw [if_pos rfl] at hund
    obtain ⟨s₄, hgv, rfl⟩ := hund
    have hgv' : GaveFor s₂ q s₄ := hgv
    have hg₄ := (hg.gave h.super hgv' (Function.update_self ..) hqpos.ne' hq.took.fresh).setDin
      (f := fun d => { d with iIndirect := 0 }) hgv'.dirty rfl rfl rfl
    have hself : Function.update (Function.update s.ptr .indirect q) .indirect 0 = s.ptr := by
      rw [Function.update_idem, ← hz', Function.update_eq_self]
    rw [hself] at hg₄
    have hptr : (s₄.setDin fun d => { d with iIndirect := 0 }).ptr = s.ptr := by
      have h1 : ptr s.ino.din s₄.sb.dev.data = s.ptr := by
        refine ptr_congr fun sl hsl h0 => ?_
        have hm := (h.owns.mem h0).1
        have hb := live_ge h.super hm
        have hne : ptr s.ino.din s.sb.dev.data sl ≠ q := h.ne_fresh hq.took.fresh hqpos.ne' sl
        exact (hgv'.data hb hne).trans (hq.data hb)
      rw [← h1]
      show ptr { s₄.ino.din with iIndirect := 0 } _ = _
      rw [hgv'.ino]
      show ptr { (s₁.ino.din) with iIndirect := 0, blockCount := _ } _ = _
      rw [hq.ino]
      funext sl
      cases sl with
      | indirect => exact hz'.symm
      | ind k => show entry _ 0 k = entry _ s.ino.din.iIndirect k; rw [hz, entry_zero, entry_zero]
      | _ => rfl
    have hl₄ : s₄.sb.left = s₂.sb.left + 1 := hgv'.gave.left
    exact ⟨by omega, rfl, hg₄.noSpace h (by show s₄.sb.left = _; omega)
      (fun l _ _ => by rw [hptr]), hptr⟩

/-- The table is there. -/
theorem allocateIndirect_entry (h : FileOK F s) (h1 : indStart ≤ l) (h2 : l < dindStart)
    (h0 : s.ptr (slotOf l) = 0) (hz : s.ino.din.iIndirect ≠ 0) :
    wp False (allocateIndirect ((l - indStart : ℕ) : ℤ)) (IndirectOutcome F l s) s := by
  have hn : l - indStart < nrIndirectBlocks := by
    rw [indStart_eq, nrIndirectBlocks_eq]; rw [dindStart_eq] at h2; omega
  have hslot := slotOf_ind h1 h2
  have hpath := path_ind h1 h2
  rw [hslot] at h0
  set n := l - indStart
  simp only [allocateIndirect, wp_bind, wp_getState, wp_ite]
  refine ⟨fun hn => absurd hn hz, fun _ => ?_⟩
  have hz' : s.ptr .indirect ≠ 0 := hz
  have hpos : 0 < s.ino.din.iIndirect := (h.pos .indirect).2 hz
  have hneed : s.need l = 1 := by simp [FileState.need, hpath, h0, hz']
  have hmem : s.ino.din.iIndirect ∈ s.sb.live \ F := h.owns.mem hz'
  have hw : (s.sb.dev.data s.ino.din.iIndirect).word n = 0 := by
    have : entry s.sb.dev.data s.ino.din.iIndirect n = 0 := h0
    rwa [entry, if_pos ⟨hz, hn⟩] at this
  refine (wp_readBlockFile h hmem).2 (wp_mono (allocateDirectOfIndirect_ok h.super hw hpos hmem.1
    false) ?_)
  rintro r s₃ (⟨hleft₂, s₄, hr, rfl⟩ | ⟨hleft₂, rfl, hund⟩)
  · left
    have hown : ptr s.ino.din (Function.update s.sb.dev.data s.ino.din.iIndirect
        (s.sb.dev.data s.ino.din.iIndirect)) = s.ptr := by rw [Function.update_eq_self]; rfl
    obtain ⟨hptr, hg₃⟩ := (Grown.refl h).ind h.super hr hn hown rfl hz h0 fun _ => rfl
    refine ⟨by omega, (Grown.mono (hptr ▸ hg₃) ?_).extended h ?_ ?_ ?_ ?_ hr.took.fresh hr.dirty⟩
    · intro b hb
      exact hb.1.resolve_right (Set.notMem_empty b)
    · rw [hslot, hptr, Function.update_self]
    · intro sl hsl
      have hne : sl ≠ .ind n := by
        rintro rfl; rcases hsl with hsl | hsl <;> simp_all
      rw [hptr, Function.update_of_ne hne]
    · intro sl hsl
      rw [hpath] at hsl
      rw [hptr]
      rcases List.mem_pair.1 hsl with rfl | rfl
      · rw [Function.update_of_ne (by simp)]; exact hz'
      · rw [Function.update_self]; exact hr.pos.ne'
    · rw [hneed]; exact hr.took.left
  · right
    rw [if_neg (by simp)] at hund
    subst hund
    exact ⟨by omega, rfl, NoSpace.refl h.super, rfl⟩

theorem allocateIndirect_ok (h : FileOK F s) (h1 : indStart ≤ l) (h2 : l < dindStart)
    (h0 : s.ptr (slotOf l) = 0) :
    wp False (allocateIndirect ((l - indStart : ℕ) : ℤ)) (IndirectOutcome F l s) s := by
  by_cases hz : s.ino.din.iIndirect = 0
  · exact allocateIndirect_table h h1 h2 h0 hz
  · exact allocateIndirect_entry h h1 h2 h0 hz

/-! ### The double indirect part -/

/-- The data block of the double indirect part: what is taken, and what is undone. -/
theorem allocateDirectOfDouble_ok (h : SuperOK s.sb) {i j : ℕ} {di indirect : Block}
    {avail alloc : Bool} (hp : 0 < di.word i) (hlive : avail ∨ alloc → di.word i ∈ s.sb.live)
    (hd : avail → s.ino.din.iDindirect ∈ s.sb.live ∧ 0 < s.ino.din.iDindirect ∧
      s.ino.din.iDindirect ≠ di.word i) :
    wp False (allocateDirectOfDouble i j di indirect avail alloc) (fun r s' =>
      (0 < s.sb.left ∧ ∃ s₁, TookFor s r s₁ ∧ s' = s₁.put (di.word i) (indirect.setWord j r)) ∨
      (s.sb.left = 0 ∧ r = -enospc ∧
        if avail then ∃ s₁, GaveFor s (di.word i) s₁ ∧ GaveFor s₁ s.ino.din.iDindirect s'
        else if alloc then GaveFor s (di.word i) s'
        else s' = s)) s := by
  simp only [allocateDirectOfDouble, wp_bind]
  refine wp_mono (allocForInode_ok h) ?_
  rintro r s₁ (⟨hleft, rfl, rfl⟩ | ⟨hleft, ht⟩)
  · simp only [wp_getState, wp_ite, wp_bind, wp_pure]
    refine ⟨fun _ => ⟨fun hav => ?_, fun hav => ⟨fun hal => ?_, fun hal => ?_⟩⟩,
      fun hn => absurd (show -enospc < 0 by decide) hn⟩
    · obtain ⟨hd1, hd2, hd3⟩ := hd hav
      refine wp_mono (freeFromInode_ok h (Or.inr (hlive (Or.inl hav))) hp.ne') ?_
      intro _ s₂ hg
      refine wp_mono (freeFromInode_ok hg.gave.ok (Or.inr ?_) hd2.ne') ?_
      · rw [hg.gave.live]; exact ⟨hd1, hd3⟩
      intro _ s₃ hg'
      rw [if_pos hav]
      exact Or.inr ⟨hleft, trivial, s₂, hg, hg'⟩
    · refine wp_mono (freeFromInode_ok h (Or.inr (hlive (Or.inr hal))) hp.ne') ?_
      intro _ s₂ hg
      rw [if_neg hav, if_pos hal]
      exact Or.inr ⟨hleft, trivial, hg⟩
    · rw [if_neg hav, if_neg hal]
      exact Or.inr ⟨hleft, trivial, trivial⟩
  · have hpos := ht.pos
    simp only [wp_getState, wp_ite, wp_bind, wp_pure]
    exact ⟨fun hn => absurd hpos hn.not_gt,
      fun _ => (wp_writeBlockFile hp.le).2 (Or.inl ⟨hleft, s₁, ht, rfl⟩)⟩

/-- A missing second-level table and the data block: what is taken, and what is undone. -/
theorem allocateIndirectOfDouble_ok (h : SuperOK s.sb) {i j : ℕ} {di : Block} {avail : Bool}
    (hi : i < nrIndirectBlocks) (hw : di.word i = 0) (hp : s.ino.din.iDindirect = p)
    (hlive : p ∈ s.sb.live) :
    wp False (allocateIndirectOfDouble i j di avail) (fun r s' =>
      (2 ≤ s.sb.left ∧ ∃ q s₁ s₂, TookFor s q s₁ ∧ TookFor (s₁.put p (di.setWord i q)) r s₂ ∧
        s' = s₂.put q (Block.zero.setWord j r)) ∨
      (s.sb.left = 1 ∧ r = -enospc ∧ ∃ q s₁, TookFor s q s₁ ∧
        if avail then ∃ s₂, GaveFor (s₁.put p (di.setWord i q)) q s₂ ∧ GaveFor s₂ p s'
        else GaveFor (s₁.put p (di.setWord i q)) q s') ∨
      (s.sb.left = 0 ∧ r = -enospc ∧ if avail then GaveFor s p s' else s' = s)) s := by
  have hge := (live_bounds h.toLayout hlive).1
  have hpos : 0 < p := by rw [dataStart_eq] at hge; omega
  simp only [allocateIndirectOfDouble, wp_ite, wp_bind]
  refine ⟨fun _ => wp_mono (allocForInode_ok h) ?_, fun hn => absurd hw hn⟩
  rintro q s₁ (⟨hleft, rfl, rfl⟩ | ⟨hleft, hq⟩)
  · simp only [wp_getState, wp_pure]
    refine ⟨fun _ => ⟨fun hav => ?_, fun hav => ?_⟩,
      fun hn => absurd (show -enospc < 0 by decide) hn⟩
    · rw [hp]
      refine wp_mono (freeFromInode_ok h (Or.inr hlive) hpos.ne') ?_
      intro _ s₂ hg
      rw [if_pos hav]
      exact Or.inr (Or.inr ⟨hleft, trivial, hg⟩)
    · rw [if_neg hav]
      exact Or.inr (Or.inr ⟨hleft, trivial, trivial⟩)
  · have hqpos := hq.pos
    have hp₁ : s₁.ino.din.iDindirect = p := by rw [hq.ino]; exact hp
    simp only [wp_getState]
    refine ⟨fun hn => absurd hqpos hn.not_gt, fun _ => ?_⟩
    rw [hp₁, wp_writeBlockFile hpos.le]
    have hword : (di.setWord i q).word i = q := Block.word_setWord hi hq.range.1 hq.range.2
    have hlq : q ∈ s₁.sb.live := by rw [hq.took.live]; exact Set.mem_insert _ _
    have hlp : p ∈ s₁.sb.live := by rw [hq.took.live]; exact Set.mem_insert_of_mem _ hlive
    have hne : p ≠ q := fun e => hq.took.fresh (e ▸ hlive)
    have hd : avail → (s₁.put p (di.setWord i q)).ino.din.iDindirect ∈ s₁.sb.live ∧
        0 < (s₁.put p (di.setWord i q)).ino.din.iDindirect ∧
        (s₁.put p (di.setWord i q)).ino.din.iDindirect ≠ (di.setWord i q).word i := fun _ => by
      rw [hword]
      exact ⟨hp₁ ▸ hlp, hp₁ ▸ hpos, hp₁ ▸ hne⟩
    have hok : SuperOK (s₁.put p (di.setWord i q)).sb := SuperOK.put hq.took.ok hge
    refine wp_mono (allocateDirectOfDouble_ok hok (hword.symm ▸ hqpos)
      (fun _ => hword.symm ▸ hlq) hd) ?_
    rw [hword]
    have hl₁ : (s₁.put p (di.setWord i q)).sb.left + 1 = s.sb.left := hq.took.left
    rintro r s' (⟨hleft₂, s₂, hr, rfl⟩ | ⟨hleft₂, rfl, hund⟩)
    · exact Or.inl ⟨by omega, q, s₁, s₂, hq, hr, rfl⟩
    · refine Or.inr (Or.inl ⟨by omega, rfl, q, s₁, hq, ?_⟩)
      by_cases hav : avail = true
      · rw [if_pos hav] at hund ⊢
        obtain ⟨s₂, hg, hg'⟩ := hund
        exact ⟨s₂, hg, hp₁ ▸ hg'⟩
      · rw [if_neg hav] at hund ⊢
        rwa [if_pos rfl] at hund

/-- The last slot of the double indirect part is filled, through the table in memory. -/
theorem Grown.dent (h : Grown F P s own s₁) (hs : SuperOK s.sb) (ht : TookFor s₁ r s₂) {i j : ℕ}
    (hj : j < nrIndirectBlocks)
    (hown : ptr s₁.ino.din (Function.update s₁.sb.dev.data p blk) = own)
    (hp : own (.dind i) = p) (h0 : p ≠ 0) (hz : own (.dent i j) = 0)
    (hpl : p ∈ s.sb.live → s.ptr (.dind i) = p) :
    (s₂.put p (blk.setWord j r)).ptr = Function.update own (.dent i j) r ∧
    Grown F (insert r P \ {p}) s (Function.update own (.dent i j) r) (s₂.put p (blk.setWord j r)) := by
  refine ⟨?_, (h.took hs ht hz).put (.dind i) ?_ h0 fun hl => ⟨.dind i, trivial, hpl hl⟩⟩
  · have hagree : ptr s₁.ino.din (Function.update s₂.sb.dev.data p blk) = own := by
      rw [← hown]
      refine ptr_agree (hown ▸ h.holds.zero_or_ge) fun b hb => ?_
      by_cases hbp : b = p
      · rw [hbp, Function.update_self, Function.update_self]
      · rw [Function.update_of_ne hbp, Function.update_of_ne hbp, ht.data hb]
    have hnew := ptr_new_dent (d := s₁.ino.din) (f := Function.update s₂.sb.dev.data p blk)
      (i := i) (j := j) (q := r) (by rw [hagree]; exact hp) h0 ?_ hj ht.range.1 ht.range.2
    · rw [Function.update_self, Function.update_idem, hagree] at hnew
      rw [← hnew]
      show ptr s₂.ino.din _ = _
      rw [ht.ino, ptr_withCount]
      rfl
    · intro sl hsl
      rw [hagree] at hsl
      exact h.holds.owns.unique (hsl.trans hp.symm) (hsl ▸ h0)
  · rw [Function.update_of_ne (by simp)]; exact hp

/-- A second-level table is entered in the double indirect table in memory. -/
theorem Grown.dind (h : Grown F P s own s₁) (hs : SuperOK s.sb) (ht : TookFor s₁ r s₂) {i : ℕ}
    (hi : i < nrIndirectBlocks)
    (hown : ptr s₁.ino.din (Function.update s₁.sb.dev.data p blk) = own)
    (hp : s₁.ino.din.iDindirect = p) (h0 : p ≠ 0) (hz : own (.dind i) = 0)
    (hpl : p ∈ s.sb.live → s.ptr .dindirect = p) :
    ptr (s₂.put p (blk.setWord i r)).ino.din
      (Function.update (s₂.put p (blk.setWord i r)).sb.dev.data r Block.zero) =
      Function.update own (.dind i) r ∧
    Grown F (insert r P \ {p}) s (Function.update own (.dind i) r) (s₂.put p (blk.setWord i r)) := by
  have hpo : own .dindirect = p := by rw [← hown]; exact hp
  have hfresh : r ∉ s₁.sb.live := ht.took.fresh
  have hne : p ≠ r := fun e => hfresh (e ▸ hpo ▸ (h.holds.owns.mem (hpo ▸ h0)).1)
  refine ⟨?_, (h.took hs ht hz).put .dindirect ?_ h0 fun hl => ⟨.dindirect, trivial, hpl hl⟩⟩
  · have hagree : ptr s₁.ino.din (Function.update s₂.sb.dev.data p blk) = own := by
      rw [← hown]
      refine ptr_agree (hown ▸ h.holds.zero_or_ge) fun b hb => ?_
      by_cases hbp : b = p
      · rw [hbp, Function.update_self, Function.update_self]
      · rw [Function.update_of_ne hbp, Function.update_of_ne hbp, ht.data hb]
    have hnew := ptr_new_dind (d := s₁.ino.din) (f := Function.update s₂.sb.dev.data p blk)
      (i := i) (q := r) hp h0 ?_ hi (by rw [hagree]; exact hz)
      (by rw [hagree]; exact h.holds.ne_fresh hfresh ht.pos.ne') ht.range.1 ht.range.2
    · rw [Function.update_self, Function.update_comm hne.symm, Function.update_idem, hagree] at hnew
      rw [← hnew]
      show ptr s₂.ino.din _ = _
      rw [ht.ino, ptr_withCount]
      rfl
    · intro sl hsl
      rw [hagree] at hsl
      exact h.holds.owns.unique (hsl.trans hpo.symm) (hsl ▸ h0)
  · rw [Function.update_of_ne (by simp)]; exact hpo

/-- After a failed allocation the empty table slot `sl` on the path of `l` names block `p`, which
was taken, given back and zeroed. -/
structure LeftBehind (l : ℕ) (s : FileState) (sl : Slot) (p : ℤ) (s' : FileState) : Prop where
  onPath : sl ∈ path l
  isTable : sl.IsTable
  empty : s.ptr sl = 0
  fresh : p ∉ s.sb.live
  ne_zero : p ≠ 0
  ptr : s'.ptr = Function.update s.ptr sl p

/-- The logical blocks are where they were. -/
theorem LeftBehind.slotOf (h : LeftBehind l s sl p s') (m : ℕ) :
    s'.ptr (slotOf m) = s.ptr (slotOf m) := by
  have hne : Fs.slotOf m ≠ sl := by
    rintro rfl
    exact slotOf_notTable m h.isTable
  rw [h.ptr, Function.update_of_ne hne]

theorem LeftBehind.ne (h : LeftBehind l s sl p s') : s'.ptr ≠ s.ptr := by
  intro he
  have hp := congrFun he sl
  rw [h.ptr, Function.update_self, h.empty] at hp
  exact h.ne_zero hp

/-- The double indirect pointer names a block without entries, the rest of the tree is as
before. -/
theorem leftBehind_dindirect (h : FileOK F s) (h1 : dindStart ≤ l) (hz : s.ptr .dindirect = 0)
    (hp : p ∉ s.sb.live) (hp0 : p ≠ 0) (hb : ∀ k, s'.ino.din.blockNr k = s.ino.din.blockNr k)
    (hi : s'.ino.din.iIndirect = s.ino.din.iIndirect) (hd : s'.ino.din.iDindirect = p)
    (hzero : s'.sb.dev.data p = Block.zero)
    (hdata : ∀ b ∈ s.sb.live, s'.sb.dev.data b = s.sb.dev.data b) :
    LeftBehind l s .dindirect p s' := by
  have hnew : ptr { s.ino.din with iDindirect := p } (Function.update s.sb.dev.data p Block.zero) =
      Function.update s.ptr .dindirect p := ptr_new_dindirect hz (h.ne_fresh hp hp0)
  refine ⟨?_, trivial, hz, hp, hp0, ?_⟩
  · rw [path_dent h1]; simp
  have hsame : s'.ptr = ptr { s.ino.din with iDindirect := p } s'.sb.dev.data := by
    funext sl
    cases sl with
    | direct k => exact hb k
    | indirect => exact hi
    | ind k => show entry _ s'.ino.din.iIndirect k = _; rw [hi]; rfl
    | dindirect => exact hd
    | dind i => show entry _ s'.ino.din.iDindirect i = _; rw [hd]; rfl
    | dent i j => show entry _ (entry _ s'.ino.din.iDindirect i) j = _; rw [hd]; rfl
  rw [hsame, ← hnew]
  apply ptr_congr
  intro sl _ h0
  rw [hnew] at h0 ⊢
  by_cases hsl : sl = .dindirect
  · rw [hsl, Function.update_self, Function.update_self, hzero]
  · rw [Function.update_of_ne hsl] at h0 ⊢
    have hm := (h.owns.mem h0).1
    have hne : s.ptr sl ≠ p := fun e => hp (e ▸ hm)
    rw [Function.update_of_ne hne]
    exact hdata _ hm

/-- An entry of the double indirect table names a block without entries, the rest of the tree is
as before. -/
theorem leftBehind_dind (h : FileOK F s) (h1 : dindStart ≤ l) (h2 : l < maxFileBlocks)
    (ht : s.ptr .dindirect ≠ 0) (hz : s.ptr (.dind (dindOf l)) = 0) (hp : p ∉ s.sb.live)
    (hp0 : p ≠ 0) (hrange : -2 ^ 31 ≤ p ∧ p < 2 ^ 31)
    (hb : ∀ k, s'.ino.din.blockNr k = s.ino.din.blockNr k)
    (hi : s'.ino.din.iIndirect = s.ino.din.iIndirect)
    (hd : s'.ino.din.iDindirect = s.ino.din.iDindirect)
    (hword : s'.sb.dev.data s.ino.din.iDindirect =
      (s.sb.dev.data s.ino.din.iDindirect).setWord (dindOf l) p)
    (hzero : s'.sb.dev.data p = Block.zero)
    (hdata : ∀ b ∈ s.sb.live, b ≠ s.ino.din.iDindirect → s'.sb.dev.data b = s.sb.dev.data b) :
    LeftBehind l s (.dind (dindOf l)) p s' := by
  set t := s.ino.din.iDindirect with htd
  have hu : ∀ sl, s.ptr sl = s.ptr .dindirect → sl = .dindirect := fun sl hsl =>
    h.owns.unique hsl (by rw [hsl]; exact ht)
  have hnew : ptr s.ino.din (Function.update (Function.update s.sb.dev.data p Block.zero) t
      ((s.sb.dev.data t).setWord (dindOf l) p)) = Function.update s.ptr (.dind (dindOf l)) p :=
    ptr_new_dind rfl ht hu (dindOf_lt h2) hz
      (h.ne_fresh hp hp0) hrange.1 hrange.2
  refine ⟨?_, trivial, hz, hp, hp0, ?_⟩
  · rw [path_dent h1]; simp
  have hsame : s'.ptr = ptr s.ino.din s'.sb.dev.data := by
    funext sl
    cases sl with
    | direct k => exact hb k
    | indirect => exact hi
    | ind k => show entry _ s'.ino.din.iIndirect k = _; rw [hi]; rfl
    | dindirect => exact hd
    | dind i => show entry _ s'.ino.din.iDindirect i = _; rw [hd]; rfl
    | dent i j => show entry _ (entry _ s'.ino.din.iDindirect i) j = _; rw [hd]; rfl
  have htp : t ≠ p := h.ne_fresh hp hp0 .dindirect
  rw [hsame, ← hnew]
  apply ptr_congr
  intro sl _ h0
  rw [hnew] at h0 ⊢
  by_cases hsl : sl = .dind (dindOf l)
  · rw [hsl, Function.update_self, Function.update_of_ne htp.symm, Function.update_self, hzero]
  · rw [Function.update_of_ne hsl] at h0 ⊢
    have hm := (h.owns.mem h0).1
    by_cases he : s.ptr sl = t
    · rw [he, Function.update_self, hword]
    · have hne : s.ptr sl ≠ p := fun e => hp (e ▸ hm)
      rw [Function.update_of_ne he, Function.update_of_ne hne]
      exact hdata _ hm he

theorem insert_diff_subset {q p : ℤ} {P : Set ℤ} (h : P ⊆ {p}) : insert q P \ {p} ⊆ {q} :=
  fun _ hb => hb.1.resolve_right fun hb' => hb.2 (h hb')

/-- The second-level table and the data block are taken, in a tree whose double indirect table
is in place. -/
theorem Grown.double (hok : FileOK F s) (h : Grown F P s own s₁) (h1 : dindStart ≤ l)
    (h2 : l < maxFileBlocks) (hP : P ⊆ {p})
    (hown : ptr s₁.ino.din (Function.update s₁.sb.dev.data p blk) = own)
    (hp : s₁.ino.din.iDindirect = p) (h0 : p ≠ 0) (hz : own (.dind (dindOf l)) = 0)
    (hpl : p ∈ s.sb.live → s.ptr .dindirect = p)
    (hsame : ∀ sl, sl ≠ .dindirect ∨ s.ptr sl ≠ 0 → own sl = s.ptr sl)
    {q : ℤ} {s₃ s₄ : FileState} (hq : TookFor s₁ q s₂)
    (hr : TookFor (s₂.put p (blk.setWord (dindOf l) q)) r s₃)
    (hs₄ : s₄ = s₃.put q (Block.zero.setWord (dentOf l) r))
    (hleft : s₄.sb.left + s.need l = s.sb.left) : Extended F s l r s₄ := by
  subst hs₄
  have hslot := slotOf_dent h1
  have hpath := path_dent h1
  have hlt := dindOf_lt h2
  have hpo : own .dindirect = p := by rw [← hown]; exact hp
  have hq0 := hq.pos.ne'
  have hqf : q ∉ s.sb.live := fun hl => hq.took.fresh (h.grows hl)
  obtain ⟨hptr₂, hg₂⟩ := h.dind hok.super hq hlt hown hp h0 hz hpl
  have hzent : s.ptr (.dent (dindOf l) (dentOf l)) = 0 := by
    have hzd : s.ptr (.dind (dindOf l)) = 0 := by
      rw [← hsame _ (Or.inl (by simp))]; exact hz
    show entry _ (s.ptr (.dind (dindOf l))) _ = 0
    rw [hzd, entry_zero]
  have hze : Function.update own (.dind (dindOf l)) q (.dent (dindOf l) (dentOf l)) = 0 := by
    rw [Function.update_of_ne (by simp), hsame _ (Or.inl (by simp))]
    exact hzent
  obtain ⟨hptr, hg⟩ := hg₂.dent hok.super hr (dentOf_lt l) hptr₂ (Function.update_self ..) hq0 hze
    fun hl => absurd hl hqf
  refine (Grown.mono (hptr ▸ hg) ?_).extended hok ?_ ?_ ?_ hleft ?_ hr.dirty
  · exact insert_diff_subset (insert_diff_subset hP)
  · rw [hslot, hptr, Function.update_self]
  · intro sl hsl
    have hzd : s.ptr (.dind (dindOf l)) = 0 := by
      rw [← hsame _ (Or.inl (by simp))]; exact hz
    have hne : sl ≠ .dind (dindOf l) ∧ sl ≠ .dent (dindOf l) (dentOf l) := by
      constructor <;> rintro rfl <;> rcases hsl with hsl | hsl <;> simp_all
    rw [hptr, Function.update_of_ne hne.2, Function.update_of_ne hne.1]
    apply hsame
    rcases hsl with hsl | hsl
    · exact Or.inr hsl
    · refine Or.inl ?_
      rintro rfl
      exact hsl (by simp [hpath])
  · intro sl hsl
    rw [hpath] at hsl
    simp only [List.mem_cons, List.not_mem_nil, or_false] at hsl
    rw [hptr]
    rcases hsl with rfl | rfl | rfl
    · rw [Function.update_of_ne (by simp), Function.update_of_ne (by simp), hpo]; exact h0
    · rw [Function.update_of_ne (by simp), Function.update_self]; exact hq0
    · rw [Function.update_self]; exact hr.pos.ne'
  · exact fun hl => hr.took.fresh (hg₂.grows hl)

/-- What `allocateDouble` leads to: the blocks that are missing are taken, or there is no space
for all of them. If there was space for one, its number is left behind. -/
def DoubleOutcome (F : Set ℤ) (l : ℕ) (s : FileState) (r : ℤ) (s' : FileState) : Prop :=
  (s.need l ≤ s.sb.left ∧ Extended F s l r s') ∨
  (s.sb.left < s.need l ∧ r = -enospc ∧ NoSpace F s s' ∧ (s.sb.left = 0 → s'.ptr = s.ptr) ∧
    (0 < s.sb.left → ∃ sl p, LeftBehind l s sl p s'))

/-- The double indirect table is missing. -/
theorem allocateDouble_table (h : FileOK F s) (h1 : dindStart ≤ l) (h2 : l < maxFileBlocks)
    (h0 : s.ptr (slotOf l) = 0) (hz : s.ino.din.iDindirect = 0) :
    wp False (allocateDouble (dindOf l) (dentOf l)) (DoubleOutcome F l s) s := by
  have hlt := dindOf_lt h2
  have hpath := path_dent h1
  rw [slotOf_dent h1] at h0
  simp only [allocateDouble, wp_bind, wp_getState, wp_ite]
  refine ⟨fun _ => ?_, fun hn => absurd hz hn⟩
  have hz' : s.ptr .dindirect = 0 := hz
  have hzd : s.ptr (.dind (dindOf l)) = 0 := by
    show entry _ s.ino.din.iDindirect _ = 0
    rw [hz, entry_zero]
  have hneed : s.need l = 3 := by simp [FileState.need, hpath, h0, hz', hzd]
  refine wp_mono (allocForInode_ok h.super) ?_
  rintro p s₁ (⟨hleft, rfl, rfl⟩ | ⟨hleft, hp⟩)
  · simp only [wp_pure]
    refine ⟨fun _ => Or.inr ⟨by omega, rfl, NoSpace.refl h.super, fun _ => rfl, ?_⟩,
      fun hn => absurd (show -enospc < 0 by decide) hn⟩
    intro hn
    exact absurd hleft hn.ne'
  have hppos := hp.pos
  have hp0 := hppos.ne'
  have hpf := hp.took.fresh
  simp only [wp_modify]
  refine ⟨fun hn => absurd hppos hn.not_gt, fun _ => ?_⟩
  set s₂ := s₁.setDin fun d => { d with iDindirect := p } with hs₂
  have hagree : ptr s.ino.din s₁.sb.dev.data = s.ptr :=
    ptr_agree h.zero_or_ge fun b hb => hp.data hb
  have hown : ptr s₂.ino.din (Function.update s₂.sb.dev.data p Block.zero) =
      Function.update s.ptr .dindirect p := by
    have hnew := ptr_new_dindirect (d := s.ino.din) (f := s₁.sb.dev.data) hz
      (by rw [hagree]; exact h.ne_fresh hpf hp0)
    rw [hagree] at hnew
    rw [← hnew]
    show ptr { s₁.ino.din with iDindirect := p } _ = _
    rw [hp.ino]
    funext sl; cases sl <;> rfl
  have hg : Grown F {p} s (Function.update s.ptr .dindirect p) s₂ := by
    rw [← LawfulSingleton.insert_empty_eq]
    exact ((Grown.refl h).took h.super hp hz').setDin hp.dirty rfl rfl rfl
  have hlive : p ∈ s₂.sb.live := by
    show p ∈ s₁.sb.live
    rw [hp.took.live]; exact Set.mem_insert _ _
  have hl₂ : s₂.sb.left + 1 = s.sb.left := hp.took.left
  have hb₂ : ∀ k, s₂.ino.din.blockNr k = s.ino.din.blockNr k := fun k => by
    show s₁.ino.din.blockNr k = _
    rw [hp.ino]; rfl
  have hi₂ : s₂.ino.din.iIndirect = s.ino.din.iIndirect := by
    show s₁.ino.din.iIndirect = _
    rw [hp.ino]; rfl
  have hself : Function.update (Function.update s.ptr .dindirect p) .dindirect 0 = s.ptr := by
    rw [Function.update_idem, ← hz', Function.update_eq_self]
  have hzd₂ : Function.update s.ptr .dindirect p (.dind (dindOf l)) = 0 := by
    rw [Function.update_of_ne (by simp)]; exact hzd
  -- whatever fails from here on, the number of the double indirect table stays behind
  have hbehind : ∀ s' : FileState, (∀ k, s'.ino.din.blockNr k = s₂.ino.din.blockNr k) →
      s'.ino.din.iIndirect = s₂.ino.din.iIndirect → s'.ino.din.iDindirect = p →
      s'.sb.dev.data p = Block.zero → (∀ b ∈ s.sb.live, s'.sb.dev.data b = s.sb.dev.data b) →
      LeftBehind l s .dindirect p s' :=
    fun s' hb hi hd hzero hdata => leftBehind_dindirect h h1 hz' hpf hp0
      (fun k => (hb k).trans (hb₂ k)) (hi.trans hi₂) hd hzero hdata
  have hne : ∀ b ∈ s.sb.live, 18 ≤ b ∧ b ≠ p := fun b hb =>
    ⟨live_ge h.super hb, fun e => hpf (e ▸ hb)⟩
  refine wp_mono (allocateIndirectOfDouble_ok (p := p) hg.holds.super hlt (Block.word_zero _) rfl hlive) ?_
  rintro r s' (⟨hleft₂, q, s₃, s₄, hq, hr, hs'⟩ | ⟨hleft₂, rfl, q, s₃, hq, hund⟩ | ⟨hleft₂, rfl, hund⟩)
  · left
    have hlq : s₃.sb.left + 1 = s₂.sb.left := hq.took.left
    have hlr : s₄.sb.left + 1 = s₃.sb.left := hr.took.left
    have hls : s'.sb.left = s₄.sb.left := by rw [hs']; rfl
    refine ⟨by omega, hg.double h h1 h2 subset_rfl hown rfl hp0 hzd₂ (fun hl => absurd hl hpf) ?_
      hq hr hs' (by omega)⟩
    rintro sl (hsl | hsl)
    · rw [Function.update_of_ne hsl]
    · by_cases hd : sl = .dindirect
      · exact absurd (hd ▸ hz') hsl
      · rw [Function.update_of_ne hd]
  · right
    rw [if_pos rfl] at hund
    obtain ⟨s₄, hgq, hgp⟩ := hund
    have hqf : q ∉ s.sb.live := fun hl => hq.took.fresh (hg.grows hl)
    have hne₂ : Function.update s.ptr .dindirect p .dindirect = p := Function.update_self ..
    obtain ⟨-, hg₃⟩ := hg.dind h.super hq hlt hown rfl hp0 hzd₂ fun hl => absurd hl hpf
    have hg₄ := hg₃.gave h.super hgq (Function.update_self ..) hq.pos.ne' hqf
    rw [Function.update_idem, ← hzd₂, Function.update_eq_self] at hg₄
    have hg₅ := hg₄.gave h.super hgp hne₂ hp0 hpf
    rw [hself] at hg₅
    have hlq : s₃.sb.left + 1 = s₂.sb.left := hq.took.left
    have hl₄ : s₄.sb.left = s₃.sb.left + 1 := hgq.gave.left
    have hl₅ : s'.sb.left = s₄.sb.left + 1 := hgp.gave.left
    have hlb := hbehind s'
      (fun k => by rw [hgp.ino, hgq.ino, (FileState.put_fields ..).1, hq.ino]; rfl)
      (by rw [hgp.ino, hgq.ino, (FileState.put_fields ..).1, hq.ino]; rfl)
      (by rw [hgp.ino, hgq.ino, (FileState.put_fields ..).1, hq.ino]; rfl) hgp.gave.zero ?_
    · exact ⟨by omega, rfl, hg₅.noSpace h (by omega) fun m _ _ => hlb.slotOf m, by omega,
        fun _ => ⟨_, _, hlb⟩⟩
    · intro b hb
      obtain ⟨h18, hbp⟩ := hne b hb
      rw [hgp.data h18 hbp, hgq.data h18 fun e => hqf (e ▸ hb), (FileState.put_fields ..).2.2.2.1,
        Function.update_of_ne hbp, hq.data h18]
      exact hp.data h18
  · right
    rw [if_pos rfl] at hund
    have hg' := hg.gave h.super hund (Function.update_self ..) hp0 hpf
    rw [hself] at hg'
    have hlp : s'.sb.left = s₂.sb.left + 1 := hund.gave.left
    have hlb := hbehind s' (fun k => by rw [hund.ino]; rfl) (by rw [hund.ino]; rfl)
      (by rw [hund.ino]; rfl) hund.gave.zero ?_
    · exact ⟨by omega, rfl, hg'.noSpace h (by omega) fun m _ _ => hlb.slotOf m, by omega,
        fun _ => ⟨_, _, hlb⟩⟩
    · intro b hb
      obtain ⟨h18, hbp⟩ := hne b hb
      rw [hund.data h18 hbp]
      exact hp.data h18

/-- The second-level table is missing. -/
theorem allocateDouble_second (h : FileOK F s) (h1 : dindStart ≤ l) (h2 : l < maxFileBlocks)
    (h0 : s.ptr (slotOf l) = 0) (hz : s.ino.din.iDindirect ≠ 0)
    (hzd : s.ptr (.dind (dindOf l)) = 0) :
    wp False (allocateDouble (dindOf l) (dentOf l)) (DoubleOutcome F l s) s := by
  have hlt := dindOf_lt h2
  have hpath := path_dent h1
  rw [slotOf_dent h1] at h0
  simp only [allocateDouble, wp_bind, wp_getState, wp_ite]
  refine ⟨fun hn => absurd hn hz, fun _ => ?_⟩
  have hz' : s.ptr .dindirect ≠ 0 := hz
  have hmem : s.ino.din.iDindirect ∈ s.sb.live \ F := h.owns.mem hz'
  have hpd : s.ptr .dindirect = s.ino.din.iDindirect := rfl
  have hown : ptr s.ino.din (Function.update s.sb.dev.data s.ino.din.iDindirect
      (s.sb.dev.data s.ino.din.iDindirect)) = s.ptr := by
    rw [Function.update_eq_self]; rfl
  have hw : s.ptr (.dind (dindOf l)) = (s.sb.dev.data s.ino.din.iDindirect).word (dindOf l) := by
    show entry _ _ _ = _
    rw [entry, if_pos ⟨hz, hlt⟩]
  refine (wp_readBlockFile h hmem).2 ?_
  have hneed : s.need l = 2 := by simp [FileState.need, hpath, h0, hz', hzd]
  refine wp_mono (allocateIndirectOfDouble_ok h.super hlt (hw ▸ hzd) rfl hmem.1) ?_
  rintro r s' (⟨hleft₂, q, s₃, s₄, hq, hr, hs'⟩ | ⟨hleft₂, rfl, q, s₃, hq, hund⟩ |
    ⟨hleft₂, rfl, hund⟩)
  · left
    have hlq : s₃.sb.left + 1 = s.sb.left := hq.took.left
    have hlr : s₄.sb.left + 1 = s₃.sb.left := hr.took.left
    have hls : s'.sb.left = s₄.sb.left := by rw [hs']; rfl
    exact ⟨by omega, (Grown.refl h).double h h1 h2 (Set.empty_subset _) hown rfl hz hzd
      (fun _ => hpd) (fun _ _ => rfl) hq hr hs' (by omega)⟩
  · right
    rw [if_neg (by simp)] at hund
    have hqf := hq.took.fresh
    obtain ⟨-, hg₃⟩ := (Grown.refl h).dind h.super hq hlt hown rfl hz hzd fun _ => hpd
    have hg₄ := hg₃.gave h.super hund (Function.update_self ..) hq.pos.ne' hqf
    rw [Function.update_idem, ← hzd, Function.update_eq_self] at hg₄
    have hlq : s₃.sb.left + 1 = s.sb.left := hq.took.left
    have hl₄ : s'.sb.left = s₃.sb.left + 1 := hund.gave.left
    have hdata : ∀ b ∈ s.sb.live, b ≠ s.ino.din.iDindirect →
        s'.sb.dev.data b = s.sb.dev.data b := by
      intro b hb hbp
      have h18 := live_ge h.super hb
      rw [hund.data h18 fun e => hqf (e ▸ hb), (FileState.put_fields ..).2.2.2.1,
        Function.update_of_ne hbp, hq.data h18]
    have hd : s'.sb.dev.data s.ino.din.iDindirect =
        (s.sb.dev.data s.ino.din.iDindirect).setWord (dindOf l) q := by
      rw [hund.data (live_ge h.super hmem.1) fun e => hqf (e ▸ hmem.1),
        (FileState.put_fields ..).2.2.2.1, Function.update_self]
    have hlb := leftBehind_dind h h1 h2 hz' hzd hqf hq.pos.ne' hq.range
      (fun k => by rw [hund.ino, (FileState.put_fields ..).1, hq.ino]; rfl)
      (by rw [hund.ino, (FileState.put_fields ..).1, hq.ino]; rfl)
      (by rw [hund.ino, (FileState.put_fields ..).1, hq.ino]; rfl) hd hund.gave.zero hdata
    exact ⟨by omega, rfl, hg₄.noSpace h (by omega) fun m _ _ => hlb.slotOf m, by omega,
      fun _ => ⟨_, _, hlb⟩⟩
  · right
    rw [if_neg (by simp)] at hund
    subst hund
    exact ⟨by omega, rfl, NoSpace.refl h.super, fun _ => rfl, by omega⟩

/-- Both tables are there. -/
theorem allocateDouble_entry (h : FileOK F s) (h1 : dindStart ≤ l) (h2 : l < maxFileBlocks)
    (h0 : s.ptr (slotOf l) = 0) (hz : s.ino.din.iDindirect ≠ 0)
    (hzd : s.ptr (.dind (dindOf l)) ≠ 0) :
    wp False (allocateDouble (dindOf l) (dentOf l)) (DoubleOutcome F l s) s := by
  have hlt := dindOf_lt h2
  have hpath := path_dent h1
  rw [slotOf_dent h1] at h0
  simp only [allocateDouble, wp_bind, wp_getState, wp_ite]
  refine ⟨fun hn => absurd hn hz, fun _ => ?_⟩
  have hz' : s.ptr .dindirect ≠ 0 := hz
  have hmem : s.ino.din.iDindirect ∈ s.sb.live \ F := h.owns.mem hz'
  have hpd : s.ptr .dindirect = s.ino.din.iDindirect := rfl
  have hown : ptr s.ino.din (Function.update s.sb.dev.data s.ino.din.iDindirect
      (s.sb.dev.data s.ino.din.iDindirect)) = s.ptr := by
    rw [Function.update_eq_self]; rfl
  have hw : s.ptr (.dind (dindOf l)) = (s.sb.dev.data s.ino.din.iDindirect).word (dindOf l) := by
    show entry _ _ _ = _
    rw [entry, if_pos ⟨hz, hlt⟩]
  refine (wp_readBlockFile h hmem).2 ?_
  have hneed : s.need l = 1 := by simp [FileState.need, hpath, h0, hz', hzd]
  have hpos : 0 < s.ptr (.dind (dindOf l)) := (h.pos _).2 hzd
  have hmem₂ := h.owns.mem hzd
  have hown₂ : ptr s.ino.din (Function.update s.sb.dev.data (s.ptr (.dind (dindOf l)))
      (s.sb.dev.data (s.ptr (.dind (dindOf l))))) = s.ptr := by
    rw [Function.update_eq_self]; rfl
  unfold allocateIndirectOfDouble
  rw [wp_ite]
  refine ⟨fun hn => absurd (hw.trans hn) hzd, fun _ => ?_⟩
  rw [wp_bind, ← hw, wp_readBlockFile h hmem₂]
  refine wp_mono (allocateDirectOfDouble_ok h.super (hw ▸ hpos) (by simp) (by simp)) ?_
  rw [← hw]
  rintro r s' (⟨hleft₂, s₁, hr, rfl⟩ | ⟨hleft₂, rfl, hund⟩)
  · left
    obtain ⟨hptr, hg⟩ := (Grown.refl h).dent h.super hr (dentOf_lt l) hown₂ rfl hzd h0
      fun _ => rfl
    refine ⟨by omega, (Grown.mono (hptr ▸ hg) ?_).extended h ?_ ?_ ?_ ?_ hr.took.fresh hr.dirty⟩
    · exact insert_diff_subset (Set.empty_subset _)
    · rw [slotOf_dent h1, hptr, Function.update_self]
    · intro sl hsl
      have hne : sl ≠ .dent (dindOf l) (dentOf l) := by
        rintro rfl; rcases hsl with hsl | hsl <;> simp_all
      rw [hptr, Function.update_of_ne hne]
    · intro sl hsl
      rw [hpath] at hsl
      simp only [List.mem_cons, List.not_mem_nil, or_false] at hsl
      rw [hptr]
      rcases hsl with rfl | rfl | rfl
      · rw [Function.update_of_ne (by simp)]; exact hz'
      · rw [Function.update_of_ne (by simp)]; exact hzd
      · rw [Function.update_self]; exact hr.pos.ne'
    · rw [hneed]; exact hr.took.left
  · right
    rw [if_neg (by simp), if_neg (by simp)] at hund
    subst hund
    exact ⟨by omega, rfl, NoSpace.refl h.super, fun _ => rfl, by omega⟩

theorem allocateDouble_ok (h : FileOK F s) (h1 : dindStart ≤ l) (h2 : l < maxFileBlocks)
    (h0 : s.ptr (slotOf l) = 0) :
    wp False (allocateDouble (dindOf l) (dentOf l)) (DoubleOutcome F l s) s := by
  by_cases hz : s.ino.din.iDindirect = 0
  · exact allocateDouble_table h h1 h2 h0 hz
  by_cases hzd : s.ptr (.dind (dindOf l)) = 0
  · exact allocateDouble_second h h1 h2 h0 hz hzd
  · exact allocateDouble_entry h h1 h2 h0 hz hzd

/-! ### Every block -/

/-- A write of block `l` that runs out of space and leaves a number of a freed block behind. -/
def FileState.Leaves (s : FileState) (l : ℕ) : Prop := dindStart ≤ l ∧ 0 < s.sb.left

/-- **What `testfs_allocate_block` does.** -/
theorem allocateBlock_ok (h : FileOK F s) (hl : l < maxFileBlocks) :
    wp False (testfsAllocateBlock l) (fun rb s' => (0 ≤ rb.1 → rb.2 = s.delivered l) ∧
      (s.Mapped l ∧ rb.1 = s.ptr (slotOf l) ∧ s' = s ∨
      ¬s.Mapped l ∧ s.need l ≤ s.sb.left ∧ Extended F s l rb.1 s' ∨
      ¬s.Mapped l ∧ s.sb.left < s.need l ∧ rb.1 = -enospc ∧ NoSpace F s s' ∧
        (¬s.Leaves l → s'.ptr = s.ptr) ∧ (s.Leaves l → ∃ sl p, LeftBehind l s sl p s'))) s := by
  unfold testfsAllocateBlock
  rw [wp_bind]
  refine wp_reads _ (readBlock_ok h hl) ?_
  simp only [wp_ite, wp_pure, wp_bind]
  refine ⟨fun hm => ⟨fun _ => trivial, Or.inl ⟨hm, trivial, trivial⟩⟩, fun hm => ?_⟩
  have h0 : s.ptr (slotOf l) = 0 := not_not.1 hm
  have hnm : ¬s.Mapped l := hm
  refine ⟨fun h1 => ?_, fun h1 => ⟨fun h2 => ?_, fun h2 => ?_⟩⟩
  · have hd : l < indStart := by rw [nrDirectBlocks_eq] at h1; rw [indStart_eq]; omega
    refine wp_mono (allocateDirect_ok h hd h0) ?_
    rintro r s' (⟨h3, h4⟩ | ⟨h3, rfl, rfl⟩)
    · exact ⟨fun _ => trivial, Or.inr (Or.inl ⟨hnm, h3, h4⟩)⟩
    · refine ⟨fun _ => trivial, Or.inr (Or.inr ⟨hnm, h3, rfl, NoSpace.refl h.super, fun _ => rfl,
        fun hn => ?_⟩)⟩
      have := hn.1
      rw [dindStart_eq] at this
      rw [indStart_eq] at hd
      omega
  · have hd : dindStart ≤ l := by
      rw [nrDirectBlocks_eq, nrIndirectBlocks_eq] at h2; rw [dindStart_eq]; omega
    rw [(dind_index hd).1, (dind_index hd).2]
    refine wp_mono (allocateDouble_ok h hd hl h0) ?_
    rintro r s' (⟨h3, h4⟩ | ⟨h3, rfl, h4, h5, h6⟩)
    · exact ⟨fun _ => trivial, Or.inr (Or.inl ⟨hnm, h3, h4⟩)⟩
    · refine ⟨fun _ => trivial, Or.inr (Or.inr ⟨hnm, h3, rfl, h4, fun hn => h5 ?_, fun hn => h6 hn.2⟩)⟩
      by_contra hp
      exact hn ⟨hd, Nat.pos_of_ne_zero hp⟩
  · have hd1 : indStart ≤ l := by rw [nrDirectBlocks_eq] at h1; rw [indStart_eq]; omega
    have hd2 : l < dindStart := by
      rw [nrDirectBlocks_eq, nrIndirectBlocks_eq] at h2; rw [dindStart_eq]; omega
    have hc : (l : ℤ) - (nrDirectBlocks : ℕ) = ((l - indStart : ℕ) : ℤ) := by
      rw [nrDirectBlocks_eq]; rw [indStart_eq] at hd1 ⊢; omega
    rw [hc]
    refine wp_mono (allocateIndirect_ok h hd1 hd2 h0) ?_
    rintro r s' (⟨h3, h4⟩ | ⟨h3, rfl, h4, h5⟩)
    · exact ⟨fun _ => trivial, Or.inr (Or.inl ⟨hnm, h3, h4⟩)⟩
    · exact ⟨fun _ => trivial, Or.inr (Or.inr ⟨hnm, h3, rfl, h4, fun _ => h5,
        fun hn => absurd hn.1 (not_le.2 hd2)⟩)⟩

theorem allocateBlock_neg {n : ℤ} {Q : ℤ × Block → FileState → Prop} (hn : n < 0) :
    wp ok (testfsAllocateBlock n) Q s ↔ ok := by
  unfold testfsAllocateBlock
  rw [wp_bind]
  unfold reads wp
  simp [readBlock_neg hn]

theorem allocateBlock_big {n : ℤ} {Q : ℤ × Block → FileState → Prop} (hn : maxFileBlocks ≤ n)
    (hQ : ∀ b, Q (-efbig, b) s) : wp ok (testfsAllocateBlock n) Q s := by
  unfold testfsAllocateBlock
  rw [wp_bind]
  refine wp_reads _ (readBlock_big hn) ?_
  rw [wp_ite]
  exact ⟨fun _ => (wp_pure _).2 (hQ _), fun h => absurd (show (-efbig : ℤ) ≠ 0 by decide) h⟩

end OSLab.Fs
