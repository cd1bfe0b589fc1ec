import OSLab.Fs.Volume
import OSLab.Fs.Proof.Coherence
import OSLab.Fs.Proof.Wrote
import Mathlib.Order.CompletePartialOrder

/-!
# The volume on the device

`NodeHolds` says that the blocks of an inode hold a node, and `Stores` that the inodes hold the
nodes of a volume, each block of the block freemap in exactly one of them.

`Stores.change`, `Stores.insert`, `Stores.erase`: an operation on one inode leaves the other nodes.
-/

namespace OSLab.Fs

variable {F F' : Set ℤ} {s t : FileState} {nd nd' : Node} {N : ℤ → Option Node} {D : ℤ → DInode}
  {sb sb' : SuperBlock} {n m b : ℤ} {d : DInode}

/-! ### One node -/

/-- The blocks hold the bytes that a file knows. -/
structure FileHolds (F : Set ℤ) (size : ℕ) (bytes : ℕ → Option Byte) (s : FileState) : Prop where
  file : FileOK F s
  shaped : Shaped s
  iType : s.ino.din.iType = iFile
  iSize : s.ino.din.iSize = size
  stored : ∀ p b, bytes p = some b → s.Mapped (p / blockSize) ∧ s.content p = b

/-- The blocks hold the slots of a directory with these entries. -/
structure DirEntries (F : Set ℤ) (entries : CString → Option ℤ) (s : FileState) : Prop where
  shaped : Shaped s
  slots : ∃ l, DirHolds F l s ∧ SlotTable.Distinct l ∧ ∀ name, SlotTable.find name l = entries name

/-- **The inode and its blocks hold the node.** -/
def NodeHolds (F : Set ℤ) (s : FileState) : Node → Prop
  | .file size bytes => FileHolds F size bytes s
  | .dir entries => DirEntries F entries s

namespace NodeHolds

theorem file (h : NodeHolds F s nd) : FileOK F s := by
  cases nd with
  | file => exact FileHolds.file h
  | dir =>
    obtain ⟨l, hl, -⟩ := DirEntries.slots h
    exact hl.file

theorem shaped (h : NodeHolds F s nd) : Shaped s := by
  cases nd with
  | file => exact FileHolds.shaped h
  | dir => exact DirEntries.shaped h

theorem iType (h : NodeHolds F s nd) : s.ino.din.iType = if nd.isDir then iDir else iFile := by
  cases nd with
  | file => exact FileHolds.iType h
  | dir =>
    obtain ⟨l, hl, -⟩ := DirEntries.slots h
    exact hl.iType

/-- The fields of the inode fit in the 64 bytes on the device. -/
theorem fits (h : NodeHolds F s nd) : s.ino.din.Fits := by
  have hfile := h.file
  have hsize := h.shaped
  have hptr : ∀ sl, -2 ^ 31 ≤ s.ptr sl ∧ s.ptr sl < 2 ^ 31 := by
    intro sl
    have hd : dataStart = 146 := rfl
    have hb : blockBits = 1048576 := rfl
    rcases hfile.zero_or sl with h0 | ⟨-, h1, h2⟩
    · rw [h0]
      decide
    · omega
  refine ⟨fun k => ?_, ?_⟩
  · unfold DInode.word
    split_ifs
    · rw [h.iType]
      split_ifs <;> decide
    · exact hptr (.direct (k - 1))
    · exact hptr .indirect
    · exact hptr .dindirect
    · -- no more blocks than the freemap has bits
      have hle : (s.sb.live \ F).ncard ≤ blockBits := by
        have h1 := Set.ncard_le_ncard (Set.sdiff_subset (s := s.sb.live) (t := F)) (live_finite s.sb)
        rw [live_ncard] at h1
        have h2 := card_members_le (b := s.sb.blockFreemap)
        rw [hfile.super.blockBits] at h2
        exact h1.trans h2
      have hb : blockBits = 1048576 := rfl
      have hc := hfile.count
      omega
  · have h1 := hsize.nonneg
    have h2 := hsize.le
    rw [maxFileSize_eq] at h2
    omega

end NodeHolds

/-- The same file: its inode, and its blocks on the device. -/
structure SameFile (s t : FileState) : Prop where
  din : t.ino.din = s.ino.din
  ptr : t.ptr = s.ptr
  blockAt : ∀ l, t.blockAt l = s.blockAt l

namespace SameFile

theorem blocks (h : SameFile s t) : t.blocks = s.blocks := by
  unfold FileState.blocks
  rw [h.ptr]

theorem content (h : SameFile s t) (p : ℕ) : t.content p = s.content p := by
  unfold FileState.content
  rw [h.blockAt]

theorem mapped (h : SameFile s t) (l : ℕ) : t.Mapped l ↔ s.Mapped l := by
  unfold FileState.Mapped
  rw [h.ptr]

theorem shaped (h : SameFile s t) (hs : Shaped s) : Shaped t := by
  have hend : t.blocksEnd = s.blocksEnd := by
    unfold FileState.blocksEnd
    rw [h.din]
  refine ⟨?_, ?_, fun l hl => ?_, fun tb htb h0 => ?_, fun hd => ?_⟩
  · rw [h.din]
    exact hs.nonneg
  · rw [h.din]
    exact hs.le
  · rw [hend]
    exact hs.below l ((h.mapped l).1 hl)
  · rw [h.ptr] at h0 ⊢
    exact hs.tables tb htb h0
  · rw [hend] at hd
    rw [h.din]
    exact hs.double hd

/-- The node is still there. -/
theorem nodeHolds (h : SameFile s t) (hs : NodeHolds F s nd) (hf : FileOK F' t) :
    NodeHolds F' t nd := by
  cases nd with
  | file size bytes =>
    obtain ⟨-, hsh, hty, hsz, hst⟩ : FileHolds F size bytes s := hs
    refine ⟨hf, h.shaped hsh, h.din ▸ hty, h.din ▸ hsz, fun p b hb => ?_⟩
    rw [h.mapped, h.content]
    exact hst p b hb
  | dir entries =>
    obtain ⟨hsh, l, hl, hd, he⟩ : DirEntries F entries s := hs
    refine ⟨h.shaped hsh, l, ⟨hf, h.din ▸ hl.iType, h.din ▸ hl.iSize, hl.small, fun p hp => ?_,
      fun p hp => ?_, hl.numbers⟩, hd, he⟩
    · rw [h.mapped]
      exact hl.mapped p hp
    · rw [h.content]
      exact hl.content p hp

end SameFile

/-! ### All nodes -/

/-- The file of an inode. -/
def fileOf (sb : SuperBlock) (d : DInode) : FileState := ⟨sb, d.inode⟩

/-- The blocks that inode `n` does not hold. -/
def others (sb : SuperBlock) (d : DInode) : Set ℤ := sb.live \ (fileOf sb d).blocks

/-- **The volume is stored**: `D` are the inodes, from memory or from the device. -/
structure Stores (N : ℤ → Option Node) (D : ℤ → DInode) (sb : SuperBlock) : Prop where
  super : SuperOK sb
  range : ∀ n : ℤ, (N n).isSome → 0 ≤ n ∧ n < maxInodes
  alloc : ∀ k : ℕ, k ∈ sb.inodeFreemap.members ↔ (N k).isSome
  node : ∀ n nd, N n = some nd → NodeHolds (others sb (D n)) (fileOf sb (D n)) nd
  apart : ∀ n m, (N n).isSome → (N m).isSome → n ≠ m →
    Disjoint (fileOf sb (D n)).blocks (fileOf sb (D m)).blocks
  cover : ∀ b ∈ sb.live, ∃ n, (N n).isSome ∧ b ∈ (fileOf sb (D n)).blocks
  free : ∀ n : ℤ, 0 ≤ n → n < maxInodes → N n = none → D n = DInode.zero

/-- The blocks of a file are allocated. -/
theorem FileOK.blocks_subset (h : FileOK F s) : s.blocks ⊆ s.sb.live := by
  rw [h.blocks_eq]
  exact Set.sdiff_subset

/-- The other blocks of a file that is all there. -/
theorem FileOK.others_eq (h : FileOK F s) : others s.sb s.ino.din = F := by
  have hb : (fileOf s.sb s.ino.din).blocks = s.blocks := rfl
  unfold others
  rw [hb, h.blocks_eq, Set.sdiff_sdiff_cancel_left h.sub]

/-- **A file whose blocks stay** is the same file. -/
theorem sameFile_of_data (hdata : ∀ b ∈ (fileOf sb d).blocks, sb'.dev.data b = sb.dev.data b) :
    SameFile (fileOf sb d) (fileOf sb' d) := by
  have hptr : (fileOf sb' d).ptr = (fileOf sb d).ptr :=
    ptr_congr fun sl _ h0 => hdata _ ⟨h0, sl, rfl⟩
  refine ⟨rfl, hptr, fun l => ?_⟩
  unfold FileState.blockAt
  rw [hptr]
  split_ifs with h0
  · rfl
  · exact hdata _ ⟨h0, slotOf l, rfl⟩

/-- **A node whose blocks stay** is still there. -/
theorem NodeHolds.stay (h : NodeHolds (others sb d) (fileOf sb d) nd) (hok : SuperOK sb')
    (hlive : (fileOf sb d).blocks ⊆ sb'.live) (hlen : sb.dev.len ≤ sb'.dev.len)
    (hdata : ∀ b ∈ (fileOf sb d).blocks, sb'.dev.data b = sb.dev.data b) :
    SameFile (fileOf sb d) (fileOf sb' d) ∧ NodeHolds (others sb' d) (fileOf sb' d) nd := by
  have hsame := sameFile_of_data hdata
  have hfile := h.file
  have hmine : (fileOf sb d).sb.live \ others sb d = (fileOf sb d).blocks := hfile.blocks_eq.symm
  have hmine' : (fileOf sb' d).sb.live \ others sb' d = (fileOf sb d).blocks := by
    have hl : (fileOf sb' d).sb.live = sb'.live := rfl
    unfold others
    rw [hl, hsame.blocks, Set.sdiff_sdiff_cancel_left hlive]
  refine ⟨hsame, hsame.nodeHolds h ⟨⟨hok, Set.sdiff_subset, ?_, ?_⟩, ?_⟩⟩
  · rw [hmine', hsame.ptr, ← hmine]
    exact hfile.owns
  · rw [hmine', hsame.din, ← hmine]
    exact hfile.count
  · unfold InDev
    rw [hmine', ← hmine]
    exact fun b hb => (hfile.inDev b hb).trans_le hlen

/-- Another in-memory inode with the same fields. -/
theorem NodeHolds.congr (h : NodeHolds F s nd) (hsb : t.sb = s.sb) (hd : t.ino.din = s.ino.din) :
    NodeHolds F t nd := by
  obtain ⟨sb, din, dirty, nr, count⟩ := s
  obtain ⟨sb', din', dirty', nr', count'⟩ := t
  obtain rfl : sb' = sb := hsb
  obtain rfl : din' = din := hd
  have hf := h.file
  have hsame : SameFile ⟨sb', ⟨din', dirty, nr, count⟩⟩ ⟨sb', ⟨din', dirty', nr', count'⟩⟩ :=
    ⟨rfl, rfl, fun _ => rfl⟩
  exact hsame.nodeHolds h ⟨⟨hf.super, hf.sub, hf.owns, hf.count⟩, hf.inDev⟩

/-- An inode without blocks. -/
theorem blocks_zero (sb : SuperBlock) : (fileOf sb DInode.zero).blocks = ∅ := by
  apply Set.eq_empty_of_forall_notMem
  rintro b ⟨h0, sl, rfl⟩
  exact h0 (newInode_ptr sb.dev.data 0 0 sl)

namespace Stores

theorem file (h : Stores N D sb) (hn : N n = some nd) : FileOK (others sb (D n)) (fileOf sb (D n)) :=
  (h.node n nd hn).file

theorem blocks_subset (h : Stores N D sb) (hn : (N n).isSome) :
    (fileOf sb (D n)).blocks ⊆ sb.live := by
  obtain ⟨nd, hn⟩ := Option.isSome_iff_exists.1 hn
  exact (h.file hn).blocks_subset

/-- The blocks of a node are not those of another inode. -/
theorem blocks_others (h : Stores N D sb) (hn : 0 ≤ n ∧ n < maxInodes) (hm : (N m).isSome)
    (hne : m ≠ n) : (fileOf sb (D m)).blocks ⊆ others sb (D n) := by
  intro b hb
  refine ⟨h.blocks_subset hm hb, fun hb' => ?_⟩
  cases hN : N n with
  | none =>
    rw [h.free n hn.1 hn.2 hN, blocks_zero] at hb'
    exact hb'
  | some nd => exact Set.disjoint_left.1 (h.apart n m (by rw [hN]; rfl) hm hne.symm) hb' hb

/-- **One inode changes**: the others keep their blocks, and with them their nodes. -/
theorem set {o : Option Node} (h : Stores N D sb) (hn : 0 ≤ n ∧ n < maxInodes) (hok : SuperOK sb')
    (hmem : ∀ k : ℕ, k ∈ sb'.inodeFreemap.members ↔
      if (k : ℤ) = n then o.isSome = true else k ∈ sb.inodeFreemap.members)
    (hlen : sb.dev.len ≤ sb'.dev.len)
    (hdata : ∀ b ∈ others sb (D n), sb'.dev.data b = sb.dev.data b)
    (hnode : ∀ nd, o = some nd → NodeHolds (others sb (D n)) (fileOf sb' d) nd)
    (hfree : o = none → d = DInode.zero ∧ sb'.live = others sb (D n)) :
    Stores (Function.update N n o) (Function.update D n d) sb' := by
  have hF : others sb (D n) ⊆ sb'.live := by
    cases ho : o with
    | none => exact (hfree ho).2.ge
    | some nd => exact (hnode nd ho).file.sub
  have hblocks : (fileOf sb' d).blocks = sb'.live \ others sb (D n) := by
    cases ho : o with
    | none => rw [(hfree ho).1, blocks_zero, (hfree ho).2, Set.sdiff_self]
    | some nd => exact (hnode nd ho).file.blocks_eq
  have hD : ∀ m, m ≠ n → Function.update D n d m = D m := fun m hne => Function.update_of_ne hne _ _
  have hN : ∀ m, m ≠ n → Function.update N n o m = N m := fun m hne => Function.update_of_ne hne _ _
  -- the other nodes stay where they are
  have hstay : ∀ m nd, m ≠ n → N m = some nd → (fileOf sb' (D m)).blocks = (fileOf sb (D m)).blocks ∧
      NodeHolds (others sb' (D m)) (fileOf sb' (D m)) nd := by
    intro m nd hne hm
    have hsub := h.blocks_others hn (by rw [hm]; rfl) hne
    obtain ⟨hsame, hnd⟩ := (h.node m nd hm).stay hok (hsub.trans hF) hlen
      fun b hb => hdata b (hsub hb)
    exact ⟨hsame.blocks, hnd⟩
  have hstay' : ∀ m, m ≠ n → (N m).isSome →
      (fileOf sb' (D m)).blocks = (fileOf sb (D m)).blocks := by
    intro m hne hm
    obtain ⟨nd, hm⟩ := Option.isSome_iff_exists.1 hm
    exact (hstay m nd hne hm).1
  have hapart : ∀ m, m ≠ n → (N m).isSome →
      Disjoint (fileOf sb' d).blocks (fileOf sb' (D m)).blocks := by
    intro m hne hm
    rw [hstay' m hne hm, hblocks]
    exact Set.disjoint_left.2 fun b hb hb' => hb.2 (h.blocks_others hn hm hne hb')
  refine ⟨hok, ?_, ?_, ?_, ?_, ?_, ?_⟩
  · intro m hm
    by_cases hne : m = n
    · exact hne ▸ hn
    · rw [hN m hne] at hm
      exact h.range m hm
  · intro k
    rw [hmem, Function.update_apply]
    split_ifs
    · exact Iff.rfl
    · exact h.alloc k
  · intro m nd hm
    by_cases hne : m = n
    · rw [hne, Function.update_self] at hm ⊢
      have hother := (hnode nd hm).file.others_eq
      exact (show others sb' d = _ from hother) ▸ hnode nd hm
    · rw [hN m hne] at hm
      rw [hD m hne]
      exact (hstay m nd hne hm).2
  · intro m k hm hk hmk
    by_cases hmn : m = n
    · have hkn : k ≠ n := fun hkn => hmk (hmn.trans hkn.symm)
      rw [hN k hkn] at hk
      rw [hmn, Function.update_self, hD k hkn]
      exact hapart k hkn hk
    · rw [hN m hmn] at hm
      rw [hD m hmn]
      by_cases hkn : k = n
      · rw [hkn, Function.update_self]
        exact (hapart m hmn hm).symm
      · rw [hN k hkn] at hk
        rw [hD k hkn, hstay' m hmn hm, hstay' k hkn hk]
        exact h.apart m k hm hk hmk
  · intro b hb
    by_cases hbF : b ∈ others sb (D n)
    · obtain ⟨m, hm, hbm⟩ := h.cover b hbF.1
      have hne : m ≠ n := fun hne => hbF.2 (hne ▸ hbm)
      refine ⟨m, by rw [hN m hne]; exact hm, ?_⟩
      rw [hD m hne, hstay' m hne hm]
      exact hbm
    · refine ⟨n, ?_, ?_⟩
      · rw [Function.update_self]
        cases ho : o with
        | none => exact absurd ((hfree ho).2 ▸ hb) hbF
        | some => rfl
      · rw [Function.update_self, hblocks]
        exact ⟨hb, hbF⟩
  · intro m h0 h1 hm
    by_cases hne : m = n
    · rw [hne, Function.update_self] at hm ⊢
      exact (hfree hm).1
    · rw [hN m hne] at hm
      rw [hD m hne]
      exact h.free m h0 h1 hm

/-- **The file of a node changes.** -/
theorem change (h : Stores N D sb) (hn : N n = some nd) (hs : s.sb = sb)
    (hframe : FileFrame (others sb (D n)) s t) (ht : NodeHolds (others sb (D n)) t nd') :
    Stores (Function.update N n (some nd')) (Function.update D n t.ino.din) t.sb := by
  subst hs
  have hok := ht.file.super
  refine h.set (h.range n (by rw [hn]; rfl)) hok (fun k => ?_) hframe.frame.len (fun b hb => ?_)
    (fun nd hnd => ?_) fun hnone => by cases hnone
  · rw [hframe.frame.inodeFreemap]
    split_ifs with hk
    · rw [h.alloc, hk, hn]
      exact Iff.rfl
    · exact Iff.rfl
  · have hge := (live_bounds h.super.toLayout hb.1).1
    rw [dataStart_eq] at hge
    exact hframe.frame.data b (Or.inr (by omega)) fun hmine => hmine.2 hb
  · cases hnd
    exact ht.congr rfl rfl

/-- Only the blocks before the data blocks are written. -/
theorem congr (h : Stores N D sb) (hok : SuperOK sb') (hlive : sb'.live = sb.live)
    (hmem : sb'.inodeFreemap.members = sb.inodeFreemap.members) (hlen : sb.dev.len ≤ sb'.dev.len)
    (hdata : ∀ b, (dataStart : ℤ) ≤ b → sb'.dev.data b = sb.dev.data b) : Stores N D sb' := by
  have hge : ∀ b ∈ sb.live, (dataStart : ℤ) ≤ b := fun b hb => (live_bounds h.super.toLayout hb).1
  have hstay : ∀ m nd, N m = some nd → SameFile (fileOf sb (D m)) (fileOf sb' (D m)) ∧
      NodeHolds (others sb' (D m)) (fileOf sb' (D m)) nd := by
    intro m nd hm
    have hsub := h.blocks_subset (n := m) (by rw [hm]; rfl)
    exact (h.node m nd hm).stay hok (hlive ▸ hsub) hlen fun b hb => hdata b (hge b (hsub hb))
  have hblocks : ∀ m, (N m).isSome → (fileOf sb' (D m)).blocks = (fileOf sb (D m)).blocks := by
    intro m hm
    obtain ⟨nd, hm⟩ := Option.isSome_iff_exists.1 hm
    exact (hstay m nd hm).1.blocks
  refine ⟨hok, h.range, fun k => ?_, fun m nd hm => (hstay m nd hm).2, fun m k hm hk hne => ?_,
    fun b hb => ?_, h.free⟩
  · rw [hmem]
    exact h.alloc k
  · rw [hblocks m hm, hblocks k hk]
    exact h.apart m k hm hk hne
  · rw [hlive] at hb
    obtain ⟨m, hm, hbm⟩ := h.cover b hb
    exact ⟨m, hm, (hblocks m hm).symm ▸ hbm⟩

/-- A free inode has no blocks. -/
theorem others_free (h : Stores N D sb) (hn : 0 ≤ n ∧ n < maxInodes) (hN : N n = none) :
    others sb (D n) = sb.live := by
  unfold others
  rw [h.free n hn.1 hn.2 hN, blocks_zero, Set.sdiff_empty]

/-- **An inode is taken**, with no blocks yet. -/
theorem insert {j : ℕ} (h : Stores N D sb) (hj : (j : ℤ) < maxInodes) (ht : TookInode sb j sb')
    (hd : NodeHolds sb.live (fileOf sb' d) nd) :
    Stores (Function.update N j (some nd)) (Function.update D j d) sb' := by
  have hn : 0 ≤ (j : ℤ) ∧ (j : ℤ) < maxInodes := ⟨Int.natCast_nonneg j, hj⟩
  have hN : N j = none := by
    rw [← Option.not_isSome_iff_eq_none, ← h.alloc]
    exact ht.fresh
  have hF := h.others_free hn hN
  refine h.set hn ht.ok (fun k => ?_) ht.frame.len.ge (fun b hb => ?_) (fun nd' hnd => ?_)
    fun hnone => by cases hnone
  · rw [ht.members, Finset.mem_insert]
    split_ifs with hk
    · exact iff_of_true (Or.inl (by exact_mod_cast hk)) rfl
    · exact or_iff_right fun hkj => hk (by exact_mod_cast hkj)
  · have hge := live_ge h.super (hF ▸ hb)
    exact ht.frame.data b (by omega)
  · cases hnd
    rw [hF]
    exact hd

/-- **An inode is given back**, after its blocks. -/
theorem erase {j : ℕ} (h : Stores N D sb) (hN : N j = some nd) (hs : s.sb = sb)
    (hframe : FileFrame (others sb (D j)) s t) (hlive : t.sb.live = others sb (D j))
    (hg : GaveInode t.sb j sb') :
    Stores (Function.update N j none) (Function.update D j DInode.zero) sb' := by
  subst hs
  refine h.set (h.range j (by rw [hN]; rfl)) hg.ok (fun k => ?_) ?_ (fun b hb => ?_)
    (fun nd' hnd => by cases hnd) fun _ => ⟨rfl, hg.frame.live.trans hlive⟩
  · rw [hg.members, hframe.frame.inodeFreemap, Finset.mem_erase]
    split_ifs with hk
    · exact iff_of_false (fun hx => hx.1 (by exact_mod_cast hk)) fun hx => by cases hx
    · exact and_iff_right fun hkj => hk (by exact_mod_cast hkj)
  · rw [hg.frame.len]
    exact hframe.frame.len
  · have hge := live_ge h.super hb.1
    rw [hg.frame.data b (by omega)]
    exact hframe.frame.data b (Or.inr hge) fun hmine => hmine.2 hb

end Stores

/-- The inode of a new node. -/
def newDinode (type : ℤ) : DInode := { DInode.zero with iType := type }

theorem newDinode_ptr (sb : SuperBlock) (type : ℤ) (sl : Slot) :
    (fileOf sb (newDinode type)).ptr sl = 0 := newInode_ptr sb.dev.data type 0 sl

theorem newDinode_shaped (sb : SuperBlock) (type : ℤ) : Shaped (fileOf sb (newDinode type)) := by
  have hptr := newDinode_ptr sb type
  refine ⟨le_rfl, ?_, fun l hl => absurd (hptr _) hl, fun tb _ h0 => absurd (hptr _) h0, fun hd => ?_⟩
  · exact Int.natCast_nonneg maxFileSize
  · have hend : (fileOf sb (newDinode type)).blocksEnd = (0 + blockSize - 1) / blockSize := rfl
    rw [hend] at hd
    exact absurd hd (by decide)

theorem newDinode_ok (h : SuperOK sb) (type : ℤ) : FileOK sb.live (fileOf sb (newDinode type)) := by
  have hcount : (fileOf sb (newDinode type)).ino.din.blockCount = 0 := rfl
  exact noBlocks_ok (s := fileOf sb (newDinode type)) h (newDinode_ptr sb type) hcount

/-- **A new file** holds nothing. -/
theorem newFile_holds (h : SuperOK sb) :
    NodeHolds sb.live (fileOf sb (newDinode iFile)) .newFile := by
  have htype : (fileOf sb (newDinode iFile)).ino.din.iType = iFile := rfl
  have hsize : (fileOf sb (newDinode iFile)).ino.din.iSize = ((0 : ℕ) : ℤ) := rfl
  have hfile : FileHolds sb.live 0 (fun _ => none) (fileOf sb (newDinode iFile)) :=
    ⟨newDinode_ok h iFile, newDinode_shaped sb iFile, htype, hsize, fun _ _ hb => by cases hb⟩
  exact hfile

/-- So does a new directory, before its two entries. -/
theorem emptyDir_holds (h : SuperOK sb) :
    NodeHolds sb.live (fileOf sb (newDinode iDir)) (.dir fun _ => none) := by
  have htype : (fileOf sb (newDinode iDir)).ino.din.iType = iDir := rfl
  have hsize : (fileOf sb (newDinode iDir)).ino.din.iSize = ((dirBytes []).length : ℤ) := rfl
  have hnil : (dirBytes []).length = 0 := rfl
  have hdir : DirHolds sb.live [] (fileOf sb (newDinode iDir)) := by
    refine ⟨newDinode_ok h iDir, htype, hsize, ?_, ?_, ?_, ?_⟩
    · rw [hnil]
      exact Nat.two_pow_pos 31
    · exact fun p hp => absurd hp (Nat.not_lt_zero p)
    · exact fun p hp => absurd hp (Nat.not_lt_zero p)
    · exact fun e he => absurd he List.not_mem_nil
  have hentries : DirEntries sb.live (fun _ => none) (fileOf sb (newDinode iDir)) :=
    ⟨newDinode_shaped sb iDir, [], hdir, List.Pairwise.nil, fun _ => rfl⟩
  exact hentries

/-- **The blocks of a node are freed**, and no others. -/
theorem NodeHolds.freed (h : NodeHolds F s nd) : Prog.wp True testfsFreeBlocks (fun _ t =>
    t.sb.live = F ∧ FileFrame F s t) s := by
  have hsh := h.shaped
  have hfree : Prog.wp True testfsFreeBlocks _ s :=
    freeBlocks_ok h.file hsh.endBlockNr_eq (Or.inl trivial)
  refine Prog.wp_mono hfree fun _ t ht => ?_
  exact ⟨ht.1.all fun sl h0 => hsh.below_end h0, ht.1.freed.frame⟩

end OSLab.Fs
