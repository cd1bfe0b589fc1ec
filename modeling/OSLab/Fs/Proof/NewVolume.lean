import OSLab.Fs.Proof.IndexSet
import OSLab.Fs.Proof.Reopen
import OSLab.Fs.Proof.Updates

/-!
# The file system that `mktestfs` makes

Its root directory is inode 0, since the allocator takes the first free number, and has the entries
`.` and `..`: `mktestfs_rests`.
-/

namespace OSLab.Fs

open Prog

variable {N : ℤ → Option Node} {W : Set ℤ} {s t : Testfs} {sb sb' : SuperBlock}
  {dev : Device} {n r e type : ℤ} {i j k : ℕ} {entries : CString → Option ℤ} {name : CString}

/-! ### The first free number -/

/-- The inode freemap gives the first number that is free. -/
theorem inodeFreemap_least (h : SuperOK sb) (hr : testfsGetInodeFreemap sb = some (.ok j, sb'))
    (hi : i < j) : i ∈ sb.inodeFreemap.members := by
  have htook := (testfsGetInodeFreemap_ok h).of_run hr
  obtain ⟨hj, -⟩ := htook
  obtain ⟨x, sb₁, halloc, hr₁⟩ := bind_eq_some.1 hr
  obtain ⟨b₀, b₁, hb, halloc, -⟩ := zoom_eq_some.1 halloc
  obtain rfl := Option.some.inj hb
  cases x with
  | error e =>
    obtain ⟨hx, -⟩ := pure_eq_some.1 hr₁
    cases hx
  | ok k =>
    obtain ⟨_, sb₂, -, hr₂⟩ := bind_eq_some.1 hr₁
    obtain ⟨_, sb₃, -, hr₃⟩ := bind_eq_some.1 hr₂
    obtain ⟨_, sb₄, -, hr₄⟩ := bind_eq_some.1 hr₃
    obtain ⟨hx, -⟩ := pure_eq_some.1 hr₄
    obtain rfl := Except.ok.inj hx
    refine mem_members.2 ⟨?_, bitmapAlloc_least.of_run halloc _ rfl i hi⟩
    rw [h.inodeBits]
    exact hi.trans hj

namespace Held

/-- **A new inode has the smallest free number.** -/
theorem createInode_least (h : Held N W s) (hr : testfsCreateInode type s = some (.ok j, t))
    (hi : i < j) : (N i).isSome := by
  obtain ⟨x, s₁, hget, hr₁⟩ := bind_eq_some.1 hr
  obtain ⟨sb₀, sb₁, hsb, hget, -⟩ := zoom_eq_some.1 hget
  obtain rfl := Option.some.inj hsb
  cases x with
  | error e =>
    obtain ⟨hx, -⟩ := pure_eq_some.1 hr₁
    cases hx
  | ok k =>
    simp only at hr₁
    split_ifs at hr₁ with hlt
    · obtain ⟨_, _, -, hr₂⟩ := bind_eq_some.1 hr₁
      obtain ⟨hx, -⟩ := pure_eq_some.1 hr₂
      cases hx
    obtain ⟨_, s₂, -, hr₂⟩ := bind_eq_some.1 hr₁
    obtain ⟨_, s₃, -, hr₃⟩ := bind_eq_some.1 hr₂
    obtain ⟨hx, -⟩ := pure_eq_some.1 hr₃
    obtain rfl := Except.ok.inj hx
    exact (h.stores.alloc i).1 (inodeFreemap_least h.stores.super hget hi)

/-- **An inode is refused** only when all numbers are in use. -/
theorem createInode_full (h : Held N W s) (hr : testfsCreateInode type s = some (.error e, t))
    (hk : k < maxInodes) : (N k).isSome := by
  have hm : maxInodes = 16384 := rfl
  have hb : inodeBits = 65536 := rfl
  obtain ⟨x, s₁, hget, hr₁⟩ := bind_eq_some.1 hr
  obtain ⟨sb₀, sb₁, hsb, hget, -⟩ := zoom_eq_some.1 hget
  obtain rfl := Option.some.inj hsb
  have htook := (testfsGetInodeFreemap_ok h.stores.super).of_run hget
  rw [← h.stores.alloc]
  cases x with
  | error e' =>
    obtain ⟨-, -, hcard⟩ := htook
    have hsub : s.sb.inodeFreemap.members ⊆ Finset.range inodeBits := by
      rw [← h.stores.super.inodeBits]
      exact members_subset
    have hall := Finset.eq_of_subset_of_card_le hsub (by rw [hcard, Finset.card_range])
    rw [hall, Finset.mem_range]
    omega
  | ok j =>
    simp only at hr₁
    split_ifs at hr₁ with hlt
    · refine inodeFreemap_least h.stores.super hget (lt_of_lt_of_le hk ?_)
      have h1 : nrInodeBlocks = 128 := rfl
      have h2 : inodesPerBlock = 128 := rfl
      rw [h1, h2] at hlt
      omega
    obtain ⟨_, s₂, -, hr₂⟩ := bind_eq_some.1 hr₁
    obtain ⟨_, s₃, -, hr₃⟩ := bind_eq_some.1 hr₂
    obtain ⟨hx, -⟩ := pure_eq_some.1 hr₃
    cases hx

/-- **An entry in the first block** is added when the block is there, or another one is free. -/
theorem addDirent_fits {m : ℤ} (h : Held N W s) (hN : N n = some (.dir entries))
    (hfree : entries name = none) (hsmall : (s.dinode n).iSize + name.length + 9 ≤ blockSize)
    (hspace : 0 < s.sb.left ∨ 0 < (s.dinode n).iSize)
    (hr : onInode n (testfsAddDirent name m) s = some (r, t)) : 0 ≤ r := by
  have hbs : blockSize = 8192 := rfl
  obtain ⟨ino, g, hf, hrun, -⟩ := onInode_cases hr
  obtain ⟨l, hl, -, hfind⟩ := h.slots hf hN
  have hsize := hl.iSize
  rw [← din_of_find hf] at hsmall hspace
  have hsize' : ino.din.iSize = (dirBytes l).length := hsize
  rw [hsize', hbs] at hsmall
  by_contra hneg
  obtain ⟨-, p, size, hpos, hend, hleft⟩ :=
    addDirent_error hl ((hfind name).trans hfree) (by omega) hrun (not_le.1 hneg)
  have h0 : p / blockSize = 0 := by
    rw [hbs]
    omega
  have h1 : (p + size - 1) / blockSize = 0 := by
    rw [hbs]
    omega
  rw [h0, h1, FileState.missing_one] at hleft
  have hneed : (⟨s.sb, ino⟩ : FileState).need 0 ≤ 1 := List.length_filter_le _ _
  rcases hspace with hspace | hspace
  · have hleft' : s.sb.left < (⟨s.sb, ino⟩ : FileState).need 0 := hleft
    omega
  · rw [hsize'] at hspace
    have hmapped : (⟨s.sb, ino⟩ : FileState).Mapped 0 := hl.mapped 0 (by omega)
    rw [FileState.need_of_mapped hmapped] at hleft
    exact Nat.not_lt_zero _ hleft

/-- A directory with an entry is not empty. -/
theorem dir_size_pos {m : ℤ} (h : Held N W s) (hN : N n = some (.dir entries))
    (he : entries name = some m) : 0 < (s.dinode n).iSize := by
  obtain ⟨l, hl, hdist, hfind⟩ := DirEntries.slots (h.stores.node n _ hN)
  rw [← hfind, SlotTable.find_eq_some hdist] at he
  obtain ⟨l₁, l₂, rfl⟩ := List.append_of_mem he
  have hsize : (s.dinode n).iSize = _ := hl.iSize
  rw [hsize, dirBytes_append, dirBytes_cons, List.length_append, List.length_append, length_slotBytes]
  omega

/-- **A new directory fits** when a block is free. -/
theorem createEmptyDir_fits {p : ℤ} (h : Held N W s) (hN : N j = some (.dir fun _ => none))
    (hsize : (s.dinode j).iSize = 0) (hj : (j : ℤ) < maxInodes) (hspace : 0 < s.sb.left)
    (hr : testfsCreateEmptyDir p j s = some (r, t)) : 0 ≤ r := by
  have hm : maxInodes = 16384 := rfl
  have hbs : (blockSize : ℤ) = 8192 := rfl
  have hdot : CString.dot.length = 1 := rfl
  have hdotdot : CString.dotdot.length = 2 := rfl
  unfold testfsCreateEmptyDir at hr
  obtain ⟨r₁, s₁, hadd₁, hr₁⟩ := bind_eq_some.1 hr
  have h₁ := h.addDirent_fits hN rfl (by rw [hsize, hdot, hbs]; decide) (Or.inl hspace) hadd₁
  rw [if_neg (not_lt.2 h₁)] at hr₁
  have hsize₁ := h.addDirent_iSize hN rfl hadd₁ h₁
  rw [hsize, hdot] at hsize₁
  have hch₁ := h.addDirent hN rfl (by omega) hadd₁ h₁ (by omega)
  have hN₁ : Function.update N j (some (Node.dir
      (Function.update (fun _ => none) CString.dot (some (j : ℤ))))) j = some (.dir _) :=
    Function.update_self ..
  have hfree : Function.update (fun _ => none) CString.dot (some (j : ℤ)) CString.dotdot = none :=
    Function.update_of_ne (by decide) ..
  obtain ⟨r₂, s₂, hadd₂, hr₂⟩ := bind_eq_some.1 hr₁
  have hpos := hch₁.held.dir_size_pos hN₁ (Function.update_self ..)
  have h₂ := hch₁.held.addDirent_fits hN₁ hfree (by rw [hdotdot, hbs]; push_cast; omega)
    (Or.inr hpos) hadd₂
  rw [if_neg (not_lt.2 h₂)] at hr₂
  obtain ⟨rfl, -⟩ := pure_eq_some.1 hr₂
  exact le_rfl

end Held

/-! ### The root directory -/

theorem Volume.new_child {p : ℤ} {c : CString} : ¬Volume.new.Child p c n := by
  rintro ⟨he, hd, hdd⟩
  unfold Volume.entries Volume.new at he
  simp only at he
  split_ifs at he with hp
  · have hx : (Node.newDir 0 0).entries c = some n := he
    rw [Node.newDir_entries, if_neg hd, if_neg hdd] at hx
    cases hx
  · cases he

theorem Volume.new_node (h : (Volume.new.node n).isSome) : n = 0 := by
  unfold Volume.new at h
  simp only at h
  split_ifs at h with hn
  · exact hn
  · cases h

theorem Volume.new_root : Volume.new.node 0 = some (.newDir 0 0) := rfl

theorem Volume.new_ok : Volume.new.OK := by
  have hroot : Volume.new.entries 0 = (Node.newDir 0 0).entries := entries_of_node new_root
  have hdir : ∀ p, Volume.new.isDir p = true → p = 0 := fun p hp => new_node (isSome_of_isDir hp)
  refine ⟨⟨rfl, fun n hn => ?_⟩, fun p c n he => ?_, fun p hp => ?_, ?_, fun p c n hc => ?_,
    isDir_of_node new_root, isDir_of_node new_root⟩
  · obtain rfl := new_node hn
    refine ⟨[], .nil 0, fun ns hr => ?_⟩
    cases hr with
    | nil => rfl
    | snoc _ he => exact absurd he new_child
  · obtain rfl := hdir p (isDir_of_entry he)
    by_contra hn
    by_cases hd : c = CString.dot
    · rw [hroot, hd, Node.newDir_dot] at he
      obtain rfl := Option.some.inj he
      exact hn rfl
    by_cases hdd : c = CString.dotdot
    · rw [hroot, hdd, Node.newDir_dotdot] at he
      obtain rfl := Option.some.inj he
      exact hn rfl
    exact new_child ⟨he, hd, hdd⟩
  · rw [hdir p hp, hroot, Node.newDir_dot]
  · rw [hroot, Node.newDir_dotdot]
  · exact absurd hc new_child

theorem DInode.decode_zero {f : ℕ → Byte} (h : ∀ i, f i = 0) : DInode.decode f = DInode.zero := by
  simp only [decode, zero, DInode.mk.injEq]
  refine ⟨leInt_eq_zero fun i _ => h i, funext fun k => ?_, ?_, ?_, ?_, ?_⟩
  · exact leInt_eq_zero fun i _ => h _
  · exact leInt_eq_zero fun i _ => h _
  · exact leInt_eq_zero fun i _ => h _
  · exact leInt_eq_zero fun i _ => h _
  · exact leInt_eq_zero fun i _ => h _

/-- Nothing is stored on a blank device. -/
theorem blank_stores {m : ℕ} (h : Blank m dev) (hm : m ≤ blockBits) (hlen : dataStart ≤ dev.len) :
    Stores (fun _ => none) (openedSuper m dev).diskInode (openedSuper m dev) where
  super := (openedSuper_ok h hm hlen).1
  range n hn := by cases hn
  alloc k := by
    have hi : ∀ i, (openedSuper m dev).inodeFreemap.v i = 0 := fun i =>
      load_blank (fun k _ => h.rest (1 + k) (by omega)) i
    rw [members_blank hi]
    exact iff_of_false (Finset.notMem_empty k) fun hx => by cases hx
  node n nd hn := by cases hn
  apart n k hn := by cases hn
  cover b hb := by
    rw [(openedSuper_ok h hm hlen).2] at hb
    cases hb
  free n h0 h1 _ := by
    have hb := inodeBlock_bounds (openedSuper m dev) ⟨h0, h1⟩
    have hstart := (openedSuper_ok h hm hlen).1.inodeBlocksStart
    have hzero : (openedSuper m dev).dev.data ((openedSuper m dev).inodeBlock n) = Block.zero :=
      h.rest _ (by rw [hstart] at hb; omega)
    refine DInode.decode_zero fun i => ?_
    show ((openedSuper m dev).dev.data ((openedSuper m dev).inodeBlock n)).get _ = 0
    rw [hzero]
    exact Block.get_zero _

/-- **The root directory** is made. -/
theorem makeRootDir_ok (h : Held (fun _ => none) ∅ s) (hspace : 0 < s.sb.left)
    (hr : testfsMakeRootDir s = some (r, t)) : r = 0 ∧ Held Volume.new.node ∅ t := by
  have hm : maxInodes = 16384 := rfl
  have hdot : CString.dot.length = 1 := rfl
  have hdotdot : CString.dotdot.length = 2 := rfl
  have hbs : (blockSize : ℤ) = 8192 := rfl
  unfold testfsMakeRootDir testfsCreateFileOrDir at hr
  obtain ⟨x, s₁, hcreate, hr₁⟩ := bind_eq_some.1 hr
  cases x with
  | error e =>
    have hfull := h.createInode_full hcreate (k := 0) (by omega)
    cases hfull
  | ok j =>
    obtain rfl : j = 0 := by
      by_contra hj
      have hused := h.createInode_least hcreate (Nat.pos_of_ne_zero hj)
      cases hused
    obtain ⟨hheld, -, -, hnew, hleft, -⟩ := h.createInode (fun _ hok => emptyDir_holds hok) hcreate
    have hN := Function.update_self ((0 : ℕ) : ℤ) (some (Node.dir fun _ => none)) fun _ => none
    have hsize : (s₁.dinode (0 : ℕ)).iSize = 0 := by
      rw [hnew]
      rfl
    have hr₁ : (testfsCreateEmptyDir ((0 : ℕ) : ℤ) (0 : ℕ) >>= fun ret =>
        if ret < 0 then createUndo 0 ret else createEntry none 0) s₁ = some (r, t) := hr₁
    obtain ⟨ret, s₂, hempty, hr₂⟩ := bind_eq_some.1 hr₁
    have hret := hheld.createEmptyDir_fits hN hsize (by omega) (by rw [hleft]; exact hspace) hempty
    have hne : ret ≠ -enospc := by
      rintro rfl
      exact absurd hret (by decide)
    obtain ⟨rfl, hch⟩ := createEmptyDir_ok hheld hN hsize (by omega) (by decide) hempty hne
    rw [if_neg (by decide)] at hr₂
    obtain ⟨_, s₃, hsync, hr₃⟩ := bind_eq_some.1 hr₂
    obtain ⟨_, s₄, hput, hr₄⟩ := bind_eq_some.1 hr₃
    obtain ⟨rfl, rfl⟩ := pure_eq_some.1 hr₄
    obtain ⟨hheld₃, -, -⟩ := hch.held.syncInode hsync
    have hlook := hheld₃.putInode hput
    refine ⟨rfl, ?_⟩
    have hnode : Function.update (Function.update (fun _ => none) ((0 : ℕ) : ℤ)
        (some (Node.dir fun _ => none))) ((0 : ℕ) : ℤ) (some (Node.newDir (0 : ℕ) (0 : ℕ))) =
        Volume.new.node := by
      funext n
      rw [Function.update_idem, Function.update_apply]
      rfl
    have hheld₄ := hlook.held
    rw [hnode] at hheld₄
    refine hheld₄.mono ?_
    rintro x ⟨hx | hx | hx, hne⟩
    · exact absurd hx hne
    · exact absurd hx hne
    · exact hx

/-- **The file system that `mktestfs` makes** starts as the new volume. -/
theorem mktestfs_rests {mb : ℕ} (h : mktestfs mb = some dev) :
    ∃ s, mount dev = some s ∧ Rests Volume.new s := by
  unfold mktestfs at h
  simp only at h
  split_ifs at h with hmb
  have hn : mb * 2 ^ 20 / blockSize = 128 * mb := by
    have hbs : blockSize = 8192 := rfl
    rw [hbs]
    omega
  have hbits : blockFreemapSize * blockSize * 8 * blockSize / 2 ^ 20 = 8192 := rfl
  have hblocks : 128 * mb ≤ blockBits := by
    have hb : blockBits = 1048576 := rfl
    omega
  rw [hn] at h
  obtain ⟨dev₀, hmake, hblank₀⟩ := testfsMakeSuperBlock_ok (128 * mb)
  obtain ⟨_, sb, hlay, hblank, hlen⟩ := (layOut_ok hblank₀).returns
  have hinit : initFs sb.dev = some ⟨openedSuper (128 * mb) sb.dev, [], 0⟩ :=
    congrArg (Option.map _) (testfsInitSuperBlock_blank hblank hblocks hlen)
  simp only [hmake, hlay, hinit] at h
  set s₀ : Testfs := ⟨openedSuper (128 * mb) sb.dev, [], 0⟩ with hs₀
  have hheld : Held (fun _ => none) ∅ s₀ :=
    ⟨blank_stores hblank hblocks hlen, ⟨List.nodup_nil, fun ino hm => by cases hm⟩,
      fun n ino hf => by cases hf⟩
  have hleft : s₀.sb.left = 128 * mb := rfl
  cases hroot : testfsMakeRootDir s₀ with
  | none =>
    rw [hroot] at h
    cases h
  | some p =>
    obtain ⟨r, t⟩ := p
    rw [hroot] at h
    have hclose : closeFs t = some dev := h
    obtain ⟨-, hheld'⟩ := makeRootDir_ok hheld (by omega) hroot
    obtain rfl := closeFs_eq hheld'.stores.super hclose
    obtain ⟨s, hmount, hs, hopen⟩ := mount_held hheld'.written
    exact ⟨s, hmount, hs, hopen.curDir.symm, Volume.new_ok, mount_oneInode hmount⟩

end OSLab.Fs
