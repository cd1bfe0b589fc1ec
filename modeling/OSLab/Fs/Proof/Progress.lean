import OSLab.Fs.Proof.Returning

/-!
# No command fails half way

`create` and `mkdir` return too, with or without space for the new entry: what they have begun is
removed again. So every command returns after every session (`session_progress`).
-/

namespace OSLab.Fs

open Prog

variable {N : ℤ → Option Node} {W : Set ℤ} {v w : Volume} {s t u : Testfs} {n m r : ℤ} {ino : Inode}
  {nd : Node} {name : CString} {args : List CString} {reply : Reply} {entries : CString → Option ℤ}
  {F : Set ℤ} {f g : FileState} {l l₁ l₂ : List DirSlot} {buf : Buf} {p size : ℕ}

/-! ### Creating -/

/-- **Adding an entry returns**, with or without space for it. -/
theorem addDirent_attempt (h : DirHolds F l f) (hfree : SlotTable.find name l = none) (hm : 0 ≤ m)
    (hname : name.length + 9 < 2 ^ 31 - blockSize) :
    wp False (testfsAddDirent name m) (fun _ g => Attempted F f g) f := by
  have hbs : blockSize = 8192 := rfl
  have h8 : direntSize = 8 := rfl
  have hsmall := h.small
  have hlen : toInt32 (name.length + 1) = (name.length : ℤ) + 1 :=
    toInt32_of_lt (by omega) (by omega)
  have hwrite : ∀ p : ℕ, p < 2 ^ 31 → wp False (testfsWriteDirent name (toInt32 (name.length + 1)) m
      (toInt32 p)) (fun _ g => Attempted F f g) f := by
    intro p hp
    have hpos : ¬(direntSize : ℤ) + (name.length + 1) < 0 := by omega
    have hsize : (direntSize : ℤ) + (name.length + 1) = ((name.length + 9 : ℕ) : ℤ) := by
      push_cast
      omega
    have hmax : p + (name.length + 9) ≤ maxFileSize := by
      rw [maxFileSize_eq]
      omega
    have hbuf : ∀ i < name.length + 9, ((direntBuf name (name.length + 1) m).get i).isSome := by
      intro i hi
      rw [direntBuf_slot, List.getElem?_eq_getElem (by rw [slotBytes_length]; exact hi)]
      rfl
    unfold testfsWriteDirent
    rw [hlen, toInt32_of_lt (x := p) (by omega) (by omega), if_neg hpos, wp_bind,
      wp_run_iff (require_run rfl), wp_bind, wp_run_iff (require_run hm), hsize]
    exact writeData_attempt h.file hmax hname hbuf
  unfold testfsAddDirent
  rw [wp_bind, wp_getState, wp_bind, wp_run_iff (require_run h.iType), wp_bind]
  rcases addScan_cases h hfree m with ⟨l₁, e, l₂, rfl, -, -, hscan⟩ | ⟨-, hscan⟩
  · rw [wp_run_iff hscan]
    rw [dirBytes_append, List.length_append] at hsmall
    exact hwrite _ (by omega)
  · rw [wp_run_iff hscan]
    dsimp only
    rw [wp_bind, wp_run_iff (require_run rfl), h.iSize]
    exact hwrite _ hsmall

/-- The shape of a file is that of its slots, below its size. -/
theorem Shaped.of_ptr (h : Shaped f) (hp : g.ptr = f.ptr) (hi : g.ino.din.iSize = f.ino.din.iSize) :
    Shaped g := by
  have hend : g.blocksEnd = f.blocksEnd := by
    unfold FileState.blocksEnd
    rw [hi]
  refine ⟨hi ▸ h.nonneg, hi ▸ h.le, fun l hl => ?_, fun tb ht h0 => ?_, fun hd => ?_⟩
  · rw [hend]
    refine h.below l ?_
    unfold FileState.Mapped at hl ⊢
    rwa [← hp]
  · rw [hp] at h0 ⊢
    exact h.tables tb ht h0
  · rw [hend] at hd
    have hdouble : g.ptr .dindirect = f.ptr .dindirect := congrFun hp _
    exact fun h0 => h.double hd (hdouble.symm.trans h0)

/-- A block that is missing outside the part that leaks leaves the block tree as it was. -/
theorem Failed.kept {k : ℕ} (h : Failed F f k g) (hfile : FileOK F f) (hleak : ¬f.Leaves k) :
    g.ptr = f.ptr ∧ FileOK F g := by
  have hno := h.noSpace
  have hptr := h.clean hleak
  refine ⟨hptr, ⟨hno.super, hno.live ▸ hfile.sub, ?_, ?_⟩, fun b hb => ?_⟩
  · rw [hno.live, hptr]
    exact hfile.owns
  · rw [hno.live, hno.blockCount]
    exact hfile.count
  · rw [hno.live] at hb
    exact (hfile.inDev b hb).trans_le hno.frame.frame.len

/-- A write of no blocks leaves the block tree as it was. -/
theorem Written.ptr_eq {k : ℕ} {b lo hi : ℤ} (h : Written F f buf b k k lo hi g) :
    g.ptr = f.ptr := by
  funext sl
  by_cases h0 : f.ptr sl = 0
  · rw [h0]
    by_contra hne
    rcases (h.slots sl).1 hne with hne | ⟨l, h1, h2, -⟩
    · exact hne h0
    · omega
  · exact h.kept sl h0

/-- **A write to the first block**, for which there is no space, leaves the file as it was. -/
theorem writeData_undone (h : FileOK F f) (hpos : 0 < size) (hsize : size ≤ blockSize) {r : ℤ}
    (hr : testfsWriteData buf (0 : ℕ) size f = some (r, g)) (hneg : r < 0) :
    FileOK F g ∧ g.ptr = f.ptr ∧ g.ino.din.iSize = f.ino.din.iSize := by
  have hbs : blockSize = 8192 := rfl
  have hmax : 0 + size ≤ maxFileSize := by
    rw [maxFileSize_eq]
    omega
  obtain ⟨hL, -⟩ := start_block hmax
  have hwp : wp True (testfsWriteData buf (0 : ℕ) size) _ f :=
    writeData_ok h (Int.natCast_nonneg _) (Int.natCast_nonneg _) hL (Or.inl trivial)
  have hcount : 0 / blockSize + chunkCount (0 : ℕ) size = (0 + size - 1) / blockSize + 1 :=
    chunkCount_eq (by omega) (by omega)
  rcases hwp.of_run hr with ⟨hr', -⟩ | ⟨k, s₂, -, hk, ⟨s₁, hw, hstop⟩, rfl⟩
  · rw [hr', toInt32_of_lt (by omega) (by omega)] at hneg
    omega
  obtain rfl : k = 0 := by
    rw [hcount, hbs] at hk
    omega
  rw [if_neg fun hx => Nat.not_lt_zero _ hx.1]
  rcases hstop with ⟨hge, -⟩ | ⟨-, -, hfail⟩
  · exact absurd hge (by decide)
  -- nothing was written before the block that is missing
  obtain ⟨hptr, hfile⟩ := hfail.kept hw.file fun hx => absurd hx.1 (by decide)
  refine ⟨hfile, hptr.trans hw.ptr_eq, ?_⟩
  rw [hfail.noSpace.iSize, hw.iSize]

/-- A first entry for which there is no space leaves the new directory as it was. -/
theorem addDirent_undone (h : DirHolds F [] f) (hshape : Shaped f)
    (hname : name.length + 9 ≤ blockSize) {r : ℤ} (hr : testfsAddDirent name m f = some (r, g))
    (hneg : r < 0) : FileOK F g ∧ Shaped g := by
  have hbs : blockSize = 8192 := rfl
  rcases addDirent_cases h rfl hr with ⟨hlen, -⟩ | ⟨l₁, old, l₂, hl, -, -, -, -, hw⟩
  · omega
  obtain ⟨hl', -⟩ := List.append_eq_nil_iff.1 hl.symm
  obtain ⟨rfl, -⟩ := List.append_eq_nil_iff.1 hl'
  rw [slotBytes_length] at hw
  obtain ⟨hfile, hptr, hsize⟩ := writeData_undone h.file (Nat.succ_pos _) hname hw hneg
  exact ⟨hfile, hshape.of_ptr hptr hsize⟩

namespace Held

theorem createInode_returns {type : ℤ} (h : Held N W s) : Returns (testfsCreateInode type) s := by
  obtain ⟨res, sb, hrun, hres⟩ := (testfsGetInodeFreemap_ok h.stores.super).returns
  refine .bind_run (zoom_run rfl hrun) ?_
  cases res with
  | error e => exact .pure _
  | ok j =>
    obtain ⟨hlt, htook⟩ := hres
    dsimp only
    split_ifs with hge
    · have hmem : j ∈ sb.inodeFreemap.members := by
        rw [htook.members]
        exact Finset.mem_insert_self ..
      have hput : wp False (testfsPutInodeFreemap j) _ sb :=
        testfsPutInodeFreemap_ok htook.ok (Or.inr hmem)
      obtain ⟨_, sb', hput, -⟩ := hput.returns
      exact .bind_run (a := ()) (zoom_run rfl hput) (.pure _)
    · have hj : 0 ≤ (j : ℤ) ∧ (j : ℤ) < maxInodes := by
        refine ⟨Int.natCast_nonneg j, ?_⟩
        have h1 : nrInodeBlocks = 128 := rfl
        have h2 : inodesPerBlock = 128 := rfl
        have h3 : maxInodes = 16384 := rfl
        rw [h1, h2] at hge
        omega
      have hget : Returns (testfsGetInode j) { s with sb := sb } := by
        cases hf : Testfs.find { s with sb := sb } j with
        | some ino => exact .of_run (getInode_hit hf)
        | none => exact .of_run (getInode_load hf htook.ok.hasInodes hj)
      refine .bind hget fun _ t hrun => ?_
      obtain ⟨-, -, ⟨ino, hf, -⟩, -⟩ := (getInode_found _ _).of_run hrun
      exact .bind (onInode_returns hf (.of_run rfl)) fun _ _ _ => .pure _

theorem onInode_refs {α : Type} {c : Prog FileState α} {a : α} (h : Held N W s)
    (hr : onInode n c s = some (a, t)) : t.refs = s.refs := by
  obtain ⟨ino, g, -, -, hs⟩ := onInode_cases hr
  obtain rfl : t = s.wrote n g := hs
  obtain ⟨-, hsur⟩ := (onInode_balanced _ _).of_run h.counted hr
  rw [add_zero] at hsur
  exact refs_of_surplus hsur rfl

theorem syncInode_refs {a : Unit} (h : Held N W s) (hr : testfsSyncInode n s = some (a, t)) :
    t.refs = s.refs := by
  obtain ⟨-, hcur, -⟩ := h.syncInode hr
  obtain ⟨-, hsur⟩ := (syncInode_balanced _).of_run h.counted hr
  rw [add_zero] at hsur
  exact refs_of_surplus hsur hcur

/-- Another file is as it was after a write that may have stopped. -/
theorem attempted_node {c : Prog FileState ℤ} (h : Held N W s) (hn : 0 ≤ n ∧ n < maxInodes)
    (hm : N m = some nd) (hne : m ≠ n) (hf : s.find m = some ino)
    (hatt : ∀ ino, s.find n = some ino →
      wp True c (fun _ g => Attempted (others s.sb (s.dinode n)) ⟨s.sb, ino⟩ g) ⟨s.sb, ino⟩)
    (hr : onInode n c s = some (r, t)) : t.find m = some ino ∧
      (∃ F, NodeHolds F ⟨t.sb, ino⟩ nd) ∧ t.sb.inodeFreemap = s.sb.inodeFreemap := by
  obtain ⟨ino', g, hf', hrun, hs⟩ := onInode_cases hr
  obtain rfl : t = s.wrote n g := hs
  have ha := (hatt ino' hf').of_run hrun
  have hsome : (N m).isSome := by
    rw [hm]
    rfl
  have hsub := h.stores.blocks_others hn hsome hne
  obtain ⟨-, hstay⟩ :=
    (h.stores.node m nd hm).stay ha.super (hsub.trans ha.others) ha.frame.frame.len fun b hb => by
      have hge := (live_bounds h.stores.super.toLayout (hsub hb).1).1
      rw [dataStart_eq] at hge
      exact ha.frame.frame.data b (Or.inr (by omega)) fun hmine => hmine.2 (hsub hb)
  exact ⟨(wrote_find_of_ne hne).trans hf, ⟨_, hstay.congr rfl (din_of_find hf)⟩,
    ha.frame.frame.inodeFreemap⟩

end Held

/-- **The entry of a new node** is made, or the node is removed again. -/
theorem createEntry_returns {j : ℕ} (h : Held N W s) (hN : N n = some (.dir entries))
    (hj : N j = some nd) (hne : (j : ℤ) ≠ n) (hfree : entries name = none)
    (hname : name.length + 9 < 2 ^ 31 - blockSize)
    (hroom : (s.dinode n).iSize + name.length + 9 < 2 ^ 31) (hrefs : 0 < s.refs n)
    (hrefs' : 0 < s.refs j) : Returns (createEntry (some (n, name)) j) s := by
  obtain ⟨ino, hf⟩ := find_of_refs hrefs
  obtain ⟨inoj, hfj⟩ := find_of_refs hrefs'
  obtain ⟨l, hl, -, hfind⟩ := h.slots hf hN
  have hsome : (N j).isSome := by
    rw [hj]
    rfl
  have hadd := addDirent_attempt hl ((hfind name).trans hfree) (Int.natCast_nonneg j) hname
  refine .bind (onInode_returns hf (.of_wp hadd)) fun ret s₁ hrun => ?_
  split_ifs with hneg
  · -- the new inode is as it was, and is removed
    have hc₁ := ((onInode_balanced _ _).of_run h.counted hrun).1
    have hatt : ∀ ino, s.find n = some ino → wp True (testfsAddDirent name j)
        (fun _ g => Attempted (others s.sb (s.dinode n)) ⟨s.sb, ino⟩ g) ⟨s.sb, ino⟩ := by
      intro ino' hf'
      obtain rfl := Option.some.inj (hf.symm.trans hf')
      exact hadd.weaken
    have hn := (h.inMemory n ino hf).1
    obtain ⟨hfj₁, ⟨F, hnode⟩, hmap⟩ := h.attempted_node hn hj hne hfj hatt hrun
    have hmem : j ∈ s₁.sb.inodeFreemap.members := by
      rw [hmap]
      exact (h.stores.alloc j).2 hsome
    have hjlt := (h.stores.range j hsome).2
    refine .bind (removeInode_returns hfj₁ hnode.file hnode.shaped hjlt hmem hc₁) fun _ _ _ => ?_
    exact .pure _
  · have hlonger := h.addDirent_iSize hN hfree hrun (not_lt.1 hneg)
    have hm : maxInodes = 16384 := rfl
    have hjlt := (h.stores.range j hsome).2
    have hch := h.addDirent hN hfree (by omega) hrun (not_lt.1 hneg) (by omega)
    rw [← h.onInode_refs hrun] at hrefs hrefs'
    obtain ⟨ino₁, hf₁⟩ := find_of_refs hrefs
    refine .bind (hch.held.syncInode_returns hf₁) fun _ s₂ hsync₂ => ?_
    obtain ⟨hheld₂, -⟩ := hch.held.syncInode hsync₂
    rw [← hch.held.syncInode_refs hsync₂] at hrefs'
    obtain ⟨ino₂, hf₂⟩ := find_of_refs hrefs'
    refine .bind (hheld₂.syncInode_returns hf₂) fun _ s₃ hsync₃ => ?_
    obtain ⟨hheld₃, -⟩ := hheld₂.syncInode hsync₃
    rw [← hheld₂.syncInode_refs hsync₃] at hrefs'
    obtain ⟨ino₃, hf₃⟩ := find_of_refs hrefs'
    exact .bind (hheld₃.putInode_returns hf₃ fun hx => hx.2 rfl) fun _ _ _ => .pure _

section EmptyDir

variable {j : ℕ}

theorem createEmptyDir_returns (h : Held N W s) (hN : N j = some (.dir fun _ => none))
    (hsize : (s.dinode j).iSize = 0) (hj : (j : ℤ) < maxInodes) (hn : 0 ≤ n)
    (hrefs : 0 < s.refs j) : Returns (testfsCreateEmptyDir n j) s := by
  have hm : maxInodes = 16384 := rfl
  have hdot : CString.dot.length = 1 := rfl
  obtain ⟨ino, hf⟩ := find_of_refs hrefs
  obtain ⟨l, hl, -, hfind⟩ := h.slots hf hN
  have hadd := addDirent_attempt hl (hfind CString.dot) (Int.natCast_nonneg j) (by decide)
  refine .bind (onInode_returns hf (.of_wp hadd)) fun ret s₁ hrun => ?_
  split_ifs with hneg
  · exact .pure _
  have hsize₁ := h.addDirent_iSize hN rfl hrun (not_lt.1 hneg)
  rw [hsize, hdot] at hsize₁
  have hch := h.addDirent hN rfl (by omega) hrun (not_lt.1 hneg) (by omega)
  rw [← h.onInode_refs hrun] at hrefs
  obtain ⟨ino₁, hf₁⟩ := find_of_refs hrefs
  obtain ⟨l₁, hl₁, -, hfind₁⟩ := hch.held.slots hf₁ (Function.update_self ..)
  have hfree : Function.update (fun _ => none) CString.dot (some (j : ℤ)) CString.dotdot = none :=
    Function.update_of_ne (by decide) ..
  have hadd₁ := addDirent_attempt hl₁ ((hfind₁ CString.dotdot).trans hfree) hn (by decide)
  refine .bind (onInode_returns hf₁ (.of_wp hadd₁)) fun ret' s₂ _ => ?_
  split_ifs
  · refine .bind ?_ fun _ _ _ => .pure _
    unfold testfsRemoveDirent
    rw [if_pos (Or.inl rfl)]
    exact .pure _
  · exact .pure _

/-- When there is no space for the first entries, the new inode is still without blocks. -/
theorem createEmptyDir_undone (h : Held N W s) (hN : N j = some (.dir fun _ => none))
    (hsize : (s.dinode j).iSize = 0) (hj : (j : ℤ) < maxInodes)
    (hr : testfsCreateEmptyDir n j s = some (r, t)) (hneg : r < 0) :
    ∃ ino F, t.find j = some ino ∧ FileOK F ⟨t.sb, ino⟩ ∧ Shaped ⟨t.sb, ino⟩ ∧
      t.sb.inodeFreemap = s.sb.inodeFreemap := by
  have hm : maxInodes = 16384 := rfl
  have hbs : blockSize = 8192 := rfl
  have hdot : CString.dot.length = 1 := rfl
  have hdotdot : CString.dotdot.length = 2 := rfl
  unfold testfsCreateEmptyDir at hr
  obtain ⟨r₁, s₁, hadd₁, hr₁⟩ := bind_eq_some.1 hr
  split_ifs at hr₁ with hneg₁
  · obtain ⟨rfl, rfl⟩ := pure_eq_some.1 hr₁
    obtain ⟨ino, g, hf, hrun, hs⟩ := onInode_cases hadd₁
    obtain rfl : s₁ = s.wrote j g := hs
    obtain ⟨l, hl, -, hfind⟩ := h.slots hf hN
    have hnil : l = [] := by
      have hlen : ino.din.iSize = (dirBytes l).length := hl.iSize
      rw [din_of_find hf, hsize] at hlen
      have hle := length_le_dirBytes l
      exact List.length_eq_zero_iff.1 (by omega)
    subst hnil
    obtain ⟨hfile, hshape⟩ := addDirent_undone hl (h.node hf hN).shaped (by rw [hdot, hbs]; decide)
      hrun hneg
    have hadd := addDirent_attempt hl (hfind CString.dot) (Int.natCast_nonneg j) (by decide)
    have hatt := hadd.of_run hrun
    refine ⟨_, others s.sb (s.dinode j), wrote_find hf, ?_, hshape.of_ptr rfl rfl,
      hatt.frame.frame.inodeFreemap⟩
    exact ⟨⟨hfile.super, hfile.sub, hfile.owns, hfile.count⟩, hfile.inDev⟩
  · -- the second entry is in the block of the first
    exfalso
    have hsize₁ := h.addDirent_iSize hN rfl hadd₁ (not_lt.1 hneg₁)
    rw [hsize, hdot] at hsize₁
    have hch₁ := h.addDirent hN rfl (by omega) hadd₁ (not_lt.1 hneg₁) (by omega)
    have hfree : Function.update (fun _ => none) CString.dot (some (j : ℤ)) CString.dotdot = none :=
      Function.update_of_ne (by decide) ..
    obtain ⟨r₂, s₂, hadd₂, hr₂⟩ := bind_eq_some.1 hr₁
    have hN₁ : Function.update N j (some (Node.dir
        (Function.update (fun _ => none) CString.dot (some (j : ℤ))))) j = some (.dir _) :=
      Function.update_self ..
    have hpos := hch₁.held.dir_size_pos hN₁ (Function.update_self ..)
    have h₂ := hch₁.held.addDirent_fits hN₁ hfree (by rw [hdotdot, hbs]; push_cast; omega)
      (Or.inr hpos) hadd₂
    rw [if_neg (not_lt.2 h₂)] at hr₂
    obtain ⟨rfl, -⟩ := pure_eq_some.1 hr₂
    exact lt_irrefl _ hneg

end EmptyDir

theorem refs_eq (s : Testfs) : s.refs = s.surplus + Pi.single s.curDir 1 := (sub_add_cancel ..).symm

/-- The new inode and the current directory are both in memory. -/
theorem refs_created (hsur : s.surplus = Pi.single m 1) (hcur : s.curDir = n) (hne : n ≠ m) :
    0 < s.refs n ∧ 0 < s.refs m := by
  rw [refs_eq, hsur, hcur, Pi.add_apply, Pi.add_apply, Pi.single_eq_same, Pi.single_eq_same,
    Pi.single_eq_of_ne hne, Pi.single_eq_of_ne hne.symm]
  exact ⟨Int.one_pos, Int.one_pos⟩

/-- **A new file or directory** is made, or nothing is left of it. -/
theorem Rests.createInode_returns (h : Rests v s) {type : ℤ} (htype : type = iFile ∨ type = iDir)
    (hl : v.lookup name = none) (hname : name.length + 9 < 2 ^ 31 - blockSize)
    (hroom : (s.dinode s.curDir).iSize + name.length + 9 < 2 ^ 31) :
    Returns (Fs.createInode (some (s.curDir, name)) type) s := by
  refine .bind h.held.createInode_returns fun res s₁ hcreate => ?_
  obtain ⟨hc₁, hsur₁⟩ := (createInode_adds type).of_run h.held.counted hcreate
  cases res with
  | error e => exact .pure _
  | ok j =>
    dsimp only at hsur₁ ⊢
    rw [(oneInode_iff.1 h.one).2, zero_add] at hsur₁
    have hcurR := h.held.stores.range s.curDir (by rw [h.node_cur]; rfl)
    have hfree : v.entries s.curDir name = none := by
      rw [← h.cur]
      exact hl
    have hcurN : ∀ nd, s.curDir ≠ j →
        Function.update v.node j (some nd) s.curDir = some (.dir (v.entries s.curDir)) :=
      fun nd hne => (Function.update_of_ne hne ..).trans h.node_cur
    rcases htype with rfl | rfl
    · rw [if_neg (by decide)]
      obtain ⟨hheld, hj, hcur, -, -, hdin⟩ := h.held.createInode (fun _ hok => newFile_holds hok)
        hcreate
      have hne : s.curDir ≠ j := fun hx => by rw [← hx, h.node_cur] at hj; cases hj
      obtain ⟨h1, h2⟩ := refs_created hsur₁ hcur hne
      rw [← hdin _ hcurR hne] at hroom
      exact createEntry_returns hheld (hcurN _ hne) (Function.update_self ..) hne.symm hfree hname
        hroom h1 h2
    · rw [if_pos rfl]
      obtain ⟨hheld, hj, hcur, hnew, -, hdin⟩ :=
        h.held.createInode (fun _ hok => emptyDir_holds hok) hcreate
      have hjr := hheld.stores.range j (by rw [Function.update_self]; rfl)
      have hne : s.curDir ≠ j := fun hx => by rw [← hx, h.node_cur] at hj; cases hj
      have hN := Function.update_self (j : ℤ) (some (Node.dir fun _ => none)) v.node
      have hsize : (s₁.dinode j).iSize = 0 := by
        rw [hnew]
        rfl
      obtain ⟨h1, h2⟩ := refs_created hsur₁ hcur hne
      refine .bind (createEmptyDir_returns hheld hN hsize hjr.2 hcurR.1 h2) fun ret s₂ hempty => ?_
      obtain ⟨hc₂, hsur₂⟩ := (createEmptyDir_balanced _ _).of_run hc₁ hempty
      rw [add_zero] at hsur₂
      split_ifs with hneg
      · obtain ⟨ino, F, hf, hfile, hshape, hmap⟩ :=
          createEmptyDir_undone hheld hN hsize hjr.2 hempty hneg
        have hmem : j ∈ s₂.sb.inodeFreemap.members := by
          rw [hmap, hheld.stores.alloc j, Function.update_self]
          rfl
        exact .bind (removeInode_returns hf hfile hshape hjr.2 hmem hc₂) fun _ _ _ => .pure _
      · have hspace : ret ≠ -enospc := fun hx => hneg (hx ▸ by decide)
        have hm : maxInodes = 16384 := rfl
        obtain ⟨-, hch⟩ :=
          createEmptyDir_ok hheld hN hsize hjr.2 (n := s.curDir) (by omega) hempty hspace
        have hheld₂ := hch.held
        rw [Function.update_idem] at hheld₂
        rw [← hdin _ hcurR hne, ← hch.dinode _ hcurR hne] at hroom
        obtain ⟨h1, h2⟩ := refs_created (hsur₂.trans hsur₁) (hch.curDir.trans hcur) hne
        exact createEntry_returns hheld₂ (hcurN _ hne) (Function.update_self ..) hne.symm hfree
          hname hroom h1 h2

theorem cmdCreate_returns (h : Rests v s) {type : ℤ} {c : Command}
    (hc : type = iFile ∧ c = ⟨.create, args⟩ ∨ type = iDir ∧ c = ⟨.mkdir, args⟩)
    (hin : c.InRange s) (hsum : c.Sums) : Returns (cmdCreateType type args) s := by
  rcases args with _ | ⟨name, _ | ⟨b, l⟩⟩
  · exact .pure _
  · have hroom : (s.dinode s.curDir).iSize + name.length + 9 < 2 ^ 31 := by
      rcases hc with ⟨-, rfl⟩ | ⟨-, rfl⟩ <;> exact hin
    have hname : name.length + 9 < 2 ^ 31 - blockSize := by
      rcases hc with ⟨-, rfl⟩ | ⟨-, rfl⟩ <;> exact hsum
    obtain ⟨cur, hcur⟩ := h.find_cur
    refine .bind_run (getState_run s) (.bind (.bind_run (inode_run hcur) ?_) fun _ _ _ => .pure _)
    have hlook := h.held.lookup hcur h.node_cur name
    rw [← h.cur] at hlook
    refine .bind_run (reads_run hlook) ?_
    change Returns (if 0 ≤ (v.lookup name).getD (-enoent) then _ else _) s
    cases hl : v.lookup name with
    | some n =>
      have h0 := (h.held.stores.range n (h.ok.target _ _ _ hl)).1
      rw [Option.getD_some, if_pos h0]
      exact .pure _
    | none =>
      rw [Option.getD_none, if_neg (by decide)]
      exact h.createInode_returns (hc.imp And.left And.left) hl hname hroom
  · exact .pure _

/-! ### Every command -/

/-- **No command fails half way**: none reaches a failed assertion, uses memory outside an object or
a block outside the device, or goes on for ever. -/
theorem command_returns (h : Rests v s) {c : Command} (hin : c.InRange s) (hsum : c.Sums) :
    ∃ fuel, Returns (c.run fuel) s := by
  obtain ⟨cmd, args⟩ := c
  cases cmd with
  | cd => exact ⟨0, cmdCd_returns h⟩
  | pwd =>
    obtain ⟨k, hk⟩ : ∃ k, ∀ fuel, k ≤ fuel → Returns (cmdPwd fuel args) s := cmdPwd_returns h
    exact ⟨k, hk k le_rfl⟩
  | ls =>
    obtain ⟨k, hk⟩ : ∃ k, ∀ fuel, k ≤ fuel → Returns (cmdLsInternal fuel args false) s :=
      cmdLs_returns h
    exact ⟨k, hk k le_rfl⟩
  | lsr =>
    obtain ⟨k, hk⟩ : ∃ k, ∀ fuel, k ≤ fuel → Returns (cmdLsInternal fuel args true) s :=
      cmdLs_returns h
    exact ⟨k, hk k le_rfl⟩
  | create => exact ⟨0, cmdCreate_returns h (Or.inl ⟨rfl, rfl⟩) hin hsum⟩
  | stat => exact ⟨0, cmdStat_returns h⟩
  | rm => exact ⟨0, cmdRm_returns h hsum⟩
  | mkdir => exact ⟨0, cmdCreate_returns h (Or.inr ⟨rfl, rfl⟩) hin hsum⟩
  | read => exact ⟨0, cmdRead_returns h hin hsum⟩
  | write => exact ⟨0, cmdWrite_returns h hin⟩
  | fsstat => exact ⟨0, cmdFsstat_returns⟩

/-- **After every session each command returns**, with or without space for it. -/
theorem session_progress {dev : Device} {mb : ℕ} {as : List Action} {c : Command}
    (hd : mktestfs mb = some dev) (hm : mount dev = some s) (hr : Run sessionStep s as t)
    (hin : c.InRange t) (hsum : c.Sums) : ∃ reply u, step t ⟨c, reply⟩ u := by
  obtain ⟨v, -, hv⟩ := (new_rests hd hm).run hr
  obtain ⟨fuel, reply, u, hrun⟩ := command_returns hv hin hsum
  exact ⟨reply, u, fuel, hrun⟩

theorem session_progress_sample : ∃ dev s t reply u, mktestfs 1 = some dev ∧ mount dev = some s ∧
    Run sessionStep s sampleSession t ∧ step t ⟨⟨.lsr, [CString.dot]⟩, reply⟩ u := by
  obtain ⟨dev, s, t, hd, hm, hr, -⟩ := sampleSession_run
  obtain ⟨reply, u, h⟩ := session_progress (c := ⟨.lsr, [CString.dot]⟩) hd hm hr trivial trivial
  exact ⟨dev, s, t, reply, u, hd, hm, hr, h⟩

end OSLab.Fs
