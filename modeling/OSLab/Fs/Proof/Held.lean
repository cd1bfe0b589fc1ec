import OSLab.Fs.Proof.Pwd
import OSLab.Fs.Proof.Ranges
import OSLab.Fs.Proof.Stores

/-!
# The volume in memory and on the device

`Held N W s` is what holds while a command runs: the inodes, each in memory or on the device, store
the nodes `N`, and only those of `W` are still to be written back. Every function of the inode
table keeps it: `Held.getInode`, `Held.putInode`, `Held.syncInode`, `Held.onInode`.
-/

namespace OSLab.Fs

open Prog

variable {N N' : ℤ → Option Node} {W W' : Set ℤ} {s t u : Testfs} {n x : ℤ} {ino : Inode}
  {nd nd' : Node} {sb sb' : SuperBlock} {D D' : ℤ → DInode} {α : Type} {a : α} {v : Unit}

/-- **The nodes `N` are held**, with the inodes `W` still to be written back. -/
structure Held (N : ℤ → Option Node) (W : Set ℤ) (s : Testfs) : Prop where
  stores : Stores N s.dinode s.sb
  counted : Counted s
  inMemory : ∀ n ino, s.find n = some ino → (0 ≤ n ∧ n < maxInodes) ∧
    (ino.dirty = false → s.sb.diskInode n = ino.din) ∧ (ino.dirty = true → n ∈ W)

/-- Inodes were loaded or dropped, and nothing else happened. -/
structure Looked (N : ℤ → Option Node) (W : Set ℤ) (s t : Testfs) : Prop where
  held : Held N W t
  sb : t.sb = s.sb
  curDir : t.curDir = s.curDir
  dinode : ∀ x, t.dinode x = s.dinode x

theorem Looked.trans (h : Looked N W s t) (h' : Looked N W t u) : Looked N W s u :=
  ⟨h'.held, h'.sb.trans h.sb, h'.curDir.trans h.curDir, fun x => (h'.dinode x).trans (h.dinode x)⟩

theorem Stores.of_eq (h : Stores N D sb) (hD : ∀ x : ℤ, 0 ≤ x → x < maxInodes → D' x = D x) :
    Stores N D' sb := by
  have hsome : ∀ x, (N x).isSome → D' x = D x := fun x hx => hD x (h.range x hx).1 (h.range x hx).2
  refine ⟨h.super, h.range, h.alloc, fun x nd hx => ?_, fun x y hx hy hne => ?_, fun b hb => ?_,
    fun x h0 h1 hx => ?_⟩
  · rw [hsome x (by rw [hx]; rfl)]
    exact h.node x nd hx
  · rw [hsome x hx, hsome y hy]
    exact h.apart x y hx hy hne
  · obtain ⟨x, hx, hbx⟩ := h.cover b hb
    exact ⟨x, hx, (hsome x hx).symm ▸ hbx⟩
  · rw [hD x h0 h1]
    exact h.free x h0 h1 hx

/-- The inodes on the device are before the data blocks. -/
theorem diskInode_congr (h : SuperOK sb) (h' : SuperOK sb') (hx : 0 ≤ x ∧ x < maxInodes)
    (hdata : ∀ b, 18 ≤ b → b < (dataStart : ℤ) → sb'.dev.data b = sb.dev.data b) :
    sb'.diskInode x = sb.diskInode x := by
  have hb := inodeBlock_bounds sb hx
  have hn : nrInodeBlocks = 128 := rfl
  have hd : dataStart = 146 := rfl
  have hblock : sb'.inodeBlock x = sb.inodeBlock x := by
    unfold SuperBlock.inodeBlock
    rw [h.inodeBlocksStart, h'.inodeBlocksStart]
  rw [h.inodeBlocksStart] at hb
  unfold SuperBlock.diskInode
  have heq := hdata (sb.inodeBlock x) (by omega) (by omega)
  rw [← hblock] at heq
  unfold SuperBlock.inodeBlock at heq hblock
  rw [heq, hblock]

theorem dinode_of_find (hf : t.find x = s.find x) (hd : t.sb.diskInode x = s.sb.diskInode x) :
    t.dinode x = s.dinode x := by
  unfold Testfs.dinode
  rw [hf, hd]

theorem dinode_of_none (hf : s.find x = none) : s.dinode x = s.sb.diskInode x := by
  unfold Testfs.dinode
  rw [hf, Option.elim_none]

namespace Held

theorem mono (h : Held N W s) (hW : W ⊆ W') : Held N W' s :=
  ⟨h.stores, h.counted, fun n ino hf =>
    ⟨(h.inMemory n ino hf).1, (h.inMemory n ino hf).2.1, fun hd => hW ((h.inMemory n ino hf).2.2 hd)⟩⟩

/-- **One inode of the table changes.** -/
theorem set (h : Held N W s) (hc : Counted t) (hother : ∀ x, x ≠ n → t.find x = s.find x)
    (hdisk : ∀ x, x ≠ n → 0 ≤ x ∧ x < maxInodes → t.sb.diskInode x = s.sb.diskInode x)
    (hW : ∀ x ∈ W, x ≠ n → x ∈ W')
    (hn : ∀ ino, t.find n = some ino → (0 ≤ n ∧ n < maxInodes) ∧
      (ino.dirty = false → t.sb.diskInode n = ino.din) ∧ (ino.dirty = true → n ∈ W'))
    (hst : Stores N' t.dinode t.sb) : Held N' W' t := by
  refine ⟨hst, hc, fun x ino hf => ?_⟩
  by_cases hx : x = n
  · subst hx
    exact hn ino hf
  · rw [hother x hx] at hf
    obtain ⟨hr, hclean, hdirty⟩ := h.inMemory x ino hf
    refine ⟨hr, fun hd => ?_, fun hd => hW x (hdirty hd) hx⟩
    rw [hdisk x hx hr]
    exact hclean hd

theorem hasInodes (h : Held N W s) : s.sb.HasInodes := h.stores.super.hasInodes

/-- Loading an inode. -/
theorem getInode (h : Held N W s) (hr : testfsGetInode n s = some (v, t)) :
    Looked N W s t ∧ ∃ ino, t.find n = some ino ∧ ino.din = s.dinode n := by
  obtain ⟨hsb, hcur, ⟨ino, hf, hdin⟩, hother⟩ := (getInode_found s n).of_run hr
  have hc := ((getInode_adds n).of_run h.counted hr).1
  have hdinode : ∀ x, t.dinode x = s.dinode x := by
    intro x
    by_cases hx : x = n
    · rw [hx, ← hdin]
      exact (din_of_find hf).symm
    · exact dinode_of_find (hother x hx) (by rw [hsb])
  refine ⟨⟨?_, hsb, hcur, hdinode⟩, ino, hf, hdin⟩
  refine h.set hc hother (fun x _ _ => by rw [hsb]) (fun x hx _ => hx) (fun ino' hf' => ?_) ?_
  · cases hs : s.find n with
    | some old =>
      -- one more reference
      have hg : Assigns 1 fun ino : Inode => { ino with iCount := ino.iCount + 1 } :=
        ⟨fun _ => rfl, fun _ => rfl⟩
      rw [getInode_hit hs] at hr
      obtain ⟨-, rfl⟩ := Prod.mk.inj (Option.some.inj hr)
      rw [find_update hg, hs, Option.map_some, if_pos (find_mem hs).2] at hf'
      obtain rfl := Option.some.inj hf'
      exact h.inMemory n old hs
    | none =>
      by_cases hn : 0 ≤ n ∧ n < maxInodes
      · rw [getInode_load hs h.hasInodes hn] at hr
        obtain ⟨-, rfl⟩ := Prod.mk.inj (Option.some.inj hr)
        have hnew : (⟨s.sb.diskInode n, false, n, 1⟩ : Inode) = ino' := by
          simpa [Testfs.find, inodeHashFind] using hf'
        subst hnew
        exact ⟨hn, fun _ => rfl, fun hd => by cases hd⟩
      · -- the number is out of range
        exfalso
        unfold testfsGetInode at hr
        rw [bind_of_run (getState_run s), hs] at hr
        simp only [testfsReadInodeBlock, bind_eq_some, reads_eq_some, testfsInodeToBlockNr,
          if_neg hn] at hr
        obtain ⟨_, _, ⟨_, _, ⟨hx, -⟩, -⟩, -⟩ := hr
        cases hx
  · rw [hsb]
    exact h.stores.of_eq fun x _ _ => hdinode x

/-- Giving an inode up. -/
theorem putInode (h : Held N W s) (hr : testfsPutInode n s = some (v, t)) : Looked N W s t := by
  obtain ⟨hsb, hcur, hother⟩ := putInode_others h.counted.nodup hr
  have hc := ((putInode_adds n).of_run h.counted hr).1
  cases hs : s.find n with
  | none =>
    rw [putInode_none hs] at hr
    cases hr
  | some ino =>
    cases hd : ino.dirty with
    | true =>
      rw [putInode_dirty hs hd] at hr
      cases hr
    | false =>
      obtain ⟨-, hfind⟩ := (putInode_ok hs hd h.counted.nodup).of_run hr
      obtain ⟨hrange, hclean, -⟩ := h.inMemory n ino hs
      have hdinode : ∀ x, t.dinode x = s.dinode x := by
        intro x
        by_cases hx : x = n
        · subst hx
          rw [← din_of_find hs]
          rcases hfind with hf | ⟨c, hf⟩
          · rw [dinode_of_none hf, hsb]
            exact hclean hd
          · exact (din_of_find hf).symm
        · exact dinode_of_find (hother x hx) (by rw [hsb])
      refine ⟨?_, hsb, hcur, hdinode⟩
      refine h.set hc hother (fun x _ _ => by rw [hsb]) (fun x hx _ => hx) (fun ino' hf' => ?_) ?_
      · rcases hfind with hf | ⟨c, hf⟩
        · rw [hf] at hf'
          cases hf'
        · rw [hf] at hf'
          obtain rfl := Option.some.inj hf'
          rw [hsb]
          exact h.inMemory n ino hs
      · rw [hsb]
        exact h.stores.of_eq fun x _ _ => hdinode x

end Held

/-! ### Writing an inode back -/

theorem SuperOK.putInode (h : SuperOK sb) (hx : 0 ≤ x ∧ x < maxInodes) (d : DInode) :
    SuperOK (sb.putInode x d) := by
  have hb := inodeBlock_bounds sb hx
  have hn : nrInodeBlocks = 128 := rfl
  rw [h.inodeBlocksStart] at hb
  refine { h with len := h.len.trans (le_max_left _ _), diskSuper := ?_, diskInodes := ?_,
                  diskBlocks := fun k hk => ?_ }
  · exact (Function.update_of_ne (by omega) ..).trans h.diskSuper
  · exact (Function.update_of_ne (by omega) ..).trans h.diskInodes
  · exact (Function.update_of_ne (by omega) ..).trans (h.diskBlocks k hk)

theorem putInode_data (h : SuperOK sb) (hx : 0 ≤ x ∧ x < maxInodes) (d : DInode) {b : ℤ}
    (hb : (dataStart : ℤ) ≤ b) : (sb.putInode x d).dev.data b = sb.dev.data b := by
  have hi := inodeBlock_bounds sb hx
  have hn : nrInodeBlocks = 128 := rfl
  have hd : dataStart = 146 := rfl
  rw [h.inodeBlocksStart] at hi
  exact Function.update_of_ne (by omega) ..

namespace Held

/-- Every inode fits in its 64 bytes. -/
theorem fits (h : Held N W s) (hx : 0 ≤ x ∧ x < maxInodes) : (s.dinode x).Fits := by
  cases hN : N x with
  | none =>
    rw [h.stores.free x hx.1 hx.2 hN]
    refine ⟨fun k => ?_, by decide⟩
    have hzero : DInode.zero.word k = 0 := by
      unfold DInode.word DInode.blockNr
      split_ifs <;> rfl
    rw [hzero]
    decide
  | some nd => exact (h.stores.node x nd hN).fits

/-- **Writing an inode back.** -/
theorem syncInode (h : Held N W s) (hr : testfsSyncInode n s = some (v, t)) :
    Held N (W \ {n}) t ∧ t.curDir = s.curDir ∧
      ∀ x : ℤ, 0 ≤ x ∧ x < maxInodes → t.dinode x = s.dinode x := by
  have hc := ((syncInode_balanced n).of_run h.counted hr).1
  have hW : ∀ x ∈ W, x ≠ n → x ∈ W \ {n} := fun x hx hne => ⟨hx, hne⟩
  cases hs : s.find n with
  | none =>
    rw [syncInode_none hs] at hr
    cases hr
  | some ino =>
    obtain ⟨hrange, hclean, -⟩ := h.inMemory n ino hs
    cases hd : ino.dirty with
    | false =>
      rw [syncInode_clean hs hd] at hr
      obtain ⟨-, rfl⟩ := Prod.mk.inj (Option.some.inj hr)
      refine ⟨?_, rfl, fun _ _ => rfl⟩
      refine h.set hc (fun _ _ => rfl) (fun _ _ _ => rfl) hW (fun ino' hf => ?_) h.stores
      rw [hs] at hf
      obtain rfl := Option.some.inj hf
      exact ⟨hrange, hclean, fun hx => by rw [hd] at hx; cases hx⟩
    | true =>
      rw [syncInode_dirty hs hd h.hasInodes hrange] at hr
      obtain ⟨-, rfl⟩ := Prod.mk.inj (Option.some.inj hr)
      set t : Testfs := { s.updateInode n fun ino => { ino with dirty := false } with
        sb := s.sb.putInode n ino.din } with ht
      have hsb : t.sb = s.sb.putInode n ino.din := rfl
      have hfits := h.fits hrange
      have hself : t.find n = some { ino with dirty := false } := by
        have hu : (s.updateInode n _).find n = _ := find_update assigns_clean
        rw [hs, Option.map_some, if_pos (find_mem hs).2] at hu
        exact hu
      have hother : ∀ x, x ≠ n → t.find x = s.find x := fun x hx =>
        find_update_of_ne assigns_clean hx
      have hdisk : ∀ x, x ≠ n → 0 ≤ x ∧ x < maxInodes → t.sb.diskInode x = s.sb.diskInode x := by
        intro x hx hxr
        rw [hsb, diskInode_putInode _ _ hrange.1 hxr.1, if_neg hx]
      have hdisk' : t.sb.diskInode n = ino.din := by
        rw [hsb, diskInode_putInode _ _ hrange.1 hrange.1, if_pos rfl]
        rw [← din_of_find hs] at hfits
        exact hfits.decode_encode
      have hdinode : ∀ x : ℤ, 0 ≤ x ∧ x < maxInodes → t.dinode x = s.dinode x := by
        intro x hx
        by_cases hxn : x = n
        · rw [hxn, ← din_of_find hself, ← din_of_find hs]
        · exact dinode_of_find (hother x hxn) (hdisk x hxn hx)
      refine ⟨?_, rfl, hdinode⟩
      refine h.set hc hother hdisk hW (fun ino' hf => ?_) ?_
      · rw [hself] at hf
        obtain rfl := Option.some.inj hf
        exact ⟨hrange, fun _ => hdisk', fun hx => by cases hx⟩
      · have hst : Stores N s.dinode t.sb := by
          refine h.stores.congr (h.stores.super.putInode hrange _) rfl rfl (le_max_left _ _) ?_
          exact fun b hb => putInode_data h.stores.super hrange _ hb
        exact hst.of_eq fun x h0 h1 => hdinode x ⟨h0, h1⟩

/-! ### Changing the file of an inode -/

/-- An inode in memory, with the node it stores. -/
theorem node (h : Held N W s) (hf : s.find n = some ino) (hN : N n = some nd) :
    NodeHolds (others s.sb (s.dinode n)) ⟨s.sb, ino⟩ nd :=
  (h.stores.node n nd hN).congr rfl (din_of_find hf)

end Held

variable {f : FileState} {F : Set ℤ}

theorem wrote_find (hs : s.find n = some ino) :
    (s.wrote n f).find n = some { ino with din := f.ino.din, dirty := f.ino.dirty } :=
  find_onInode hs

theorem wrote_find_of_ne (hx : x ≠ n) : (s.wrote n f).find x = s.find x := by
  have hg : Assigns 0 fun ino : Inode => { ino with din := f.ino.din, dirty := f.ino.dirty } :=
    ⟨fun _ => rfl, fun _ => (add_zero _).symm⟩
  exact find_update_of_ne hg hx

theorem wrote_counted (hc : Counted s) : Counted (s.wrote n f) := by
  have hg : Assigns 0 fun ino : Inode => { ino with din := f.ino.din, dirty := f.ino.dirty } :=
    ⟨fun _ => rfl, fun _ => (add_zero _).symm⟩
  have hu : Counted (s.updateInode n _) := hc.assign hg
  exact ⟨hu.nodup, hu.pos⟩

/-- The inodes on the device stay, whatever is done to the file. -/
theorem FileFrame.diskInode {g : FileState} (h : FileFrame F g f) (hok : SuperOK g.sb)
    (hok' : SuperOK f.sb) (hx : 0 ≤ x ∧ x < maxInodes) :
    f.sb.diskInode x = g.sb.diskInode x :=
  diskInode_congr hok hok' hx fun b hb hlt => h.frame.data b (Or.inr hb) fun hm =>
    absurd hm.1 (not_le.2 hlt)

theorem wrote_dinode {g : FileState} (h : FileFrame F g f) (hg : g.sb = s.sb)
    (hok : SuperOK s.sb) (hok' : SuperOK f.sb) (hs : s.find n = some ino)
    (hx : 0 ≤ x ∧ x < maxInodes) :
    (s.wrote n f).dinode x = if x = n then f.ino.din else s.dinode x := by
  split_ifs with hxn
  · rw [hxn, ← din_of_find (wrote_find hs)]
  · refine dinode_of_find (wrote_find_of_ne hxn) ?_
    rw [← hg] at hok ⊢
    exact h.diskInode hok hok' hx

/-- **The file of an inode is changed**: it is to be written back. -/
theorem Held.wrote (h : Held N W s) (hs : s.find n = some ino) (hN : N n = some nd)
    (hframe : FileFrame (others s.sb (s.dinode n)) ⟨s.sb, ino⟩ f)
    (hnd : NodeHolds (others s.sb (s.dinode n)) f nd') :
    Held (Function.update N n (some nd')) (insert n W) (s.wrote n f) := by
  obtain ⟨hrange, hclean, hdirty⟩ := h.inMemory n ino hs
  have hok := hnd.file.super
  have hst := h.stores.change hN rfl hframe hnd
  refine h.set (wrote_counted h.counted) (fun x hx => wrote_find_of_ne hx)
    (fun x _ hxr => hframe.diskInode h.stores.super hok hxr) (fun x hx _ => Or.inr hx)
    (fun ino' hf => ?_) ?_
  · rw [wrote_find hs] at hf
    obtain rfl := Option.some.inj hf
    refine ⟨hrange, fun hd => ?_, fun _ => Or.inl rfl⟩
    -- a file that changed is dirty
    rcases hframe.dirty with hd' | hino
    · exact absurd hd (by rw [show f.ino.dirty = true from hd']; decide)
    · have hino : f.ino = ino := hino
      rw [hino] at hd ⊢
      exact (hframe.diskInode h.stores.super hok hrange).trans (hclean hd)
  · refine hst.of_eq fun x h0 h1 => ?_
    rw [wrote_dinode hframe rfl h.stores.super hok hs ⟨h0, h1⟩, Function.update_apply]

/-! ### Taking and giving back an inode -/

theorem InodeFrame.diskInode (h : InodeFrame sb sb') (hok : SuperOK sb) (hok' : SuperOK sb')
    (hx : 0 ≤ x ∧ x < maxInodes) : sb'.diskInode x = sb.diskInode x :=
  diskInode_congr hok hok' hx fun b hb _ => h.data b (by omega)

/-- **A new inode** is in memory, and is to be written. -/
theorem Held.createInode {type : ℤ} {j : ℕ} (h : Held N W s)
    (hnew : ∀ sb, SuperOK sb → NodeHolds sb.live (fileOf sb (newDinode type)) nd)
    (hr : testfsCreateInode type s = some (.ok j, t)) :
    Held (Function.update N j (some nd)) (insert (j : ℤ) W) t ∧ N j = none ∧
      t.curDir = s.curDir ∧ t.dinode j = newDinode type ∧ t.sb.left = s.sb.left ∧
      ∀ x : ℤ, 0 ≤ x ∧ x < maxInodes → x ≠ j → t.dinode x = s.dinode x := by
  have hc := ((createInode_adds type).of_run h.counted hr).1
  unfold testfsCreateInode at hr
  obtain ⟨r, s₁, hget, hr⟩ := bind_eq_some.1 hr
  obtain ⟨sb₀, sb₁, hsb₀, hget, rfl⟩ := zoom_eq_some.1 hget
  obtain rfl := Option.some.inj hsb₀
  have htook := (testfsGetInodeFreemap_ok h.stores.super).of_run hget
  cases r with
  | error e =>
    obtain ⟨hx, -⟩ := pure_eq_some.1 hr
    cases hx
  | ok i =>
    obtain ⟨-, htook⟩ := htook
    simp only at hr
    split_ifs at hr with hlt
    · obtain ⟨_, _, -, hr⟩ := bind_eq_some.1 hr
      obtain ⟨hx, -⟩ := pure_eq_some.1 hr
      cases hx
    obtain ⟨_, s₂, hget₂, hr⟩ := bind_eq_some.1 hr
    obtain ⟨_, s₃, hon, hr⟩ := bind_eq_some.1 hr
    obtain ⟨hx, rfl⟩ := pure_eq_some.1 hr
    cases hx
    have hk : 0 ≤ (j : ℤ) ∧ (j : ℤ) < maxInodes := by
      refine ⟨Int.natCast_nonneg j, ?_⟩
      have h1 : nrInodeBlocks = 128 := rfl
      have h2 : inodesPerBlock = 128 := rfl
      have h3 : maxInodes = 16384 := rfl
      rw [h1, h2] at hlt
      omega
    have hN : N j = none := by
      rw [← Option.not_isSome_iff_eq_none, ← h.stores.alloc]
      exact htook.fresh
    have hok := h.stores.super
    have hdisk : ∀ x : ℤ, 0 ≤ x ∧ x < maxInodes → sb₁.diskInode x = s.sb.diskInode x := fun x hx =>
      htook.frame.diskInode hok htook.ok hx
    obtain ⟨hsb₂, hcur₂, ⟨ino, hf₂, hdin₂⟩, hother₂⟩ := (getInode_found _ _).of_run hget₂
    have hzero : ino.din = DInode.zero := by
      rw [hdin₂, dinode_of_find (s := s) (t := { s with sb := sb₁ }) rfl (hdisk j hk)]
      exact h.stores.free j hk.1 hk.2 hN
    obtain ⟨ino', f, hf', hmod, hs₃⟩ := onInode_cases hon
    obtain rfl : s₃ = s₂.wrote j f := hs₃
    obtain rfl := Option.some.inj (hf₂.symm.trans hf')
    obtain ⟨-, hfeq⟩ := Prod.mk.inj (Option.some.inj hmod)
    have hfsb : f.sb = sb₁ := by
      rw [← hfeq]
      exact hsb₂
    have hfdin : f.ino.din = newDinode type := by
      rw [← hfeq]
      show ({ ino.din with iType := type } : DInode) = newDinode type
      rw [hzero]
      rfl
    have hfind : (s₂.wrote j f).find j = some { ino with din := f.ino.din, dirty := f.ino.dirty } :=
      wrote_find hf₂
    have hdirty : f.ino.dirty = true := by
      rw [← hfeq]
      rfl
    have hother : ∀ x : ℤ, x ≠ j → (s₂.wrote j f).find x = s.find x := fun x hx =>
      (wrote_find_of_ne hx).trans (hother₂ x hx)
    have hsb : (s₂.wrote j f).sb = sb₁ := hfsb
    have hdinode : ∀ x : ℤ, 0 ≤ x ∧ x < maxInodes → x ≠ j →
        (s₂.wrote j f).dinode x = s.dinode x := fun x hx hne =>
      dinode_of_find (hother x hne) (by rw [hsb]; exact hdisk x hx)
    refine ⟨?_, hN, hcur₂, ?_, ?_, hdinode⟩
    · refine h.set hc hother (fun x _ hx => ?_) (fun x hx _ => Or.inr hx) (fun ino' hf' => ?_) ?_
      · exact (congrArg (SuperBlock.diskInode · x) hsb).trans (hdisk x hx)
      · rw [← Option.some.inj (hfind.symm.trans hf')]
        exact ⟨hk, fun hd => absurd (hdirty.symm.trans hd) (by decide), fun _ => Set.mem_insert _ _⟩
      · have hnd := hnew sb₁ htook.ok
        rw [htook.frame.live] at hnd
        have hst := h.stores.insert hk.2 htook hnd
        rw [← hsb] at hst
        refine hst.of_eq fun x h0 h1 => ?_
        rw [Function.update_apply]
        split_ifs with hx
        · rw [hx, ← din_of_find hfind]
          exact hfdin
        · exact hdinode x ⟨h0, h1⟩ hx
    · rw [← din_of_find hfind]
      exact hfdin
    · rw [hsb]
      exact htook.frame.left

/-- Only a full freemap, or one with no room for the inode, gives no inode. -/
theorem createInode_error {type e : ℤ} (h : Held N W s)
    (hr : testfsCreateInode type s = some (.error e, t)) : e = -enospc := by
  unfold testfsCreateInode at hr
  obtain ⟨r, s₁, hget, hr⟩ := bind_eq_some.1 hr
  obtain ⟨sb₀, sb₁, hsb₀, hget, rfl⟩ := zoom_eq_some.1 hget
  obtain rfl := Option.some.inj hsb₀
  have htook := (testfsGetInodeFreemap_ok h.stores.super).of_run hget
  cases r with
  | error e' =>
    obtain ⟨hx, -⟩ := pure_eq_some.1 hr
    cases hx
    exact htook.1
  | ok k =>
    simp only at hr
    split_ifs at hr with hlt
    · obtain ⟨_, _, -, hr⟩ := bind_eq_some.1 hr
      obtain ⟨hx, -⟩ := pure_eq_some.1 hr
      cases hx
      rfl
    obtain ⟨_, s₂, -, hr⟩ := bind_eq_some.1 hr
    obtain ⟨_, s₃, -, hr⟩ := bind_eq_some.1 hr
    obtain ⟨hx, -⟩ := pure_eq_some.1 hr
    cases hx

/-- **An inode is removed**, with its blocks. -/
theorem Held.removeInode (h : Held N W s) (hN : N n = some nd)
    (hr : testfsRemoveInode n s = some (v, t)) :
    Held (Function.update N n none) (W \ {n}) t ∧ t.curDir = s.curDir ∧
      ∀ x : ℤ, 0 ≤ x ∧ x < maxInodes → x ≠ n → t.dinode x = s.dinode x := by
  have hrange := h.stores.range n (by rw [hN]; rfl)
  obtain ⟨j, rfl⟩ := Int.eq_ofNat_of_zero_le hrange.1
  unfold testfsRemoveInode at hr
  obtain ⟨_, s₁, hfree, hr₁⟩ := bind_eq_some.1 hr
  obtain ⟨ino₁, s₁', hino, hr₂⟩ := bind_eq_some.1 hr₁
  obtain ⟨hf₁, rfl⟩ := reads_eq_some.1 hino
  obtain ⟨_, s₁'', hreq, hr₃⟩ := bind_eq_some.1 hr₂
  obtain ⟨-, rfl⟩ := require_eq_some.1 hreq
  obtain ⟨_, s₂, hzero, hr₄⟩ := bind_eq_some.1 hr₃
  obtain ⟨_, s₃, hput, hr₅⟩ := bind_eq_some.1 hr₄
  obtain ⟨_, s₄, hsync, hr₆⟩ := bind_eq_some.1 hr₅
  -- the blocks are freed, and the inode is cleared
  have hc₁ := ((onInode_balanced _ _).of_run h.counted hfree).1
  have hc₂ := ((onInode_balanced _ _).of_run hc₁ hzero).1
  have hc₃ := ((onSb_balanced _).of_run hc₂ hput).1
  obtain ⟨ino, f, hf, hrun, hs₁⟩ := onInode_cases hfree
  obtain rfl : s₁'' = s.wrote j f := hs₁
  obtain ⟨hlive, hframe⟩ := (h.node hf hN).freed.of_run hrun
  obtain ⟨ino₂, g, hf₂, hmod, hs₂⟩ := onInode_cases hzero
  obtain rfl : s₂ = (s.wrote j f).wrote j g := hs₂
  obtain ⟨-, hgeq⟩ := Prod.mk.inj (Option.some.inj hmod)
  have hgsb : g.sb = f.sb := by
    rw [← hgeq]
    rfl
  have hgdin : g.ino.din = DInode.zero := by
    rw [← hgeq]
    rfl
  have hdirty : g.ino.dirty = true := by
    rw [← hgeq]
    rfl
  obtain ⟨sb₀, sb₃, hsb₀, hput, rfl⟩ := zoom_eq_some.1 hput
  obtain rfl : g.sb = sb₀ := Option.some.inj hsb₀
  rw [hgsb] at hput
  have hok := h.stores.super
  have hokf : SuperOK f.sb := by
    have hfree : wp True testfsFreeBlocks _ ⟨s.sb, ino⟩ := freeBlocks_ok (h.node hf hN).file
      (h.node hf hN).shaped.endBlockNr_eq (Or.inl trivial)
    exact (hfree.of_run hrun).1.freed.super
  rw [Int.toNat_natCast] at hput
  have hfreemap : wp True (testfsPutInodeFreemap j) _ f.sb :=
    testfsPutInodeFreemap_ok hokf (Or.inl trivial)
  have hgave := hfreemap.of_run hput
  have hst := h.stores.erase hN rfl hframe hlive hgave
  have hdisk : ∀ x : ℤ, 0 ≤ x ∧ x < maxInodes → sb₃.diskInode x = s.sb.diskInode x := by
    intro x hx
    rw [hgave.frame.diskInode hokf hgave.ok hx]
    exact hframe.diskInode hok hokf hx
  set s₃ : Testfs := { (s.wrote (j : ℤ) f).wrote j g with sb := sb₃ } with hs₃
  have hfind : s₃.find j = some { ino₂ with din := g.ino.din, dirty := g.ino.dirty } := by
    have hwrote := wrote_find (f := g) hf₂
    exact hwrote
  have hother : ∀ x : ℤ, x ≠ j → s₃.find x = s.find x := fun x hx =>
    (wrote_find_of_ne (s := s.wrote (j : ℤ) f) hx).trans (wrote_find_of_ne hx)
  have hdinode : ∀ x : ℤ, 0 ≤ x ∧ x < maxInodes → x ≠ j → s₃.dinode x = s.dinode x :=
    fun x hx hne => dinode_of_find (hother x hne) (hdisk x hx)
  have hheld : Held (Function.update N j none) (insert (j : ℤ) W) s₃ := by
    refine h.set hc₃ hother (fun x _ hx => hdisk x hx) (fun x hx _ => Or.inr hx)
      (fun ino' hf' => ?_) (hst.of_eq fun x h0 h1 => ?_)
    · rw [← Option.some.inj (hfind.symm.trans hf')]
      exact ⟨hrange, fun hd => absurd (hdirty.symm.trans hd) (by decide), fun _ => Set.mem_insert _ _⟩
    · rw [Function.update_apply]
      split_ifs with hx
      · rw [hx, ← din_of_find hfind]
        exact hgdin
      · exact hdinode x ⟨h0, h1⟩ hx
  obtain ⟨hheld₄, hcur₄, hdin₄⟩ := hheld.syncInode hsync
  have hlook := hheld₄.putInode hr₆
  refine ⟨hlook.held.mono ?_, hlook.curDir.trans hcur₄, fun x hx hne => ?_⟩
  · rintro x ⟨hx, hne⟩
    exact ⟨hx.resolve_left hne, hne⟩
  · rw [hlook.dinode, hdin₄ x hx, hdinode x hx hne]

end OSLab.Fs
