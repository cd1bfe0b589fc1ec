import OSLab.Fs.Proof.Lookups
import OSLab.Fs.Proof.MakeFs

/-!
# Quitting and starting again

Between two commands the device has the whole file system: closing it writes what is there
already, and opening it reads the same super block, freemaps and inodes. `Rests.restart`: the volume
is the one that was left, with the root as the current directory, and no step of this fails.
-/

namespace OSLab.Fs

open Prog

variable {N : ℤ → Option Node} {v : Volume} {s t : Testfs} {sb : SuperBlock} {b : Bitmap}
  {dev : Device} {blocks : ℕ → Block} {start : ℤ} {nr k : ℕ} {ino : Inode}

/-! ### The freemaps -/

/-- A freemap that is read back from its blocks. -/
def Bitmap.reload (b : Bitmap) (nr : ℕ) : Bitmap := Bitmap.load ⟨b.nbits, fun _ => 0⟩ b.block nr

namespace Bitmap

theorem reload_word (b : Bitmap) {i : ℕ} (hi : i < nr * blockSize) : (b.reload nr).v i = b.v i := by
  show (if i < nr * blockSize then (b.block (i / blockSize)).get (i % blockSize) else 0) = b.v i
  rw [if_pos hi]
  unfold block
  rw [Block.get_ofFn _ (Nat.mod_lt i (by decide)), Nat.mul_comm, Nat.div_add_mod]

theorem reload_block (b : Bitmap) (hk : k < nr) : (b.reload nr).block k = b.block k := by
  unfold block
  funext i
  have hi : (i : ℕ) < blockSize := i.2
  refine b.reload_word ?_
  calc k * blockSize + i < k * blockSize + blockSize := Nat.add_lt_add_left hi _
    _ = (k + 1) * blockSize := (Nat.succ_mul k blockSize).symm
    _ ≤ nr * blockSize := Nat.mul_le_mul_right _ hk

theorem reload_members (b : Bitmap) (h : b.nbits = blockSize * nr * bitsPerWord) :
    (b.reload nr).members = b.members := by
  have hn : (b.reload nr).nbits = b.nbits := rfl
  unfold members
  rw [hn]
  refine Finset.filter_congr fun i hi => ?_
  rw [Finset.mem_range, h] at hi
  have hw : i / bitsPerWord < nr * blockSize := by
    rw [Nat.mul_comm nr]
    exact Nat.div_lt_of_lt_mul (by rwa [Nat.mul_comm] at hi)
  rw [bitmapIsset_eq, bitmapIsset_eq, b.reload_word hw]

/-- Only the blocks of the freemap are read. -/
theorem load_blocks {n : ℕ} (hn : b.nbits = n) (hb : ∀ k < nr, blocks k = b.block k) :
    Bitmap.load ⟨n, fun _ => 0⟩ blocks nr = b.reload nr := by
  subst hn
  unfold reload load
  congr 1
  funext i
  split_ifs with hi
  · rw [hb _ (Nat.div_lt_of_lt_mul (by rwa [Nat.mul_comm] at hi))]
  · rfl

end Bitmap

/-! ### The super block -/

/-- The super block that is read from the device. -/
def SuperBlock.reopened (sb : SuperBlock) : SuperBlock := { sb with
  inodeFreemap := sb.inodeFreemap.reload inodeFreemapSize
  blockFreemap := sb.blockFreemap.reload blockFreemapSize }

namespace SuperOK

theorem fits (h : SuperOK sb) : sb.sb.Fits := by
  have hib : inodeBits = 65536 := rfl
  have hbb : blockBits = 1048576 := rfl
  have hmax := h.maxFsBlocks
  have hused := h.usedLe
  have hinodes : sb.sb.usedInodeCount ≤ inodeBits := by
    rw [h.usedInodes, ← h.inodeBits, ← Finset.card_range sb.inodeFreemap.nbits]
    exact Finset.card_le_card (Finset.filter_subset _ _)
  refine ⟨fun k => ?_, by omega⟩
  have h1 := h.inodeFreemapStart
  have h2 := h.blockFreemapStart
  have h3 := h.inodeBlocksStart
  have h4 := h.dataBlocksStart
  have hds : dataStart = 146 := rfl
  unfold DSuperBlock.word
  split <;> omega

theorem inodeMembers (h : SuperOK sb) :
    sb.reopened.inodeFreemap.members = sb.inodeFreemap.members :=
  sb.inodeFreemap.reload_members h.inodeBits

theorem blockMembers (h : SuperOK sb) :
    sb.reopened.blockFreemap.members = sb.blockFreemap.members :=
  sb.blockFreemap.reload_members h.blockBits

theorem reopened_live (h : SuperOK sb) : sb.reopened.live = sb.live := by
  unfold SuperBlock.live
  rw [h.blockMembers]

theorem reopened (h : SuperOK sb) : SuperOK sb.reopened where
  inodeFreemapStart := h.inodeFreemapStart
  blockFreemapStart := h.blockFreemapStart
  inodeBlocksStart := h.inodeBlocksStart
  dataBlocksStart := h.dataBlocksStart
  maxFsBlocks := h.maxFsBlocks
  inodeBits := h.inodeBits
  blockBits := h.blockBits
  len := h.len
  usedInodes := by
    rw [h.inodeMembers]
    exact h.usedInodes
  usedBlocks := by
    rw [h.blockMembers]
    exact h.usedBlocks
  usedLe := h.usedLe
  diskSuper := h.diskSuper
  diskInodes := h.diskInodes.trans (sb.inodeFreemap.reload_block (by decide)).symm
  diskBlocks := fun k hk => (h.diskBlocks k hk).trans (sb.blockFreemap.reload_block hk).symm

/-- **The device is opened** and gives the super block back. -/
theorem init_run (h : SuperOK sb) : testfsInitSuperBlock sb.dev = some sb.reopened := by
  have hds : dataStart = 146 := rfl
  have hlen := h.len
  have h0 : sb.dev.readBlock 0 = some (sb.dev.data 0) := by
    unfold Device.readBlock
    rw [if_pos ⟨le_rfl, by omega⟩]
  have hd : DSuperBlock.decode (sb.dev.data 0).get = sb.sb := by
    rw [h.diskSuper]
    exact DSuperBlock.decode_encode h.fits
  have hi : sb.dev.readBlocks sb.sb.inodeFreemapStart inodeFreemapSize =
      some fun k : ℕ => sb.dev.data (1 + k) := by
    have hsize : inodeFreemapSize = 1 := rfl
    unfold Device.readBlocks
    rw [h.inodeFreemapStart, if_pos ⟨by omega, by omega⟩]
    rfl
  have hb : sb.dev.readBlocks sb.sb.blockFreemapStart blockFreemapSize =
      some fun k : ℕ => sb.dev.data (2 + k) := by
    have hsize : blockFreemapSize = 16 := rfl
    unfold Device.readBlocks
    rw [h.blockFreemapStart, if_pos ⟨by omega, by omega⟩]
    rfl
  have hci : bitmapCreate (blockSize * inodeFreemapSize * bitsPerWord) =
      some ⟨inodeBits, fun _ => 0⟩ :=
    bitmapCreate_of_dvd (by decide) ⟨blockSize * inodeFreemapSize, by decide⟩
  have hcb : bitmapCreate (blockSize * blockFreemapSize * bitsPerWord) =
      some ⟨blockBits, fun _ => 0⟩ :=
    bitmapCreate_of_dvd (by decide) ⟨blockSize * blockFreemapSize, by decide⟩
  have hli : Bitmap.load ⟨inodeBits, fun _ => 0⟩ (fun k : ℕ => sb.dev.data (1 + k)) inodeFreemapSize =
      sb.reopened.inodeFreemap := by
    refine Bitmap.load_blocks h.inodeBits fun k hk => ?_
    obtain rfl : k = 0 := Nat.lt_one_iff.1 hk
    exact h.diskInodes
  have hlb : Bitmap.load ⟨blockBits, fun _ => 0⟩ (fun k : ℕ => sb.dev.data (2 + k)) blockFreemapSize =
      sb.reopened.blockFreemap := Bitmap.load_blocks h.blockBits h.diskBlocks
  unfold testfsInitSuperBlock
  rw [h0, Option.bind_eq_bind, Option.bind_some]
  simp only [hd, hi, hb, hci, hcb, hli, hlb, Option.bind_eq_bind, Option.bind_some]
  rfl

end SuperOK

/-! ### Closing -/

/-- Writing what is on the device already. -/
theorem Device.writeBlocks_same (h0 : 0 ≤ start) (hlen : start + nr ≤ dev.len)
    (hsame : ∀ k < nr, blocks k = dev.data (start + k)) :
    dev.writeBlocks blocks start nr = some dev := by
  unfold Device.writeBlocks
  rw [if_pos h0, max_eq_left hlen]
  congr 2
  funext x
  split_ifs with hx
  · obtain ⟨k, hk⟩ := Int.eq_ofNat_of_zero_le (show 0 ≤ x - start by omega)
    rw [hk, Int.toNat_natCast, hsame k (by omega), ← hk, add_sub_cancel]
  · rfl

theorem writeBlocks_same (h0 : 0 ≤ start) (hlen : start + nr ≤ sb.dev.len)
    (hsame : ∀ k < nr, blocks k = sb.dev.data (start + k)) :
    writeBlocks blocks start nr sb = some ((), sb) := by
  unfold writeBlocks
  rw [Device.writeBlocks_same h0 hlen hsame]
  rfl

/-- **Closing changes nothing on the device.** -/
theorem SuperOK.close_run (h : SuperOK sb) : testfsCloseSuperBlock sb = some ((), sb) := by
  have hds : dataStart = 146 := rfl
  have hlen := h.len
  have hi : sb.inodeFreemap.nbits ≠ 0 := by
    rw [h.inodeBits]
    decide
  have hb : sb.blockFreemap.nbits ≠ 0 := by
    rw [h.blockBits]
    decide
  have h₁ : testfsWriteSuperBlock sb = some ((), sb) := by
    unfold testfsWriteSuperBlock writeBlock
    rw [bind_of_run (getState_run sb)]
    refine writeBlocks_same le_rfl (by push_cast; omega) fun k hk => ?_
    obtain rfl : k = 0 := Nat.lt_one_iff.1 hk
    exact h.diskSuper.symm
  have h₂ : writeBlocks sb.inodeFreemap.block sb.sb.inodeFreemapStart inodeFreemapSize sb =
      some ((), sb) := by
    have hsize : inodeFreemapSize = 1 := rfl
    rw [h.inodeFreemapStart]
    refine writeBlocks_same (by omega) (by omega) fun k hk => ?_
    obtain rfl : k = 0 := Nat.lt_one_iff.1 hk
    exact h.diskInodes.symm
  have h₃ : writeBlocks sb.blockFreemap.block sb.sb.blockFreemapStart blockFreemapSize sb =
      some ((), sb) := by
    have hsize : blockFreemapSize = 16 := rfl
    rw [h.blockFreemapStart]
    exact writeBlocks_same (by omega) (by omega) fun k hk => (h.diskBlocks k hk).symm
  unfold testfsCloseSuperBlock
  rw [bind_of_run h₁, bind_of_run (getState_run sb), if_pos hi, bind_of_run h₂, if_pos hb]
  exact h₃

theorem closeFs_run (h : SuperOK s.sb) (hn : s.inodes = []) : closeFs s = some s.sb.dev := by
  have hd : inodeHashDestroy s = some ((), s) := by
    unfold inodeHashDestroy
    rw [bind_of_run (getState_run s)]
    exact require_run (by rw [hn]; rfl)
  have hc : onSb testfsCloseSuperBlock s = some ((), s) :=
    zoom_eq_some.2 ⟨s.sb, s.sb, rfl, h.close_run, rfl⟩
  unfold closeFs
  rw [bind_of_run hd, hc]

/-- A file system that is closed has no inode in memory. -/
theorem closeFs_eq (h : SuperOK s.sb) (hc : closeFs s = some dev) : s.sb.dev = dev := by
  by_cases hn : s.inodes.length = 0
  · rw [closeFs_run h (List.length_eq_zero_iff.1 hn)] at hc
    exact Option.some.inj hc
  · have hd : inodeHashDestroy s = none := by
      unfold inodeHashDestroy
      rw [bind_of_run (getState_run s)]
      exact require_none hn
    unfold closeFs at hc
    rw [bind_of_none hd] at hc
    cases hc

/-! ### Quitting and starting -/

/-- Quitting `testfs`, and starting it again on the device. -/
def restart (s : Testfs) : Option Testfs :=
  match unmount s with
  | none => none
  | some (_, s) => (closeFs s).bind mount

/-- When all inodes are written back, they are those on the device. -/
theorem Held.onDisk (h : Held N ∅ s) (x : ℤ) : s.sb.diskInode x = s.dinode x := by
  cases hf : s.find x with
  | none => exact (dinode_of_none hf).symm
  | some ino =>
    obtain ⟨-, hclean, hdirty⟩ := h.inMemory x ino hf
    rw [hclean (Bool.eq_false_iff.2 fun hd => hdirty hd)]
    exact din_of_find hf

theorem Held.written (h : Held N ∅ s) : Stores N s.sb.diskInode s.sb :=
  h.stores.of_eq fun x _ _ => h.onDisk x

/-- What is opened is what is on the device. -/
structure Reopened (sb : SuperBlock) (t : Testfs) : Prop where
  super : t.sb = sb.reopened
  curDir : t.curDir = 0
  dinode : ∀ x, t.dinode x = sb.diskInode x

/-- **Starting on a device** finds what is stored on it. -/
theorem mount_held (h : Stores N sb.diskInode sb) :
    ∃ t, mount sb.dev = some t ∧ Held N ∅ t ∧ Reopened sb t := by
  have hinit : initFs sb.dev = some ⟨sb.reopened, [], 0⟩ :=
    congrArg (Option.map _) h.super.init_run
  set s₀ : Testfs := ⟨sb.reopened, [], 0⟩ with hs₀
  have hok : SuperOK s₀.sb := h.super.reopened
  have hdinode : ∀ x, s₀.dinode x = sb.diskInode x := fun _ => rfl
  have hheld : Held N ∅ s₀ := by
    refine ⟨?_, ⟨List.nodup_nil, fun ino hm => by cases hm⟩, fun n ino hf => by cases hf⟩
    have hst : Stores N sb.diskInode s₀.sb :=
      h.congr hok h.super.reopened_live h.super.inodeMembers le_rfl fun _ _ => rfl
    exact hst.of_eq fun x _ _ => hdinode x
  obtain ⟨s₁, hget⟩ : ∃ s₁, testfsGetInode 0 s₀ = some ((), s₁) :=
    ⟨_, getInode_load rfl hok.hasInodes ⟨le_rfl, by decide⟩⟩
  obtain ⟨hlook, -⟩ := hheld.getInode hget
  have hmount : mount sb.dev = some { s₁ with curDir := 0 } := by
    unfold mount
    simp only [hinit, hget]
  have hopen : Reopened sb { s₁ with curDir := 0 } :=
    ⟨hlook.sb, rfl, fun x => (hlook.dinode x).trans (hdinode x)⟩
  refine ⟨_, hmount, ⟨hlook.held.stores, ?_, hlook.held.inMemory⟩, hopen⟩
  exact ⟨hlook.held.counted.nodup, hlook.held.counted.pos⟩

theorem Volume.OK.atRoot (h : v.OK) : ({ v with cur := 0 } : Volume).OK :=
  h.congr (fun _ => rfl) (fun _ => rfl) (fun _ => rfl) h.root

namespace Rests

theorem unmount_run (h : Rests v s) : unmount s = some ((), { s with inodes := [] }) := by
  obtain ⟨ino, hs, hnr, hcount⟩ := h.one
  have hf : s.find s.curDir = some ino := by
    unfold Testfs.find inodeHashFind
    rw [hs, List.find?_cons, decide_eq_true hnr]
  have hclean : ino.dirty = false :=
    Bool.eq_false_iff.2 fun hd => (h.held.inMemory _ _ hf).2.2 hd
  unfold unmount
  rw [bind_of_run (getState_run s), putInode_drop hf hclean hcount]
  unfold inodeHashRemove
  rw [hs, List.eraseP_cons, decide_eq_true hnr]
  rfl

/-- **Quitting and starting again** keeps the volume; the root is the current directory. -/
theorem restart (h : Rests v s) :
    ∃ t, Fs.restart s = some t ∧ Rests { v with cur := 0 } t ∧ Reopened s.sb t := by
  obtain ⟨t, hmount, hheld, hopen⟩ := mount_held h.held.written
  have hclose : closeFs { s with inodes := [] } = some s.sb.dev :=
    closeFs_run h.held.stores.super rfl
  refine ⟨t, ?_, ⟨hheld, hopen.curDir.symm, h.ok.atRoot, mount_oneInode hmount⟩, hopen⟩
  unfold Fs.restart
  rw [h.unmount_run]
  simp only [hclose]
  exact hmount

end Rests

end OSLab.Fs
