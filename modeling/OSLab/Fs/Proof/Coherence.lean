import OSLab.Fs.HashTable
import OSLab.Fs.Proof.Inodes
import OSLab.Lib.WriteBack

/-!
# The inode cache is coherent

`cacheStep` is one call of `testfs_get_inode`, `testfs_sync_inode` or `testfs_put_inode` or a
change of an inode in memory, and `Testfs.cache` the write-back cache that the table of in-memory
inodes is.

* `CacheOK`: what every step keeps of the table and the device.
* `cacheStep_ok`: a step is a step of the cache.
* `cacheMeets_iff`: after every interleaving the cache is coherent, as long as no inode is held
  `INT_MAX` times.
-/

namespace OSLab.Fs

open Prog WriteBack

variable {s t u : Testfs} {nr nr' n : ℤ} {g : Inode → Inode} {ino : Inode} {d : DInode}

/-- The values that the fields of a `struct dinode` hold. -/
structure DInode.Fits (d : DInode) : Prop where
  word : ∀ k, -2 ^ 31 ≤ d.word k ∧ d.word k < 2 ^ 31
  iSize : -2 ^ 63 ≤ d.iSize ∧ d.iSize < 2 ^ 63

/-- **An inode that was written is read back as it was.** -/
theorem DInode.Fits.decode_encode {d : DInode} (h : d.Fits) : DInode.decode d.encode = d := by
  have hword : ∀ k < 14, leInt 4 (fun i => d.encode (4 * k + i)) = d.word k := by
    intro k hk
    have hb : ∀ i < 4, d.encode (4 * k + i) = leByte (d.word k) i := by
      intro i hi
      unfold DInode.encode
      rw [if_pos (by omega)]
      congr 2 <;> omega
    obtain ⟨h1, h2⟩ := h.word k
    rw [leInt_congr hb]
    exact leInt_leByte (by norm_num; omega) (by norm_num; omega)
  have hsize := DInode.leInt_encode_iSize h.iSize.1 h.iSize.2
  have htype := hword 0 (by decide)
  simp only [Nat.mul_zero, Nat.zero_add] at htype
  have hblocks : (fun k : Fin nrDirectBlocks => leInt 4 fun i => d.encode (4 * (k + 1) + i)) =
      d.iBlockNr := by
    funext k
    have hk := k.isLt
    unfold nrDirectBlocks at hk
    rw [hword (k + 1) (by omega)]
    unfold DInode.word DInode.blockNr
    simp [nrDirectBlocks, hk]
    rfl
  unfold DInode.decode
  rw [htype, hblocks, hword 11 (by decide), hword 12 (by decide), hword 13 (by decide), hsize]
  rfl

/-- What is read from the device fits. -/
theorem DInode.decode_fits (f : ℕ → Byte) : (DInode.decode f).Fits := by
  have hint : ∀ g : ℕ → Byte, -2 ^ 31 ≤ leInt 4 g ∧ leInt 4 g < 2 ^ 31 := by
    intro g
    obtain ⟨h1, h2⟩ := leInt_bounds 4 g
    norm_num at h1 h2
    omega
  constructor
  · intro k
    unfold DInode.word DInode.blockNr DInode.decode
    simp only
    split_ifs
    · exact hint _
    · exact hint _
    · decide
    · exact hint _
    · exact hint _
    · exact hint _
  · obtain ⟨h1, h2⟩ := leInt_bounds 8 fun i => f (56 + i)
    norm_num at h1 h2
    unfold DInode.decode
    simp only
    omega

/-! ### The operations -/

def intMax : ℤ := 2 ^ 31 - 1

/-- `testfs_get_inode` with the `int` that `i_count` is: counting past `INT_MAX` is undefined. -/
def countedGetInode (inodeNr : ℤ) : Prog Testfs Unit := do
  let s ← getState
  require ((s.find inodeNr).elim 0 (·.iCount) < intMax)
  testfsGetInode inodeNr

/-- The caller changes an inode in memory and sets `I_FLAGS_DIRTY`. -/
def storeInode (inodeNr : ℤ) (d : DInode) : Prog Testfs Unit :=
  onInode inodeNr (modify fun s => (s.setDin fun _ => d).setDirty)

abbrev CacheOp : Type := WriteBack.Op (Fin maxInodes) DInode

def runCacheOp : CacheOp → Prog Testfs Unit
  | .get k => countedGetInode k
  | .store k d => storeInode k d
  | .sync k => testfsSyncInode k
  | .put k => testfsPutInode k

/-- An operation that returns; what is stored are values of the fields. -/
def cacheStep (s : Testfs) (op : CacheOp) (t : Testfs) : Prop :=
  (∀ k d, op = .store k d → d.Fits) ∧ runCacheOp op s = some ((), t)

theorem countedGetInode_run (hlt : (s.find nr).elim 0 (·.iCount) < intMax) :
    countedGetInode nr s = testfsGetInode nr s := by
  unfold countedGetInode
  rw [bind_of_run (getState_run s), bind_of_run (require_run hlt)]

theorem countedGetInode_overflow (hge : intMax ≤ (s.find nr).elim 0 (·.iCount)) :
    countedGetInode nr s = none := by
  unfold countedGetInode
  rw [bind_of_run (getState_run s)]
  exact bind_of_none (require_none (not_lt.2 hge))

theorem storeInode_run (d : DInode) (hf : s.find nr = some ino) : storeInode nr d s =
    some ((), s.updateInode nr fun ino => { ino with din := d, dirty := true }) := by
  have hrun : modify (fun s : FileState => (s.setDin fun _ => d).setDirty) ⟨s.sb, ino⟩ =
      some ((), ⟨s.sb, { ino with din := d, dirty := true }⟩) := rfl
  unfold storeInode onInode
  refine zoom_run (s := (⟨s.sb, ino⟩ : FileState)) ?_ hrun
  rw [hf, Option.map_some]

theorem storeInode_none (d : DInode) (hf : s.find nr = none) : storeInode nr d s = none := by
  unfold storeInode onInode
  apply zoom_none
  rw [hf, Option.map_none]

theorem syncInode_none (hf : s.find nr = none) : testfsSyncInode nr s = none := by
  unfold testfsSyncInode
  exact bind_of_none (inode_none hf)

/-! ### The table as a cache -/

/-- An in-memory inode as a line of a cache. -/
def Inode.line (ino : Inode) : Line DInode := ⟨ino.din, ino.dirty, ino.iCount⟩

/-- The cache that the table and the inode blocks are. -/
def Testfs.cache (s : Testfs) : WriteBack (Fin maxInodes) DInode where
  line k := (s.find k).map (·.line)
  back k := s.sb.diskInode k

/-- What every step keeps. -/
structure CacheOK (s : Testfs) : Prop where
  nodup : (s.inodes.map (·.iNr)).Nodup
  fits : ∀ ino ∈ s.inodes, ino.din.Fits
  onDevice : s.sb.HasInodes

theorem inRange (k : Fin maxInodes) : 0 ≤ (k : ℤ) ∧ (k : ℤ) < maxInodes := by
  have := k.isLt
  omega

theorem line_some {k : Fin maxInodes} (hf : s.find k = some ino) :
    s.cache.line k = some ino.line := by
  show (s.find k).map _ = _
  rw [hf, Option.map_some]

theorem line_none {k : Fin maxInodes} (hf : s.find k = none) : s.cache.line k = none := by
  show (s.find k).map _ = _
  rw [hf, Option.map_none]

/-- Only inode `k` is changed, in memory and on the device. -/
theorem cache_eq_set {k : Fin maxInodes} {o : Option (Line DInode)} {b : DInode}
    (hline : (t.find k).map (·.line) = o) (hback : t.sb.diskInode k = b)
    (hother : ∀ j : ℤ, j ≠ k → t.find j = s.find j)
    (hdisk : ∀ j : Fin maxInodes, j ≠ k → t.sb.diskInode j = s.sb.diskInode j) :
    t.cache = s.cache.set k o b := by
  unfold Testfs.cache WriteBack.set
  rw [WriteBack.mk.injEq]
  constructor
  · funext j
    by_cases hj : j = k
    · rw [hj, Function.update_self, hline]
    · have hne : (j : ℤ) ≠ k := by
        intro e
        exact hj (Fin.ext (by exact_mod_cast e))
      rw [Function.update_of_ne hj, hother j hne]
  · funext j
    by_cases hj : j = k
    · rw [hj, Function.update_self, hback]
    · rw [Function.update_of_ne hj, hdisk j hj]

/-- Assigning to fields of inode `k`. -/
theorem cache_update {k : Fin maxInodes} (hg : Assigns n g) (hf : s.find k = some ino) :
    (s.updateInode k g).cache = s.cache.set k (some (g ino).line) (s.cache.back k) := by
  apply cache_eq_set
  · rw [find_update hg, hf, Option.map_some, Option.map_some, if_pos (find_mem hf).2]
  · rfl
  · intro j hj
    exact find_update_of_ne hg hj
  · intro _ _
    rfl

theorem CacheOK.update (h : CacheOK s) (hg : Assigns n g)
    (hfits : ∀ ino ∈ s.inodes, (g ino).din.Fits) : CacheOK (s.updateInode nr g) := by
  constructor
  · exact update_nodup hg h.nodup
  · intro x hx
    obtain ⟨y, hy, rfl⟩ := List.mem_map.1 hx
    split
    · exact hfits y hy
    · exact h.fits y hy
  · exact h.onDevice

/-- `testfs_get_inode` loads the inode or counts it. -/
theorem get_step {k : Fin maxInodes} (h : CacheOK s) (hrun : testfsGetInode k s = some ((), t)) :
    CacheOK t ∧ Step s.cache (.get k) t.cache := by
  cases hf : s.find k with
  | some ino =>
    have hg : Assigns 1 fun ino : Inode => { ino with iCount := ino.iCount + 1 } :=
      ⟨fun _ => rfl, fun _ => rfl⟩
    rw [getInode_hit hf, Option.some_inj, Prod.mk.injEq] at hrun
    rw [← hrun.2, cache_update hg hf]
    exact ⟨h.update hg h.fits, .hit (line_some hf)⟩
  | none =>
    rw [getInode_load hf h.onDevice (inRange k), Option.some_inj, Prod.mk.injEq] at hrun
    rw [← hrun.2]
    constructor
    · constructor
      · exact load_nodup hf h.nodup
      · intro x hx
        rcases List.mem_cons.1 hx with rfl | hx
        · exact DInode.decode_fits _
        · exact h.fits x hx
      · exact h.onDevice
    · rw [cache_eq_set (t := { s with inodes := ⟨s.sb.diskInode k, false, k, 1⟩ :: s.inodes })
        (o := some ⟨s.sb.diskInode k, false, 1⟩) (b := s.sb.diskInode k)]
      · exact .load (line_none hf)
      · simp [Testfs.find, inodeHashFind, Inode.line]
      · rfl
      · intro j hj
        simp [Testfs.find, inodeHashFind, Ne.symm hj]
      · intro _ _
        rfl

/-- Memory is changed, and the device is not. -/
theorem store_step {k : Fin maxInodes} (h : CacheOK s) (hd : d.Fits)
    (hrun : storeInode k d s = some ((), t)) : CacheOK t ∧ Step s.cache (.store k d) t.cache := by
  cases hf : s.find k with
  | some ino =>
    have hg : Assigns 0 fun ino : Inode => { ino with din := d, dirty := true } :=
      ⟨fun _ => rfl, fun _ => (add_zero _).symm⟩
    rw [storeInode_run d hf, Option.some_inj, Prod.mk.injEq] at hrun
    rw [← hrun.2, cache_update hg hf]
    exact ⟨h.update hg fun _ _ => hd, .store (line_some hf)⟩
  | none =>
    rw [storeInode_none d hf] at hrun
    cases hrun

/-- The line is written back; the other inodes of its block stay. -/
theorem sync_step {k : Fin maxInodes} (h : CacheOK s) (hrun : testfsSyncInode k s = some ((), t)) :
    CacheOK t ∧ Step s.cache (.sync k) t.cache := by
  cases hf : s.find k with
  | none =>
    rw [syncInode_none hf] at hrun
    cases hrun
  | some ino =>
    have hstep := Step.sync (line_some hf)
    cases hd : ino.dirty with
    | false =>
      rw [syncInode_clean hf hd, Option.some_inj, Prod.mk.injEq] at hrun
      rw [← hrun.2]
      have hsame : s.cache = s.cache.set k (some ino.line) (s.cache.back k) :=
        cache_eq_set (line_some hf) rfl (fun _ _ => rfl) fun _ _ => rfl
      refine ⟨h, ?_⟩
      convert hstep using 1
      rw [Inode.line, hd] at hsame
      rw [Inode.line, hd]
      exact hsame
    | true =>
      rw [syncInode_dirty hf hd h.onDevice (inRange k), Option.some_inj, Prod.mk.injEq] at hrun
      rw [← hrun.2]
      have hok : CacheOK (s.updateInode k fun ino => { ino with dirty := false }) :=
        h.update assigns_clean h.fits
      have hfit := (h.fits ino (find_mem hf).1).decode_encode
      refine ⟨⟨hok.nodup, hok.fits, ?_⟩, ?_⟩
      · have hle := le_max_left s.sb.dev.len (s.sb.inodeBlock k + 1)
        exact le_trans h.onDevice hle
      · convert hstep using 1
        apply cache_eq_set
        · show ((s.updateInode k _).find k).map _ = _
          rw [find_update assigns_clean, hf, Option.map_some, Option.map_some,
            if_pos (find_mem hf).2]
          rfl
        · have hline : ino.line.dirty = true := hd
          rw [hline, if_pos rfl]
          exact ((diskInode_putInode s.sb ino.din (inRange k).1 (inRange k).1).trans
            (if_pos rfl)).trans hfit
        · intro j hj
          exact find_update_of_ne assigns_clean hj
        · intro j hj
          have hne : (j : ℤ) ≠ k := by
            intro e
            exact hj (Fin.ext (by exact_mod_cast e))
          exact (diskInode_putInode s.sb ino.din (inRange k).1 (inRange j).1).trans (if_neg hne)

/-- The last reference drops the line. -/
theorem put_step {k : Fin maxInodes} (h : CacheOK s) (hrun : testfsPutInode k s = some ((), t)) :
    CacheOK t ∧ Step s.cache (.put k) t.cache := by
  cases hf : s.find k with
  | none =>
    rw [putInode_none hf] at hrun
    cases hrun
  | some ino =>
    cases hd : ino.dirty with
    | true =>
      rw [putInode_dirty hf hd] at hrun
      cases hrun
    | false =>
      by_cases hc : ino.iCount = 1
      · rw [putInode_drop hf hd hc, Option.some_inj, Prod.mk.injEq] at hrun
        rw [← hrun.2]
        have hsub : (inodeHashRemove s.inodes k).Sublist s.inodes := List.eraseP_sublist
        refine ⟨⟨h.nodup.sublist (hsub.map _), ?_, h.onDevice⟩, ?_⟩
        · intro x hx
          exact h.fits x (hsub.subset hx)
        · have hset : ({ s with inodes := inodeHashRemove s.inodes k } : Testfs).cache =
              s.cache.set k none (s.cache.back k) := by
            apply cache_eq_set
            · show (inodeHashFind (inodeHashRemove s.inodes k) k).map _ = _
              rw [find_remove k k h.nodup, if_pos rfl, Option.map_none]
            · rfl
            · intro j hj
              exact (find_remove k j h.nodup).trans (if_neg hj)
            · intro _ _
              rfl
          rw [hset]
          exact .drop (line_some hf) hd hc
      · rw [putInode_release hf hd hc, Option.some_inj, Prod.mk.injEq] at hrun
        have hg : Assigns (-1) fun ino : Inode => { ino with iCount := ino.iCount - 1 } :=
          ⟨fun _ => rfl, fun _ => rfl⟩
        rw [← hrun.2, cache_update hg hf]
        exact ⟨h.update hg h.fits, .release (line_some hf) hd hc⟩

/-- **A step is a step of the cache.** -/
theorem cacheStep_ok (s : Testfs) (op : CacheOp) (t : Testfs) (h : CacheOK s)
    (hs : cacheStep s op t) : CacheOK t ∧ Step s.cache op t.cache := by
  obtain ⟨hfits, hrun⟩ := hs
  cases op with
  | get k =>
    by_cases hlt : (s.find k).elim 0 (·.iCount) < intMax
    · have hget : testfsGetInode k s = some ((), t) := (countedGetInode_run hlt).symm.trans hrun
      exact get_step h hget
    · have hnone := hrun.symm.trans (countedGetInode_overflow (not_lt.1 hlt))
      cases hnone
  | store k d => exact store_step h (hfits k d rfl) hrun
  | sync k => exact sync_step h hrun
  | put k => exact put_step h hrun

/-! ### What the cache promises -/

/-- A file system that was just mounted: nothing is in memory. -/
structure Mounted (s : Testfs) : Prop where
  empty : s.inodes = []
  onDevice : s.sb.HasInodes

/-- The inodes on the device and no references. -/
def Testfs.account (s : Testfs) : Account (Fin maxInodes) DInode :=
  ⟨fun k => s.sb.diskInode k, fun _ => 0⟩

/-- **The promise**, for the inodes last stored and the references held. -/
structure CacheMeets (t : Testfs) (a : Account (Fin maxInodes) DInode) : Prop where
  single : (t.inodes.map (·.iNr)).Nodup
  yields : ∀ k : Fin maxInodes, ∃ u ino, countedGetInode k t = some ((), u) ∧
    (chains u.inodes).find k = some ino ∧ ino.din = a.stored k
  count : ∀ k : Fin maxInodes, ((chains t.inodes).find k).elim 0 (·.iCount) = a.refs k
  sync : ∀ (k : Fin maxInodes) u, testfsSyncInode k t = some ((), u) →
    ∀ j : Fin maxInodes, j ≠ k → u.sb.diskInode j = t.sb.diskInode j

theorem Mounted.cacheOK (h : Mounted s) : CacheOK s := by
  constructor
  · rw [h.empty]
    exact List.nodup_nil
  · intro ino hino
    rw [h.empty] at hino
    cases hino
  · exact h.onDevice

theorem Mounted.coherent (h : Mounted s) : Coherent s.cache s.account := by
  apply coherent_empty
  intro k
  apply line_none
  unfold Testfs.find inodeHashFind
  rw [h.empty, List.find?_nil]

theorem mounted_run {ops : List CacheOp} (h : Mounted s) (hr : Run cacheStep s ops t) :
    CacheOK t ∧ Coherent t.cache (ops.foldl Op.record s.account) :=
  run_coherent Testfs.cache cacheStep_ok hr h.cacheOK h.coherent

variable {a : Account (Fin maxInodes) DInode}

/-- The references of the account are the count of the inode in memory. -/
theorem count_eq (h : Coherent t.cache a) (k : Fin maxInodes) :
    (t.find k).elim 0 (·.iCount) = a.refs k := by
  rw [← h.refs k]
  cases hf : t.find k with
  | none => rw [line_none hf, Option.elim_none, Option.elim_none]
  | some ino => rw [line_some hf, Option.elim_some, Option.elim_some, Inode.line]

/-- `testfs_get_inode` yields the inode last stored, unless its count is at the limit. -/
theorem get_yields (hok : CacheOK t) (h : Coherent t.cache a) {k : Fin maxInodes}
    (hlt : a.refs k < intMax) : ∃ u ino, countedGetInode k t = some ((), u) ∧
      u.find k = some ino ∧ ino.din = a.stored k := by
  rw [countedGetInode_run ((count_eq h k).trans_lt hlt)]
  have hwp := getInode_found t k
  have hrun : ∃ u, testfsGetInode k t = some ((), u) := by
    cases hf : t.find k with
    | some ino => exact ⟨_, getInode_hit hf⟩
    | none => exact ⟨_, getInode_load hf hok.onDevice (inRange k)⟩
  obtain ⟨u, hu⟩ := hrun
  obtain ⟨-, -, ⟨ino, hf, hd⟩, -⟩ := hwp.of_run hu
  refine ⟨u, ino, hu, hf, hd.trans ?_⟩
  -- the inode in memory or on the device is the value of the cache
  have hv := h.value k
  unfold WriteBack.value at hv
  unfold Testfs.dinode
  rw [← hv]
  cases hft : t.find k with
  | none => rw [line_none hft]; rfl
  | some ino => rw [line_some hft]; rfl

theorem cacheMeets_of (hok : CacheOK t) (h : Coherent t.cache a)
    (hlt : ∀ k, a.refs k < intMax) : CacheMeets t a where
  single := hok.nodup
  yields k := by
    obtain ⟨u, ino, hu, hf, hd⟩ := get_yields hok h (hlt k)
    exact ⟨u, ino, hu, (find_chains _ _).trans hf, hd⟩
  count k := by
    rw [find_chains]
    exact count_eq h k
  sync k u hu j hj := by
    obtain ⟨-, hstep⟩ := sync_step hok hu
    -- the step of the cache sets the value behind line `k` only
    generalize hc : u.cache = c at hstep
    have hb : u.sb.diskInode j = c.back j := by
      rw [← hc]
      rfl
    rw [hb]
    cases hstep with
    | sync hl => exact Function.update_of_ne hj ..

/-- **After every interleaving the inode cache is coherent, if and only if no inode is held
`INT_MAX` times.** At that count the next `testfs_get_inode` overflows `i_count`. -/
theorem cacheMeets_iff {ops : List CacheOp} (h : Mounted s) (hr : Run cacheStep s ops t) :
    CacheMeets t (ops.foldl Op.record s.account) ↔
      ∀ k, (ops.foldl Op.record s.account).refs k < intMax := by
  obtain ⟨hok, hc⟩ := mounted_run h hr
  constructor
  · intro hm k
    obtain ⟨u, ino, hu, -, -⟩ := hm.yields k
    by_contra hge
    have hnone : countedGetInode k t = none := by
      apply countedGetInode_overflow
      rw [count_eq hc k]
      exact not_lt.1 hge
    rw [hnone] at hu
    cases hu
  · exact cacheMeets_of hok hc

/-! ### An inode that is opened again and again -/

/-- A device of zeros with the layout of a file system. -/
def blankFs : Testfs where
  sb := ⟨⟨1, 2, 18, 146, 0, 0, 0⟩, ⟨fun _ => Block.zero, 146⟩, ⟨0, fun _ => 0⟩, ⟨0, fun _ => 0⟩⟩
  inodes := []
  curDir := 0

theorem blankFs_mounted : Mounted blankFs where
  empty := rfl
  onDevice := by
    unfold SuperBlock.HasInodes blankFs nrInodeBlocks
    norm_num

def rootNr : Fin maxInodes := ⟨0, by decide⟩

theorem refs_gets (a : Account (Fin maxInodes) DInode) (k : Fin maxInodes) (n : ℕ) :
    ((List.replicate n (WriteBack.Op.get k)).foldl Op.record a).refs k = a.refs k + n := by
  induction n generalizing a with
  | zero => simp
  | succ n ih =>
    rw [List.replicate_succ, List.foldl_cons, ih]
    simp only [Op.record, Function.update_self]
    push_cast
    ring

/-- An inode can be opened `INT_MAX` times. -/
theorem gets_run (h : Mounted s) (k : Fin maxInodes) {n : ℕ} (hn : (n : ℤ) ≤ intMax) :
    ∃ t, Run cacheStep s (List.replicate n (.get k)) t := by
  induction n with
  | zero => exact ⟨s, .nil s⟩
  | succ n ih =>
    obtain ⟨t, hr⟩ := ih (by push_cast at hn; omega)
    obtain ⟨hok, hc⟩ := mounted_run h hr
    have hlt : ((List.replicate n (.get k)).foldl Op.record s.account).refs k < intMax := by
      rw [refs_gets]
      simp only [Testfs.account]
      push_cast at hn
      omega
    obtain ⟨u, -, hu, -, -⟩ := get_yields hok hc hlt
    refine ⟨u, ?_⟩
    rw [List.replicate_succ']
    refine hr.snoc ⟨?_, hu⟩
    intro _ _ he
    cases he

/-- An inode with a size of five bytes. -/
def fiveInode : DInode := DInode.decode fun i => if i = 56 then 5 else 0

/-- Two inodes of one block are opened; root is changed, written back, released and opened again. -/
def sharedBlockRun : List CacheOp :=
  [.get rootNr, .get ⟨1, by decide⟩, .store rootNr fiveInode, .get rootNr, .sync rootNr,
    .put rootNr, .put rootNr, .get rootNr]

theorem sharedBlockRun_returns :
    (runAll (fun s op => (runCacheOp op s).map (·.2)) blankFs sharedBlockRun).isSome = true := by
  decide +kernel

theorem cacheMeets_shared_block : ∃ t, Run cacheStep blankFs sharedBlockRun t ∧
    (sharedBlockRun.foldl Op.record blankFs.account).stored rootNr = fiveInode ∧
    CacheMeets t (sharedBlockRun.foldl Op.record blankFs.account) := by
  obtain ⟨t, ht⟩ := Option.isSome_iff_exists.1 sharedBlockRun_returns
  have hr : Run cacheStep blankFs sharedBlockRun t := by
    have hfits : ∀ op ∈ sharedBlockRun, Testfs → ∀ k d, op = .store k d → d.Fits := by
      rintro op hop - k d rfl
      simp only [sharedBlockRun, List.mem_cons, List.not_mem_nil, or_false, reduceCtorEq,
        false_or, Op.store.injEq] at hop
      rw [hop.2]
      exact DInode.decode_fits _
    refine ((runAll_run (.nil blankFs) ht).guard hfits).mono fun s op u hs => ⟨hs.1, ?_⟩
    obtain ⟨v, hv, rfl⟩ := Option.map_eq_some_iff.1 hs.2
    exact hv
  refine ⟨t, hr, rfl, (cacheMeets_iff blankFs_mounted hr).2 fun k => ?_⟩
  show (sharedBlockRun.foldl Op.record blankFs.account).refs k < intMax
  by_cases h0 : k = rootNr
  · subst h0
    decide
  by_cases h1 : k = ⟨1, by decide⟩
  · subst h1
    decide
  · simp only [sharedBlockRun, List.foldl, Op.record, Function.update_of_ne h0,
      Function.update_of_ne h1]
    show (0 : ℤ) < intMax
    decide

/-- **The inode that is held `INT_MAX` times** cannot be opened again. -/
theorem count_overflows : ¬∀ (s t : Testfs) (ops : List CacheOp), Mounted s →
    Run cacheStep s ops t → CacheMeets t (ops.foldl Op.record s.account) := by
  intro hall
  obtain ⟨n, hn⟩ : ∃ n : ℕ, (n : ℤ) = intMax := ⟨2 ^ 31 - 1, by norm_num [intMax]⟩
  obtain ⟨t, hr⟩ := gets_run blankFs_mounted rootNr (n := n) hn.le
  obtain ⟨u, ino, hu, -, -⟩ := (hall _ _ _ blankFs_mounted hr).yields rootNr
  obtain ⟨-, hc⟩ := mounted_run blankFs_mounted hr
  have hcount : (t.find rootNr).elim 0 (·.iCount) = intMax := by
    rw [count_eq hc rootNr, refs_gets, hn]
    simp [Testfs.account]
  rw [countedGetInode_overflow hcount.ge] at hu
  cases hu

end OSLab.Fs
