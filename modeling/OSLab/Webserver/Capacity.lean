import OSLab.Webserver.Cache
import Mathlib.Algebra.BigOperators.Group.Finset.Piecewise
import Mathlib.Algebra.Order.Ring.Int

/-!
# How much the cache holds

`Wc.heldSize` is the sum of the sizes of the files in the table. The byte counter is
`cache_size` minus that sum, as long as every file that is inserted fits
(`capacity_run`). One that does not fit is inserted all the same (`capacity_exceeded`):
`cache_evict` frees entries while *more* than the wanted amount is free, and it is called
when less is, so it frees nothing.
-/

namespace OSLab.Webserver

open Prog

variable {s s' t : Wc} {e f fuel : ℕ} {key : ℤ} {name : Name} {ok : Prop}

/-! ### Frames -/

/-- `s'` differs from `s` at most in the list in order of use. -/
structure Relinked (s s' : Wc) : Prop where
  hashtable : s'.hashtable = s.hashtable
  cacheSize : s'.cacheSize = s.cacheSize
  remaining : s'.remainingCacheSize = s.remainingCacheSize
  tableSize : s'.tableSize = s.tableSize
  files : s'.files = s.files
  file : ∀ e, (s'.elements e).map (·.file) = (s.elements e).map (·.file)

namespace Relinked

theorem refl (s : Wc) : Relinked s s := ⟨rfl, rfl, rfl, rfl, rfl, fun _ => rfl⟩

theorem trans (h : Relinked s s') (h' : Relinked s' t) : Relinked s t where
  hashtable := h'.hashtable.trans h.hashtable
  cacheSize := h'.cacheSize.trans h.cacheSize
  remaining := h'.remaining.trans h.remaining
  tableSize := h'.tableSize.trans h.tableSize
  files := h'.files.trans h.files
  file e := (h'.file e).trans (h.file e)

theorem fileOf (h : Relinked s s') (e : ℕ) : s'.fileOf e = s.fileOf e := by
  have hf := h.file e
  unfold Wc.fileOf
  rw [h.files]
  cases h1 : s.elements e <;> cases h2 : s'.elements e <;> simp_all

end Relinked

theorem relinked_setElement {el el' : Element} (hel : s.elements e = some el)
    (hf : el'.file = el.file) : Relinked s (s.setElement e (some el')) := by
  refine ⟨rfl, rfl, rfl, rfl, rfl, fun x => ?_⟩
  by_cases hx : x = e
  · subst hx; simp [Wc.setElement, hel, hf]
  · simp [Wc.setElement, hx]

theorem relinked_setLruElement (s : Wc) (p : Option ℕ) : Relinked s (s.setLruElement p) :=
  ⟨rfl, rfl, rfl, rfl, rfl, fun _ => rfl⟩

theorem relinked_setLruTail (s : Wc) (p : Option ℕ) : Relinked s (s.setLruTail p) :=
  ⟨rfl, rfl, rfl, rfl, rfl, fun _ => rfl⟩

theorem storeNext_frame (e : ℕ) (p : Option ℕ) :
    wp True (storeNext e p) (fun _ s' => Relinked s s') s := by
  simp only [storeNext, wp_bind, wp_getState]
  cases hel : s.elements e with
  | none => simp
  | some el =>
    simp only [wp_load_some, wp_modify]
    exact relinked_setElement hel rfl

theorem storePre_frame (e : ℕ) (p : Option ℕ) :
    wp True (storePre e p) (fun _ s' => Relinked s s') s := by
  simp only [storePre, wp_bind, wp_getState]
  cases hel : s.elements e with
  | none => simp
  | some el =>
    simp only [wp_load_some, wp_modify]
    exact relinked_setElement hel rfl

/-- A dereferenced pointer only matters when it is not `NULL`. -/
theorem wp_load_true {α : Type} {o : Option α} {Q : α → Wc → Prop} (h : ∀ a, o = some a → Q a s) :
    wp True (load o) Q s := by
  cases o with
  | none => simp
  | some a => exact (wp_load_some a).2 (h a rfl)

theorem lruAppend_frame (e : ℕ) : wp True (lruAppend e) (fun _ s' => Relinked s s') s := by
  simp only [lruAppend, wp_bind, wp_getState]
  refine wp_load_true fun t _ => ?_
  refine wp_mono (storeNext_frame t (some e)) fun _ s₁ h₁ => ?_
  refine wp_mono (storePre_frame e (some t)) fun _ s₂ h₂ => ?_
  rw [wp_modify]
  exact (h₁.trans h₂).trans (relinked_setLruTail _ _)

theorem lruUnlinkFront_frame (e : ℕ) :
    wp True (lruUnlinkFront e) (fun _ s' => Relinked s s') s := by
  simp only [lruUnlinkFront, wp_bind, wp_getState]
  refine wp_load_true fun h _ => wp_load_true fun hd _ => wp_load_true fun fd _ => ?_
  rw [wp_ite]
  refine ⟨fun _ => ?_, fun _ => ?_⟩
  · rw [wp_bind]
    refine wp_load_true fun n _ => ?_
    rw [wp_bind, wp_modify]
    exact wp_mono (storePre_frame n none) fun _ s₁ h₁ => (relinked_setLruElement _ _).trans h₁
  · rw [wp_bind]
    exact wp_load_true fun p _ => storeNext_frame p _

theorem lruUnlinkBack_frame (e : ℕ) :
    wp True (lruUnlinkBack e) (fun _ s' => Relinked s s') s := by
  simp only [lruUnlinkBack, wp_bind, wp_getState]
  refine wp_load_true fun h _ => wp_load_true fun hd _ => wp_load_true fun fd _ => ?_
  rw [wp_ite]
  refine ⟨fun _ => ?_, fun _ => ?_⟩
  · rw [wp_bind]
    refine wp_load_true fun p _ => ?_
    rw [wp_bind, wp_modify]
    exact wp_mono (storeNext_frame p none) fun _ s₁ h₁ => (relinked_setLruTail _ _).trans h₁
  · rw [wp_bind]
    exact wp_load_true fun n _ => storePre_frame n _

/-- `upgrade_LRU_2` only changes the list. -/
theorem upgradeLru2_frame (e : ℕ) (inserting : Bool) :
    wp True (upgradeLru2 e inserting) (fun _ s' => Relinked s s') s := by
  simp only [upgradeLru2, wp_bind, wp_getState]
  cases s.lruElement with
  | none =>
    simp only [wp_bind, wp_modify]
    refine wp_mono (storeNext_frame e none) fun _ s₁ h₁ => ?_
    refine wp_mono (storePre_frame e none) fun _ s₂ h₂ => ?_
    exact (relinked_setLruElement _ _).trans ((h₁.trans h₂).trans (relinked_setLruTail _ _))
  | some h =>
    simp only [wp_bind]
    refine wp_load_true fun head _ => wp_load_true fun el _ => ?_
    cases head.next with
    | none =>
      simp only [wp_ite, wp_pure]
      exact ⟨fun _ => lruAppend_frame e, fun _ => Relinked.refl s⟩
    | some n =>
      simp only [wp_ite, wp_bind]
      refine ⟨fun _ => lruAppend_frame e, fun _ => ?_⟩
      refine wp_mono (lruUnlinkFront_frame e) fun _ s₁ h₁ => ?_
      refine wp_mono (lruUnlinkBack_frame e) fun _ s₂ h₂ => ?_
      refine wp_mono (lruAppend_frame e) fun _ s₃ h₃ => ?_
      exact wp_mono (storeNext_frame e none) fun _ s₄ h₄ => ((h₁.trans h₂).trans h₃).trans h₄

/-- `cache_lookup` only changes the list. -/
theorem cacheLookup_frame (fuel : ℕ) (name : Name) (lruFlag : Bool) :
    wp True (cacheLookup fuel name lruFlag)
      (fun r s' => Relinked s s' ∧ s.findEntry name fuel (s.firstKey name) = some r) s := by
  simp only [cacheLookup, wp_bind]
  cases hf : s.findEntry name fuel (s.firstKey name) with
  | none => exact wp_of_none (by simp [reads, hf]) trivial
  | some o =>
    refine wp_reads o hf ?_
    cases o with
    | none => exact (wp_pure _).2 ⟨Relinked.refl s, rfl⟩
    | some e =>
      rw [wp_ite, wp_bind, wp_pure]
      refine ⟨fun _ => wp_mono (upgradeLru2_frame e false) fun _ s' h => ?_, fun _ => ?_⟩
      · exact (wp_pure _).2 ⟨h, rfl⟩
      · exact ⟨Relinked.refl s, rfl⟩

/-! ### The byte counter -/

/-- Every element in the table and its file data are allocated. -/
def Wc.Live (s : Wc) : Prop := ∀ k e, s.hashtable k = some e → ∃ fd, s.fileOf e = some fd

/-- The size of the file in a slot. -/
def Wc.slotSize (s : Wc) (k : ℤ) : ℤ :=
  ((s.hashtable k).bind s.fileOf).elim 0 (·.fileSize)

/-- The sizes of the files in the cache. -/
def Wc.heldSize (s : Wc) : ℤ := ∑ k ∈ Finset.range s.tableSize.toNat, s.slotSize k

/-- The cache holds at most `cache_size` bytes, and the counter says how many are left. -/
def Capacity (s : Wc) : Prop :=
  s.heldSize ≤ s.cacheSize ∧ s.remainingCacheSize = s.cacheSize - s.heldSize

theorem Relinked.slotSize (h : Relinked s s') (k : ℤ) : s'.slotSize k = s.slotSize k := by
  have hf : s'.fileOf = s.fileOf := funext h.fileOf
  unfold Wc.slotSize
  rw [h.hashtable, hf]

theorem Relinked.heldSize (h : Relinked s s') : s'.heldSize = s.heldSize := by
  unfold Wc.heldSize
  rw [h.tableSize]
  exact Finset.sum_congr rfl fun k _ => h.slotSize k

theorem Relinked.live (h : Relinked s s') (hl : s.Live) : s'.Live := by
  intro k e hk
  rw [h.hashtable] at hk
  rw [h.fileOf]
  exact hl k e hk

/-- A new object does not change the file of an element that is allocated. -/
theorem fileOf_setFile {fd : FileData} {o : Option FileData} (hf : s.files f = none)
    (he : s.fileOf e = some fd) : (s.setFile f o).fileOf e = some fd := by
  unfold Wc.fileOf at *
  obtain ⟨el, hel, hfd⟩ := Option.bind_eq_some_iff.1 he
  have hne : el.file ≠ f := by
    intro h
    rw [h, hf] at hfd
    cases hfd
  simp [Wc.setFile, hel, hne, hfd]

theorem fileOf_setElement {e' : ℕ} {fd : FileData} {o : Option Element} (hn : s.elements e' = none)
    (he : s.fileOf e = some fd) : (s.setElement e' o).fileOf e = some fd := by
  have hne : e ≠ e' := by
    intro h
    unfold Wc.fileOf at he
    rw [h, hn] at he
    cases he
  unfold Wc.fileOf at *
  simpa [Wc.setElement, hne] using he

/-- The search of `cache_lookup` only sees the table and the files of its elements. -/
theorem findEntry_congr {n : ℕ} (ht : t.hashtable = s.hashtable) (hs : t.tableSize = s.tableSize)
    (hf : ∀ k e, s.hashtable k = some e → t.fileOf e = s.fileOf e) :
    t.findEntry name n key = s.findEntry name n key := by
  induction n generalizing key with
  | zero => rfl
  | succ n ih =>
    have hin : t.InTable key ↔ s.InTable key := by unfold Wc.InTable; rw [hs]
    have hsq : t.intSquare key = s.intSquare key := by unfold Wc.intSquare; rw [hs]
    simp only [Wc.findEntry, hin, ht, hsq]
    cases hk : s.hashtable key with
    | none => rfl
    | some e => simp only [hf key e hk, ih]

/-- The free slot the insertion finds. -/
theorem findFree_ok {n : ℕ} {k r : ℤ} (h : s.findFree n k = some r) :
    s.InTable r ∧ s.hashtable r = none := by
  induction n generalizing k with
  | zero => cases h
  | succ n ih =>
    unfold Wc.findFree at h
    split at h
    · cases h
    · rename_i hin
      split at h
      · rename_i hk
        obtain rfl := Option.some.inj h
        exact ⟨not_not.1 hin, hk⟩
      · exact ih h

/-- Writing a free slot adds the size of the new file. -/
theorem heldSize_setSlot {fd : FileData} (hin : s.InTable key) (hk : s.hashtable key = none)
    (hf : s.fileOf e = some fd) : (s.setSlot key (some e)).heldSize = s.heldSize + fd.fileSize := by
  obtain ⟨n, rfl⟩ := Int.eq_ofNat_of_zero_le hin.1
  have hmem : n ∈ Finset.range s.tableSize.toNat := by
    have := hin.2
    rw [Finset.mem_range]
    omega
  set f : ℕ → ℤ := fun k => s.slotSize k with hf'
  have hfun : (fun k : ℕ => (s.setSlot n (some e)).slotSize k) =
      Function.update f n fd.fileSize := by
    funext k
    by_cases h : k = n
    · subst h
      have hfo : (s.setSlot k (some e)).fileOf e = some fd := hf
      rw [Function.update_self]
      simp [Wc.slotSize, Wc.setSlot] at *
      rw [hfo]; rfl
    · rw [Function.update_of_ne h]
      have h' : (k : ℤ) ≠ n := by exact_mod_cast h
      simp only [hf', Wc.slotSize, Wc.setSlot, Function.update_of_ne h']
      rfl
  have hz : f n = 0 := by simp [f, Wc.slotSize, hk]
  have hsum : (s.setSlot n (some e)).heldSize =
      ∑ k ∈ Finset.range s.tableSize.toNat, Function.update f n fd.fileSize k := by
    unfold Wc.heldSize
    rw [← hfun]; rfl
  have hold : s.heldSize = f n + ∑ k ∈ Finset.range s.tableSize.toNat \ {n}, f k :=
    Finset.sum_eq_add_sum_sdiff_singleton_of_mem hmem f
  rw [hsum, Finset.sum_update_of_mem hmem]
  omega

/-- A label of the cache: a section, what it returned and the elements it evicted. -/
abbrev CacheLab := CacheOp × (Option ℕ × List ℕ)

/-- `cache_lookup` does not find the name. -/
def Wc.Misses (s : Wc) (name : Name) : Prop :=
  ∃ fuel, s.findEntry name fuel (s.firstKey name) = some none

/-- The size of the file of an insertion is not negative. -/
def CacheOp.Sized : CacheOp → Prop
  | .lookup _ => True
  | .insert _ data _ => 0 ≤ data.fileSize

/-- A file the cache takes fits into what is left. -/
def Fits (s : Wc) : CacheOp → Prop
  | .lookup _ => True
  | .insert _ data _ =>
    s.Misses data.fileName → 2 * data.fileSize ≤ s.cacheSize →
      data.fileSize ≤ s.remainingCacheSize

/-- A step with a file of some size. -/
def sizedStep (s : Wc) (l : CacheLab) (t : Wc) : Prop := l.1.Sized ∧ cacheStep s l.1 l.2 t

/-- A step that inserts only what fits. -/
def fittingStep (s : Wc) (l : CacheLab) (t : Wc) : Prop := Fits s l.1 ∧ sizedStep s l t

/-- What carries the proof: the counter is right and not negative. -/
structure Accounted (s : Wc) : Prop where
  live : s.Live
  sum : s.remainingCacheSize = s.cacheSize - s.heldSize
  nonneg : 0 ≤ s.remainingCacheSize
  le : s.remainingCacheSize ≤ s.cacheSize
  size : s.cacheSize < 2 ^ 31

theorem Accounted.capacity (h : Accounted s) : Capacity s :=
  ⟨by have := h.sum; have := h.nonneg; omega, h.sum⟩

theorem Relinked.accounted (h : Relinked s s') (ha : Accounted s) : Accounted s' where
  live := h.live ha.live
  sum := by rw [h.remaining, h.cacheSize, h.heldSize]; exact ha.sum
  nonneg := by rw [h.remaining]; exact ha.nonneg
  le := by rw [h.remaining, h.cacheSize]; exact ha.le
  size := by rw [h.cacheSize]; exact ha.size

/-- The table and the counter only see the files of the elements in the table. -/
theorem Accounted.of_fileOf (h : Accounted s) (ht : t.hashtable = s.hashtable)
    (hc : t.cacheSize = s.cacheSize) (hr : t.remainingCacheSize = s.remainingCacheSize)
    (hs : t.tableSize = s.tableSize)
    (hf : ∀ e fd, s.fileOf e = some fd → t.fileOf e = some fd) : Accounted t := by
  have hslot : t.slotSize = s.slotSize := by
    funext k
    unfold Wc.slotSize
    rw [ht]
    cases hk : s.hashtable k with
    | none => rfl
    | some e =>
      obtain ⟨fd, hfd⟩ := h.live k e hk
      simp [hfd, hf e fd hfd]
  have hheld : t.heldSize = s.heldSize := by
    unfold Wc.heldSize
    rw [hs, hslot]
  refine ⟨?_, by rw [hr, hc, hheld]; exact h.sum, by rw [hr]; exact h.nonneg,
    by rw [hr, hc]; exact h.le, by rw [hc]; exact h.size⟩
  intro k e hk
  rw [ht] at hk
  obtain ⟨fd, hfd⟩ := h.live k e hk
  exact ⟨fd, hf e fd hfd⟩

/-- `cache_evict` frees nothing when no more than the wanted amount is free. -/
theorem cacheEvict_idle {amount : ℤ} (hf : ok ∨ 0 < fuel) (h : s.remainingCacheSize ≤ amount) :
    wp ok (cacheEvict fuel amount) (fun r s' => r = [] ∧ s' = s) s := by
  cases fuel with
  | zero => exact wp_abort.2 (hf.resolve_right (lt_irrefl 0))
  | succ n =>
    simp only [cacheEvict, wp_bind, wp_getState, wp_ite, wp_pure]
    refine ⟨fun hgt => ?_, fun _ => by simp⟩
    exact absurd hgt (by omega)

/-- **`cache_insert` never evicts**: it asks for room only when less than that is free. -/
theorem makeRoom_idle (size : ℤ) (hf : ok ∨ 0 < fuel) :
    wp ok (makeRoom fuel size) (fun r s' => r = [] ∧ s' = s) s := by
  simp only [makeRoom, wp_bind, wp_getState, wp_ite, wp_pure]
  exact ⟨fun hge => cacheEvict_idle hf hge, fun _ => by simp⟩

/-- Inserting a file that fits. -/
theorem cacheInsert_accounted {fd : FileData} (h : Accounted s) (hfd : s.files f = some fd)
    (h0 : 0 ≤ fd.fileSize) (hfit : 2 * fd.fileSize ≤ s.cacheSize →
      fd.fileSize ≤ s.remainingCacheSize) :
    wp True (cacheInsert fuel f e) (fun _ s' => Accounted s') s := by
  simp only [cacheInsert, wp_bind, wp_getState, hfd, wp_load_some, wp_ite, wp_pure]
  refine ⟨fun _ => h, fun hsmall => ?_⟩
  have hle := hfit (by omega)
  refine wp_mono (makeRoom_idle fd.fileSize (Or.inl trivial)) fun _ s₁ h₁ => ?_
  obtain ⟨-, rfl⟩ := h₁
  simp only [wp_require, wp_modify]
  refine ⟨fun hfresh => ?_, fun _ => trivial⟩
  -- the new element
  have h₂ : Accounted (s₁.setElement e (some ⟨f, none, none⟩)) :=
    h.of_fileOf rfl rfl rfl rfl fun _ _ hx => fileOf_setElement hfresh hx
  have hfile : (s₁.setElement e (some ⟨f, none, none⟩)).fileOf e = some fd := by
    simp [Wc.fileOf, Wc.setElement, hfd]
  set s₂ := s₁.setElement e (some ⟨f, none, none⟩) with hs₂
  have hrem : s₂.remainingCacheSize = s₁.remainingCacheSize := rfl
  cases hk : s₂.findFree fuel (s₂.firstKey fd.fileName) with
  | none => exact wp_of_none (by simp [reads, hk]) trivial
  | some key =>
    refine wp_reads key hk ?_
    obtain ⟨hin, hfree⟩ := findFree_ok hk
    -- the slot and the counter
    have hheld := heldSize_setSlot hin hfree hfile
    have hcount : toInt32 (s₂.remainingCacheSize - fd.fileSize) =
        s₂.remainingCacheSize - fd.fileSize := by
      have := h₂.nonneg
      have := h₂.le
      have := h₂.size
      exact toInt32_of_lt (by omega) (by omega)
    refine wp_mono (upgradeLru2_frame e true) fun _ s₄ h₄ => ?_
    refine h₄.accounted ⟨?_, ?_, ?_, ?_, h₂.size⟩
    · intro k x hx
      simp only [Wc.setSlot, Wc.setRemaining, Function.update_apply] at hx
      split at hx
      · obtain rfl := Option.some.inj hx
        exact ⟨fd, hfile⟩
      · exact h₂.live k x hx
    · show toInt32 (s₂.remainingCacheSize - fd.fileSize) =
        s₂.cacheSize - (s₂.setSlot key (some e)).heldSize
      have := h₂.sum
      rw [hcount, hheld]
      omega
    · show 0 ≤ toInt32 (s₂.remainingCacheSize - fd.fileSize)
      omega
    · show toInt32 (s₂.remainingCacheSize - fd.fileSize) ≤ s₂.cacheSize
      have := h₂.le
      omega

/-- **One step keeps the account**, if it inserts only what fits. -/
theorem Accounted.step {l : CacheLab} (h : Accounted s) (hs : fittingStep s l t) : Accounted t := by
  obtain ⟨op, r⟩ := l
  obtain ⟨hfit, hsize, fuel, hrun⟩ := hs
  have hw : wp True (op.run fuel) (fun _ s' => Accounted s') s := by
    cases op with
    | lookup name =>
      simp only [CacheOp.run, wp_bind, wp_pure]
      exact wp_mono (cacheLookup_frame fuel name true) fun _ s₁ h₁ => h₁.1.accounted h
    | insert file data element =>
      simp only [CacheOp.run, wp_bind, wp_getState, wp_require, wp_modify]
      refine ⟨fun hfresh => ?_, fun _ => trivial⟩
      have h₁ : Accounted (s.setFile file (some data)) :=
        h.of_fileOf rfl rfl rfl rfl fun _ _ hx => fileOf_setFile hfresh hx
      refine wp_mono (cacheLookup_frame fuel data.fileName false) fun check s₂ h₂ => ?_
      have h₂' := h₂.1.accounted h₁
      cases check with
      | some x => exact (wp_pure _).2 h₂'
      | none =>
        have hfd : s₂.files file = some data := by rw [h₂.1.files]; simp [Wc.setFile]
        refine cacheInsert_accounted h₂' hfd hsize fun hle => ?_
        · rw [h₂.1.remaining]
          rw [h₂.1.cacheSize] at hle
          -- the new file data is not in the table, so the search is the one in `s`
          have heq : (s.setFile file (some data)).findEntry data.fileName fuel
              (s.firstKey data.fileName) =
              s.findEntry data.fileName fuel (s.firstKey data.fileName) := by
            refine findEntry_congr rfl rfl fun k x hx => ?_
            obtain ⟨fd, hfd⟩ := h.live k x hx
            rw [hfd, fileOf_setFile hfresh hfd]
          exact hfit ⟨fuel, heq ▸ h₂.2⟩ hle
  exact hw.of_run hrun

theorem init_accounted {m : ℤ} (h0 : 0 < m) (hm : m < 2 ^ 31) : Accounted (cacheInit m) := by
  have hheld : (cacheInit m).heldSize = 0 := Finset.sum_eq_zero fun k _ => rfl
  refine ⟨fun k e hk => (by cases hk), ?_, h0.le, le_refl _, hm⟩
  rw [hheld]
  show m = m - 0
  omega

/-- **The cache keeps its bound** as long as what it inserts fits. -/
theorem capacity_run {m : ℤ} {ls : List CacheLab} (h0 : 0 < m) (hm : m < 2 ^ 31)
    (hr : Run fittingStep (cacheInit m) ls t) : Capacity t :=
  (run_inv (fun _ _ _ h hs => Accounted.step h hs) hr (init_accounted h0 hm)).capacity

instance (op : CacheOp) : Decidable op.Sized :=
  match op with
  | .lookup _ => inferInstanceAs (Decidable True)
  | .insert _ data _ => inferInstanceAs (Decidable (0 ≤ data.fileSize))

/-- Take a step with what it is said to return, if that is what happens. -/
def cacheRun (fuel : ℕ) (s : Wc) (l : CacheLab) : Option Wc :=
  if l.1.Sized then
    match l.1.run fuel s with
    | some (r, t) => if r = l.2 then some t else none
    | none => none
  else none

theorem cacheRun_step {l : CacheLab} (h : cacheRun fuel s l = some t) : sizedStep s l t := by
  unfold cacheRun at h
  split at h
  · rename_i hsize
    split at h
    · rename_i r u hrun
      split at h
      · rename_i hr
        obtain rfl := Option.some.inj h
        exact ⟨hsize, fuel, by rw [hrun, hr]⟩
      · cases h
    · cases h
  · cases h

/-- A file of `n` bytes is put into the cache. -/
def insertion (name : Name) (n a : ℕ) : CacheLab :=
  (.insert a ⟨name, List.replicate n 1, n⟩ a, (some a, []))

/-- The file is found. -/
def hit (name : Name) (e : ℕ) : CacheLab := (.lookup name, (some e, []))

/-- The names `./a`, `./bw` and `./fa`, whose hashes are 9 modulo 110. -/
def aName : Name := [46, 47, 97]

def bwName : Name := [46, 47, 98, 119]

def faName : Name := [46, 47, 102, 97]

/-- Two files whose first slots are the same, and a hit of each. -/
def collidingRun : List CacheLab :=
  [insertion aName 5 0, insertion bwName 5 1, hit bwName 1, hit aName 0]

/-- There is room for the file, if the operation inserts one. -/
def CacheOp.HasRoom (s : Wc) : CacheOp → Prop
  | .lookup _ => True
  | .insert _ data _ => data.fileSize ≤ s.remainingCacheSize

instance (s : Wc) (op : CacheOp) : Decidable (op.HasRoom s) :=
  match op with
  | .lookup _ => inferInstanceAs (Decidable True)
  | .insert _ data _ => inferInstanceAs (Decidable (data.fileSize ≤ s.remainingCacheSize))

theorem CacheOp.HasRoom.fits {op : CacheOp} (h : op.HasRoom s) : Fits s op := by
  cases op with
  | lookup name => trivial
  | insert file data element => exact fun _ _ => h

/-- Take a step that has room. -/
def fittingRun (s : Wc) (l : CacheLab) : Option Wc :=
  if l.1.HasRoom s then cacheRun 4 s l else none

theorem fittingRun_step {l : CacheLab} (h : fittingRun s l = some t) : fittingStep s l t := by
  unfold fittingRun at h
  split_ifs at h with hroom
  exact ⟨hroom.fits, cacheRun_step h⟩

/-- Two files of five bytes fill a cache of ten. -/
theorem capacity_run_sample : ∃ t, Run fittingStep (cacheInit 10) collidingRun t ∧
    t.remainingCacheSize = 0 ∧ Capacity t := by
  obtain ⟨t, hr, ht⟩ := runAll_any fittingRun (cacheInit 10) collidingRun
    (fun t => decide (t.remainingCacheSize = 0)) (by decide +kernel)
  have hr : Run fittingStep (cacheInit 10) collidingRun t :=
    hr.mono fun _ _ _ hs => fittingRun_step hs
  exact ⟨t, hr, of_decide_eq_true ht, capacity_run (by decide) (by decide) hr⟩

/-- A third file of five bytes goes into a cache of ten. -/
theorem capacity_exceeded :
    ¬∀ (ls : List CacheLab) (t : Wc), Run sizedStep (cacheInit 10) ls t → Capacity t := by
  intro h
  obtain ⟨t, hr, ht⟩ := runAll_any (cacheRun 4) (cacheInit 10)
    [insertion aName 5 0, insertion bwName 5 1, insertion faName 5 2]
    (fun t => decide (t.remainingCacheSize = -5)) (by decide +kernel)
  have hcap := h _ t (hr.mono fun _ _ _ hs => cacheRun_step hs)
  have hrem : t.remainingCacheSize = -5 := of_decide_eq_true ht
  have := hcap.1
  have := hcap.2
  omega

end OSLab.Webserver
