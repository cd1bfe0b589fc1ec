import OSLab.Webserver.UseOrder
import Mathlib.Data.Nat.Find

/-!
# Which probe loops end

The loops square a key modulo the size of the table, so from the hash `h` of a name they visit
the slots `h ^ 2 ^ i`. These are few: `0` and `1` are their own squares. The loops end when one of
them is free or has the name, and the squares before it are an `int` (`probesEnd_iff`), and not
just when the table has a free slot somewhere. The loop of `cache_evict` always ends, since an
element stays on the sequence of its name (`OnProbe`).
-/

namespace OSLab.Webserver

open Prog

variable {s s' t : Wc} {e f fuel n : ℕ} {key : ℤ} {name : Name} {m : ℤ}

/-! ### Where a loop goes -/

/-- **The probe sequence of a name**: its hash to the powers `1, 2, 4, …`. -/
theorem probe_eq_pow (hpos : 0 < s.tableSize) (hsize : s.tableSize < 2 ^ 31) (n : ℕ) :
    s.probe name n = hash name ^ 2 ^ n % s.tableSize := by
  induction n with
  | zero => simp [Wc.probe, Wc.firstKey]
  | succ n ih =>
    obtain ⟨h0, h1⟩ : s.InTable (s.probe name n) := probe_inTable hpos n
    -- the square of a key fits an `unsigned long`
    have hsq : s.probe name n * s.probe name n < 2 ^ 64 := by
      have hle : s.probe name n * s.probe name n ≤ 2 ^ 31 * 2 ^ 31 :=
        Int.mul_le_mul (by omega) (by omega) h0 (by omega)
      omega
    rw [Wc.probe, Wc.longSquare, toSize_of_lt (Int.mul_nonneg h0 h0) hsq, ih, ← Int.mul_emod,
      ← pow_two, ← pow_mul, pow_succ]

/-- The slot `hash(name) ^ 2 ^ i mod table_size` is free or holds an element with the name, and
the squares of the keys before it fit an `int`. -/
def Wc.Reaches (s : Wc) (name : Name) (i : ℕ) : Prop :=
  (s.hashtable (hash name ^ 2 ^ i % s.tableSize) = none ∨
    ∃ e, s.hashtable (hash name ^ 2 ^ i % s.tableSize) = some e ∧ s.nameOf e = some name) ∧
  ∀ j < i, hash name ^ 2 ^ j % s.tableSize ≤ 46340

/-- Where lookup stops without an overflow, the sequence reaches the name or a free slot. -/
theorem Wc.StopsAt.reaches (h : s.StopsAt name n) (hpos : 0 < s.tableSize)
    (hsize : s.tableSize < 2 ^ 31) (hs : s.SmallKeys name) : s.Reaches name n := by
  obtain ⟨hp, hstop⟩ := h
  rw [lookupKey_eq hpos hs hp, probe_eq_pow hpos hsize] at hstop
  refine ⟨hstop, fun j hj => ?_⟩
  have hpj : s.Passes name (j + 1) := hp.mono hj
  rw [← probe_eq_pow hpos hsize, ← lookupKey_eq hpos hs (hpj.mono (Nat.le_succ j))]
  exact hs j hpj

/-- Where the sequence reaches the name or a free slot, lookup stops without an overflow. -/
theorem Wc.Reaches.stops {i : ℕ} (h : s.Reaches name i) (hpos : 0 < s.tableSize)
    (hsize : s.tableSize < 2 ^ 31) : s.SmallKeys name ∧ ∃ n, s.StopsAt name n := by
  classical
  have hreach : ¬s.Other name (s.probe name i) := by
    rw [probe_eq_pow hpos hsize]
    exact Wc.not_other_iff.2 h.1
  -- the first such slot, which does not come after `i`
  have hex : ∃ n, ¬s.Other name (s.probe name n) := ⟨i, hreach⟩
  set n := Nat.find hex with hn
  have hle : n ≤ i := Nat.find_min' hex hreach
  have hsmall : ∀ j < n, s.probe name j ≤ 46340 := by
    intro j hj
    rw [probe_eq_pow hpos hsize]
    exact h.2 j (by omega)
  have hkey : ∀ k ≤ n, s.lookupKey name k = s.probe name k := fun k hk =>
    lookupKey_small hpos fun j hj _ => hsmall j (by omega)
  have hnot : ¬s.Other name (s.lookupKey name n) := by
    rw [hkey n le_rfl]
    exact Nat.find_spec hex
  refine ⟨fun k hk => ?_, n, fun k hk => ?_, Wc.not_other_iff.1 hnot⟩
  · have hlt : k < n := by
      by_contra hge
      exact hnot (hk n (by omega))
    rw [hkey k hlt.le]
    exact hsmall k hlt
  · rw [hkey k hk.le]
    exact not_not.1 (Nat.find_min hex hk)

/-- The loop of `cache_lookup` ends. -/
theorem findEntry_returns (hpos : 0 < s.tableSize) (hl : s.Live) (hs : s.SmallKeys name)
    (hst : s.StopsAt name n) : ∃ fuel r, s.findEntry name fuel (s.firstKey name) = some r ∧
      (r = none ∨ ∃ e, r = some e ∧ s.nameOf e = some name) := by
  obtain ⟨r, hr⟩ := findEntry_some (inRange_of_small hpos hs) hl hst (Nat.zero_le n)
  refine ⟨_, r, hr, ?_⟩
  obtain ⟨-, -, ⟨-, h⟩ | ⟨e, -, hname, h⟩⟩ := findEntry_ends (m := 0) (fun i hi => by omega) hr
  · exact Or.inl h
  · exact Or.inr ⟨e, h, hname⟩

/-- The loop of `cache_evict` ends when the element is on the sequence. -/
theorem findSlot_ends (hpos : 0 < s.tableSize) (h : s.hashtable (s.probe name n) = some e) :
    ∃ fuel key, s.findSlot e fuel (s.firstKey name) = some key ∧ s.hashtable key = some e := by
  suffices hm : ∀ d i, n = i + d → ∃ key, s.findSlot e (d + 1) (s.probe name i) = some key ∧
      s.hashtable key = some e from ⟨n + 1, hm n 0 (by omega)⟩
  intro d i hd
  induction d generalizing i with
  | zero =>
    obtain rfl : n = i := by omega
    refine ⟨_, ?_, h⟩
    rw [Wc.findSlot, if_neg (not_not.2 (probe_inTable hpos n)), if_pos h]
  | succ d ih =>
    obtain ⟨key, hkey, he⟩ := ih (i + 1) (by omega)
    by_cases hi : s.hashtable (s.probe name i) = some e
    · refine ⟨_, ?_, hi⟩
      rw [Wc.findSlot, if_neg (not_not.2 (probe_inTable hpos i)), if_pos hi]
    · refine ⟨key, ?_, he⟩
      rw [Wc.findSlot, if_neg (not_not.2 (probe_inTable hpos i)), if_neg hi]
      exact hkey

/-! ### The contents of the table -/

/-- Every element of the table is on the probe sequence of its name. -/
structure OnProbe (s : Wc) : Prop where
  live : s.Live
  onProbe : ∀ k e nm, s.hashtable k = some e → s.nameOf e = some nm → ∃ j, s.probe nm j = k

theorem SameTable.onProbes (h : SameTable s t) (hp : OnProbe s) : OnProbe t where
  live k e hk := by
    rw [h.hashtable] at hk
    obtain ⟨fd, hfd⟩ := hp.live k e hk
    exact ⟨fd, h.fileOf e fd hfd⟩
  onProbe k e nm hk hn := by
    rw [h.hashtable] at hk
    rw [h.nameOf hp.live hk] at hn
    obtain ⟨j, hj⟩ := hp.onProbe k e nm hk hn
    exact ⟨j, by rw [probe_congr h.tableSize, hj]⟩

/-- A new element at a slot of the sequence of its name. -/
theorem OnProbe.setSlot {fd : FileData} {j : ℕ} (h : OnProbe s) (hfile : s.fileOf e = some fd)
    (hj : s.probe fd.fileName j = key) : OnProbe (s.setSlot key (some e)) := by
  constructor
  · intro k x hx
    obtain ⟨-, rfl⟩ | hold := setSlot_cases hx
    · exact ⟨fd, hfile⟩
    · exact h.live k x hold
  · intro k x nm hx hn
    obtain ⟨rfl, rfl⟩ | hold := setSlot_cases hx
    · have hname : s.nameOf x = some fd.fileName := by simp [Wc.nameOf, hfile]
      obtain rfl : fd.fileName = nm := Option.some.inj (hname.symm.trans hn)
      exact ⟨j, (probe_setSlot ..).trans hj⟩
    · obtain ⟨i, hi⟩ := h.onProbe k x nm hold hn
      exact ⟨i, (probe_setSlot ..).trans hi⟩

theorem cacheInsert_onProbe {fd : FileData} (h : OnProbe s) (hfd : s.files f = some fd) :
    wp True (cacheInsert fuel f e) (fun _ s' => OnProbe s' ∧ s'.tableSize = s.tableSize) s := by
  simp only [cacheInsert, wp_bind, wp_getState, hfd, wp_load_some, wp_ite]
  refine ⟨fun _ => (wp_pure _).2 ⟨h, rfl⟩, fun _ => ?_⟩
  refine wp_mono (makeRoom_idle fd.fileSize (Or.inl trivial)) fun _ s₁ h₁ => ?_
  obtain ⟨-, rfl⟩ := h₁
  simp only [wp_require, wp_modify]
  refine ⟨fun hfresh => ?_, fun _ => trivial⟩
  set s₂ := s₁.setElement e (some ⟨f, none, none⟩) with hs₂
  have hsame : SameTable s₁ s₂ := ⟨rfl, rfl, fun _ _ hx => fileOf_setElement hfresh hx⟩
  have hfile : s₂.fileOf e = some fd := by simp [hs₂, Wc.fileOf, Wc.setElement, hfd]
  cases hk : s₂.findFree fuel (s₂.firstKey fd.fileName) with
  | none => exact wp_of_none (by simp [reads, hk]) trivial
  | some key =>
    refine wp_reads key hk ?_
    obtain ⟨j, hj, -⟩ := findFree_probe (m := 0) hk fun i hi => by omega
    have h₃ := (hsame.onProbes h).setSlot hfile hj
    set s₃ := (s₂.setSlot key (some e)).setRemaining
      (toInt32 (s₂.remainingCacheSize - fd.fileSize)) with hs₃
    have hsame₃ : SameTable (s₂.setSlot key (some e)) s₃ := ⟨rfl, rfl, fun _ _ hx => hx⟩
    refine wp_mono (upgradeLru2_frame e true) fun _ s₄ hr => (wp_pure _).2 ⟨?_, hr.tableSize⟩
    exact hr.sameTable.onProbes (hsame₃.onProbes h₃)

/-- A step of the cache, whatever it looks up or inserts. -/
def anyStep (s : Wc) (l : CacheLab) (t : Wc) : Prop := cacheStep s l.1 l.2 t

theorem OnProbe.step {l : CacheLab} (h : OnProbe s) (hs : anyStep s l t) :
    OnProbe t ∧ t.tableSize = s.tableSize := by
  obtain ⟨op, r⟩ := l
  obtain ⟨fuel, hrun⟩ := hs
  cases op with
  | lookup name =>
    have hw : wp True ((CacheOp.lookup name).run fuel)
        (fun _ t => OnProbe t ∧ t.tableSize = s.tableSize) s := by
      simp only [CacheOp.run, wp_bind, wp_pure]
      exact wp_mono (cacheLookup_frame fuel name true) fun _ t ht =>
        ⟨ht.1.sameTable.onProbes h, ht.1.tableSize⟩
    exact hw.of_run hrun
  | insert file data element =>
    have hw : wp True ((CacheOp.insert file data element).run fuel)
        (fun _ t => OnProbe t ∧ t.tableSize = s.tableSize) s := by
      simp only [CacheOp.run, wp_bind, wp_getState, wp_require, wp_modify]
      refine ⟨fun hfresh => ?_, fun _ => trivial⟩
      have hsame : SameTable s (s.setFile file (some data)) :=
        ⟨rfl, rfl, fun _ _ hx => fileOf_setFile hfresh hx⟩
      have hfd : (s.setFile file (some data)).files file = some data := by simp [Wc.setFile]
      refine wp_mono (cacheLookup_idle fuel data.fileName) fun check u hu => ?_
      subst hu
      cases check with
      | some x => exact (wp_pure _).2 ⟨hsame.onProbes h, rfl⟩
      | none => exact cacheInsert_onProbe (hsame.onProbes h) hfd
    exact hw.of_run hrun

theorem init_onProbe (m : ℤ) : OnProbe (cacheInit m) :=
  ⟨fun _ _ h => (by cases h), fun _ _ _ h => (by cases h)⟩

theorem run_onProbe {ls : List CacheLab} (hr : Run anyStep (cacheInit m) ls s) :
    OnProbe s ∧ s.tableSize = (cacheInit m).tableSize := by
  refine run_inv (I := fun s => OnProbe s ∧ s.tableSize = (cacheInit m).tableSize) ?_ hr
    ⟨init_onProbe m, rfl⟩
  intro s l t h hs
  obtain ⟨hp, ht⟩ := h.1.step hs
  exact ⟨hp, ht.trans h.2⟩

/-! ### When all loops end -/

/-- If the table has a free slot, the loops for a name end: that of `cache_lookup` at the name or a
free slot, with squares that fit an `int`; that of `cache_insert`, which runs if no element has the
name, at a free slot; and that of `cache_evict` at an element with the name. -/
def ProbesEnd (s : Wc) (name : Name) : Prop :=
  (∃ key, s.InTable key ∧ s.hashtable key = none) →
    ((∃ fuel r, s.findEntry name fuel (s.firstKey name) = some r ∧
      (r = none ∨ ∃ e, r = some e ∧ s.nameOf e = some name)) ∧ s.SmallKeys name) ∧
    ((∀ e, s.Stores e → s.nameOf e ≠ some name) →
      ∃ fuel key, s.findFree fuel (s.firstKey name) = some key ∧ s.hashtable key = none) ∧
    ∀ e, s.Stores e → s.nameOf e = some name →
      ∃ fuel key, s.findSlot e fuel (s.firstKey name) = some key ∧ s.hashtable key = some e

/-- A full table, or one whose slots on the sequence of the name come to a free one or the name
while the keys are small. -/
def Wc.FullOrEnds (s : Wc) (name : Name) : Prop :=
  (∀ key, s.InTable key → s.hashtable key ≠ none) ∨ ∃ i, s.Reaches name i

theorem OnProbe.ends_iff (h : OnProbe s) (hpos : 0 < s.tableSize)
    (hsize : s.tableSize < 2 ^ 31) : ProbesEnd s name ↔ s.FullOrEnds name := by
  constructor
  · intro hend
    by_cases hfull : ∀ key, s.InTable key → s.hashtable key ≠ none
    · exact Or.inl hfull
    · simp only [not_forall, not_not] at hfull
      obtain ⟨key, hin, hk⟩ := hfull
      obtain ⟨⟨⟨fuel, r, hr, -⟩, hs⟩, -⟩ := hend ⟨key, hin, hk⟩
      -- the loop of `cache_lookup` says where the sequence ends; the other two add nothing
      obtain ⟨n, hp, hstop⟩ := findEntry_ends (m := 0) (fun i hi => by omega) hr
      have hst : s.StopsAt name n := by
        refine ⟨hp, hstop.imp And.left ?_⟩
        rintro ⟨e, he, hname, -⟩
        exact ⟨e, he, hname⟩
      exact Or.inr ⟨n, hst.reaches hpos hsize hs⟩
  · rintro (hfull | ⟨i, hi⟩)
    · rintro ⟨key, hin, hk⟩
      exact absurd hk (hfull key hin)
    · intro _
      obtain ⟨hs, n, hst⟩ := hi.stops hpos hsize
      refine ⟨⟨findEntry_returns hpos h.live hs hst, hs⟩, fun hnew => ?_, ?_⟩
      · have hfree := hst.freeAt hpos hs hnew
        exact ⟨n + 1, _, findFree_some hpos hfree (by omega), hfree.1⟩
      · -- an element of the table is on the sequence of its name, wherever that leads
        rintro e ⟨k, hk⟩ hn
        obtain ⟨j, rfl⟩ := h.onProbe k e name hk hn
        exact findSlot_ends hpos hk

/-- **The probe loops end** for a name, in a table that is not full, if and only if one of the slots
`hash(name) ^ 2 ^ i` is free or has the name, and the keys before it are at most 46340. -/
theorem probesEnd_iff {ls : List CacheLab} (h0 : 0 < m) (hm : m * 11 < 2 ^ 31)
    (hr : Run anyStep (cacheInit m) ls s) (name : Name) :
    ProbesEnd s name ↔ s.FullOrEnds name := by
  obtain ⟨hp, hts⟩ := run_onProbe hr
  have hsize : (cacheInit m).tableSize = m * 11 := toInt32_of_lt (by omega) (by omega)
  exact hp.ends_iff (by omega) (by omega)

/-- The names `./bn` and `./ey`, whose hashes are multiples of 110. -/
def bnName : Name := [46, 47, 98, 110]

def eyName : Name := [46, 47, 101, 121]

theorem exists_anyRun (ls : List CacheLab) (p : Wc → Bool)
    (hp : ((runAll (cacheRun 4) (cacheInit 10) ls).any p) = true) :
    ∃ s, Run anyStep (cacheInit 10) ls s ∧ p s = true := by
  obtain ⟨s, hr, hps⟩ := runAll_any (cacheRun 4) (cacheInit 10) ls p hp
  exact ⟨s, hr.mono fun _ _ _ hs => (cacheRun_step hs).2, hps⟩

/-- The loops for `./bw` end at the slot 81, where it is, behind `./a` at 9; those for `./fa` go on
to the slot 71. -/
theorem probesEnd_sample : ∃ s, Run anyStep (cacheInit 10) collidingRun s ∧
    (s.hashtable 9 = some 0 ∧ s.hashtable 81 = some 1 ∧ s.hashtable 71 = none) ∧
    ProbesEnd s bwName ∧ ProbesEnd s faName := by
  obtain ⟨s, hr, hp⟩ := exists_anyRun collidingRun
    (fun s => decide (s.hashtable 9 = some 0) && (decide (s.hashtable 81 = some 1) &&
      (decide (s.hashtable 71 = none) && (decide (s.nameOf 1 = some bwName) &&
        decide (s.tableSize = 110))))) (by decide +kernel)
  simp only [Bool.and_eq_true, decide_eq_true_eq] at hp
  obtain ⟨ha, hbw, hfree, hname, hts⟩ := hp
  refine ⟨s, hr, ⟨ha, hbw, hfree⟩, ?_, ?_⟩
  · have hkey : hash bwName ^ 2 ^ 0 % 110 = 9 ∧ hash bwName ^ 2 ^ 1 % 110 = 81 := by decide +kernel
    refine (probesEnd_iff (by decide) (by decide) hr bwName).2
      (Or.inr ⟨1, Or.inr ⟨1, ?_, hname⟩, ?_⟩)
    · rw [hts, hkey.2, hbw]
    · intro j hj
      obtain rfl : j = 0 := by omega
      rw [hts, hkey.1]
      decide
  · have hkey : hash faName ^ 2 ^ 0 % 110 = 9 ∧ hash faName ^ 2 ^ 1 % 110 = 81 ∧
        hash faName ^ 2 ^ 2 % 110 = 71 := by decide +kernel
    refine (probesEnd_iff (by decide) (by decide) hr faName).2
      (Or.inr ⟨2, Or.inl ?_, ?_⟩)
    · rw [hts, hkey.2.2, hfree]
    · intro j hj
      obtain rfl | rfl : j = 0 ∨ j = 1 := by omega
      · rw [hts, hkey.1]
        decide
      · rw [hts, hkey.2.1]
        decide

/-- With `./bn` at slot 0 of 110, looking up `./ey` never ends. -/
theorem square_of_zero : ¬∀ (m : ℤ) (ls : List CacheLab) (s : Wc), 0 < m → m * 11 < 2 ^ 31 →
    Run anyStep (cacheInit m) ls s → ∀ name, ProbesEnd s name := by
  intro h
  obtain ⟨s, hr, hp⟩ := exists_anyRun [insertion bnName 5 0]
    (fun s => decide (s.hashtable 1 = none) && (decide (s.hashtable 0 = some 0) &&
      (decide (s.nameOf 0 = some bnName) && decide (s.firstKey eyName = 0)))) (by decide +kernel)
  simp only [Bool.and_eq_true, decide_eq_true_eq] at hp
  obtain ⟨hfree, htaken, hname, hkey⟩ := hp
  have hts := (run_onProbe hr).2
  have hsize : (cacheInit 10).tableSize = 110 := by decide
  have hend := h 10 _ s (by decide) (by decide) hr eyName
  obtain ⟨⟨⟨fuel, r, hr, -⟩, -⟩, -⟩ := hend ⟨1, by unfold Wc.InTable; omega, hfree⟩
  -- the loop stays at slot 0
  have hzero : ∀ n, s.lookupKey eyName n = 0 := by
    intro n
    induction n with
    | zero => exact hkey
    | succ n ih => simp [Wc.lookupKey, Wc.intSquare, ih, toInt32]
  obtain ⟨n, -, hstop⟩ := findEntry_ends (m := 0) (fun i hi => by omega) hr
  rw [hzero, htaken] at hstop
  obtain ⟨hnone, -⟩ | ⟨e, he, hn, -⟩ := hstop
  · cases hnone
  · obtain rfl := Option.some.inj he
    rw [hname] at hn
    exact absurd hn (by decide)

end OSLab.Webserver
