import OSLab.Webserver.Lru

/-!
# What the cache finds

Insertion puts an element at the first free slot of the probe sequence of its name,
computed in `unsigned long`; lookup follows the sequence computed in `int`. The two agree
as long as lookup squares no key above 46340 (`SmallKeys`), and as nothing is ever taken
out of the table, every entry stays on the sequence of its name (`Holding`).

* `lookup_finds`: in every run with small keys, lookup returns exactly what was inserted.
* `lookup_outside`: a larger key makes lookup read outside the table.
-/

namespace OSLab.Webserver

open Prog

variable {s s' t : Wc} {e f fuel n m : ℕ} {key : ℤ} {name name' : Name} {ok : Prop}
  {held : Name → Option ℕ}

/-! ### Probe sequences -/

namespace Wc

/-- The probe sequence of insertion. -/
def probe (s : Wc) (name : Name) : ℕ → ℤ
  | 0 => s.firstKey name
  | n + 1 => s.longSquare (s.probe name n)

/-- The probe sequence of lookup. -/
def lookupKey (s : Wc) (name : Name) : ℕ → ℤ
  | 0 => s.firstKey name
  | n + 1 => s.intSquare (s.lookupKey name n)

/-- The slot at `key` holds an element with another name. -/
def Other (s : Wc) (name : Name) (key : ℤ) : Prop :=
  ∃ e, s.hashtable key = some e ∧ s.nameOf e ≠ some name

/-- Lookup goes on after its first `n` slots. -/
def Passes (s : Wc) (name : Name) (n : ℕ) : Prop := ∀ i < n, s.Other name (s.lookupKey name i)

/-- Lookup stops at its slot `n`. -/
def StopsAt (s : Wc) (name : Name) (n : ℕ) : Prop :=
  s.Passes name n ∧ (s.hashtable (s.lookupKey name n) = none ∨
    ∃ e, s.hashtable (s.lookupKey name n) = some e ∧ s.nameOf e = some name)

/-- Every table index lookup uses is inside the table. -/
def InRange (s : Wc) (name : Name) : Prop :=
  ∀ n, s.Passes name n → s.InTable (s.lookupKey name n)

/-- Every key lookup squares is at most 46340, so that its square is an `int`. -/
def SmallKeys (s : Wc) (name : Name) : Prop :=
  ∀ n, s.Passes name (n + 1) → s.lookupKey name n ≤ 46340

end Wc

/-- A slot that lookup does not go past is free or has the name. -/
theorem Wc.not_other_iff : ¬s.Other name key ↔
    s.hashtable key = none ∨ ∃ e, s.hashtable key = some e ∧ s.nameOf e = some name := by
  cases hslot : s.hashtable key with
  | none => simp [Wc.Other, hslot]
  | some e => simp [Wc.Other, hslot]

theorem Wc.Passes.mono (h : s.Passes name n) (hm : m ≤ n) : s.Passes name m :=
  fun i hi => h i (by omega)

theorem probe_inTable (hpos : 0 < s.tableSize) (n : ℕ) : s.InTable (s.probe name n) := by
  cases n with
  | zero => exact ⟨Int.emod_nonneg _ hpos.ne', Int.emod_lt_of_pos _ hpos⟩
  | succ n => exact ⟨Int.emod_nonneg _ hpos.ne', Int.emod_lt_of_pos _ hpos⟩

/-- The square of a small key is the same in both types. -/
theorem intSquare_small (h0 : 0 ≤ key) (h1 : key ≤ 46340) : s.intSquare key = s.longSquare key := by
  have hsq : key * key ≤ 46340 * 46340 := Int.mul_le_mul h1 h1 h0 (by omega)
  have hnn : 0 ≤ key * key := Int.mul_nonneg h0 h0
  unfold Wc.intSquare Wc.longSquare
  rw [toInt32_of_lt (by omega) (by omega), toSize_of_lt hnn (by omega),
    Int.tmod_eq_emod_of_nonneg hnn]

/-- **As long as the keys before are small lookup is on the probe sequence of insertion.** -/
theorem lookupKey_small (hpos : 0 < s.tableSize)
    (h : ∀ j < n, s.lookupKey name j = s.probe name j → s.probe name j ≤ 46340) :
    s.lookupKey name n = s.probe name n := by
  induction n with
  | zero => rfl
  | succ n ih =>
    have heq := ih fun j hj => h j (by omega)
    have hin : s.InTable (s.probe name n) := probe_inTable hpos n
    rw [Wc.lookupKey, Wc.probe, heq, intSquare_small hin.1 (h n (by omega) heq)]

/-- With small keys lookup follows the probe sequence of insertion. -/
theorem lookupKey_eq (hpos : 0 < s.tableSize) (hs : s.SmallKeys name) (hp : s.Passes name n) :
    s.lookupKey name n = s.probe name n :=
  lookupKey_small hpos fun j hj heq => heq ▸ hs j (hp.mono hj)

/-- In a table of at most 46341 slots every key is small. -/
theorem smallKeys_of_table (hpos : 0 < s.tableSize) (hsize : s.tableSize ≤ 46341) (name : Name) :
    s.SmallKeys name := by
  have hle : ∀ n, s.probe name n ≤ 46340 := by
    intro n
    obtain ⟨-, h1⟩ : s.InTable (s.probe name n) := probe_inTable hpos n
    omega
  intro n _
  rw [lookupKey_small hpos fun j _ _ => hle j]
  exact hle n

theorem inRange_of_small (hpos : 0 < s.tableSize) (hs : s.SmallKeys name) : s.InRange name := by
  intro n hp
  rw [lookupKey_eq hpos hs hp]
  exact probe_inTable hpos n

/-- Where the search ends, and with what. -/
theorem findEntry_ends {r : Option ℕ} (hp : s.Passes name m)
    (h : s.findEntry name fuel (s.lookupKey name m) = some r) :
    ∃ n, s.Passes name n ∧ ((s.hashtable (s.lookupKey name n) = none ∧ r = none) ∨
      ∃ e, s.hashtable (s.lookupKey name n) = some e ∧ s.nameOf e = some name ∧ r = some e) := by
  induction fuel generalizing m with
  | zero => cases h
  | succ k ih =>
    unfold Wc.findEntry at h
    split at h
    · cases h
    · split at h
      · rename_i hk
        exact ⟨m, hp, .inl ⟨hk, (Option.some.inj h).symm⟩⟩
      · rename_i e hk
        split at h
        · cases h
        · rename_i fd hfd
          split at h
          · rename_i hn
            exact ⟨m, hp, .inr ⟨e, hk, by simp [Wc.nameOf, hfd, hn], (Option.some.inj h).symm⟩⟩
          · rename_i hn
            refine ih (m := m + 1) (fun i hi => ?_) h
            rcases Nat.lt_or_ge i m with hi' | hi'
            · exact hp i hi'
            · obtain rfl : i = m := by omega
              exact ⟨e, hk, by simp [Wc.nameOf, hfd, hn]⟩

/-- A search that can end does. -/
theorem findEntry_some (hr : s.InRange name) (hl : s.Live) (hst : s.StopsAt name n) (hm : m ≤ n) :
    ∃ r, s.findEntry name (n - m + 1) (s.lookupKey name m) = some r := by
  obtain ⟨hp, hstop⟩ := hst
  obtain ⟨d, rfl⟩ : ∃ d, n = m + d := ⟨n - m, by omega⟩
  rw [Nat.add_sub_cancel_left]
  induction d generalizing m with
  | zero =>
    have hin := hr m (hp.mono (by omega))
    unfold Wc.findEntry
    rw [if_neg (not_not.2 hin)]
    rcases hstop with hnone | ⟨e, he, hn⟩
    · rw [Nat.add_zero] at hnone
      rw [hnone]
      exact ⟨none, rfl⟩
    · rw [Nat.add_zero] at he
      obtain ⟨fd, hfd⟩ := hl _ e he
      have hname : fd.fileName = name := by simpa [Wc.nameOf, hfd] using hn
      rw [he]
      exact ⟨some e, by simp [hfd, hname]⟩
  | succ d ih =>
    have hin := hr m (hp.mono (by omega))
    obtain ⟨e, he, hn⟩ := hp m (by omega)
    obtain ⟨fd, hfd⟩ := hl _ e he
    have hname : fd.fileName ≠ name := by
      intro hx
      exact hn (by simp [Wc.nameOf, hfd, hx])
    have e1 : m + (d + 1) = m + 1 + d := by omega
    rw [e1] at hp hstop
    obtain ⟨r, hrest⟩ := ih (by omega) hp hstop
    refine ⟨r, ?_⟩
    unfold Wc.findEntry
    rw [if_neg (not_not.2 hin), he]
    simp only [hfd, if_neg hname]
    exact hrest

/-- More turns do not change what the search finds. -/
theorem findEntry_mono {r : Option ℕ} (h : s.findEntry name n key = some r) (hf : n ≤ m) :
    s.findEntry name m key = some r := by
  induction n generalizing key m with
  | zero => cases h
  | succ n ih =>
    obtain ⟨k, rfl⟩ : ∃ k, m = k + 1 := ⟨m - 1, by omega⟩
    unfold Wc.findEntry at h ⊢
    split_ifs at h ⊢ with hin
    cases hk : s.hashtable key with
    | none => simpa only [hk] using h
    | some e =>
      simp only [hk] at h ⊢
      cases hfd : s.fileOf e with
      | none =>
        rw [hfd] at h
        cases h
      | some fd =>
        simp only [hfd] at h ⊢
        split_ifs at h ⊢ with hn
        · exact h
        · exact ih h (by omega)

/-- The search of insertion ends at the first free slot of the probe sequence. -/
theorem findFree_probe {r : ℤ} (h : s.findFree fuel (s.probe name m) = some r)
    (hm : ∀ i < m, (s.hashtable (s.probe name i)).isSome = true) :
    ∃ j, s.probe name j = r ∧ ∀ i < j, (s.hashtable (s.probe name i)).isSome = true := by
  induction fuel generalizing m with
  | zero => cases h
  | succ k ih =>
    unfold Wc.findFree at h
    split at h
    · cases h
    · split at h
      · exact ⟨m, Option.some.inj h, hm⟩
      · rename_i e hk
        refine ih (m := m + 1) h fun i hi => ?_
        rcases Nat.lt_or_ge i m with hi' | hi'
        · exact hm i hi'
        · obtain rfl : i = m := by omega
          simp [hk]

/-- Insertion finds its slot `n` of the probe sequence free, and the ones before it taken. -/
def Wc.FreeAt (s : Wc) (name : Name) (n : ℕ) : Prop :=
  s.hashtable (s.probe name n) = none ∧ ∀ i < n, (s.hashtable (s.probe name i)).isSome = true

/-- The search of insertion for a slot that is there. -/
theorem findFree_some (hpos : 0 < s.tableSize) (h : s.FreeAt name n) (hf : n < fuel) :
    s.findFree fuel (s.firstKey name) = some (s.probe name n) := by
  suffices hm : ∀ d m, n = m + d → d < fuel →
      s.findFree fuel (s.probe name m) = some (s.probe name n) from hm n 0 (by omega) hf
  clear hf
  intro d m hd hlt
  induction d generalizing m fuel with
  | zero =>
    obtain ⟨k, rfl⟩ : ∃ k, fuel = k + 1 := ⟨fuel - 1, by omega⟩
    rw [Nat.add_zero] at hd
    unfold Wc.findFree
    rw [if_neg (not_not.2 (probe_inTable hpos m)), ← hd, h.1]
  | succ d ih =>
    obtain ⟨k, rfl⟩ : ∃ k, fuel = k + 1 := ⟨fuel - 1, by omega⟩
    obtain ⟨e, he⟩ := Option.isSome_iff_exists.1 (h.2 m (by omega))
    unfold Wc.findFree
    rw [if_neg (not_not.2 (probe_inTable hpos m)), he]
    exact ih (m + 1) (by omega) (by omega)

/-! ### The invariant -/

/-- Some slot holds the element. -/
def Wc.Stores (s : Wc) (e : ℕ) : Prop := ∃ k, s.hashtable k = some e

/-- Where lookup stops for a name that is not in the table, insertion finds a free slot. -/
theorem Wc.StopsAt.freeAt (h : s.StopsAt name n) (hpos : 0 < s.tableSize) (hs : s.SmallKeys name)
    (hnew : ∀ e, s.Stores e → s.nameOf e ≠ some name) : s.FreeAt name n := by
  obtain ⟨hp, hstop⟩ := h
  rw [lookupKey_eq hpos hs hp] at hstop
  refine ⟨hstop.resolve_right ?_, fun i hi => ?_⟩
  · rintro ⟨e, he, hname⟩
    exact hnew e ⟨_, he⟩ hname
  · obtain ⟨e, he, -⟩ := hp i hi
    rw [lookupKey_eq hpos hs (hp.mono hi.le)] at he
    rw [he]
    rfl

/-- No two slots hold elements with the same file name. -/
def Wc.Unique (s : Wc) : Prop := ∀ k k' e e', s.hashtable k = some e → s.hashtable k' = some e' →
  s.nameOf e = s.nameOf e' → k = k'

/-- The table holds the elements `held`: each is on the probe sequence of its name, with no
free slot before it. -/
structure Tabled (s : Wc) (held : Name → Option ℕ) : Prop where
  pos : 0 < s.tableSize
  live : s.Live
  inTable : ∀ k e, s.hashtable k = some e → s.InTable k
  unique : s.Unique
  reach : ∀ k e n, s.hashtable k = some e → s.nameOf e = some n →
    ∃ j, s.probe n j = k ∧ ∀ i < j, (s.hashtable (s.probe n i)).isSome = true
  held : ∀ n e, held n = some e ↔ s.Stores e ∧ s.nameOf e = some n

/-- The cache holds the elements `held`, and so does its list. -/
structure Holding (s : Wc) (held : Name → Option ℕ) : Prop extends Tabled s held where
  lru : ∃ l, Lru s l ∧ ∀ e, e ∈ l ↔ s.Stores e

/-- The probe sequences only depend on the table's size. -/
theorem probe_congr (h : t.tableSize = s.tableSize) (name : Name) (n : ℕ) :
    t.probe name n = s.probe name n := by
  induction n with
  | zero => simp [Wc.probe, Wc.firstKey, h]
  | succ n ih => simp [Wc.probe, Wc.longSquare, h, ih]

theorem lookupKey_congr (h : t.tableSize = s.tableSize) (name : Name) (n : ℕ) :
    t.lookupKey name n = s.lookupKey name n := by
  induction n with
  | zero => simp [Wc.lookupKey, Wc.firstKey, h]
  | succ n ih => simp [Wc.lookupKey, Wc.intSquare, h, ih]

/-- What lookup sees of a state: the table and the names of its elements. -/
structure SameTable (s t : Wc) : Prop where
  hashtable : t.hashtable = s.hashtable
  tableSize : t.tableSize = s.tableSize
  fileOf : ∀ e fd, s.fileOf e = some fd → t.fileOf e = some fd

theorem Relinked.sameTable (h : Relinked s s') : SameTable s s' :=
  ⟨h.hashtable, h.tableSize, fun e fd he => by rw [h.fileOf, he]⟩

namespace SameTable

variable (h : SameTable s t)
include h

theorem nameOf (hl : s.Live) (hk : s.hashtable key = some e) : t.nameOf e = s.nameOf e := by
  obtain ⟨fd, hfd⟩ := hl key e hk
  simp [Wc.nameOf, hfd, h.fileOf e fd hfd]

theorem stores : t.Stores e ↔ s.Stores e := by unfold Wc.Stores; rw [h.hashtable]

theorem passes (hl : s.Live) : t.Passes name n ↔ s.Passes name n := by
  unfold Wc.Passes Wc.Other
  refine forall₂_congr fun i _ => ?_
  rw [lookupKey_congr h.tableSize, h.hashtable]
  refine exists_congr fun e => and_congr_right fun hk => ?_
  rw [h.nameOf hl hk]

theorem smallKeys (hl : s.Live) (hs : s.SmallKeys name) : t.SmallKeys name := by
  intro n hp
  rw [lookupKey_congr h.tableSize]
  exact hs n ((h.passes hl).1 hp)

theorem stopsAt (hl : s.Live) (hst : s.StopsAt name n) : t.StopsAt name n := by
  refine ⟨(h.passes hl).2 hst.1, ?_⟩
  rw [lookupKey_congr h.tableSize, h.hashtable]
  refine hst.2.imp_right ?_
  rintro ⟨e, hk, hname⟩
  exact ⟨e, hk, by rw [h.nameOf hl hk, hname]⟩

/-- The invariant of the table only depends on the table and the names. -/
theorem tabled (ho : Tabled s held) : Tabled t held where
  pos := by rw [h.tableSize]; exact ho.pos
  live k e hk := by
    rw [h.hashtable] at hk
    obtain ⟨fd, hfd⟩ := ho.live k e hk
    exact ⟨fd, h.fileOf e fd hfd⟩
  inTable k e hk := by
    rw [h.hashtable] at hk
    unfold Wc.InTable
    rw [h.tableSize]
    exact ho.inTable k e hk
  unique k k' e e' hk hk' hn := by
    rw [h.hashtable] at hk hk'
    rw [h.nameOf ho.live hk, h.nameOf ho.live hk'] at hn
    exact ho.unique k k' e e' hk hk' hn
  reach k e n hk hn := by
    rw [h.hashtable] at hk
    rw [h.nameOf ho.live hk] at hn
    obtain ⟨j, hj, hi⟩ := ho.reach k e n hk hn
    refine ⟨j, by rw [probe_congr h.tableSize, hj], fun i hij => ?_⟩
    rw [probe_congr h.tableSize, h.hashtable]
    exact hi i hij
  held n e := by
    rw [ho.held]
    refine ⟨fun hx => ?_, fun hx => ?_⟩
    · obtain ⟨⟨k, hk⟩, hn⟩ := hx
      exact ⟨h.stores.2 ⟨k, hk⟩, by rw [h.nameOf ho.live hk, hn]⟩
    · obtain ⟨⟨k, hk⟩, hn⟩ := hx
      rw [h.hashtable] at hk
      exact ⟨⟨k, hk⟩, by rw [← h.nameOf ho.live hk, hn]⟩

/-- With a list of the same elements the cache holds the same. -/
theorem holding (ho : Tabled s held) (hlru : ∃ l, Lru t l ∧ ∀ e, e ∈ l ↔ s.Stores e) :
    Holding t held := by
  obtain ⟨l, hl, hmem⟩ := hlru
  exact ⟨h.tabled ho, l, hl, fun e => by rw [hmem, h.stores]⟩

end SameTable

/-- **What the search finds is what the cache holds.** -/
theorem Holding.findEntry_eq {r : Option ℕ} (h : Holding s held) (hs : s.SmallKeys name)
    (hf : s.findEntry name fuel (s.firstKey name) = some r) : r = held name := by
  obtain ⟨n, hp, hstop⟩ := findEntry_ends (m := 0) (fun i hi => by omega) hf
  rcases hstop with ⟨hnone, rfl⟩ | ⟨e, hk, hn, rfl⟩
  · -- a held element would be on the way to the free slot, or behind it
    cases hh : held name with
    | none => rfl
    | some e =>
      obtain ⟨⟨k, hk⟩, hname⟩ := (h.held name e).1 hh
      obtain ⟨j, hj, hbefore⟩ := h.reach k e name hk hname
      rw [lookupKey_eq h.pos hs hp] at hnone
      rcases Nat.lt_trichotomy n j with hlt | heq | hgt
      · have := hbefore n hlt
        rw [hnone] at this
        simp at this
      · rw [heq, hj, hk] at hnone
        cases hnone
      · obtain ⟨e', he', hne⟩ := hp j hgt
        rw [lookupKey_eq h.pos hs (hp.mono hgt.le), hj, hk] at he'
        obtain rfl := Option.some.inj he'
        exact absurd hname hne
  · exact ((h.held name e).2 ⟨⟨_, hk⟩, hn⟩).symm

/-- A lookup of the code. -/
theorem cacheLookup_ok {r : Option ℕ} (h : Holding s held) (lruFlag : Bool)
    (hs : s.SmallKeys name) (hf : s.findEntry name fuel (s.firstKey name) = some r) :
    wp ok (cacheLookup fuel name lruFlag)
      (fun r' s' => r' = held name ∧ Relinked s s' ∧ Holding s' held) s := by
  have hr := h.findEntry_eq hs hf
  simp only [cacheLookup, wp_bind]
  refine wp_reads r hf ?_
  cases r with
  | none => exact (wp_pure _).2 ⟨hr, Relinked.refl s, h⟩
  | some e =>
    rw [wp_ite, wp_bind, wp_pure]
    refine ⟨fun _ => ?_, fun _ => ⟨hr, Relinked.refl s, h⟩⟩
    obtain ⟨l, hl, hmem⟩ := h.lru
    have hel : e ∈ l := (hmem e).2 ((h.held name e).1 hr.symm).1
    refine wp_mono (upgradeLru2_hit hl hel) fun _ s' h' => ?_
    refine (wp_pure _).2 ⟨hr, h'.1, h'.1.sameTable.holding h.toTabled ⟨_, h'.2, fun x => ?_⟩⟩
    have hperm := (List.perm_append_singleton e (l.erase e)).trans (List.perm_cons_erase hel).symm
    rw [hperm.mem_iff, hmem]

/-! ### Insertion -/

/-- A new element leaves the list as it is. -/
theorem Lru.setElement {l : List ℕ} {o : Option Element} (h : Lru s l) (hfresh : s.elements e = none) :
    Lru (s.setElement e o) l := by
  have hel : e ∉ l := by
    intro hm
    have := h.alive hm
    unfold Wc.Alive at this
    rw [hfresh] at this
    cases this
  have hn : ∀ x ∈ l, (s.setElement e o).elements x = s.elements x := fun x hx => by
    simp [Wc.setElement, ne_of_mem_of_not_mem hx hel]
  have hf : ∀ x ∈ l, (s.setElement e o).fileOf x = s.fileOf x := fun x hx => by
    unfold Wc.fileOf
    rw [hn x hx]
    rfl
  refine h.of_files ⟨?_, ?_⟩ hf
  · exact h.front.congr fun x hx => by simp [Wc.next, hn x hx]
  · exact h.back.congr fun x hx => by simp [Wc.pre, hn x (List.mem_reverse.1 hx)]

/-- An element of the new table is the new one or an old one. -/
theorem setSlot_cases {k : ℤ} {x : ℕ} (hx : (s.setSlot key (some e)).hashtable k = some x) :
    (k = key ∧ x = e) ∨ s.hashtable k = some x := by
  simp only [Wc.setSlot, Function.update_apply] at hx
  split at hx
  · rename_i hk
    exact Or.inl ⟨hk, (Option.some.inj hx).symm⟩
  · exact Or.inr hx

theorem probe_setSlot (o : Option ℕ) (nm : Name) (i : ℕ) :
    (s.setSlot key o).probe nm i = s.probe nm i :=
  probe_congr (s := s) (t := s.setSlot key o) rfl nm i

theorem stores_setSlot (hfree : s.hashtable key = none) (x : ℕ) :
    (s.setSlot key (some e)).Stores x ↔ s.Stores x ∨ x = e := by
  constructor
  · rintro ⟨k, hx⟩
    rcases setSlot_cases hx with ⟨-, he⟩ | hold
    · exact Or.inr he
    · exact Or.inl ⟨k, hold⟩
  · rintro (⟨k, hx⟩ | rfl)
    · have hne : k ≠ key := fun hkk => by rw [hkk, hfree] at hx; cases hx
      exact ⟨k, by simp [Wc.setSlot, hne, hx]⟩
    · exact ⟨key, by simp [Wc.setSlot]⟩

/-- **A new entry** at the first free slot of the probe sequence of a new name. -/
theorem Tabled.setSlot {fd : FileData} {j : ℕ} (h : Tabled s held) (hfile : s.fileOf e = some fd)
    (hnew : held fd.fileName = none) (hin : s.InTable key) (hfree : s.hashtable key = none)
    (hj : s.probe fd.fileName j = key)
    (hbefore : ∀ i < j, (s.hashtable (s.probe fd.fileName i)).isSome = true) :
    Tabled (s.setSlot key (some e)) (Function.update held fd.fileName (some e)) := by
  have hname : s.nameOf e = some fd.fileName := by simp [Wc.nameOf, hfile]
  have hnames : ∀ x, s.Stores x → s.nameOf x ≠ some fd.fileName := by
    intro x hx hxn
    have := (h.held fd.fileName x).2 ⟨hx, hxn⟩
    rw [hnew] at this
    cases this
  have hfull : ∀ k, (s.hashtable k).isSome = true →
      ((s.setSlot key (some e)).hashtable k).isSome = true := by
    intro k hx
    simp only [Wc.setSlot, Function.update_apply]
    split
    · rfl
    · exact hx
  refine ⟨h.pos, ?_, ?_, ?_, ?_, ?_⟩
  · intro k x hx
    rcases setSlot_cases hx with ⟨-, rfl⟩ | hx
    · exact ⟨fd, hfile⟩
    · exact h.live k x hx
  · intro k x hx
    rcases setSlot_cases hx with ⟨rfl, -⟩ | hx
    · exact hin
    · exact h.inTable k x hx
  · intro k k' x x' hx hx' hn
    change s.nameOf x = s.nameOf x' at hn
    rcases setSlot_cases hx with ⟨hk, he⟩ | hold <;>
      rcases setSlot_cases hx' with ⟨hk', he'⟩ | hold'
    · rw [hk, hk']
    · rw [he, hname] at hn
      exact absurd hn.symm (hnames x' ⟨k', hold'⟩)
    · rw [he', hname] at hn
      exact absurd hn (hnames x ⟨k, hold⟩)
    · exact h.unique k k' x x' hold hold' hn
  · -- slots only fill up, and the new entry is at the first free one
    intro k x nm hx hn
    rcases setSlot_cases hx with ⟨rfl, rfl⟩ | hx
    · obtain rfl : fd.fileName = nm := Option.some.inj (hname.symm.trans hn)
      refine ⟨j, (probe_setSlot ..).trans hj, fun i hi => hfull _ ?_⟩
      rw [probe_setSlot]
      exact hbefore i hi
    · obtain ⟨j', hj', hi'⟩ := h.reach k x nm hx hn
      refine ⟨j', (probe_setSlot ..).trans hj', fun i hi => hfull _ ?_⟩
      rw [probe_setSlot]
      exact hi' i hi
  · intro nm x
    rw [stores_setSlot hfree, Function.update_apply]
    change _ ↔ _ ∧ s.nameOf x = some nm
    split
    · rename_i hnm
      subst hnm
      constructor
      · intro hx
        obtain rfl := Option.some.inj hx
        exact ⟨.inr rfl, hname⟩
      · rintro ⟨hx | rfl, hxn⟩
        · exact absurd hxn (hnames x hx)
        · rfl
    · rename_i hnm
      rw [h.held]
      constructor
      · rintro ⟨hx, hxn⟩
        exact ⟨.inl hx, hxn⟩
      · rintro ⟨hx | rfl, hxn⟩
        · exact ⟨hx, hxn⟩
        · exact absurd (Option.some.inj (hxn.symm.trans hname)) hnm

/-- At most the element `e` is new: the others keep their files, and no file data changes. -/
structure Adds (s s' : Wc) (e : ℕ) : Prop where
  files : s'.files = s.files
  fileOf : ∀ x d, s.fileOf x = some d → s'.fileOf x = some d
  free : ∀ x, x ≠ e → s.elements x = none → s'.elements x = none

/-- What an insertion leaves: the cache as it was, or with the new element `e`. -/
def Inserted (s' : Wc) (held : Name → Option ℕ) (fd : FileData) (e : ℕ) : Option ℕ → Prop
  | none => Holding s' held
  | some x => x = e ∧ s'.fileOf e = some fd ∧
      Holding s' (Function.update held fd.fileName (some e))

theorem Relinked.adds (h : Relinked s s') (e : ℕ) : Adds s s' e where
  files := h.files
  fileOf x d hd := by rw [h.fileOf, hd]
  free x _ hx := by
    have := h.file x
    rw [hx] at this
    simpa using this

theorem Adds.trans (h : Adds s s' e) (h' : Adds s' t e) : Adds s t e where
  files := h'.files.trans h.files
  fileOf x d hd := h'.fileOf x d (h.fileOf x d hd)
  free x hx hn := h'.free x hx (h.free x hx hn)

/-- **Insertion of a name the cache does not hold.** -/
theorem cacheInsert_ok {fd : FileData} (h : Holding s held) (hfd : s.files f = some fd)
    (hnew : held fd.fileName = none)
    (hret : ok ∨ s.elements e = none ∧ ∃ n < fuel, s.FreeAt fd.fileName n) :
    wp ok (cacheInsert fuel f e) (fun r s' => r.2 = [] ∧ Adds s s' e ∧
      Inserted s' held fd e r.1) s := by
  simp only [cacheInsert, wp_bind, wp_getState, hfd, wp_load_some, wp_ite]
  refine ⟨fun _ => (wp_pure _).2 ⟨rfl, (Relinked.refl s).adds e, h⟩, fun _ => ?_⟩
  have hfuel : ok ∨ 0 < fuel := by
    rcases hret with hok | ⟨-, n, hn, -⟩
    · exact Or.inl hok
    · exact Or.inr (by omega)
  refine wp_mono (makeRoom_idle fd.fileSize hfuel) fun _ s₁ h₁ => ?_
  obtain ⟨rfl, rfl⟩ := h₁
  simp only [wp_require, wp_modify]
  refine ⟨fun hfresh => ?_, fun hused => hret.resolve_right fun hr => hused hr.1⟩
  -- the new element is not in the table yet
  set s₂ := s₁.setElement e (some ⟨f, none, none⟩) with hs₂
  have hel : s₂.elements e = some ⟨f, none, none⟩ := by simp [hs₂, Wc.setElement]
  have hfile : s₂.fileOf e = some fd := by simp [hs₂, Wc.fileOf, Wc.setElement, hfd]
  obtain ⟨l, hl, hmem⟩ := h.lru
  have hl₂ : Lru s₂ l := hl.setElement hfresh
  have hsame : SameTable s₁ s₂ := ⟨rfl, rfl, fun _ _ hx => fileOf_setElement hfresh hx⟩
  have h₂ : Tabled s₂ held := hsame.tabled h.toTabled
  cases hk : s₂.findFree fuel (s₂.firstKey fd.fileName) with
  | none =>
    refine wp_of_none (by simp [reads, hk]) (hret.resolve_right fun hr => ?_)
    obtain ⟨-, n, hn, hfree⟩ := hr
    have hprobe : ∀ i, s₂.probe fd.fileName i = s₁.probe fd.fileName i :=
      fun i => probe_congr hsame.tableSize fd.fileName i
    have hfree₂ : s₂.FreeAt fd.fileName n := by
      unfold Wc.FreeAt
      simp only [hprobe]
      exact hfree
    rw [findFree_some h₂.pos hfree₂ hn] at hk
    cases hk
  | some key =>
    refine wp_reads key hk ?_
    obtain ⟨hin, hfree⟩ := findFree_ok hk
    obtain ⟨j, hj, hbefore⟩ := findFree_probe (m := 0) hk fun i hi => by omega
    have h₃ := h₂.setSlot hfile hnew hin hfree hj hbefore
    -- the counter and the list do not touch the table
    set s₃ := (s₂.setSlot key (some e)).setRemaining
      (toInt32 (s₂.remainingCacheSize - fd.fileSize)) with hs₃
    have hsame₃ : SameTable (s₂.setSlot key (some e)) s₃ := ⟨rfl, rfl, fun _ _ hx => hx⟩
    have hl₃ : Lru s₃ l := ⟨⟨hl₂.front, hl₂.back⟩, hl₂.nodup, hl₂.file, hl₂.names⟩
    have hadds : Adds s₁ s₃ e := by
      refine ⟨rfl, hsame.fileOf, fun x hx hn => ?_⟩
      show Function.update s₁.elements e _ x = none
      rw [Function.update_of_ne hx, hn]
    refine wp_mono (upgradeLru2_insert hl₃ hel (show s₃.files f = some fd from hfd) ?_)
      fun _ s₄ h₄ => (wp_pure _).2 ⟨rfl, hadds.trans (h₄.1.adds e), rfl, ?_, ?_⟩
    · intro x hx hxn
      have := (h₂.held fd.fileName x).2 ⟨(hmem x).1 hx, hxn⟩
      rw [hnew] at this
      cases this
    · rw [h₄.1.fileOf]
      exact hfile
    · refine h₄.1.sameTable.holding (hsame₃.tabled h₃) ⟨_, h₄.2, fun x => ?_⟩
      rw [List.mem_append, List.mem_singleton, hsame₃.stores, stores_setSlot hfree, hmem]
      exact Iff.rfl

/-! ### Runs -/

/-- The name a section looks up. -/
def CacheOp.fileName : CacheOp → Name
  | .lookup name => name
  | .insert _ data _ => data.fileName

/-- What the cache is to hold after a step: what was inserted for a name, until it is evicted. -/
def recordHeld (held : Name → Option ℕ) (l : CacheLab) : Name → Option ℕ :=
  match l.1, l.2.1 with
  | .insert _ data _, some e =>
    Function.update (fun n => (held n).filter fun x => x ∉ l.2.2) data.fileName (some e)
  | _, _ => fun n => (held n).filter fun x => x ∉ l.2.2

/-- A step of the cache, with what it is to hold. -/
def heldStep (p : Wc × (Name → Option ℕ)) (l : CacheLab) (p' : Wc × (Name → Option ℕ)) : Prop :=
  cacheStep p.1 l.1 l.2 p'.1 ∧ p'.2 = recordHeld p.2 l

/-- A step whose lookup squares no key above 46340. -/
def smallStep (p : Wc × (Name → Option ℕ)) (l : CacheLab) (p' : Wc × (Name → Option ℕ)) : Prop :=
  p.1.SmallKeys l.1.fileName ∧ heldStep p l p'

/-- Lookup of `name` stays inside the table, returns when its loop can end, and returns what the
cache holds for the name. -/
structure Finds (s : Wc) (held : Name → Option ℕ) (name : Name) : Prop where
  inRange : s.InRange name
  returns : ∀ n lruFlag, s.StopsAt name n →
    ∃ fuel t, cacheLookup fuel name lruFlag s = some (held name, t)
  exact : ∀ fuel lruFlag r t, cacheLookup fuel name lruFlag s = some (r, t) → r = held name

/-- When nothing is evicted, nothing is forgotten. -/
theorem recordHeld_kept (l : CacheOp × Option ℕ) :
    recordHeld held (l.1, l.2, []) = match l.1, l.2 with
      | .insert _ data _, some e => Function.update held data.fileName (some e)
      | _, _ => held := by
  have hf : (fun n => (held n).filter fun x => x ∉ ([] : List ℕ)) = held := by
    funext n
    cases held n <;> simp
  unfold recordHeld
  rw [hf]

/-- With small keys, what lookup finds is what the cache holds. -/
theorem Holding.finds (h : Holding s held) (hs : s.SmallKeys name) : Finds s held name := by
  have hr := inRange_of_small h.pos hs
  refine ⟨hr, fun n lruFlag hst => ?_, fun fuel lruFlag r t hrun => ?_⟩
  · obtain ⟨o, ho⟩ := findEntry_some hr h.live hst (Nat.zero_le n)
    obtain ⟨r, t, hrun, rfl, -⟩ := (cacheLookup_ok h lruFlag hs ho).returns
    exact ⟨_, t, hrun⟩
  · cases ho : s.findEntry name fuel (s.firstKey name) with
    | none =>
      unfold cacheLookup at hrun
      obtain ⟨a, u, ha, -⟩ := bind_eq_some.1 hrun
      simp [reads, ho] at ha
    | some o =>
      have hw : wp True _ _ s := cacheLookup_ok h lruFlag hs ho
      exact (hw.of_run hrun).1

/-! ### The sections of the code -/

/-- A lookup returns what the cache holds, when its search ends. -/
theorem Holding.lookup (h : Holding s held) (lruFlag : Bool) (hs : s.SmallKeys name)
    (hret : ok ∨ ∃ n < fuel, s.StopsAt name n) :
    wp ok (cacheLookup fuel name lruFlag)
      (fun r s' => r = held name ∧ Relinked s s' ∧ Holding s' held) s := by
  cases ho : s.findEntry name fuel (s.firstKey name) with
  | some o => exact cacheLookup_ok h lruFlag hs ho
  | none =>
    refine wp_of_none (by simp [cacheLookup, bind, reads, ho]) (hret.resolve_right ?_)
    rintro ⟨n, hn, hst⟩
    obtain ⟨r, hr⟩ := findEntry_some (inRange_of_small h.pos hs) h.live hst (Nat.zero_le n)
    have hend := findEntry_mono hr (m := fuel) (by omega)
    change s.findEntry name fuel (s.firstKey name) = some r at hend
    rw [ho] at hend
    cases hend

/-- Where lookup stops for a name the cache does not hold, insertion finds a free slot. -/
theorem Holding.freeAt (h : Holding s held) (hs : s.SmallKeys name) (hst : s.StopsAt name n)
    (hnew : held name = none) : s.FreeAt name n := by
  refine hst.freeAt h.pos hs fun e he hname => ?_
  have := (h.held name e).2 ⟨he, hname⟩
  rw [hnew] at this
  cases this

/-- New file data is not in the cache yet. -/
theorem Holding.setFile {fd : FileData} (h : Holding s held) (hfresh : s.files f = none) :
    Holding (s.setFile f (some fd)) held := by
  have hsame : SameTable s (s.setFile f (some fd)) :=
    ⟨rfl, rfl, fun _ _ hx => fileOf_setFile hfresh hx⟩
  obtain ⟨l, hl, hmem⟩ := h.lru
  exact hsame.holding h.toTabled ⟨l, hl.setFile hfresh, hmem⟩

/-- **The second section** holds on to the entries, and may add one for a new name. -/
theorem Holding.insert {fd : FileData} (h : Holding s held) (hs : s.SmallKeys fd.fileName)
    (hret : ok ∨ s.files f = none ∧ s.elements e = none ∧ ∃ n < fuel, s.StopsAt fd.fileName n) :
    wp ok ((CacheOp.insert f fd e).run fuel) (fun r t => r.2 = [] ∧ s.files f = none ∧
      Adds (s.setFile f (some fd)) t e ∧ Inserted t held fd e r.1) s := by
  simp only [CacheOp.run, wp_bind, wp_getState, wp_require, wp_modify]
  refine ⟨fun hfresh => ?_, fun hused => hret.resolve_right fun hr => hused hr.1⟩
  have hsame : SameTable s (s.setFile f (some fd)) :=
    ⟨rfl, rfl, fun _ _ hx => fileOf_setFile hfresh hx⟩
  have hs₁ := hsame.smallKeys h.live hs
  refine wp_mono ((h.setFile hfresh).lookup false hs₁ (hret.imp_right ?_)) fun check u hu => ?_
  · rintro ⟨-, -, n, hn, hst⟩
    exact ⟨n, hn, hsame.stopsAt h.live hst⟩
  obtain ⟨hcheck, hrel, hu⟩ := hu
  cases check with
  | some x => exact (wp_pure _).2 ⟨rfl, hfresh, hrel.adds e, hu⟩
  | none =>
    have hfd : u.files f = some fd := by rw [hrel.files]; simp [Wc.setFile]
    have hret₁ : ok ∨ u.elements e = none ∧ ∃ n < fuel, u.FreeAt fd.fileName n := by
      refine hret.imp_right ?_
      rintro ⟨-, hnone, n, hn, hst⟩
      refine ⟨?_, n, hn, ?_⟩
      · exact (hrel.adds (e + 1)).free e (by omega) hnone
      · have hst₁ := hsame.stopsAt h.live hst
        exact hu.freeAt (hrel.sameTable.smallKeys (h.setFile hfresh).live hs₁)
          (hrel.sameTable.stopsAt (h.setFile hfresh).live hst₁) hcheck.symm
    refine wp_mono (cacheInsert_ok hu hfd hcheck.symm hret₁) fun r t ht => ?_
    exact ⟨ht.1, hfresh, (hrel.adds e).trans ht.2.1, ht.2.2⟩

/-- **One step**: the cache holds what the record says. -/
theorem Holding.step {p p' : Wc × (Name → Option ℕ)} {l : CacheLab} (h : Holding p.1 p.2)
    (hs : smallStep p l p') : Holding p'.1 p'.2 := by
  obtain ⟨s, held⟩ := p
  obtain ⟨t, held'⟩ := p'
  obtain ⟨op, r⟩ := l
  obtain ⟨hsmall, ⟨fuel, hrun⟩, hrec⟩ := hs
  simp only at h hsmall hrun hrec ⊢
  subst hrec
  cases op with
  | lookup name =>
    have hw : wp True ((CacheOp.lookup name).run fuel)
        (fun r t => Holding t (recordHeld held (.lookup name, r))) s := by
      simp only [CacheOp.run, wp_bind, wp_pure]
      refine wp_mono (h.lookup true hsmall (Or.inl trivial)) fun o u hu => ?_
      rw [recordHeld_kept (_, o)]
      exact hu.2.2
    exact hw.of_run hrun
  | insert file data element =>
    have hw : wp True ((CacheOp.insert file data element).run fuel) _ s :=
      h.insert hsmall (Or.inl trivial)
    obtain ⟨o, ev⟩ := r
    obtain ⟨hev, -, -, hins⟩ := hw.of_run hrun
    obtain rfl : ev = [] := hev
    rw [recordHeld_kept (_, o)]
    cases o with
    | none => exact hins
    | some x =>
      obtain ⟨rfl, -, hh⟩ := hins
      exact hh

theorem init_holding {m : ℤ} (h0 : 0 < m) (hm : m * 11 < 2 ^ 31) :
    Holding (cacheInit m) fun _ => none := by
  have hts : (cacheInit m).tableSize = m * 11 := toInt32_of_lt (by omega) (by omega)
  refine ⟨⟨by rw [hts]; omega, ?_, ?_, ?_, ?_, ?_⟩, [], ?_, ?_⟩
  · intro k e hk; cases hk
  · intro k e hk; cases hk
  · intro k k' e e' hk; cases hk
  · intro k e n hk; cases hk
  · intro n e
    refine ⟨fun h => (by cases h), ?_⟩
    rintro ⟨⟨k, hk⟩, -⟩
    cases hk
  · exact ⟨⟨rfl, rfl⟩, List.nodup_nil, by simp, by simp⟩
  · intro e
    refine ⟨fun h => (by cases h), ?_⟩
    rintro ⟨k, hk⟩
    cases hk

/-- **The cache finds exactly what it holds**, and holds no name twice, as long as lookup
squares no key above 46340. -/
theorem lookup_finds {m : ℤ} {ls : List CacheLab} {p : Wc × (Name → Option ℕ)} (h0 : 0 < m)
    (hm : m * 11 < 2 ^ 31) (hr : Run smallStep (cacheInit m, fun _ => none) ls p) :
    p.1.Unique ∧ ∀ name, p.1.SmallKeys name → Finds p.1 p.2 name := by
  have h := run_inv (I := fun p => Holding p.1 p.2) (fun _ _ _ h hs => Holding.step h hs) hr
    (init_holding h0 hm)
  exact ⟨h.unique, fun name hs => h.finds hs⟩

/-- Take a step with what it is said to return, and record it. -/
def heldRun (fuel : ℕ) (p : Wc × (Name → Option ℕ)) (l : CacheLab) :
    Option (Wc × (Name → Option ℕ)) :=
  (cacheRun fuel p.1 l).map fun t => (t, recordHeld p.2 l)

theorem heldRun_step {p p' : Wc × (Name → Option ℕ)} {l : CacheLab}
    (h : heldRun fuel p l = some p') : heldStep p l p' := by
  obtain ⟨t, ht, rfl⟩ := Option.map_eq_some_iff.1 h
  exact ⟨(cacheRun_step ht).2, rfl⟩

/-- Take a step in a table of 110 slots, and record it. -/
def smallRun (p : Wc × (Name → Option ℕ)) (l : CacheLab) : Option (Wc × (Name → Option ℕ)) :=
  if p.1.tableSize = 110 then heldRun 4 p l else none

theorem smallRun_step {p p' : Wc × (Name → Option ℕ)} {l : CacheLab} (h : smallRun p l = some p') :
    smallStep p l p' := by
  unfold smallRun at h
  split_ifs at h with hts
  exact ⟨smallKeys_of_table (by omega) (by omega) _, heldRun_step h⟩

/-- Behind `./a`, which has the same first slot, `./bw` is found, and `./fa` is not. -/
theorem lookup_finds_sample : ∃ p, Run smallStep (cacheInit 10, fun _ => none) collidingRun p ∧
    p.1.Unique ∧ p.2 bwName = some 1 ∧ Finds p.1 p.2 bwName ∧
    p.2 faName = none ∧ Finds p.1 p.2 faName := by
  obtain ⟨p, hr, hp⟩ := runAll_any smallRun (cacheInit 10, fun _ => none) collidingRun
    (fun p => decide (p.1.tableSize = 110) &&
      (decide (p.2 bwName = some 1) && decide (p.2 faName = none))) (by decide +kernel)
  simp only [Bool.and_eq_true, decide_eq_true_eq] at hp
  obtain ⟨hts, hbw, hfa⟩ := hp
  have hr : Run smallStep (cacheInit 10, fun _ => none) collidingRun p :=
    hr.mono fun _ _ _ hs => smallRun_step hs
  obtain ⟨hunique, hfinds⟩ := lookup_finds (by decide) (by decide) hr
  exact ⟨p, hr, hunique, hbw, hfinds _ (smallKeys_of_table (by omega) (by omega) _), hfa,
    hfinds _ (smallKeys_of_table (by omega) (by omega) _)⟩

/-- The request for the file `./aAb`, of three bytes. -/
def collidingRequest : CacheLab :=
  (.insert 0 ⟨[46, 47, 97, 65, 98], [1, 2, 3], 3⟩ 0, (some 0, []))

/-- The name `./aBA` has the hash of `./aAb`. -/
def collidingName : Name := [46, 47, 97, 66, 65]

/-- With a cache of 10000 bytes, looking up `./aBA` beside `./aAb` squares 59014 and reads the
table at index -75100. -/
theorem lookup_outside : ¬∀ (m : ℤ) (ls : List CacheLab) (p : Wc × (Name → Option ℕ)), 0 < m →
    m * 11 < 2 ^ 31 → Run heldStep (cacheInit m, fun _ => none) ls p →
    p.1.Unique ∧ ∀ name, Finds p.1 p.2 name := by
  intro h
  obtain ⟨p, hr, hp⟩ := runAll_any (heldRun 4) (cacheInit 10000, fun _ => none)
    [collidingRequest]
    (fun p => (p.1.hashtable (p.1.lookupKey collidingName 0)).any
        (fun e => decide (p.1.nameOf e ≠ some collidingName)) &&
      decide (p.1.lookupKey collidingName 1 = -75100)) (by decide +kernel)
  obtain ⟨-, hall⟩ := h 10000 _ p (by decide) (by decide)
    (hr.mono fun _ _ _ hs => heldRun_step hs)
  rw [Bool.and_eq_true] at hp
  obtain ⟨e, he, hne⟩ := (Option.any_eq_true _ _).1 hp.1
  have hpass : p.1.Passes collidingName 1 := by
    intro i hi
    obtain rfl : i = 0 := by omega
    exact ⟨e, he, of_decide_eq_true hne⟩
  have hin := ((hall collidingName).inRange 1 hpass).1
  rw [of_decide_eq_true hp.2] at hin
  omega

end OSLab.Webserver
