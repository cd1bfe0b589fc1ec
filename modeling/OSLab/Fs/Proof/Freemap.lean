import OSLab.Fs.Bitmap
import Mathlib.Data.Finset.Card
import Mathlib.Data.Finset.Range

/-!
# A bitmap is a set of indices

`Bitmap.members` is the set of its set bits. `bitmapAlloc_ok`: the allocator adds an index
that was not in the set, or finds the set full. `bitmapUnmark_ok`: a set bit is removed.
-/

namespace OSLab.Fs

open Prog

variable {b : Bitmap} {ok : Prop} {i j k : ℕ}

/-- The set bits. -/
def Bitmap.members (b : Bitmap) : Finset ℕ := (Finset.range b.nbits).filter (bitmapIsset b ·)

/-- Whole words, or the bits past the last marked in use; the number of words fits its type. -/
structure Bitmap.Padded (b : Bitmap) : Prop where
  fits : b.nbits + 7 < 2 ^ 32
  past : ∀ i, b.nbits ≤ i → i < b.words * bitsPerWord → bitmapIsset b i = true

theorem and_wordMask (w : Byte) (hk : k < bitsPerWord) :
    w &&& wordMask k = 0 ↔ w.getLsbD k = false := by
  unfold bitsPerWord at hk
  constructor
  · intro h
    have := congrArg (fun x => x.getLsbD k) h
    simpa [wordMask, hk] using this
  · intro h
    apply BitVec.eq_of_getLsbD_eq
    intro i hi
    by_cases hik : i = k
    · subst hik; simp [h]
    · have : (wordMask k).getLsbD i = false := by
        simp [wordMask]
        omega
      simp [this]

theorem getLsbD_wordMask (hi : i < bitsPerWord) : (wordMask k).getLsbD i = decide (i = k) := by
  unfold bitsPerWord at hi
  by_cases h : i = k
  · subst h; simp [wordMask, hi]
  · have : (wordMask k).getLsbD i = false := by
      simp [wordMask]
      omega
    simp [this, h]

theorem mod_lt_bits (i : ℕ) : i % bitsPerWord < bitsPerWord := Nat.mod_lt _ (by decide)

theorem bitmapIsset_eq (b : Bitmap) (i : ℕ) :
    bitmapIsset b i = (b.v (i / bitsPerWord)).getLsbD (i % bitsPerWord) := by
  have h := and_wordMask (b.v (i / bitsPerWord)) (mod_lt_bits i)
  unfold bitmapIsset
  cases hb : (b.v (i / bitsPerWord)).getLsbD (i % bitsPerWord) with
  | false => rw [hb] at h; simp [h.2 rfl]
  | true => rw [hb] at h; simpa using fun hn => absurd (h.1 hn) (by simp)

/-- The bits of a bitmap one word of which was replaced. -/
theorem bitmapIsset_setWord (b : Bitmap) (ix : ℕ) (w : Byte) (i : ℕ) :
    bitmapIsset (b.setWord ix w) i =
      if i / bitsPerWord = ix then w.getLsbD (i % bitsPerWord) else bitmapIsset b i := by
  rw [bitmapIsset_eq, bitmapIsset_eq]
  unfold Bitmap.setWord
  by_cases h : i / bitsPerWord = ix
  · rw [if_pos h, h]; simp
  · rw [if_neg h]; simp [h]

theorem eq_of_div_mod (h1 : i / bitsPerWord = j / bitsPerWord)
    (h2 : i % bitsPerWord = j % bitsPerWord) : i = j := by
  rw [← Nat.div_add_mod i bitsPerWord, ← Nat.div_add_mod j bitsPerWord, h1, h2]

theorem bitmapIsset_mark (b : Bitmap) (j i : ℕ) :
    bitmapIsset (b.setWord (j / bitsPerWord)
      (b.v (j / bitsPerWord) ||| wordMask (j % bitsPerWord))) i =
      (decide (i = j) || bitmapIsset b i) := by
  rw [bitmapIsset_setWord]
  by_cases h : i / bitsPerWord = j / bitsPerWord
  · rw [if_pos h, BitVec.getLsbD_or, getLsbD_wordMask (mod_lt_bits i), bitmapIsset_eq, h,
      Bool.or_comm]
    congr 1
    by_cases hij : i = j
    · simp [hij]
    · have : i % bitsPerWord ≠ j % bitsPerWord := fun hm => hij (eq_of_div_mod h hm)
      simp [hij, this]
  · rw [if_neg h]
    have : i ≠ j := fun e => h (by rw [e])
    simp [this]

theorem bitmapIsset_unmark (b : Bitmap) (j i : ℕ) :
    bitmapIsset (b.setWord (j / bitsPerWord)
      (b.v (j / bitsPerWord) &&& ~~~wordMask (j % bitsPerWord))) i =
      (decide (i ≠ j) && bitmapIsset b i) := by
  rw [bitmapIsset_setWord]
  have hi : i % bitsPerWord < 8 := mod_lt_bits i
  by_cases h : i / bitsPerWord = j / bitsPerWord
  · rw [if_pos h, BitVec.getLsbD_and, BitVec.getLsbD_not, getLsbD_wordMask (mod_lt_bits i),
      bitmapIsset_eq, h, Bool.and_comm]
    congr 1
    by_cases hij : i = j
    · simp [hij]
    · have : i % bitsPerWord ≠ j % bitsPerWord := fun hm => hij (eq_of_div_mod h hm)
      simp [hij, this, hi]
  · rw [if_neg h]
    have : i ≠ j := fun e => h (by rw [e])
    simp [this]

theorem mem_members : i ∈ b.members ↔ i < b.nbits ∧ bitmapIsset b i = true := by
  simp [Bitmap.members]

theorem members_subset : b.members ⊆ Finset.range b.nbits := Finset.filter_subset _ _

theorem card_members_le : b.members.card ≤ b.nbits := by
  simpa using Finset.card_le_card (members_subset (b := b))

/-- A bitmap after bit `j` was set. -/
structure Marked (b : Bitmap) (j : ℕ) (b' : Bitmap) : Prop where
  lt : j < b.nbits
  clear : j ∉ b.members
  nbits : b'.nbits = b.nbits
  members : b'.members = insert j b.members
  v : ∀ ix, ix ≠ j / bitsPerWord → b'.v ix = b.v ix
  padded : b.Padded → b'.Padded

/-- A bitmap after bit `j` was cleared. -/
structure Unmarked (b : Bitmap) (j : ℕ) (b' : Bitmap) : Prop where
  nbits : b'.nbits = b.nbits
  members : b'.members = b.members.erase j
  v : ∀ ix, ix ≠ j / bitsPerWord → b'.v ix = b.v ix
  padded : b.Padded → b'.Padded

theorem marked_of_isset (hj : j < b.nbits) (hc : bitmapIsset b j = false) :
    Marked b j (b.setWord (j / bitsPerWord)
      (b.v (j / bitsPerWord) ||| wordMask (j % bitsPerWord))) where
  lt := hj
  clear := by simp [mem_members, hc]
  nbits := rfl
  members := by
    ext i
    rw [Finset.mem_insert, mem_members, mem_members, bitmapIsset_mark]
    show i < b.nbits ∧ _ ↔ _
    by_cases h : i = j
    · subst h; simp [hj]
    · simp [h]
  v ix h := by simp [Bitmap.setWord, h]
  padded hp := by
    refine ⟨hp.fits, ?_⟩
    intro i h1 h2
    rw [bitmapIsset_mark, hp.past i h1 h2]
    simp

theorem find_wordMask (h : b.v i ≠ BitVec.allOnes 8) :
    ∃ k, (List.range bitsPerWord).find? (fun k => b.v i &&& wordMask k = 0) = some k ∧
      k < bitsPerWord ∧ (b.v i).getLsbD k = false := by
  cases hf : (List.range bitsPerWord).find? (fun k => b.v i &&& wordMask k = 0) with
  | none =>
    exfalso
    apply h
    apply BitVec.eq_of_getLsbD_eq
    intro k hk
    have hn := List.find?_eq_none.1 hf k (List.mem_range.2 hk)
    simp only [decide_eq_true_eq, and_wordMask _ (show k < bitsPerWord from hk)] at hn
    rw [BitVec.getLsbD_allOnes]
    simpa [hk] using hn
  | some k =>
    have hk : k < bitsPerWord := List.mem_range.1 (List.mem_of_find?_eq_some hf)
    have hz : b.v i &&& wordMask k = 0 := by simpa using List.find?_some hf
    exact ⟨k, rfl, hk, (and_wordMask _ hk).1 hz⟩

theorem wordsFor_eq {n : ℕ} (h : n + 7 < 2 ^ 32) : wordsFor n = (n + 7) / 8 := by
  unfold wordsFor bitsPerWord
  omega

/-- A bitmap of whole words has no bits past the last. -/
theorem bitmapCreate_of_dvd {n : ℕ} (h : n + 7 < 2 ^ 32) (hd : bitsPerWord ∣ n) :
    bitmapCreate n = some ⟨n, fun _ => 0⟩ := by
  obtain ⟨w, rfl⟩ := hd
  unfold bitmapCreate
  simp only
  rw [wordsFor_eq h, if_neg]
  unfold bitsPerWord
  omega

theorem padded_of_dvd {b : Bitmap} (hfits : b.nbits + 7 < 2 ^ 32) (h : bitsPerWord ∣ b.nbits) :
    b.Padded := by
  refine ⟨hfits, ?_⟩
  intro i h1 h2
  obtain ⟨w, hw⟩ := h
  unfold Bitmap.words at h2
  rw [wordsFor_eq hfits] at h2
  rw [hw] at h1 h2
  unfold bitsPerWord at *
  omega

theorem members_blank {b : Bitmap} (h : ∀ i, b.v i = 0) : b.members = ∅ := by
  apply Finset.filter_eq_empty_iff.2
  intro i _
  unfold bitmapIsset
  rw [h]
  simp

theorem words_bits (h : b.Padded) : b.nbits ≤ b.words * bitsPerWord := by
  have := h.fits
  unfold Bitmap.words
  rw [wordsFor_eq h.fits]
  unfold bitsPerWord
  omega

/-- **The allocator.** It sets a bit that was clear, and fails only when all are set. -/
theorem bitmapAlloc_ok (hp : b.Padded) :
    wp False bitmapAlloc (fun r b' => match r with
      | .error e => e = -enospc ∧ b' = b ∧ b.members.card = b.nbits
      | .ok j => Marked b j b') b := by
  simp only [bitmapAlloc, wp_bind, wp_getState]
  cases hf : (List.range b.words).find? (fun ix => b.v ix ≠ BitVec.allOnes 8) with
  | none =>
    simp only [wp_pure]
    refine ⟨trivial, trivial, ?_⟩
    have hall : b.members = Finset.range b.nbits := by
      apply Finset.Subset.antisymm members_subset
      intro i hi
      rw [Finset.mem_range] at hi
      have hw : i / bitsPerWord < b.words := by
        have := words_bits hp
        exact Nat.div_lt_of_lt_mul (by rw [Nat.mul_comm]; omega)
      have hn := List.find?_eq_none.1 hf _ (List.mem_range.2 hw)
      simp only [ne_eq, decide_not, Bool.not_eq_true', decide_eq_false_iff_not, not_not] at hn
      rw [mem_members, bitmapIsset_eq, hn, BitVec.getLsbD_allOnes]
      exact ⟨hi, decide_eq_true (mod_lt_bits i)⟩
    rw [hall, Finset.card_range]
  | some ix =>
    have hix : ix < b.words := List.mem_range.1 (List.mem_of_find?_eq_some hf)
    have hne : b.v ix ≠ BitVec.allOnes 8 := by simpa using List.find?_some hf
    obtain ⟨k, hk, hk8, hbit⟩ := find_wordMask hne
    have hdiv : (ix * bitsPerWord + k) / bitsPerWord = ix := by
      unfold bitsPerWord at *; omega
    have hmod : (ix * bitsPerWord + k) % bitsPerWord = k := by
      unfold bitsPerWord at *; omega
    have hclear : bitmapIsset b (ix * bitsPerWord + k) = false := by
      rw [bitmapIsset_eq, hdiv, hmod, hbit]
    have hlt : ix * bitsPerWord + k < b.nbits := by
      by_contra hge
      have h1 : ix * bitsPerWord + k < b.words * bitsPerWord := by
        unfold bitsPerWord at *; omega
      rw [hp.past _ (by omega) h1] at hclear
      simp at hclear
    have hm := marked_of_isset hlt hclear
    rw [hdiv, hmod] at hm
    simp only [hk, wp_bind, wp_modify, wp_require, wp_pure]
    exact ⟨fun _ => hm, fun hn => hn hlt⟩

/-- Clearing a bit; it aborts unless the bit is set. -/
theorem bitmapUnmark_ok (hj : ok ∨ j ∈ b.members) :
    wp ok (bitmapUnmark j) (fun _ b' => j ∈ b.members ∧ Unmarked b j b') b := by
  simp only [bitmapUnmark, wp_bind, wp_getState, wp_require, wp_modify]
  rw [mem_members] at hj
  refine ⟨fun h1 => ⟨fun h2 => ⟨mem_members.2 ⟨h1, h2⟩, rfl, ?_, ?_, ?_⟩, fun h2 => ?_⟩,
    fun h1 => ?_⟩
  · ext i
    rw [Finset.mem_erase, mem_members, mem_members, bitmapIsset_unmark]
    show i < b.nbits ∧ _ ↔ _
    simp only [Bool.and_eq_true, decide_eq_true_eq]
    tauto
  · intro ix h
    simp [Bitmap.setWord, h]
  · intro hp
    refine ⟨hp.fits, ?_⟩
    intro i hi hw
    rw [bitmapIsset_unmark, hp.past i hi hw]
    simp only [Bool.and_true, decide_eq_true_eq]
    change b.nbits ≤ i at hi
    omega
  · rcases hj with hj | hj
    · exact hj
    · exact absurd hj.2 h2
  · rcases hj with hj | hj
    · exact hj
    · exact absurd hj.1 h1

end OSLab.Fs
