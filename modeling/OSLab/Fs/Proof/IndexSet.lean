import OSLab.Fs.Proof.Freemap
import Mathlib.Order.Bounds.Basic

/-!
# The calls on a bitmap

`History nbits b S`: calls on a bitmap from `bitmap_create(nbits)` have led to `b`, and `S` is the
set of indices that were added and not removed since.

* `bitmapCreate_ok`: the bits past the last are set, and no others.
* `bitmapAlloc_least`: the allocator takes the first index that is free.
* `history_shows`: after every history the bitmap is the set.
* `bitmap_refines`: so every call does to the set what it should, and no assertion fails; the number
  of bits in use is right as long as it is an `int`.
-/

namespace OSLab.Fs

open Prog

variable {nbits i j : ℕ} {b b' : Bitmap} {S : Finset ℕ}

/-- The bitmaps that calls lead to, and what the calls did to the set of indices. -/
inductive History (nbits : ℕ) : Bitmap → Finset ℕ → Prop
  | create {b : Bitmap} (hr : bitmapCreate nbits = some b) : History nbits b ∅
  | alloc {b b' : Bitmap} {S : Finset ℕ} {i : ℕ} (h : History nbits b S)
      (hr : bitmapAlloc b = some (.ok i, b')) : History nbits b' (insert i S)
  | full {b b' : Bitmap} {S : Finset ℕ} {e : ℤ} (h : History nbits b S)
      (hr : bitmapAlloc b = some (.error e, b')) : History nbits b' S
  | mark {b b' : Bitmap} {S : Finset ℕ} {i : ℕ} (h : History nbits b S) (hi : i < nbits)
      (hc : i ∉ S) (hr : bitmapMark i b = some ((), b')) : History nbits b' (insert i S)
  | unmark {b b' : Bitmap} {S : Finset ℕ} {i : ℕ} (h : History nbits b S) (hi : i < nbits)
      (hs : i ∈ S) (hr : bitmapUnmark i b = some ((), b')) : History nbits b' (S.erase i)

/-- The bitmap is the set `S`. -/
structure Shows (nbits : ℕ) (b : Bitmap) (S : Finset ℕ) : Prop where
  nbits : b.nbits = nbits
  padded : b.Padded
  members : b.members = S

/-! ### `bitmap_create` -/

/-- The loop that marks the bits past the last sets the bits `js` of word `ix`. -/
theorem foldl_mark (ix : ℕ) (js : List ℕ) (b : Bitmap) (hjs : ∀ j ∈ js, j < bitsPerWord) :
    (js.foldl (fun b j => b.setWord ix (b.v ix ||| wordMask j)) b).nbits = b.nbits ∧
    ∀ i, bitmapIsset (js.foldl (fun b j => b.setWord ix (b.v ix ||| wordMask j)) b) i = true ↔
      (i / bitsPerWord = ix ∧ i % bitsPerWord ∈ js) ∨ bitmapIsset b i = true := by
  induction js generalizing b with
  | nil =>
    refine ⟨rfl, ?_⟩
    intro i
    simp
  | cons j js ih =>
    have hj : j < bitsPerWord := hjs j List.mem_cons_self
    have hdiv : (ix * bitsPerWord + j) / bitsPerWord = ix := by
      unfold bitsPerWord at *
      omega
    have hmod : (ix * bitsPerWord + j) % bitsPerWord = j := by
      unfold bitsPerWord at *
      omega
    have hset := bitmapIsset_mark b (ix * bitsPerWord + j)
    rw [hdiv, hmod] at hset
    obtain ⟨hn, hih⟩ := ih (b.setWord ix (b.v ix ||| wordMask j))
      (fun k hk => hjs k (List.mem_cons_of_mem j hk))
    refine ⟨hn, ?_⟩
    intro i
    have heq : i = ix * bitsPerWord + j ↔ i / bitsPerWord = ix ∧ i % bitsPerWord = j := by
      constructor
      · rintro rfl
        exact ⟨hdiv, hmod⟩
      · intro ⟨h1, h2⟩
        exact eq_of_div_mod (h1.trans hdiv.symm) (h2.trans hmod.symm)
    rw [List.foldl_cons, hih, hset, Bool.or_eq_true, decide_eq_true_eq, heq, List.mem_cons]
    tauto

theorem bitmapCreate_over (h : nbits + 7 < 2 ^ 32) (hmod : 0 < nbits % 8) :
    bitmapCreate nbits = some ((List.range' (nbits % 8) (8 - nbits % 8)).foldl
      (fun b j => b.setWord (nbits / 8) (b.v (nbits / 8) ||| wordMask j)) ⟨nbits, fun _ => 0⟩) := by
  have hix : (nbits + 7) / 8 - 1 = nbits / 8 := by omega
  have hover : nbits - nbits / 8 * 8 = nbits % 8 := by omega
  unfold bitmapCreate
  simp only [wordsFor_eq h]
  unfold bitsPerWord
  rw [hix, hover, if_pos (by omega), if_pos (by omega)]

theorem bitmapCreate_ok (h : nbits + 7 < 2 ^ 32) :
    ∃ b, bitmapCreate nbits = some b ∧ Shows nbits b ∅ := by
  by_cases hd : bitsPerWord ∣ nbits
  · -- whole words
    refine ⟨_, bitmapCreate_of_dvd h hd, rfl, padded_of_dvd h hd, ?_⟩
    exact members_blank fun _ => rfl
  · have hmod : 0 < nbits % 8 := Nat.pos_of_ne_zero fun h0 => hd (Nat.dvd_of_mod_eq_zero h0)
    have hcreate := bitmapCreate_over h hmod
    have hlt : ∀ j ∈ List.range' (nbits % 8) (8 - nbits % 8), j < bitsPerWord := by
      intro j hj
      rw [List.mem_range'_1] at hj
      unfold bitsPerWord
      omega
    obtain ⟨hn, hset⟩ := foldl_mark (nbits / 8) _ ⟨nbits, fun _ => 0⟩ hlt
    generalize (List.range' (nbits % 8) (8 - nbits % 8)).foldl _ _ = b at hcreate hn hset
    have hn : b.nbits = nbits := hn
    have hbit : ∀ i, bitmapIsset b i = true ↔ i / 8 = nbits / 8 ∧ nbits % 8 ≤ i % 8 := by
      intro i
      have hblank : bitmapIsset ⟨nbits, fun _ => 0⟩ i = false := by
        unfold bitmapIsset
        simp
      rw [hset, hblank, List.mem_range'_1]
      unfold bitsPerWord
      simp only [Bool.false_eq_true, or_false]
      omega
    refine ⟨b, hcreate, hn, ⟨?_, ?_⟩, ?_⟩
    · rw [hn]
      exact h
    · intro i h1 h2
      unfold Bitmap.words at h2
      rw [hn] at h1 h2
      rw [wordsFor_eq h] at h2
      unfold bitsPerWord at h2
      rw [hbit]
      omega
    · ext i
      rw [mem_members, hbit, hn]
      constructor
      · intro hi
        omega
      · intro hi
        cases hi

/-! ### The calls -/

/-- The words in front of the one the allocator takes are full, and so are the bits in front of
the bit. -/
theorem bitmapAlloc_least :
    wp True bitmapAlloc (fun r _ => ∀ j, r = .ok j → ∀ i < j, bitmapIsset b i = true) b := by
  simp only [bitmapAlloc, wp_bind, wp_getState]
  cases hf : (List.range b.words).find? (fun ix => b.v ix ≠ BitVec.allOnes 8) with
  | none =>
    simp only [wp_pure]
    intro j hj
    cases hj
  | some ix =>
    cases hk : (List.range bitsPerWord).find? (fun offset => b.v ix &&& wordMask offset = 0) with
    | none =>
      simp only [hk]
      exact wp_abort.2 trivial
    | some k =>
      simp only [hk, wp_bind, wp_modify, wp_require, wp_pure]
      refine ⟨fun _ => ?_, fun _ => trivial⟩
      intro j hj i hi
      obtain rfl : ix * bitsPerWord + k = j := by injection hj
      obtain ⟨-, -, hwords⟩ := List.find?_range_eq_some.1 hf
      obtain ⟨-, hmem, hbits⟩ := List.find?_range_eq_some.1 hk
      rw [List.mem_range] at hmem
      have hdm : i / bitsPerWord < ix ∨ i / bitsPerWord = ix ∧ i % bitsPerWord < k := by
        unfold bitsPerWord at *
        omega
      rw [bitmapIsset_eq]
      rcases hdm with hlt | ⟨heq, hlt⟩
      · have hfull : b.v (i / bitsPerWord) = BitVec.allOnes 8 := by
          simpa using hwords _ hlt
        rw [hfull, BitVec.getLsbD_allOnes]
        exact decide_eq_true (mod_lt_bits i)
      · have hne := hbits _ hlt
        rw [heq, ← Bool.not_eq_false, ← and_wordMask _ (mod_lt_bits i)]
        simpa using hne

theorem bitmapMark_ok (hj : j < b.nbits) (hc : j ∉ b.members) :
    wp False (bitmapMark j) (fun _ b' => Marked b j b') b := by
  have hclear : bitmapIsset b j = false := by
    rw [mem_members] at hc
    simpa [hj] using hc
  simp only [bitmapMark, wp_bind, wp_getState, wp_require, wp_modify]
  exact ⟨fun _ => ⟨fun _ => marked_of_isset hj hclear, fun hn => hn hclear⟩, fun hn => hn hj⟩

theorem Shows.mem (h : Shows nbits b S) : i ∈ S ↔ i < nbits ∧ bitmapIsset b i = true := by
  rw [← h.members, mem_members, h.nbits]

theorem Shows.marked (h : Shows nbits b S) (hm : Marked b i b') : Shows nbits b' (insert i S) where
  nbits := hm.nbits.trans h.nbits
  padded := hm.padded h.padded
  members := by rw [hm.members, h.members]

theorem Shows.unmarked (h : Shows nbits b S) (hm : Unmarked b i b') :
    Shows nbits b' (S.erase i) where
  nbits := hm.nbits.trans h.nbits
  padded := hm.padded h.padded
  members := by rw [hm.members, h.members]

/-- **After every history the bitmap is the set.** -/
theorem history_shows (h : nbits + 7 < 2 ^ 32) (hh : History nbits b S) : Shows nbits b S := by
  induction hh with
  | create hr =>
    obtain ⟨b, hb, hs⟩ := bitmapCreate_ok h
    rw [hb] at hr
    cases hr
    exact hs
  | alloc _ hr ih =>
    have hm := (bitmapAlloc_ok ih.padded).of_run hr
    exact ih.marked hm
  | full _ hr ih =>
    obtain ⟨-, rfl, -⟩ := (bitmapAlloc_ok ih.padded).of_run hr
    exact ih
  | mark _ hi hc hr ih =>
    have hm := (bitmapMark_ok (by rw [ih.nbits]; exact hi) (by rw [ih.members]; exact hc)).of_run hr
    exact ih.marked hm
  | @unmark b b' S i _ hi hs hr ih =>
    have hwp : wp True (bitmapUnmark i) (fun _ b' => i ∈ b.members ∧ Unmarked b i b') b :=
      bitmapUnmark_ok (Or.inl trivial)
    exact ih.unmarked (hwp.of_run hr).2

/-- What the calls on a bitmap with the indices `S` return; no assertion fails. -/
structure Agrees (nbits : ℕ) (b : Bitmap) (S : Finset ℕ) : Prop where
  below : ∀ i ∈ S, i < nbits
  alloc : ∃ r b', bitmapAlloc b = some (r, b') ∧ match r with
    | .ok i => IsLeast {j | j < nbits ∧ j ∉ S} i
    | .error e => e = -enospc ∧ (∀ j < nbits, j ∈ S) ∧ b' = b
  mark : ∀ i < nbits, i ∉ S → ∃ b', bitmapMark i b = some ((), b')
  unmark : ∀ i < nbits, i ∈ S → ∃ b', bitmapUnmark i b = some ((), b')
  isset : ∀ i < nbits, bitmapIsset b i = true ↔ i ∈ S

theorem Shows.agrees (h : Shows nbits b S) : Agrees nbits b S where
  below i hi := (h.mem.1 hi).1
  alloc := by
    obtain ⟨r, b', hr, hq⟩ := (bitmapAlloc_ok h.padded).returns
    refine ⟨r, b', hr, ?_⟩
    cases r with
    | error e =>
      obtain ⟨he, hb, hcard⟩ := hq
      refine ⟨he, ?_, hb⟩
      -- as many as there are below `nbits`: all of them
      have hall : b.members = Finset.range b.nbits :=
        Finset.eq_of_subset_of_card_le members_subset (by rw [Finset.card_range, hcard])
      intro j hj
      rw [← h.members, hall, Finset.mem_range, h.nbits]
      exact hj
    | ok i =>
      have hleast := bitmapAlloc_least.of_run hr i rfl
      constructor
      · exact ⟨h.nbits ▸ hq.lt, h.members ▸ hq.clear⟩
      · intro j ⟨hj, hjS⟩
        by_contra hlt
        exact hjS (h.mem.2 ⟨hj, hleast j (not_le.1 hlt)⟩)
  mark i hi hc := by
    obtain ⟨_, b', hr, -⟩ := (bitmapMark_ok (by rw [h.nbits]; exact hi)
      (by rw [h.members]; exact hc)).returns
    exact ⟨b', hr⟩
  unmark i hi hs := by
    rw [← h.members] at hs
    obtain ⟨_, b', hr, -⟩ := (bitmapUnmark_ok (Or.inr hs)).returns
    exact ⟨b', hr⟩
  isset i hi := by
    rw [h.mem]
    exact ⟨fun hb => ⟨hi, hb⟩, fun hb => hb.2⟩

/-! ### Counting -/

theorem foldl_count (p : ℕ → Bool) (l : List ℕ) (x : ℤ) :
    l.foldl (fun nr i => if p i then toInt32 (nr + 1) else nr) (toInt32 x) =
      toInt32 (x + l.countP p) := by
  induction l generalizing x with
  | nil => simp
  | cons i l ih =>
    rw [List.foldl_cons]
    by_cases hp : p i
    · rw [if_pos hp, toInt32_succ, ih, List.countP_cons_of_pos hp]
      congr 1
      push_cast
      ring
    · rw [if_neg hp, ih, List.countP_cons_of_neg hp]

theorem bitmapNrAllocated_eq (b : Bitmap) : bitmapNrAllocated b = toInt32 b.members.card := by
  have hcard : b.members.card = (List.range b.nbits).countP (bitmapIsset b) := by
    have hlist : b.members.card =
        ((List.range b.nbits).filter fun i => decide (bitmapIsset b i = true)).length := rfl
    rw [hlist, List.countP_eq_length_filter]
    simp only [Bool.decide_eq_true]
  have hfold := foldl_count (bitmapIsset b) (List.range b.nbits) 0
  unfold bitmapNrAllocated
  rw [hcard, ← zero_add (((List.range b.nbits).countP (bitmapIsset b) : ℕ) : ℤ), ← hfold]
  rfl

/-- **The bitmap refines a set of indices.** After every history each call does to the set what it
should: `bitmap_alloc` takes the least index that is not in it, or fails when there is none; and
no assertion fails. `bitmap_nr_allocated` is right as long as the number of indices is an `int`. -/
theorem bitmap_refines (nbits : ℕ) (h : nbits + 7 < 2 ^ 32) :
    (∃ b, bitmapCreate nbits = some b) ∧
    ∀ b S, History nbits b S → Agrees nbits b S ∧
      (bitmapNrAllocated b = S.card ↔ S.card < 2 ^ 31) := by
  obtain ⟨b₀, hb₀, -⟩ := bitmapCreate_ok h
  refine ⟨⟨b₀, hb₀⟩, ?_⟩
  intro b S hh
  have hs := history_shows h hh
  refine ⟨hs.agrees, ?_⟩
  rw [bitmapNrAllocated_eq, hs.members]
  constructor
  · intro heq
    have := toInt32_lt S.card
    omega
  · intro hlt
    exact toInt32_of_lt (by omega) (by omega)

/-- A bitmap of ten bits with the last one marked. -/
theorem bitmap_refines_ten : ∃ b₀ b, bitmapCreate 10 = some b₀ ∧
    bitmapMark 9 b₀ = some ((), b) ∧ Agrees 10 b {9} ∧ bitmapNrAllocated b = 1 := by
  obtain ⟨⟨b₀, hb₀⟩, hall⟩ := bitmap_refines 10 (by decide)
  obtain ⟨hagrees, -⟩ := hall b₀ ∅ (.create hb₀)
  obtain ⟨b, hb⟩ := hagrees.mark 9 (by decide) (by decide)
  obtain ⟨hagrees', hcount⟩ := hall b {9} (.mark (.create hb₀) (by decide) (by decide) hb)
  exact ⟨b₀, b, hb₀, hb, hagrees', hcount.2 (by decide)⟩

/-- The allocator takes the indices in order. -/
theorem exists_history (h : nbits + 7 < 2 ^ 32) {k : ℕ} (hk : k ≤ nbits) :
    ∃ b, History nbits b (Finset.range k) := by
  induction k with
  | zero =>
    obtain ⟨b, hb, -⟩ := bitmapCreate_ok h
    exact ⟨b, .create hb⟩
  | succ k ih =>
    obtain ⟨b, hb⟩ := ih (by omega)
    obtain ⟨r, b', hr, hq⟩ := (history_shows h hb).agrees.alloc
    cases r with
    | error e =>
      have hin := hq.2.1 k (by omega)
      simp at hin
    | ok i =>
      have hi : i = k := by
        have hle : i ≤ k := hq.2 ⟨by omega, by simp⟩
        have hge := hq.1.2
        rw [Finset.mem_range] at hge
        omega
      refine ⟨b', ?_⟩
      rw [Finset.range_add_one, ← hi]
      exact .alloc (hi ▸ hb) hr

/-- With as many indices in use as an `int` cannot count, their number comes out negative. -/
theorem bitmap_count_overflows : ∃ b S, History (2 ^ 31) b S ∧ S.card = 2 ^ 31 ∧
    bitmapNrAllocated b = -2 ^ 31 := by
  have hfits : 2 ^ 31 + 7 < 2 ^ 32 := by decide
  obtain ⟨b, hb⟩ := exists_history hfits le_rfl
  refine ⟨b, _, hb, Finset.card_range _, ?_⟩
  rw [bitmapNrAllocated_eq, (history_shows hfits hb).members, Finset.card_range,
    toInt32_wrap (by omega) (by omega)]
  omega

end OSLab.Fs
