import OSLab.Warmup.Wc
import OSLab.Lib.Probing
import Mathlib.Data.List.TakeWhile
import Mathlib.Data.List.Perm.Basic
import Mathlib.Data.List.Count

/-!
# Which words `wc` counts

The table represents the number of times each word was inserted (`insertWord_ok`). The words
inserted are those that a separator ends, up to their first NUL (`parse_ok`).

`wcInit_exact`: when `wc_init` ends, what `wc_output` prints is the count of every word
exactly for the `Countable` arrays.
-/

namespace OSLab.Warmup

open Probing

variable {hasht hasht' : ℕ → Option Element} {tableSize fuel i : ℕ} {w : Word} {l : List Word}
  {buff arr : List UInt8}

/-! ### The table -/

/-- The entries of the table. -/
def slots (hasht : ℕ → Option Element) (i : ℕ) : Option (Word × ℕ) :=
  (hasht i).map fun ele => (ele.word, ele.count)

/-- How often each word of `l` occurs there. -/
def countMap (l : List Word) (w : Word) : Option ℕ := if w ∈ l then some (l.count w) else none

/-- The table holds the counts of the words of `l`. -/
structure Tabled (tableSize : ℕ) (hasht : ℕ → Option Element) (l : List Word) : Prop where
  counts : Represents (firstKey tableSize) (nextKey tableSize) (slots hasht) (countMap l)
  inside : ∀ i ele, hasht i = some ele → i < tableSize

theorem tabled_empty (tableSize : ℕ) : Tabled tableSize (fun _ => none) [] where
  counts := by
    have hm : countMap [] = fun _ => none := by
      funext w
      unfold countMap
      rw [if_neg List.not_mem_nil]
    rw [hm]
    exact Represents.empty
  inside _ _ h := by cases h

theorem countMap_append (l : List Word) (w : Word) :
    countMap (l ++ [w]) = Function.update (countMap l) w (some (l.count w + 1)) := by
  funext w'
  unfold countMap
  by_cases hw : w' = w
  · subst hw
    rw [Function.update_self, if_pos (by simp), List.count_append, List.count_singleton_self]
  · rw [Function.update_of_ne hw, List.count_append,
      List.count_eq_zero_of_not_mem (l := [w]) (by simpa using hw), add_zero]
    simp [hw]

theorem probe_eq (fuel i : ℕ) :
    probe hasht tableSize w fuel i = search (nextKey tableSize) (slots hasht) w fuel i := by
  induction fuel generalizing i with
  | zero => rfl
  | succ fuel ih =>
    unfold probe search slots
    cases hasht i with
    | none => rfl
    | some ele =>
      simp only [Option.map_some]
      rw [ih]
      rfl

theorem firstKey_lt (h : 0 < tableSize) : firstKey tableSize w < tableSize := by
  have h1 := Int.emod_nonneg (hash w) (Int.natCast_ne_zero.2 h.ne')
  have h2 := Int.emod_lt_of_pos (hash w) (Int.natCast_pos.2 h)
  unfold firstKey
  omega

/-- One more occurrence of `w`, in the slot where the search for it ends. -/
theorem Tabled.add (h : Tabled tableSize hasht l) (h0 : 0 < tableSize)
    (hs : search (nextKey tableSize) (slots hasht) w fuel (firstKey tableSize w) = some i)
    (hnew : hasht i = none → hasht' = addElement hasht w i)
    (hold : ∀ ele, hasht i = some ele → hasht' = countElement hasht i) :
    Tabled tableSize hasht' (l ++ [w]) := by
  have hfound := h.counts.found hs
  have hi : i < tableSize :=
    search_mem (P := fun j => j < tableSize) hs (firstKey_lt h0) fun _ => Nat.mod_lt _ h0
  have hslots : slots hasht' = Function.update (slots hasht) i (some (w, l.count w + 1)) ∧
      ∀ j, j ≠ i → hasht' j = hasht j := by
    unfold slots countMap at hfound
    cases hi : hasht i with
    | none =>
      rw [hi, Option.map_none] at hfound
      have hw : w ∉ l := by
        intro hw
        rw [if_pos hw] at hfound
        cases hfound
      rw [hnew hi]
      refine ⟨?_, fun j hj => Function.update_of_ne hj ..⟩
      funext j
      unfold slots addElement
      by_cases hj : j = i
      · subst hj
        rw [Function.update_self, Function.update_self, List.count_eq_zero_of_not_mem hw]
        rfl
      · rw [Function.update_of_ne hj, Function.update_of_ne hj]
    | some ele =>
      rw [hi, Option.map_some] at hfound
      have hw : w ∈ l := by
        by_contra hw
        rw [if_neg hw] at hfound
        cases hfound
      rw [if_pos hw, Option.map_some, Option.some.injEq, Prod.mk.injEq] at hfound
      rw [hold ele hi]
      refine ⟨?_, fun j hj => Function.update_of_ne hj ..⟩
      funext j
      unfold slots countElement
      by_cases hj : j = i
      · subst hj
        rw [Function.update_self, Function.update_self, hi, Option.map_some, Option.map_some,
          hfound.1, hfound.2]
      · rw [Function.update_of_ne hj, Function.update_of_ne hj]
  refine ⟨?_, fun j ele hj => ?_⟩
  · rw [hslots.1, countMap_append]
    exact h.counts.set hs _
  · by_cases hji : j = i
    · rw [hji]
      exact hi
    · rw [hslots.2 j hji] at hj
      exact h.inside j ele hj

/-- **Inserting a word** counts it. -/
theorem insertWord_ok (h : Tabled tableSize hasht l) (h0 : 0 < tableSize)
    (hins : insertWord hasht tableSize w fuel = some hasht') :
    Tabled tableSize hasht' (l ++ [w]) := by
  unfold insertWord at hins
  simp only at hins
  have hone : ∀ {ele}, hasht (firstKey tableSize w) = some ele → ele.word = w →
      search (nextKey tableSize) (slots hasht) w 1 (firstKey tableSize w) =
        some (firstKey tableSize w) := by
    intro ele he hw
    simp [search, slots, he, hw]
  split at hins
  · rename_i hnone
    cases hins
    have hs : search (nextKey tableSize) (slots hasht) w 1 (firstKey tableSize w) =
        some (firstKey tableSize w) := by
      simp [search, slots, hnone]
    refine h.add h0 hs (fun _ => rfl) fun ele he => ?_
    rw [hnone] at he
    cases he
  · rename_i ele he
    split at hins
    · rename_i hw
      cases hins
      refine h.add h0 (hone he hw) (fun hn => ?_) fun _ _ => rfl
      rw [he] at hn
      cases hn
    · split at hins
      · cases hins
      · rename_i newKey hp
        rw [probe_eq] at hp
        refine h.add h0 hp (fun hn => ?_) fun ele' he' => ?_
        · rw [hn] at hins
          cases hins
          rfl
        · rw [he'] at hins
          cases hins
          rfl

/-! ### The loop over the array -/

/-- The characters between two separators, those before the first one and behind the last one. -/
def pieces (arr : List UInt8) : List Word := arr.splitOnP isspace

/-- The words that are inserted when the array falls into `ps`: the last piece is not. -/
def inserted (ps : List Word) : List Word := (ps.dropLast.map cstring).filter (· ≠ [])

/-- What the loop ends with, from a table of the words of `l`, when the characters in the buffer
and in the rest of the array fall into `ps`. -/
def ParseEnds (tableSize : ℕ) (l ps : List Word) : Outcome → Prop
  | .returns wc => wc.tableSize = tableSize ∧ Tabled tableSize wc.hashtable (l ++ inserted ps) ∧
      (∀ w ∈ ps.dropLast, w.length < buffSize) ∧ (tableSize = 0 → inserted ps = [])
  | .undefined => (∃ w ∈ ps, buffSize ≤ w.length) ∨ tableSize = 0 ∧ inserted ps ≠ []

theorem inserted_cons {ps : List Word} (hps : ps ≠ []) (w : Word) :
    inserted (w :: ps) = if cstring w = [] then inserted ps else cstring w :: inserted ps := by
  unfold inserted
  rw [List.dropLast_cons_of_ne_nil hps, List.map_cons, List.filter_cons]
  by_cases hw : cstring w = []
  · rw [if_pos hw, if_neg (by simp [hw])]
  · rw [if_neg hw, if_pos (by simp [hw])]

/-- The loop has passed a piece that fits into the buffer, and has inserted the word in it. -/
theorem ParseEnds.cons {ps : List Word} {out : Outcome} (hps : ps ≠ [])
    (hlen : buff.length < buffSize) (h0 : cstring buff ≠ [] → tableSize ≠ 0)
    (h : ParseEnds tableSize (if cstring buff = [] then l else l ++ [cstring buff]) ps out) :
    ParseEnds tableSize l (buff :: ps) out := by
  have hins := inserted_cons hps buff
  cases out with
  | undefined =>
    rcases h with ⟨w, hw, hl⟩ | ⟨hz, hne⟩
    · exact Or.inl ⟨w, List.mem_cons_of_mem _ hw, hl⟩
    · refine Or.inr ⟨hz, ?_⟩
      rw [hins]
      split
      · exact hne
      · exact List.cons_ne_nil _ _
  | returns wc =>
    obtain ⟨hts, htab, hlens, hz⟩ := h
    refine ⟨hts, ?_, ?_, fun h => ?_⟩
    · rw [hins]
      split at htab
      · rename_i hw
        rwa [if_pos hw]
      · rename_i hw
        rw [if_neg hw]
        rwa [List.append_assoc, List.singleton_append] at htab
    · rw [List.dropLast_cons_of_ne_nil hps]
      exact List.forall_mem_cons.2 ⟨hlen, hlens⟩
    · have hw : cstring buff = [] := by
        by_contra hw
        exact h0 hw h
      rw [hins, if_pos hw]
      exact hz h

/-- **The loop inserts what separators end.** -/
theorem parse_ok {rest : List UInt8} {out : Outcome} (h : Tabled tableSize hasht l)
    (hp : parse fuel tableSize rest buff hasht = some out) :
    ParseEnds tableSize l (List.splitOnPPrepend isspace rest buff.reverse) out := by
  induction rest generalizing buff hasht l with
  | nil =>
    cases hp
    rw [List.splitOnPPrepend_nil, List.reverse_reverse]
    exact ⟨rfl, by simpa [inserted] using h, by simp, fun _ => rfl⟩
  | cons c rest ih =>
    unfold parse at hp
    split at hp
    · -- the next character does not fit
      rename_i hlen
      cases hp
      left
      rw [List.splitOnPPrepend_eq_modifyHead, List.reverse_reverse]
      obtain ⟨q, qs, hq⟩ := List.exists_cons_of_ne_nil (List.splitOnP_ne_nil isspace (c :: rest))
      rw [hq, List.modifyHead_cons]
      refine ⟨_, List.mem_cons_self, ?_⟩
      rw [List.length_append]
      omega
    rename_i hlen
    split at hp
    · -- a character of a word
      rename_i hc
      rw [List.splitOnPPrepend_cons_neg hc]
      have := ih h hp
      rwa [List.reverse_append, List.reverse_singleton, List.singleton_append] at this
    -- a separator
    rename_i hc
    have hne := List.splitOnP_ne_nil isspace rest
    rw [Bool.not_eq_false] at hc
    rw [List.splitOnPPrepend_cons_pos hc, List.reverse_reverse]
    split at hp
    · rename_i hw
      refine ParseEnds.cons hne (not_le.1 hlen) (fun hn => absurd hw hn) ?_
      rw [if_pos hw]
      exact ih h hp
    rename_i hw
    split at hp
    · rename_i hz
      cases hp
      refine Or.inr ⟨hz, ?_⟩
      rw [inserted_cons hne, if_neg hw]
      exact List.cons_ne_nil _ _
    rename_i hz
    split at hp
    · cases hp
    · rename_i hasht' hins
      refine ParseEnds.cons hne (not_le.1 hlen) (fun _ => hz) ?_
      rw [if_neg hw]
      exact ih (insertWord_ok h (Nat.pos_of_ne_zero hz) hins) hp

/-! ### What is printed -/

/-- The words of an array: its maximal runs of characters that are no separators. -/
def words (arr : List UInt8) : List Word := (pieces arr).filter (· ≠ [])

/-- The lines are those for the words of `l`: each word once, with its number of occurrences. -/
structure Counts (l : List Word) (lines : List (Word × ℕ)) : Prop where
  once : (lines.map Prod.fst).Nodup
  counts : ∀ w n, (w, n) ∈ lines ↔ w ∈ l ∧ n = l.count w

/-- **The table is printed as it is.** -/
theorem wcOutput_ok {wc : Wc} (h : Tabled wc.tableSize wc.hashtable l) : Counts l (wcOutput wc) where
  once := by
    unfold wcOutput
    rw [List.map_filterMap]
    refine List.nodup_range.filterMap fun i j w hi hj => ?_
    rw [Option.mem_def, Option.map_eq_some_iff] at hi hj
    obtain ⟨e, hi, rfl⟩ := hi
    obtain ⟨e', hj, he⟩ := hj
    exact h.counts.slot_unique hi hj he.symm
  counts w n := by
    have hm : (w, n) ∈ wcOutput wc ↔ ∃ i, slots wc.hashtable i = some (w, n) := by
      unfold wcOutput
      rw [List.mem_filterMap]
      constructor
      · rintro ⟨i, -, hi⟩
        exact ⟨i, hi⟩
      · rintro ⟨i, hi⟩
        obtain ⟨ele, hele, -⟩ := Option.map_eq_some_iff.1 hi
        exact ⟨i, List.mem_range.2 (h.inside i ele hele), hi⟩
    rw [hm, ← h.counts.holds w n]
    unfold countMap
    split
    · rename_i hw
      rw [Option.some.injEq]
      exact ⟨fun hn => ⟨hw, hn.symm⟩, fun hn => hn.2.symm⟩
    · rename_i hw
      exact ⟨fun hn => (by cases hn), fun hn => absurd hn.1 hw⟩

theorem Counts.perm {l' : List Word} {lines : List (Word × ℕ)} (h : Counts l lines) :
    Counts l' lines ↔ l.Perm l' := by
  constructor
  · intro h'
    rw [List.perm_iff_count]
    intro w
    have hiff : ∀ n, w ∈ l ∧ n = l.count w ↔ w ∈ l' ∧ n = l'.count w := fun n =>
      (h.counts w n).symm.trans (h'.counts w n)
    by_cases hw : w ∈ l
    · exact ((hiff _).1 ⟨hw, rfl⟩).2
    · have hw' : w ∉ l' := fun hw' => hw ((hiff _).2 ⟨hw', rfl⟩).1
      rw [List.count_eq_zero_of_not_mem hw, List.count_eq_zero_of_not_mem hw']
  · intro hp
    refine ⟨h.once, fun w n => ?_⟩
    rw [h.counts, hp.mem_iff, hp.count_eq]

/-! ### Which words are inserted -/

theorem pieces_append (arr : List UInt8) : ∃ last, pieces arr = (pieces arr).dropLast ++ [last] :=
  ⟨_, (List.dropLast_append_getLast (List.splitOnP_ne_nil isspace arr)).symm⟩

/-- The characters of the pieces are those of the array that are no separators. -/
theorem mem_splitOnP {c : UInt8} (arr acc : List UInt8) :
    (∃ w ∈ List.splitOnPPrepend isspace arr acc, c ∈ w) ↔
      c ∈ acc ∨ c ∈ arr ∧ isspace c = false := by
  induction arr generalizing acc with
  | nil => simp
  | cons d rest ih =>
    by_cases hd : isspace d = true
    · have h := ih []
      rw [List.splitOnPPrepend_nil_right] at h
      rw [List.splitOnPPrepend_cons_pos hd, List.exists_mem_cons_iff, h, List.mem_reverse]
      constructor
      · rintro (hc | hc | hc)
        · exact Or.inl hc
        · cases hc
        · exact Or.inr ⟨List.mem_cons_of_mem _ hc.1, hc.2⟩
      · rintro (hc | ⟨hc, hs⟩)
        · exact Or.inl hc
        · rcases List.mem_cons.1 hc with rfl | hc
          · rw [hd] at hs
            cases hs
          · exact Or.inr (Or.inr ⟨hc, hs⟩)
    · rw [Bool.not_eq_true] at hd
      rw [List.splitOnPPrepend_cons_neg hd, ih, List.mem_cons, List.mem_cons]
      constructor
      · rintro ((rfl | hc) | ⟨hc, hs⟩)
        · exact Or.inr ⟨Or.inl rfl, hd⟩
        · exact Or.inl hc
        · exact Or.inr ⟨Or.inr hc, hs⟩
      · rintro (hc | ⟨rfl | hc, hs⟩)
        · exact Or.inl (Or.inr hc)
        · exact Or.inl (Or.inl rfl)
        · exact Or.inr ⟨hc, hs⟩

/-- Nothing is behind the last separator if and only if the array ends with it. -/
theorem last_piece (arr acc : List UInt8) :
    (List.splitOnPPrepend isspace arr acc).getLast? = some [] ↔
      arr = [] ∧ acc = [] ∨ ∃ c, arr.getLast? = some c ∧ isspace c = true := by
  induction arr generalizing acc with
  | nil => simp
  | cons d rest ih =>
    have hlast : ∀ c, (d :: rest).getLast? = some c ↔ rest = [] ∧ d = c ∨ rest.getLast? = some c := by
      intro c
      cases rest with
      | nil => simp
      | cons e rest => simp [List.getLast?_cons_cons]
    by_cases hd : isspace d = true
    · have h := ih []
      rw [List.splitOnPPrepend_nil_right] at h
      obtain ⟨q, qs, hq⟩ := List.exists_cons_of_ne_nil (List.splitOnP_ne_nil isspace rest)
      rw [hq] at h
      rw [List.splitOnPPrepend_cons_pos hd, hq, List.getLast?_cons_cons, h]
      simp only [hlast, reduceCtorEq, false_and, false_or, and_true]
      constructor
      · rintro (hr | ⟨c, hc, hs⟩)
        · exact ⟨d, Or.inl ⟨hr, rfl⟩, hd⟩
        · exact ⟨c, Or.inr hc, hs⟩
      · rintro ⟨c, ⟨hr, -⟩ | hc, hs⟩
        · exact Or.inl hr
        · exact Or.inr ⟨c, hc, hs⟩
    · rw [Bool.not_eq_true] at hd
      rw [List.splitOnPPrepend_cons_neg hd, ih]
      simp only [hlast, reduceCtorEq, and_false, false_and, false_or]
      constructor
      · rintro ⟨c, hc, hs⟩
        exact ⟨c, Or.inr hc, hs⟩
      · rintro ⟨c, ⟨-, rfl⟩ | hc, hs⟩
        · rw [hd] at hs
          cases hs
        · exact ⟨c, hc, hs⟩

theorem cstring_eq (h : 0 ∉ buff) : cstring buff = buff := by
  unfold cstring
  rw [List.takeWhile_eq_self_iff]
  intro c hc
  simp only [ne_eq, decide_not, Bool.not_eq_true', decide_eq_false_iff_not]
  rintro rfl
  exact h hc

theorem not_mem_cstring (buff : List UInt8) : (0 : UInt8) ∉ cstring buff := by
  intro h
  have := List.mem_takeWhile_imp h
  simp at this

theorem mem_words : w ∈ words arr ↔ w ∈ pieces arr ∧ w ≠ [] := by simp [words]

theorem mem_inserted {ps : List Word} : w ∈ inserted ps ↔ w ≠ [] ∧ ∃ q ∈ ps.dropLast, cstring q = w := by
  unfold inserted
  rw [List.mem_filter, List.mem_map, and_comm, decide_eq_true_eq]

/-- **All words are inserted** if and only if a separator ends the last one and there is no NUL. -/
theorem inserted_perm : (inserted (pieces arr)).Perm (words arr) ↔
    (arr = [] ∨ ∃ c, arr.getLast? = some c ∧ isspace c = true) ∧ 0 ∉ arr := by
  obtain ⟨last, hlast⟩ := pieces_append arr
  have hend : last = [] ↔ arr = [] ∨ ∃ c, arr.getLast? = some c ∧ isspace c = true := by
    have h := last_piece arr []
    rw [List.splitOnPPrepend_nil_right] at h
    have hl : (pieces arr).getLast? = some last := by rw [hlast, List.getLast?_concat]
    change (pieces arr).getLast? = some [] ↔ _ at h
    rw [hl, Option.some.injEq] at h
    rw [h, and_iff_left rfl]
  have hnul : 0 ∉ arr ↔ ∀ q ∈ pieces arr, 0 ∉ q := by
    have h := mem_splitOnP (c := 0) arr []
    rw [List.splitOnPPrepend_nil_right] at h
    constructor
    · intro h0 q hq hm
      rcases h.1 ⟨q, hq, hm⟩ with h' | h'
      · cases h'
      · exact h0 h'.1
    · intro hall h0
      obtain ⟨q, hq, hm⟩ := h.2 (Or.inr ⟨h0, by decide⟩)
      exact hall q hq hm
  -- without NULs the words before the last piece are inserted as they are
  have hins : 0 ∉ arr → inserted (pieces arr) = (pieces arr).dropLast.filter (· ≠ []) := by
    intro h0
    unfold inserted
    congr 1
    rw [List.map_congr_left (g := id), List.map_id]
    intro q hq
    exact cstring_eq (hnul.1 h0 q (List.mem_of_mem_dropLast hq))
  have hwords : words arr = (pieces arr).dropLast.filter (· ≠ []) ++ [last].filter (· ≠ []) := by
    unfold words
    rw [← List.filter_append, ← hlast]
  rw [← hend]
  constructor
  · intro hp
    have h0 : 0 ∉ arr := by
      rw [hnul]
      intro q hq hm
      have hw : q ∈ words arr := mem_words.2 ⟨hq, List.ne_nil_of_mem hm⟩
      obtain ⟨-, q', -, rfl⟩ := mem_inserted.1 (hp.mem_iff.2 hw)
      exact not_mem_cstring q' hm
    refine ⟨?_, h0⟩
    have hlen := hp.length_eq
    rw [hins h0, hwords, List.length_append] at hlen
    by_contra hne
    simp [hne] at hlen
  · rintro ⟨rfl, h0⟩
    rw [hins h0, hwords]
    simp

/-! ### Which arrays are counted -/

/-- What `wc_output` prints is the count of every word of the array. -/
def Outcome.Exact (arr : List UInt8) : Outcome → Prop
  | .returns wc => Counts (words arr) (wcOutput wc)
  | .undefined => False

/-- An array whose words are all counted. -/
structure Countable (arr : List UInt8) : Prop where
  ends : arr = [] ∨ ∃ c, arr.getLast? = some c ∧ isspace c = true
  noNul : 0 ∉ arr
  short : ∀ w ∈ words arr, w.length < buffSize
  fits : arr.length / 3 < 2 ^ 31
  slots : words arr ≠ [] → 3 ≤ arr.length

/-- **When `wc_init` ends**, every word is counted exactly if the array is empty or ends with a
separator, holds no NUL, no word of 500 characters and, if there is a word, three characters, and
has not so many that an `int` cannot count the slots. -/
theorem wcInit_exact {out : Outcome} (h : wcInit fuel arr = some out) :
    out.Exact arr ↔ Countable arr := by
  unfold wcInit at h
  simp only at h
  split at h
  · rename_i hbig
    cases h
    exact ⟨fun he => he.elim, fun hc => absurd hc.fits (not_lt.2 hbig)⟩
  rename_i hbig
  have hp := parse_ok (tabled_empty _) h
  rw [List.reverse_nil, List.splitOnPPrepend_nil_right] at hp
  change ParseEnds _ [] (pieces arr) out at hp
  have hslots : (words arr ≠ [] → 3 ≤ arr.length) ↔ (arr.length / 3 = 0 → words arr = []) := by
    rw [Nat.div_eq_zero_iff]
    by_cases hw : words arr = []
    · simp [hw]
    · simp only [hw, ne_eq, not_false_eq_true, forall_const, imp_false]
      omega
  cases out with
  | undefined =>
    refine ⟨fun he => he.elim, fun hc => ?_⟩
    have hperm := inserted_perm.2 ⟨hc.ends, hc.noNul⟩
    rcases hp with ⟨w, hw, hlen⟩ | ⟨hz, hne⟩
    · have hw0 : w ≠ [] := by
        rintro rfl
        exact absurd hlen (by decide)
      exact absurd hlen (not_le.2 (hc.short w (mem_words.2 ⟨hw, hw0⟩)))
    · rw [hslots.1 hc.slots hz] at hperm
      exact absurd hperm.eq_nil hne
  | returns wc =>
    obtain ⟨hts, htab, hlens, hz⟩ := hp
    rw [← hts, List.nil_append] at htab
    have hexact : Outcome.Exact arr (.returns wc) ↔ _ := (wcOutput_ok htab).perm.trans inserted_perm
    rw [hexact]
    constructor
    · rintro ⟨hend, hnul⟩
      have hperm := inserted_perm.2 ⟨hend, hnul⟩
      refine ⟨hend, hnul, fun w hw => ?_, not_le.1 hbig, hslots.2 fun h0 => ?_⟩
      · obtain ⟨-, q, hq, rfl⟩ := mem_inserted.1 (hperm.mem_iff.2 hw)
        refine lt_of_le_of_lt ?_ (hlens q hq)
        exact (List.takeWhile_sublist _).length_le
      · rw [hz h0] at hperm
        exact hperm.nil_eq.symm
    · intro hc
      exact ⟨hc.ends, hc.noNul⟩

/-- The array `a a ` is counted. -/
theorem wcInit_exact_sample : ∃ out, wcInit 0 [97, 32, 97, 32] = some out ∧
    out.Exact [97, 32, 97, 32] := by
  obtain ⟨out, hout⟩ : ∃ out, wcInit 0 [97, 32, 97, 32] = some out := ⟨_, rfl⟩
  refine ⟨out, hout, (wcInit_exact hout).2 ⟨Or.inr ⟨32, rfl, rfl⟩, ?_, ?_, ?_, ?_⟩⟩ <;> decide

/-- In the array `a b` the word `b` is lost. -/
theorem wcInit_loses_word : words [97, 32, 98] = [[97], [98]] ∧
    ∃ wc, wcInit 0 [97, 32, 98] = some (.returns wc) ∧ wcOutput wc = [([97], 1)] ∧
      ¬Outcome.Exact [97, 32, 98] (.returns wc) := by
  refine ⟨by decide, _, rfl, rfl, fun h => ?_⟩
  have hb := (h.counts [98] 1).2 (by decide)
  exact absurd hb (by decide)

end OSLab.Warmup
