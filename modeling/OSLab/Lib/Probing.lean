import Mathlib.Logic.Function.Iterate
import Mathlib.Data.Finset.Card
import Mathlib.Tactic.Choose

/-!
# Open addressing

A table of slots, each empty or holding a key with its value. The search for a key starts at
its first slot and goes on from each slot to a next one, until a slot is empty or holds the
key. `Represents first next t m`: the table `t` holds the finite map `m`, and the search for
a key of `m` passes no empty slot before it.

* `Represents.found`: a search that ends, ends where the map says.
* `Represents.set`: writing there updates the map.
* `Represents.room`, `Represents.not_other`: searches for keys end, one after the other, if and
  only if there is `Room` for them.
-/

namespace OSLab.Probing

variable {ι κ ν : Type} {first : κ → ι} {next : ι → ι}
  {t : ι → Option (κ × ν)} {m : κ → Option ν} {k : κ} {v : ν} {i j : ι} {fuel n : ℕ}

/-- The slot holds another key. -/
def Other (t : ι → Option (κ × ν)) (k : κ) (i : ι) : Prop := ∃ e, t i = some e ∧ e.1 ≠ k

/-- Slot `i` is on the search for `k`: the slots before it hold other keys. -/
def Reached (first : κ → ι) (next : ι → ι) (t : ι → Option (κ × ν)) (k : κ) (i : ι) : Prop :=
  ∃ n, next^[n] (first k) = i ∧ ∀ l < n, Other t k (next^[l] (first k))

/-- **The table holds the map `m`**, every key where the search finds it. -/
structure Represents (first : κ → ι) (next : ι → ι) (t : ι → Option (κ × ν)) (m : κ → Option ν) :
    Prop where
  reached : ∀ i e, t i = some e → Reached first next t e.1 i
  holds : ∀ k v, m k = some v ↔ ∃ i, t i = some (k, v)

theorem Represents.empty : Represents first next (fun _ => none) fun _ : κ => (none : Option ν) :=
  ⟨fun _ _ h => (by cases h), fun _ _ => ⟨fun h => (by cases h), fun ⟨_, h⟩ => (by cases h)⟩⟩

/-- A slot where the search ends: there is one at most. -/
theorem Reached.unique (hi : Reached first next t k i) (hj : Reached first next t k j)
    (hni : ¬Other t k i) (hnj : ¬Other t k j) : i = j := by
  obtain ⟨n, rfl, hn⟩ := hi
  obtain ⟨l, rfl, hl⟩ := hj
  rcases Nat.lt_trichotomy n l with h | rfl | h
  · exact absurd (hl n h) hni
  · rfl
  · exact absurd (hn l h) hnj

/-- A key is in one slot at most. -/
theorem Represents.slot_unique {e e' : κ × ν} (h : Represents first next t m) (hi : t i = some e)
    (hj : t j = some e') (he : e.1 = e'.1) : i = j := by
  have hnot : ∀ {l f}, t l = some f → ¬Other t f.1 l := by
    rintro l f hl ⟨f', hf', hne⟩
    rw [hl] at hf'
    cases hf'
    exact hne rfl
  have hri := h.reached i e hi
  have hni := hnot hi
  rw [he] at hri hni
  exact hri.unique (h.reached j e' hj) hni (hnot hj)

/-! ### The search -/

variable [DecidableEq κ]

/-- The search for `k` from slot `i` on, for at most `fuel` slots. -/
def search (next : ι → ι) (t : ι → Option (κ × ν)) (k : κ) : ℕ → ι → Option ι
  | 0, _ => none
  | fuel + 1, i =>
    match t i with
    | none => some i
    | some e => if e.1 = k then some i else search next t k fuel (next i)

/-- The search passes slots of other keys, and ends at one that is none. -/
theorem search_ends (h : search next t k fuel (next^[n] (first k)) = some i)
    (hn : ∀ l < n, Other t k (next^[l] (first k))) :
    Reached first next t k i ∧ ¬Other t k i := by
  induction fuel generalizing n with
  | zero => cases h
  | succ fuel ih =>
    unfold search at h
    split at h
    · rename_i hnone
      cases h
      refine ⟨⟨n, rfl, hn⟩, ?_⟩
      rintro ⟨e, he, -⟩
      rw [hnone] at he
      cases he
    · rename_i e he
      split at h
      · rename_i hk
        cases h
        refine ⟨⟨n, rfl, hn⟩, ?_⟩
        rintro ⟨e', he', hne⟩
        rw [he] at he'
        cases he'
        exact hne hk
      · rename_i hk
        rw [← Function.iterate_succ_apply' next n] at h
        refine ih h fun l hl => ?_
        rcases Nat.lt_succ_iff_lt_or_eq.1 hl with hl | rfl
        · exact hn l hl
        · exact ⟨e, he, hk⟩

/-- The search stays where its steps lead. -/
theorem search_mem {P : ι → Prop} (h : search next t k fuel i = some j) (hi : P i)
    (hnext : ∀ i, P (next i)) : P j := by
  induction fuel generalizing i with
  | zero => cases h
  | succ fuel ih =>
    unfold search at h
    split at h
    · cases h
      exact hi
    · split at h
      · cases h
        exact hi
      · exact ih h (hnext i)

namespace Represents

/-- **What a search finds** is what the map says. -/
theorem found (h : Represents first next t m) (hs : search next t k fuel (first k) = some i) :
    t i = (m k).map fun v => (k, v) := by
  obtain ⟨hr, hn⟩ := search_ends (n := 0) hs fun l hl => absurd hl (Nat.not_lt_zero l)
  cases hm : m k with
  | some v =>
    obtain ⟨j, hj⟩ := (h.holds k v).1 hm
    have hnj : ¬Other t k j := by
      rintro ⟨e, he, hne⟩
      rw [hj] at he
      cases he
      exact hne rfl
    rw [hr.unique (h.reached j _ hj) hn hnj]
    exact hj
  | none =>
    cases hi : t i with
    | none => rfl
    | some e =>
      -- an entry where the search ends has the key, so the map has it
      have hk : e.1 = k := by
        by_contra hne
        exact hn ⟨e, hi, hne⟩
      have := (h.holds k e.2).2 ⟨i, by rw [hi, ← hk]⟩
      rw [hm] at this
      cases this

/-- **Writing where a search ended** updates the map. -/
theorem set [DecidableEq ι] (h : Represents first next t m) (hs : search next t k fuel (first k) = some i) (v : ν) :
    Represents first next (Function.update t i (some (k, v))) (Function.update m k (some v)) := by
  obtain ⟨hr, hn⟩ := search_ends (n := 0) hs fun l hl => absurd hl (Nat.not_lt_zero l)
  -- a slot that held another key than `k'` still does, unless `k'` is found there
  have hother : ∀ k' l, Other t k' l → k' ≠ k ∨ l ≠ i →
      Other (Function.update t i (some (k, v))) k' l := by
    rintro k' l ⟨e, he, hne⟩ hor
    by_cases hl : l = i
    · subst hl
      exact ⟨(k, v), Function.update_self .., (hor.resolve_right fun hx => hx rfl).symm⟩
    · exact ⟨e, by rw [Function.update_of_ne hl, he], hne⟩
  have hreach : ∀ k' j, Reached first next t k' j →
      Reached first next (Function.update t i (some (k, v))) k' j := by
    rintro k' j ⟨n, hj, hl⟩
    refine ⟨n, hj, fun l hln => hother _ _ (hl l hln) ?_⟩
    by_cases hk : k' = k
    · subst hk
      right
      rintro rfl
      exact hn (hl l hln)
    · exact Or.inl hk
  refine ⟨fun j e he => ?_, fun k' v' => ?_⟩
  · by_cases hj : j = i
    · subst hj
      rw [Function.update_self] at he
      cases he
      exact hreach k _ hr
    · rw [Function.update_of_ne hj] at he
      exact hreach _ _ (h.reached j e he)
  · by_cases hk : k' = k
    · subst hk
      rw [Function.update_self]
      constructor
      · rintro ⟨⟩
        exact ⟨i, Function.update_self ..⟩
      · rintro ⟨j, hj⟩
        by_cases hji : j = i
        · rw [hji, Function.update_self] at hj
          cases hj
          rfl
        · -- the old entry of `k'` was where the search ended
          rw [Function.update_of_ne hji] at hj
          have hnj : ¬Other t k' j := by
            rintro ⟨e, he, hne⟩
            rw [hj] at he
            cases he
            exact hne rfl
          exact absurd ((h.reached j _ hj).unique hr hnj hn) hji
    · rw [Function.update_of_ne hk, h.holds]
      have hne : ∀ {j}, t j = some (k', v') → j ≠ i := by
        rintro j hj rfl
        exact hn ⟨_, hj, hk⟩
      constructor
      · rintro ⟨j, hj⟩
        exact ⟨j, by rw [Function.update_of_ne (hne hj), hj]⟩
      · rintro ⟨j, hj⟩
        by_cases hji : j = i
        · rw [hji, Function.update_self] at hj
          cases hj
          exact absurd rfl hk
        · rw [Function.update_of_ne hji] at hj
          exact ⟨j, hj⟩

end Represents

/-! ### When every search ends -/

/-- A search that can end does. -/
theorem search_some (h : ¬Other t k (next^[n] i)) : ∃ fuel j, search next t k fuel i = some j := by
  induction n generalizing i with
  | zero =>
    refine ⟨1, i, ?_⟩
    unfold search
    split
    · rfl
    · rename_i e he
      exact if_pos (not_not.1 fun hk => h ⟨e, he, hk⟩)
  | succ n ih =>
    by_cases hi : Other t k i
    · rw [Function.iterate_succ_apply] at h
      obtain ⟨fuel, j, hj⟩ := ih h
      obtain ⟨e, he, hk⟩ := hi
      refine ⟨fuel + 1, j, ?_⟩
      rw [search, he]
      simpa [hk] using hj
    · refine ⟨1, i, ?_⟩
      unfold search
      split
      · rfl
      · rename_i e he
        exact if_pos (not_not.1 fun hk => hi ⟨e, he, hk⟩)

/-- More turns do not change where a search ends. -/
theorem search_mono {fuel' : ℕ} (h : search next t k fuel i = some j) (hf : fuel ≤ fuel') :
    search next t k fuel' i = some j := by
  induction fuel generalizing i fuel' with
  | zero => cases h
  | succ fuel ih =>
    obtain ⟨m, rfl⟩ : ∃ m, fuel' = m + 1 := ⟨fuel' - 1, by omega⟩
    unfold search at h ⊢
    split
    · rename_i hn
      simpa [hn] using h
    · rename_i e he
      simp only [he] at h
      split
      · rename_i hk
        simpa [hk] using h
      · rename_i hk
        rw [if_neg hk] at h
        exact ih h (by omega)

variable [DecidableEq ι] {K : Finset κ}

/-- **There is room for the keys `K`**: no set of slots that searches do not leave is where more
keys start than it has slots. -/
def Room (first : κ → ι) (next : ι → ι) (K : Finset κ) : Prop :=
  ∀ F : Finset ι, (∀ i ∈ F, next i ∈ F) → (K.filter fun k => first k ∈ F).card ≤ F.card

omit [DecidableEq κ] in
theorem Room.mono {K' : Finset κ} (h : Room first next K) (hK : K' ⊆ K) : Room first next K' :=
  fun F hF => (Finset.card_le_card (Finset.filter_subset_filter _ hK)).trans (h F hF)

omit [DecidableEq κ] in
/-- **A table that holds the keys had room for them**: those that start in a set nobody leaves are
in different slots of it. -/
theorem Represents.room (h : Represents first next t m) (hK : ∀ k ∈ K, ∃ v, m k = some v) :
    Room first next K := by
  intro F hF
  have hslot : ∀ k ∈ K, ∃ i v, t i = some (k, v) := fun k hk => by
    obtain ⟨v, hv⟩ := hK k hk
    obtain ⟨i, hi⟩ := (h.holds k v).1 hv
    exact ⟨i, v, hi⟩
  obtain rfl | ⟨k₀, hk₀⟩ := K.eq_empty_or_nonempty
  · simp
  obtain ⟨i₀, v₀, -⟩ := hslot k₀ hk₀
  have : Nonempty ι := ⟨i₀⟩
  have : Nonempty ν := ⟨v₀⟩
  choose! slot value hat using hslot
  refine Finset.card_le_card_of_injOn slot (fun k hk => ?_) fun k hk k' hk' he => ?_
  · obtain ⟨hkK, hfirst⟩ := Finset.mem_filter.1 hk
    obtain ⟨n, hn, -⟩ := h.reached _ _ (hat k hkK)
    have hmaps : Set.MapsTo next F F := hF
    exact hn ▸ hmaps.iterate n hfirst
  · have hk := hat k (Finset.mem_filter.1 hk).1
    rw [he, hat k' (Finset.mem_filter.1 hk').1] at hk
    exact (Prod.mk.inj (Option.some.inj hk)).1.symm

/-- **With room the search ends**: if it only passes slots of other keys, then so do the searches
for the keys in them, and too many keys start in these slots. -/
theorem Represents.not_other (h : Represents first next t m) {S : Finset ι}
    (hS : ∀ i e, t i = some e → i ∈ S) (hroom : Room first next (insert k K))
    (hK : ∀ k' v, m k' = some v → k' ∈ K) : ∃ n, ¬Other t k (next^[n] (first k)) := by
  classical
  by_contra hall
  simp only [not_exists, not_not] at hall
  -- the slots from which a search only passes slots that are taken
  let F := S.filter fun i => ∀ n, ∃ e, t (next^[n] i) = some e
  have hF : ∀ {i}, (∀ n, ∃ e, t (next^[n] i) = some e) → i ∈ F := fun {i} hi => by
    obtain ⟨e, he⟩ := hi 0
    exact Finset.mem_filter.2 ⟨hS i e he, hi⟩
  have hclosed : ∀ i ∈ F, next i ∈ F := fun i hi =>
    hF fun n => (Finset.mem_filter.1 hi).2 (n + 1)
  have hkF : first k ∈ F := hF fun n => by
    obtain ⟨e, he, -⟩ := hall n
    exact ⟨e, he⟩
  have hkm : ∀ v, m k ≠ some v := by
    intro v hv
    obtain ⟨i, hi⟩ := (h.holds k v).1 hv
    obtain ⟨n, hn, -⟩ := h.reached i _ hi
    obtain ⟨e, he, hne⟩ := hall n
    rw [show next^[n] (first k) = i from hn, hi] at he
    cases he
    exact hne rfl
  -- their keys start there, and so does `k`
  have hkey : ∀ i ∈ F, ∃ e, t i = some e := fun i hi => (Finset.mem_filter.1 hi).2 0
  obtain ⟨e₀, -⟩ := hall 0
  have : Nonempty (κ × ν) := ⟨e₀⟩
  choose! entry hentry using hkey
  have hstart : ∀ i ∈ F, first (entry i).1 ∈ F := by
    intro i hi
    obtain ⟨n, hn, hbefore⟩ := h.reached i _ (hentry i hi)
    refine hF fun l => ?_
    by_cases hl : l < n
    · obtain ⟨e, he, -⟩ := hbefore l hl
      exact ⟨e, he⟩
    · obtain ⟨d, rfl⟩ : ∃ d, l = d + n := ⟨l - n, by omega⟩
      rw [Function.iterate_add_apply, hn]
      exact (Finset.mem_filter.1 hi).2 d
  have hinj : Set.InjOn (fun i => (entry i).1) F := fun i hi j hj he =>
    h.slot_unique (hentry i hi) (hentry j hj) he
  have himage : F.image (fun i => (entry i).1) ⊆ (K.erase k).filter fun k' => first k' ∈ F := by
    intro k' hk'
    obtain ⟨i, hi, rfl⟩ := Finset.mem_image.1 hk'
    have hm := (h.holds _ _).2 ⟨i, hentry i hi⟩
    refine Finset.mem_filter.2 ⟨Finset.mem_erase.2 ⟨fun he => ?_, hK _ _ hm⟩, hstart i hi⟩
    rw [he] at hm
    exact hkm _ hm
  have hcard := (Finset.card_image_of_injOn hinj).symm.le.trans (Finset.card_le_card himage)
  have hlt : ((K.erase k).filter fun k' => first k' ∈ F).card <
      ((insert k K).filter fun k' => first k' ∈ F).card := by
    refine Finset.card_lt_card (Finset.ssubset_iff.2 ⟨k, by simp, ?_⟩)
    intro k' hk'
    obtain rfl | hk' := Finset.mem_insert.1 hk'
    · exact Finset.mem_filter.2 ⟨Finset.mem_insert_self _ _, hkF⟩
    · obtain ⟨hmem, hf⟩ := Finset.mem_filter.1 hk'
      exact Finset.mem_filter.2 ⟨Finset.mem_insert_of_mem (Finset.mem_of_mem_erase hmem), hf⟩
  have := hroom F hclosed
  omega

end OSLab.Probing
