import OSLab.Warmup.WordCount

/-!
# When `wc` ends

The words go one after the other to the first slot of their probe sequence that is free or holds
the word already. Whether each finds one depends on the words and the size of the table only, not
on their order: `Room` (`insertWord_some`, `wcInit_ends_iff`).
-/

namespace OSLab.Warmup

open Probing

variable {hasht hasht' : ℕ → Option Element} {tableSize fuel fuel' : ℕ} {w : Word} {l : List Word}
  {buff arr rest : List UInt8}

/-! ### Inserting a word -/

/-- **With room for one more word** it is inserted. -/
theorem insertWord_some (h : Tabled tableSize hasht l)
    (hroom : Room (firstKey tableSize) (nextKey tableSize) (insert w l.toFinset)) :
    ∃ fuel hasht', insertWord hasht tableSize w fuel = some hasht' := by
  have hin : ∀ i e, slots hasht i = some e → i ∈ Finset.range tableSize := by
    intro i e hi
    obtain ⟨ele, hele, -⟩ := Option.map_eq_some_iff.1 hi
    exact Finset.mem_range.2 (h.inside i ele hele)
  have hkeys : ∀ k v, countMap l k = some v → k ∈ l.toFinset := by
    intro k v hk
    unfold countMap at hk
    split at hk
    · rename_i hmem
      exact List.mem_toFinset.2 hmem
    · cases hk
  obtain ⟨n, hn⟩ := h.counts.not_other hin hroom hkeys
  obtain ⟨fuel, j, hj⟩ := search_some hn
  rw [← probe_eq] at hj
  refine ⟨fuel, ?_⟩
  unfold insertWord
  simp only [hj]
  split
  · exact ⟨_, rfl⟩
  · split
    · exact ⟨_, rfl⟩
    · split <;> exact ⟨_, rfl⟩

theorem insertWord_mono (h : insertWord hasht tableSize w fuel = some hasht')
    (hf : fuel ≤ fuel') : insertWord hasht tableSize w fuel' = some hasht' := by
  unfold insertWord at h ⊢
  simp only at h ⊢
  split at h
  · exact h
  · split_ifs at h ⊢ with hw
    · exact h
    · cases hp : probe hasht tableSize w fuel (firstKey tableSize w) with
      | none =>
        rw [hp] at h
        cases h
      | some newKey =>
        have hp' : probe hasht tableSize w fuel' (firstKey tableSize w) = some newKey := by
          rw [probe_eq] at hp ⊢
          exact search_mono hp hf
        rw [hp] at h
        rw [hp']
        exact h

theorem parse_mono {out : Outcome} (h : parse fuel tableSize rest buff hasht = some out)
    (hf : fuel ≤ fuel') : parse fuel' tableSize rest buff hasht = some out := by
  induction rest generalizing buff hasht with
  | nil => exact h
  | cons c rest ih =>
    unfold parse at h ⊢
    split_ifs at h ⊢
    · exact h
    · exact ih h
    · exact ih h
    · exact h
    · cases hins : insertWord hasht tableSize (cstring buff) fuel with
      | none =>
        rw [hins] at h
        cases h
      | some hasht' =>
        rw [hins] at h
        rw [insertWord_mono hins hf]
        exact ih h

/-! ### The loop over the array -/

/-- The pieces an array falls into fit: each but the last in the buffer with a NUL behind it, the
last without one, and their words in the table. -/
structure PiecesFit (tableSize : ℕ) (l ps : List Word) : Prop where
  ended : ∀ w ∈ ps.dropLast, w.length < buffSize
  all : ∀ w ∈ ps, w.length ≤ buffSize
  slots : inserted ps ≠ [] → tableSize ≠ 0
  room : Room (firstKey tableSize) (nextKey tableSize) (l ++ inserted ps).toFinset

/-- **The loop ends** on pieces that fit. -/
theorem parse_returns (h : Tabled tableSize hasht l)
    (hfit : PiecesFit tableSize l (List.splitOnPPrepend isspace rest buff.reverse)) :
    ∃ fuel wc, parse fuel tableSize rest buff hasht = some (.returns wc) := by
  induction rest generalizing buff hasht l with
  | nil => exact ⟨0, _, rfl⟩
  | cons c rest ih =>
    by_cases hc : isspace c = false
    · -- a character of a word
      have hlen : buff.length < buffSize := by
        obtain ⟨q, qs, hq⟩ := List.exists_cons_of_ne_nil (List.splitOnP_ne_nil isspace rest)
        have hmem := hfit.all (buff ++ c :: q) (by
          rw [List.splitOnPPrepend_cons_neg hc, List.splitOnPPrepend_eq_modifyHead, hq,
            List.modifyHead_cons]
          simp)
        rw [List.length_append, List.length_cons] at hmem
        omega
      rw [List.splitOnPPrepend_cons_neg hc] at hfit
      have hbuff : c :: buff.reverse = (buff ++ [c]).reverse := by simp
      rw [hbuff] at hfit
      obtain ⟨fuel, wc, hp⟩ := ih h hfit
      refine ⟨fuel, wc, ?_⟩
      rw [parse, if_neg (not_le.2 hlen), if_pos hc]
      exact hp
    · -- a separator
      have hsep : isspace c = true := by simpa using hc
      have hne := List.splitOnP_ne_nil isspace rest
      rw [List.splitOnPPrepend_cons_pos hsep, List.reverse_reverse] at hfit
      have hlen : buff.length < buffSize := by
        apply hfit.ended
        rw [List.dropLast_cons_of_ne_nil hne]
        exact List.mem_cons_self
      have hended : ∀ w ∈ (List.splitOnP isspace rest).dropLast, w.length < buffSize := by
        intro w hw
        apply hfit.ended
        rw [List.dropLast_cons_of_ne_nil hne]
        exact List.mem_cons_of_mem _ hw
      have hall : ∀ w ∈ List.splitOnP isspace rest, w.length ≤ buffSize := fun w hw =>
        hfit.all w (List.mem_cons_of_mem _ hw)
      have hins := inserted_cons hne buff
      have hslots := hfit.slots
      have hroom := hfit.room
      rw [hins] at hslots hroom
      by_cases hw : cstring buff = []
      · rw [if_pos hw] at hslots hroom
        obtain ⟨fuel, wc, hp⟩ : ∃ fuel wc, parse fuel tableSize rest [] hasht =
            some (.returns wc) := ih h ⟨hended, hall, hslots, hroom⟩
        refine ⟨fuel, wc, ?_⟩
        rw [parse, if_neg (not_le.2 hlen), if_neg hc, if_pos hw]
        exact hp
      · rw [if_neg hw] at hslots hroom
        have h0 : tableSize ≠ 0 := hslots (List.cons_ne_nil _ _)
        have hone : Room (firstKey tableSize) (nextKey tableSize)
            (insert (cstring buff) l.toFinset) := by
          refine hroom.mono fun k hk => ?_
          obtain rfl | hk := Finset.mem_insert.1 hk
          · simp
          · simp [List.mem_toFinset.1 hk]
        obtain ⟨f₁, hasht', hi⟩ := insertWord_some h hone
        have htab := insertWord_ok h (Nat.pos_of_ne_zero h0) hi
        have hroom' : Room (firstKey tableSize) (nextKey tableSize)
            (l ++ [cstring buff] ++ inserted (List.splitOnP isspace rest)).toFinset := by
          rwa [List.append_assoc, List.singleton_append]
        obtain ⟨f₂, wc, hp⟩ : ∃ fuel wc, parse fuel tableSize rest [] hasht' =
            some (.returns wc) := ih htab ⟨hended, hall, fun _ => h0, hroom'⟩
        refine ⟨max f₁ f₂, wc, ?_⟩
        rw [parse, if_neg (not_le.2 hlen), if_neg hc, if_neg hw, if_neg h0,
          insertWord_mono hi (le_max_left _ _)]
        exact parse_mono hp (le_max_right _ _)

/-- Where the loop ends, every piece fitted in the buffer. -/
theorem parse_short {wc : Wc} (h : parse fuel tableSize rest buff hasht = some (.returns wc))
    (hbuff : buff.length ≤ buffSize) :
    ∀ w ∈ List.splitOnPPrepend isspace rest buff.reverse, w.length ≤ buffSize := by
  induction rest generalizing buff hasht with
  | nil =>
    rw [List.splitOnPPrepend_nil, List.reverse_reverse]
    simpa using hbuff
  | cons c rest ih =>
    unfold parse at h
    split_ifs at h with hlen hc hw h0
    · cases h
    · rw [List.splitOnPPrepend_cons_neg hc]
      have hrev : c :: buff.reverse = (buff ++ [c]).reverse := by simp
      rw [hrev]
      exact ih h (by rw [List.length_append, List.length_singleton]; omega)
    · have hsep : isspace c = true := by simpa using hc
      rw [List.splitOnPPrepend_cons_pos hsep, List.reverse_reverse, List.forall_mem_cons]
      exact ⟨hbuff, ih h (Nat.zero_le _)⟩
    · cases h
    · have hsep : isspace c = true := by simpa using hc
      rw [List.splitOnPPrepend_cons_pos hsep, List.reverse_reverse, List.forall_mem_cons]
      split at h
      · cases h
      · exact ⟨hbuff, ih h (Nat.zero_le _)⟩

/-! ### Which arrays are read to their end -/

/-- `wc_init` returns, and every element is inside the table. -/
def Ends (arr : List UInt8) : Prop :=
  ∃ fuel wc, wcInit fuel arr = some (.returns wc) ∧ wc.tableSize = arr.length / 3 ∧
    ∀ i ele, wc.hashtable i = some ele → i < wc.tableSize

/-- An array that fits: an `int` can count the slots, no run of characters between two separators
has 500 of them and the one behind the last separator no more, there are three characters if there
is a word, and there is room for the words in the table. -/
structure ArrayFits (arr : List UInt8) : Prop where
  int : arr.length / 3 < 2 ^ 31
  pieces : PiecesFit (arr.length / 3) [] (pieces arr)

theorem Ends.arrayFits (h : Ends arr) : ArrayFits arr := by
  obtain ⟨fuel, wc, hinit, -, -⟩ := h
  unfold wcInit at hinit
  simp only at hinit
  split at hinit
  · cases hinit
  rename_i hbig
  have hends := parse_ok (tabled_empty _) hinit
  have hshort := parse_short hinit (Nat.zero_le _)
  rw [List.reverse_nil, List.splitOnPPrepend_nil_right] at hends hshort
  obtain ⟨hts, htab, hlens, hz⟩ := hends
  refine ⟨not_le.1 hbig, hlens, hshort, fun hne h0 => hne (hz h0), ?_⟩
  refine htab.counts.room fun k hk => ⟨_, if_pos (List.mem_toFinset.1 hk)⟩

/-- **`wc_init` ends** exactly on the arrays that fit. -/
theorem wcInit_ends_iff : Ends arr ↔ ArrayFits arr := by
  refine ⟨Ends.arrayFits, fun h => ?_⟩
  have hp : PiecesFit (arr.length / 3) [] (List.splitOnPPrepend isspace arr [].reverse) := by
    rw [List.reverse_nil, List.splitOnPPrepend_nil_right]
    exact h.pieces
  obtain ⟨fuel, wc, hparse⟩ := parse_returns (tabled_empty _) hp
  obtain ⟨hts, htab, -⟩ := parse_ok (tabled_empty _) hparse
  refine ⟨fuel, wc, ?_, hts, ?_⟩
  · rw [wcInit, if_neg (not_le.2 h.int)]
    exact hparse
  · rw [hts]
    exact htab.inside

/-- The word `a` and a blank leave no slot: the hash is divided by 0. -/
theorem two_characters : ¬Ends [97, 32] := by
  intro h
  exact absurd (h.arrayFits.pieces.slots (by decide)) (by decide)

end OSLab.Warmup
