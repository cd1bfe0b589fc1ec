import Mathlib.Data.List.Basic

/-!
# Tables whose slots are used again

A slot keeps its key when its entry is removed, and is used again for a key that fits it. Here a
table is the list of its slots, `fits` says which slots can be used for a key, and a key is looked
up at its first live slot.

* `find_put`, `find_remove`: adding a key that is not live and removing one change what is found
  for that key only.
* `Distinct.put`, `Distinct.remove`: they keep the live keys different.
* `put_cases`, `remove_cases`: which slot they change.
-/

namespace OSLab

namespace SlotTable

/-- A slot: its key, and the value of its entry if it is live. -/
structure Entry (κ ν : Type) where
  key : κ
  val : Option ν

variable {κ ν : Type} {fits : κ → Bool} {l : List (Entry κ ν)} {k : κ} {v : ν}
  {e : Entry κ ν}

/-- The live keys are different. -/
def Distinct (l : List (Entry κ ν)) : Prop :=
  l.Pairwise fun a b => a.val.isSome → b.val.isSome → a.key ≠ b.key

/-- Use the first free slot that fits, or a new one at the end. -/
def put (fits : κ → Bool) (k : κ) (v : ν) : List (Entry κ ν) → List (Entry κ ν)
  | [] => [⟨k, some v⟩]
  | e :: l => if e.val.isNone ∧ fits e.key then ⟨k, some v⟩ :: l else e :: put fits k v l

/-- The slot that `put` changes is the first that fits; otherwise it adds one. -/
theorem put_cases (fits : κ → Bool) (k : κ) (v : ν) (l : List (Entry κ ν)) :
    (∃ l₁ e l₂, l = l₁ ++ e :: l₂ ∧ e.val = none ∧ fits e.key ∧
      (∀ a ∈ l₁, a.val = none → fits a.key = false) ∧ put fits k v l = l₁ ++ ⟨k, some v⟩ :: l₂) ∨
    ((∀ a ∈ l, a.val = none → fits a.key = false) ∧ put fits k v l = l ++ [⟨k, some v⟩]) := by
  induction l with
  | nil => exact Or.inr ⟨fun a ha => absurd ha List.not_mem_nil, rfl⟩
  | cons e l ih =>
    unfold put
    by_cases h : e.val.isNone ∧ fits e.key
    · rw [if_pos h]
      exact Or.inl ⟨[], e, l, rfl, Option.isNone_iff_eq_none.1 h.1, h.2,
        fun a ha => absurd ha List.not_mem_nil, rfl⟩
    · rw [if_neg h]
      have he : e.val = none → fits e.key = false := by
        intro hv
        exact Bool.eq_false_iff.2 fun hs => h ⟨Option.isNone_iff_eq_none.2 hv, hs⟩
      rcases ih with ⟨l₁, x, l₂, rfl, hx, hs, hl, hp⟩ | ⟨hl, hp⟩
      · refine Or.inl ⟨e :: l₁, x, l₂, rfl, hx, hs, ?_, by rw [hp, List.cons_append]⟩
        exact List.forall_mem_cons.2 ⟨he, hl⟩
      · exact Or.inr ⟨List.forall_mem_cons.2 ⟨he, hl⟩, by rw [hp, List.cons_append]⟩

theorem mem_put (h : e ∈ put fits k v l) : e ∈ l ∨ e = ⟨k, some v⟩ := by
  rcases put_cases fits k v l with ⟨l₁, x, l₂, rfl, -, -, -, hp⟩ | ⟨-, hp⟩
  · rw [hp] at h
    rcases List.mem_append.1 h with h | h
    · exact Or.inl (List.mem_append_left _ h)
    · rcases List.mem_cons.1 h with h | h
      · exact Or.inr h
      · exact Or.inl (List.mem_append_right _ (List.mem_cons_of_mem _ h))
  · rw [hp] at h
    exact (List.mem_append.1 h).imp_right List.mem_singleton.1

variable [DecidableEq κ]

/-- The value of the first live slot of a key. -/
def find (k : κ) (l : List (Entry κ ν)) : Option ν :=
  l.findSome? fun e => if e.key = k then e.val else none

/-- Free the first live slot of a key. -/
def remove (k : κ) : List (Entry κ ν) → List (Entry κ ν)
  | [] => []
  | e :: l => if e.val.isSome ∧ e.key = k then ⟨e.key, none⟩ :: l else e :: remove k l

theorem find_cons (k : κ) (e : Entry κ ν) (l : List (Entry κ ν)) :
    find k (e :: l) = if e.key = k ∧ e.val.isSome then e.val else find k l := by
  unfold find
  rw [List.findSome?_cons]
  by_cases h : e.key = k
  · cases hv : e.val with
    | none => simp [h]
    | some v => simp [h]
  · simp [h]

/-- A key that is not found has no live slot. -/
theorem find_eq_none : find k l = none ↔ ∀ e ∈ l, e.val.isSome → e.key ≠ k := by
  induction l with
  | nil => simp [find]
  | cons e l ih =>
    rw [find_cons, List.forall_mem_cons, ← ih]
    by_cases h : e.key = k ∧ e.val.isSome
    · rw [if_pos h]
      obtain ⟨v, hv⟩ := Option.isSome_iff_exists.1 h.2
      simp [hv, h.1]
    · rw [if_neg h]
      constructor
      · intro hl
        exact ⟨fun hv he => h ⟨he, hv⟩, hl⟩
      · intro hl
        exact hl.2

/-- In a table with distinct keys, every live slot is found. -/
theorem find_eq_some (hd : Distinct l) : find k l = some v ↔ ⟨k, some v⟩ ∈ l := by
  induction l with
  | nil => exact iff_of_false (fun h => by cases h) List.not_mem_nil
  | cons e l ih =>
    obtain ⟨hel, hl⟩ := List.pairwise_cons.1 hd
    rw [find_cons, List.mem_cons]
    by_cases he : e.key = k ∧ e.val.isSome
    · rw [if_pos he]
      constructor
      · intro hv
        obtain ⟨key, val⟩ := e
        obtain rfl : key = k := he.1
        obtain rfl : val = some v := hv
        exact Or.inl rfl
      · rintro (rfl | hm)
        · rfl
        · exact absurd he.1 (hel _ hm he.2 rfl)
    · rw [if_neg he, ih hl]
      refine ⟨Or.inr, fun h => h.resolve_left fun hek => he ?_⟩
      rw [← hek]
      exact ⟨rfl, rfl⟩

/-- The slot that `remove` changes is the first live one of the key. -/
theorem remove_cases (k : κ) (l : List (Entry κ ν)) :
    (∃ l₁ v l₂, l = l₁ ++ ⟨k, some v⟩ :: l₂ ∧ (∀ a ∈ l₁, a.val.isSome → a.key ≠ k) ∧
      find k l = some v ∧ remove k l = l₁ ++ ⟨k, none⟩ :: l₂) ∨
    (find k l = none ∧ remove k l = l) := by
  induction l with
  | nil => exact Or.inr ⟨rfl, rfl⟩
  | cons e l ih =>
    unfold remove
    rw [find_cons]
    by_cases h : e.val.isSome ∧ e.key = k
    · rw [if_pos h, if_pos h.symm]
      obtain ⟨v, hv⟩ := Option.isSome_iff_exists.1 h.1
      obtain ⟨key, val⟩ := e
      obtain rfl : val = some v := hv
      obtain rfl : key = k := h.2
      exact Or.inl ⟨[], v, l, rfl, fun a ha => absurd ha List.not_mem_nil, rfl, rfl⟩
    · rw [if_neg h, if_neg fun hh => h hh.symm]
      rcases ih with ⟨l₁, v, l₂, rfl, hl, hf, hr⟩ | ⟨hf, hr⟩
      · refine Or.inl ⟨e :: l₁, v, l₂, rfl, ?_, hf, by rw [hr, List.cons_append]⟩
        exact List.forall_mem_cons.2 ⟨fun hs hk => h ⟨hs, hk⟩, hl⟩
      · exact Or.inr ⟨hf, by rw [hr]⟩

/-- **A key that is added is found**, and the others as before. -/
theorem find_put (h : find k l = none) (k' : κ) :
    find k' (put fits k v l) = if k' = k then some v else find k' l := by
  induction l with
  | nil =>
    unfold put
    rw [find_cons]
    by_cases hk : k' = k
    · simp [hk]
    · simp [hk, Ne.symm hk]
  | cons e l ih =>
    rw [find_eq_none, List.forall_mem_cons, ← find_eq_none] at h
    unfold put
    by_cases hr : e.val.isNone ∧ fits e.key
    · rw [if_pos hr, find_cons, find_cons, Option.isNone_iff_eq_none.1 hr.1]
      by_cases hk : k' = k
      · simp [hk]
      · simp [hk, Ne.symm hk]
    · rw [if_neg hr, find_cons, find_cons, ih h.2]
      by_cases he : e.key = k' ∧ e.val.isSome
      · rw [if_pos he, if_pos he, if_neg fun hk => h.1 he.2 (he.1.trans hk)]
      · rw [if_neg he, if_neg he]

theorem Distinct.put (hd : Distinct l) (h : find k l = none) : Distinct (put fits k v l) := by
  induction l with
  | nil => exact List.pairwise_singleton _ _
  | cons e l ih =>
    obtain ⟨hel, hl⟩ := List.pairwise_cons.1 hd
    rw [find_eq_none, List.forall_mem_cons, ← find_eq_none] at h
    unfold SlotTable.put
    by_cases hr : e.val.isNone ∧ fits e.key
    · rw [if_pos hr]
      refine List.pairwise_cons.2 ⟨fun a ha _ hs hk => ?_, hl⟩
      exact find_eq_none.1 h.2 a ha hs hk.symm
    · rw [if_neg hr]
      refine List.pairwise_cons.2 ⟨fun a ha hs hs' => ?_, ih hl h.2⟩
      rcases mem_put ha with ha | rfl
      · exact hel a ha hs hs'
      · exact h.1 hs

theorem mem_remove (h : e ∈ remove k l) : e ∈ l ∨ e.val = none := by
  rcases remove_cases k l with ⟨l₁, v, l₂, rfl, -, -, hr⟩ | ⟨-, hr⟩
  · rw [hr] at h
    rcases List.mem_append.1 h with h | h
    · exact Or.inl (List.mem_append_left _ h)
    · rcases List.mem_cons.1 h with rfl | h
      · exact Or.inr rfl
      · exact Or.inl (List.mem_append_right _ (List.mem_cons_of_mem _ h))
  · rw [hr] at h
    exact Or.inl h

theorem Distinct.remove (hd : Distinct l) : Distinct (remove k l) := by
  induction l with
  | nil => exact List.Pairwise.nil
  | cons e l ih =>
    obtain ⟨hel, hl⟩ := List.pairwise_cons.1 hd
    unfold SlotTable.remove
    split
    · exact List.pairwise_cons.2 ⟨fun a _ hs => by simp at hs, hl⟩
    · refine List.pairwise_cons.2 ⟨fun a ha hs hs' => ?_, ih hl⟩
      rcases mem_remove ha with ha | ha
      · exact hel a ha hs hs'
      · rw [ha] at hs'
        cases hs'

/-- **A key that is removed is not found**, and the others as before. -/
theorem find_remove (hd : Distinct l) (k' : κ) :
    find k' (remove k l) = if k' = k then none else find k' l := by
  induction l with
  | nil =>
    show (none : Option ν) = if k' = k then none else none
    split <;> rfl
  | cons e l ih =>
    obtain ⟨hel, hl⟩ := List.pairwise_cons.1 hd
    unfold SlotTable.remove
    by_cases hr : e.val.isSome ∧ e.key = k
    · rw [if_pos hr, find_cons, find_cons]
      by_cases hk : k' = k
      · -- the other slots of the key are free
        rw [if_pos hk, if_neg (by simp), hk, find_eq_none]
        intro a ha hs hak
        exact hel a ha hr.1 hs (hr.2.trans hak.symm)
      · rw [if_neg hk, if_neg (by simp), if_neg fun hh => hk (hh.1.symm.trans hr.2)]
    · rw [if_neg hr, find_cons, find_cons, ih hl]
      by_cases he : e.key = k' ∧ e.val.isSome
      · rw [if_pos he, if_pos he, if_neg fun hk => hr ⟨he.2, he.1.trans hk⟩]
      · rw [if_neg he, if_neg he]

end SlotTable

end OSLab
