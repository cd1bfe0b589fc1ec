import Mathlib.Data.Set.Card
import Mathlib.Data.Set.Card.Arithmetic
import Mathlib.Algebra.Notation.Support

/-!
# Ownership of resources

Places hold resources: `own i` is what place `i` holds, `0` when it holds nothing.
`Owns own B` says that exactly the resources of `B` are held, each in one place only.

* `Owns.insert`, `Owns.erase`: an empty place receives a resource nobody holds, a place
  gives up what it holds.
* `Owns.ncard_eq_sum`: where the places are those of several owners, the resources counted by owner.
-/

namespace OSLab

variable {ι β : Type} [Zero β] {own own' : ι → β} {B : Set β} {i j : ι} {p : β}

/-- Exactly the resources of `B` are held, each in one place. -/
def Owns (own : ι → β) (B : Set β) : Prop := Set.BijOn own (Function.support own) B

namespace Owns

theorem unique (h : Owns own B) (hij : own i = own j) (hi : own i ≠ 0) : i = j :=
  h.injOn hi (show own j ≠ 0 from hij ▸ hi) hij

theorem mem (h : Owns own B) (hi : own i ≠ 0) : own i ∈ B := h.mapsTo hi

theorem place (h : Owns own B) (hp : p ∈ B) : ∃ i, own i = p ∧ p ≠ 0 := by
  obtain ⟨i, hi, rfl⟩ := h.surjOn hp
  exact ⟨i, rfl, hi⟩

theorem eq_zero (h : Owns own B) (hi : own i ∉ B) : own i = 0 := by
  by_contra h0
  exact hi (h.mem h0)

theorem mem_iff (h : Owns own B) : p ∈ B ↔ p ≠ 0 ∧ ∃ i, own i = p := by
  constructor
  · intro hp
    obtain ⟨i, hi, h0⟩ := h.place hp
    exact ⟨h0, i, hi⟩
  · rintro ⟨h0, i, rfl⟩
    exact h.mem h0

theorem mk' (hu : ∀ i j, own i = own j → own i ≠ 0 → i = j)
    (hB : ∀ p, p ∈ B ↔ p ≠ 0 ∧ ∃ i, own i = p) : Owns own B := by
  refine ⟨fun i hi => (hB _).2 ⟨hi, i, rfl⟩, fun i hi j _ hij => hu i j hij hi, fun p hp => ?_⟩
  obtain ⟨h0, i, rfl⟩ := (hB p).1 hp
  exact ⟨i, h0, rfl⟩

/-- The set that is held is determined by the places. -/
theorem set_unique {B' : Set β} (h : Owns own B) (h' : Owns own B') : B = B' := by
  ext p
  rw [h.mem_iff, h'.mem_iff]

/-- Nothing is held exactly when every place is empty. -/
theorem empty_iff (h : Owns own B) : B = ∅ ↔ ∀ i, own i = 0 := by
  constructor
  · rintro rfl i
    exact h.eq_zero (Set.notMem_empty _)
  · intro h0
    apply Set.eq_empty_of_forall_notMem
    intro p hp
    obtain ⟨i, rfl, hne⟩ := h.place hp
    exact hne (h0 i)

/-- **The resources, counted by owner.** -/
theorem ncard_eq_sum {κ : Type} [Fintype κ] {own : κ × ι → β} (h : Owns own B) (hB : B.Finite) :
    B.ncard = ∑ k, {p | p ≠ 0 ∧ ∃ i, own (k, i) = p}.ncard := by
  have hunion : B = ⋃ k, {p | p ≠ 0 ∧ ∃ i, own (k, i) = p} := by
    ext p
    rw [h.mem_iff, Set.mem_iUnion]
    constructor
    · rintro ⟨h0, ⟨k, i⟩, hp⟩
      exact ⟨k, h0, i, hp⟩
    · rintro ⟨k, h0, i, hp⟩
      exact ⟨h0, (k, i), hp⟩
  have hfin : ∀ k, {p | p ≠ 0 ∧ ∃ i, own (k, i) = p}.Finite := fun k =>
    hB.subset (by rw [hunion]; exact Set.subset_iUnion_of_subset k subset_rfl)
  have hdisj : Pairwise (Function.onFun Disjoint fun k => {p | p ≠ 0 ∧ ∃ i, own (k, i) = p}) := by
    intro k k' hne
    refine Set.disjoint_left.2 ?_
    rintro p ⟨h0, i, rfl⟩ ⟨-, i', hp⟩
    exact hne (congrArg Prod.fst (h.unique hp.symm h0))
  rw [hunion, Set.ncard_iUnion_of_finite hfin hdisj, finsum_eq_sum_of_fintype]

variable [DecidableEq ι]

/-- **An empty place receives a resource.** -/
theorem insert (h : Owns own B) (hi : own i = 0) (hp : p ∉ B) (h0 : p ≠ 0) :
    Owns (Function.update own i p) (Insert.insert p B) := by
  have hne : ∀ k, own k ≠ p := fun k hk => by
    by_cases hz : own k = 0
    · exact h0 (hk ▸ hz)
    · exact hp (hk ▸ h.mem hz)
  apply mk'
  · intro k l hkl hk
    by_cases h1 : k = i <;> by_cases h2 : l = i
    · rw [h1, h2]
    · subst h1
      rw [Function.update_self, Function.update_of_ne h2] at hkl
      exact absurd hkl.symm (hne l)
    · subst h2
      rw [Function.update_self, Function.update_of_ne h1] at hkl
      exact absurd hkl (hne k)
    · rw [Function.update_of_ne h1, Function.update_of_ne h2] at hkl
      rw [Function.update_of_ne h1] at hk
      exact h.unique hkl hk
  · intro q
    rw [Set.mem_insert_iff, h.mem_iff]
    constructor
    · rintro (rfl | ⟨hq, k, rfl⟩)
      · exact ⟨h0, i, Function.update_self ..⟩
      · exact ⟨hq, k, Function.update_of_ne (fun e => hq (by rw [e, hi])) ..⟩
    · rintro ⟨hq, k, rfl⟩
      by_cases hk : k = i
      · subst hk; exact Or.inl (Function.update_self ..)
      · rw [Function.update_of_ne hk] at hq ⊢
        exact Or.inr ⟨hq, k, rfl⟩

/-- **A place gives up what it holds.** -/
theorem erase (h : Owns own B) (i : ι) :
    Owns (Function.update own i 0) (B \ {own i}) := by
  apply mk'
  · intro k l hkl hk
    have h1 : k ≠ i := fun e => hk (by rw [e, Function.update_self])
    have h2 : l ≠ i := fun e => hk (by rw [hkl, e, Function.update_self])
    rw [Function.update_of_ne h1, Function.update_of_ne h2] at hkl
    rw [Function.update_of_ne h1] at hk
    exact h.unique hkl hk
  · intro q
    rw [Set.mem_sdiff, h.mem_iff, Set.mem_singleton_iff]
    constructor
    · rintro ⟨⟨hq, k, rfl⟩, hk⟩
      exact ⟨hq, k, Function.update_of_ne (fun e => hk (by rw [e])) ..⟩
    · rintro ⟨hq, k, rfl⟩
      have hki : k ≠ i := fun e => hq (by rw [e, Function.update_self])
      rw [Function.update_of_ne hki] at hq ⊢
      exact ⟨⟨hq, k, rfl⟩, fun e => hki (h.unique e hq)⟩

end Owns

end OSLab
