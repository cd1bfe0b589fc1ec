import Mathlib.Data.List.Chain
import Mathlib.Data.List.Dedup
import Mathlib.Data.List.Destutter

/-!
# Lists whose equal elements stand together

A pass over a list that compares neighbours (`List.destutter`) leaves every element once if and
only if the equal elements of the list stand together.

* `nodup_destutter_iff`: that equivalence.
* `Together.insert_new`, `Together.double`, `not_together`: what an insertion does to it.
* `surplus_sublist`: a sublist has no more repeated elements.
-/

namespace OSLab

variable {α : Type} {l l₁ l₂ c A C N R : List α} {a p t : α}

/-- Between two equal elements there is no other one. -/
def Together (l : List α) : Prop := ∀ a b, [a, b, a].Sublist l → b = a

theorem Together.sublist (h : Together l₂) (hs : l₁.Sublist l₂) : Together l₁ := by
  intro a b hab
  exact h a b (hab.trans hs)

/-- A chain of different neighbours takes one of two equal ones. -/
theorem chain_sublist_double (hc : c.IsChain (· ≠ ·)) (h : c.Sublist (N ++ p :: p :: R)) :
    c.Sublist (N ++ p :: R) := by
  induction N generalizing c with
  | nil =>
    cases h with
    | cons _ h => exact h
    | cons_cons _ h =>
      cases h with
      | cons _ h => exact h.cons_cons p
      | cons_cons _ h => exact absurd rfl (List.isChain_cons_cons.1 hc).1
  | cons n N ih =>
    cases h with
    | cons _ h => exact (ih hc h).cons n
    | cons_cons _ h => exact (ih hc.tail h).cons_cons n

theorem isChain_triple {b : α} (h : b ≠ a) : [a, b, a].IsChain (· ≠ ·) := by
  simp [h, h.symm]

theorem Together.double (h : Together (N ++ p :: R)) : Together (N ++ p :: p :: R) := by
  intro a b hab
  by_contra hb
  exact hb (h a b (chain_sublist_double (isChain_triple hb) hab))

theorem not_together (ht : t ≠ p) : ¬Together (A ++ p :: t :: (C ++ p :: R)) := by
  intro h
  apply ht
  apply h p t
  have hend : [p].Sublist (C ++ p :: R) := List.singleton_sublist.2 (by simp)
  exact ((hend.cons_cons t).cons_cons p).trans (List.sublist_append_right _ _)

/-- Equal elements on both sides of a place stand next to it. -/
theorem Together.meet (h : Together (A ++ C)) (hA : a ∈ A) (hC : a ∈ C) :
    ∃ A' C', A = A' ++ [a] ∧ C = a :: C' := by
  obtain ⟨A', z, rfl⟩ : ∃ A' z, A = A' ++ [z] := by
    rcases List.eq_nil_or_concat A with rfl | ⟨A', z, hz⟩
    · cases hA
    · exact ⟨A', z, by rw [hz, List.concat_eq_append]⟩
  obtain ⟨y, C', rfl⟩ := List.exists_cons_of_ne_nil (List.ne_nil_of_mem hC)
  have hz : z = a := by
    rcases List.mem_append.1 hA with hA | hA
    · have hleft : [a, z].Sublist (A' ++ [z]) :=
        (List.singleton_sublist.2 hA).append (List.Sublist.refl [z])
      exact h a z (hleft.append (List.singleton_sublist.2 hC))
    · exact (List.mem_singleton.1 hA).symm
  have hy : y = a := by
    rcases List.mem_cons.1 hC with hC | hC
    · exact hC.symm
    · exact h a y ((List.singleton_sublist.2 hA).append ((List.singleton_sublist.2 hC).cons_cons y))
  subst hz hy
  exact ⟨A', C', rfl, rfl⟩

/-- A new element, put where it separates no two equal ones. -/
theorem Together.insert_new (h : Together (A ++ C)) (hp : p ∉ A ++ C)
    (hapart : ∀ A' q C', A = A' ++ [q] → C ≠ q :: C') : Together (A ++ p :: C) := by
  intro a b hab
  obtain ⟨c₁, c₂, hc, h₁, h₂⟩ := List.sublist_append_iff.1 hab
  have hpA : p ∉ A := fun hpA => hp (List.mem_append_left _ hpA)
  have hpC : p ∉ C := fun hpC => hp (List.mem_append_right _ hpC)
  cases h₂ with
  | cons _ h₂ =>
    apply h a b
    rw [hc]
    exact h₁.append h₂
  | cons_cons _ h₂ =>
    -- the new element is one of the three
    rename_i c₃
    match c₁ with
    | [] =>
      simp only [List.nil_append, List.cons.injEq] at hc
      obtain ⟨rfl, rfl⟩ := hc
      exact absurd (h₂.subset (by simp)) hpC
    | [x] =>
      simp only [List.cons_append, List.nil_append, List.cons.injEq] at hc
      obtain ⟨rfl, rfl, rfl⟩ := hc
      obtain ⟨A', C', hA', hC'⟩ := h.meet (List.singleton_sublist.1 h₁) (List.singleton_sublist.1 h₂)
      exact absurd hC' (hapart A' a C' hA')
    | [x, y] =>
      simp only [List.cons_append, List.nil_append, List.cons.injEq] at hc
      obtain ⟨rfl, rfl, rfl, -⟩ := hc
      exact absurd (h₁.subset (by simp)) hpA
    | x :: y :: z :: c₁ => simp at hc

variable [DecidableEq α]

/-! ### The pass over neighbours -/

/-- It keeps every chain of different neighbours. -/
theorem chain_sublist_destutter' (hc : c.IsChain (· ≠ ·)) (h : c.Sublist (a :: l)) :
    c.Sublist (l.destutter' (· ≠ ·) a) := by
  induction l generalizing a c with
  | nil => exact h
  | cons b l ih =>
    by_cases hab : a = b
    · subst hab
      rw [List.destutter'_cons_neg _ (not_not.2 rfl)]
      exact ih hc (chain_sublist_double (N := []) hc h)
    · rw [List.destutter'_cons_pos _ hab]
      cases h with
      | cons _ h => exact (ih hc h).cons a
      | cons_cons _ h => exact (ih hc.tail h).cons_cons a

theorem chain_sublist_destutter (hc : c.IsChain (· ≠ ·)) (h : c.Sublist l) :
    c.Sublist (l.destutter (· ≠ ·)) := by
  cases l with
  | nil => exact h
  | cons a l => exact chain_sublist_destutter' hc h

theorem mem_destutter : a ∈ l.destutter (· ≠ ·) ↔ a ∈ l := by
  constructor
  · intro h
    exact (List.destutter_sublist _ l).subset h
  · intro h
    exact List.singleton_sublist.1
      (chain_sublist_destutter (List.IsChain.singleton a) (List.singleton_sublist.2 h))

/-- **Every element is left once** if and only if equal ones stand together. -/
theorem nodup_destutter_iff : (l.destutter (· ≠ ·)).Nodup ↔ Together l := by
  constructor
  · intro h a b hab
    by_contra hb
    have hkept := chain_sublist_destutter (isChain_triple hb) hab
    have hnodup := h.sublist hkept
    simp at hnodup
  · intro h
    have hchain := List.isChain_destutter (· ≠ ·) l
    have htog := h.sublist (List.destutter_sublist (· ≠ ·) l)
    generalize l.destutter (· ≠ ·) = d at hchain htog
    induction d with
    | nil => exact List.nodup_nil
    | cons x d ih =>
      refine List.nodup_cons.2 ⟨?_, ih hchain.tail (htog.sublist (List.sublist_cons_self x d))⟩
      intro hx
      -- the neighbour of the first of two equal elements is different
      obtain ⟨y, d', rfl⟩ := List.exists_cons_of_ne_nil (List.ne_nil_of_mem hx)
      have hxy : x ≠ y := (List.isChain_cons_cons.1 hchain).1
      have hx' : x ∈ d' := (List.mem_cons.1 hx).resolve_left hxy
      exact hxy (htog x y (((List.singleton_sublist.2 hx').cons_cons y).cons_cons x)).symm

theorem Together.length_destutter (h : Together l) :
    (l.destutter (· ≠ ·)).length = l.dedup.length := by
  apply List.Perm.length_eq
  rw [List.perm_ext_iff_of_nodup (nodup_destutter_iff.2 h) (List.nodup_dedup l)]
  intro a
  rw [mem_destutter, List.mem_dedup]

theorem length_dedup_cons (a : α) (l : List α) : (a :: l).dedup.length ≤ l.dedup.length + 1 := by
  rw [List.dedup_cons]
  split
  · exact Nat.le_succ _
  · exact le_rfl

/-- What a sublist has more than once, the list has more than once. -/
theorem surplus_sublist (h : l₁.Sublist l₂) :
    l₁.length + l₂.dedup.length ≤ l₂.length + l₁.dedup.length := by
  induction h with
  | slnil => exact le_rfl
  | @cons l₁ l₂ a _ ih =>
    have hle := length_dedup_cons a l₂
    rw [List.length_cons]
    omega
  | @cons_cons l₁ l₂ a hs ih =>
    by_cases h₁ : a ∈ l₁
    · rw [List.dedup_cons_of_mem h₁, List.dedup_cons_of_mem (hs.subset h₁), List.length_cons,
        List.length_cons]
      omega
    · have hle := length_dedup_cons a l₂
      rw [List.dedup_cons_of_notMem h₁, List.length_cons, List.length_cons, List.length_cons]
      omega

end OSLab
