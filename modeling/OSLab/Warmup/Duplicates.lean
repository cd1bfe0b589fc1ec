import OSLab.Lib.Together
import OSLab.Warmup.PointOrder
import Mathlib.Data.List.TakeWhile

/-!
# What `sp_delete_duplicates` leaves

`sp_delete_duplicates` compares neighbours, so it deletes all duplicates of a list whose equal
points stand together. `sp_add_point` puts a point that the list has already next to its equals
if no node in front of them stops the walk; in a list that is out of order one may.

* `deletes_iff`: what `sp_delete_duplicates` does to one list.
* `deletesDuplicates_iff_joins`: in every run it deletes all duplicates of every list if and only
  if every point that is added `Joins` its equals.
-/

namespace OSLab.Warmup

variable {α : Type} [CommRing α] [LinearOrder α] {p q : Point α} {sp rest : List (Point α)}

/-! ### One list -/

omit [CommRing α] in
theorem deleteFrom_eq (pre : Point α) (rest : List (Point α)) :
    pre :: (deleteFrom pre rest).1 = rest.destutter' (· ≠ ·) pre := by
  induction rest generalizing pre with
  | nil => rfl
  | cons temp rest ih =>
    unfold deleteFrom
    by_cases h : pre.x = temp.x ∧ pre.y = temp.y
    · obtain rfl : pre = temp := Point.ext h.1 h.2
      rw [if_pos h, List.destutter'_cons_neg _ (not_not.2 rfl), ← ih]
    · have hne : pre ≠ temp := by
        rintro rfl
        exact h ⟨rfl, rfl⟩
      rw [if_neg h, List.destutter'_cons_pos _ hne, ← ih]

omit [CommRing α] in
theorem spDeleteDuplicates_eq (sp : List (Point α)) :
    (spDeleteDuplicates sp).1 = sp.destutter (· ≠ ·) := by
  cases sp with
  | nil => rfl
  | cons pre rest => exact deleteFrom_eq pre rest

omit [CommRing α] in
theorem deleteFrom_count (pre : Point α) (rest : List (Point α)) :
    (deleteFrom pre rest).2 = toInt32 (rest.length - (deleteFrom pre rest).1.length : ℤ) := by
  induction rest generalizing pre with
  | nil => exact (toInt32_of_lt (by simp [deleteFrom]) (by simp [deleteFrom])).symm
  | cons temp rest ih =>
    unfold deleteFrom
    split
    · simp only [ih, toInt32_succ, List.length_cons]
      congr 1
      omega
    · simp only [ih, List.length_cons]
      congr 1
      omega

omit [CommRing α] in
theorem spDeleteDuplicates_count (sp : List (Point α)) : (spDeleteDuplicates sp).2 =
    toInt32 (sp.length - (spDeleteDuplicates sp).1.length : ℤ) := by
  cases sp with
  | nil => exact (toInt32_of_lt (by simp [spDeleteDuplicates]) (by simp [spDeleteDuplicates])).symm
  | cons pre rest =>
    simp only [spDeleteDuplicates, deleteFrom_count, List.length_cons]
    congr 1
    omega

/-- `sp_delete_duplicates` does what it is to do: the records left are pairwise different, every
point is still there, in the old order, and the number of records deleted is returned. -/
structure DeletesDuplicates (sp : List (Point α)) : Prop where
  distinct : (spDeleteDuplicates sp).1.Pairwise fun p q => ¬(p.x = q.x ∧ p.y = q.y)
  present : ∀ p ∈ sp, p ∈ (spDeleteDuplicates sp).1
  order : (spDeleteDuplicates sp).1.Sublist sp
  count : (spDeleteDuplicates sp).2 = sp.length - (spDeleteDuplicates sp).1.length

/-- Equal points stand together, and there are fewer than `2^31` more nodes than points. -/
structure Tidy (sp : List (Point α)) : Prop where
  together : Together sp
  few : sp.length < sp.dedup.length + 2 ^ 31

omit [CommRing α] in
/-- **What `sp_delete_duplicates` does to a list**: what it is to do if and only if equal points
stand together (and their number is an `int`). -/
theorem deletes_iff (sp : List (Point α)) : DeletesDuplicates sp ↔ Tidy sp := by
  have hnodup : ((spDeleteDuplicates sp).1.Pairwise fun p q => ¬(p.x = q.x ∧ p.y = q.y)) ↔
      Together sp := by
    rw [← nodup_destutter_iff, spDeleteDuplicates_eq]
    unfold List.Nodup
    simp only [ne_eq, Point.ext_iff]
  have hle := (List.destutter_sublist (· ≠ ·) sp).length_le
  constructor
  · intro h
    have htog := hnodup.1 h.distinct
    refine ⟨htog, ?_⟩
    have hcount := h.count
    have hlt := toInt32_lt (sp.length - (spDeleteDuplicates sp).1.length : ℤ)
    rw [← spDeleteDuplicates_count, hcount, spDeleteDuplicates_eq, htog.length_destutter] at hlt
    omega
  · rintro ⟨htog, hfew⟩
    refine ⟨hnodup.2 htog, ?_, ?_, ?_⟩
    · intro p hp
      rw [spDeleteDuplicates_eq]
      exact mem_destutter.2 hp
    · rw [spDeleteDuplicates_eq]
      exact List.destutter_sublist _ sp
    · rw [spDeleteDuplicates_count]
      rw [← htog.length_destutter] at hfew
      rw [spDeleteDuplicates_eq]
      exact toInt32_of_lt (by omega) (by omega)

/-! ### Adding a point -/

/-- `sp_add_point` gets past every node in front of the first one at `p`. -/
def Reaches (sp : List (Point α)) (p : Point α) : Prop :=
  (sp.takeWhile (· ≠ p)).foldlM (pass p) .distance ≠ none

/-- When the list has the point already, the walk gets to it (and there are not too many points
to be deleted). -/
def Joins (sp : List (Point α)) (p : Point α) : Prop :=
  p ∈ sp → Reaches sp p ∧ sp.length + 1 < sp.dedup.length + 2 ^ 31

omit [CommRing α] in
theorem eq_takeWhile_append (h : p ∈ sp) : ∃ R, sp = sp.takeWhile (· ≠ p) ++ p :: R := by
  have hne : sp.dropWhile (· ≠ p) ≠ [] := by
    rw [ne_eq, List.dropWhile_eq_nil_iff]
    intro hall
    simpa using hall p h
  obtain ⟨q, R, hR⟩ := List.exists_cons_of_ne_nil hne
  have hq := List.head_dropWhile_not (· ≠ p) hne
  simp only [hR, List.head_cons] at hq
  refine ⟨R, ?_⟩
  have hqp : q = p := by simpa using hq
  rw [← hqp, ← hR, hqp, List.takeWhile_append_dropWhile]

theorem scan_perm (p : Point α) (sp : List (Point α)) :
    (scan p .distance sp).Perm (p :: sp) := by
  obtain ⟨A, C, rfl, hs⟩ := scan_split p .distance sp
  rw [hs]
  exact List.perm_middle

/-- Equal points stay together if the walk gets to them. -/
theorem together_scan_iff (h : Together sp) (p : Point α) :
    Together (scan p .distance sp) ↔ (p ∈ sp → Reaches sp p) := by
  by_cases hp : p ∈ sp
  · obtain ⟨R, hR⟩ := eq_takeWhile_append hp
    unfold Reaches
    have hfront : ∀ q ∈ sp.takeWhile (· ≠ p), q ≠ p := by
      intro q hq
      simpa using List.mem_takeWhile_imp hq
    generalize sp.takeWhile (· ≠ p) = N at hR hfront ⊢
    subst hR
    rcases scan_member p .distance N R with ⟨hN, hs⟩ | ⟨hN, A, t, C, rfl, hs⟩
    · rw [hs]
      exact ⟨fun _ _ => hN, fun _ => h.double⟩
    · rw [hs]
      have ht : t ≠ p := hfront t (by simp)
      exact ⟨fun htog => absurd htog (not_together ht), fun hN' => absurd hN (hN' hp)⟩
  · obtain ⟨A, C, rfl, hs, hapart⟩ := scan_apart p .distance sp
    rw [hs]
    exact ⟨fun _ hp' => absurd hp' hp, fun _ => h.insert_new hp hapart⟩

theorem tidy_scan_iff (h : Tidy sp) (p : Point α) :
    Tidy (scan p .distance sp) ↔ Joins sp p := by
  have hperm := scan_perm p sp
  have hdedup := hperm.dedup.length_eq
  have hfew := h.few
  have hiff := together_scan_iff h.together p
  unfold Joins
  by_cases hp : p ∈ sp
  · rw [List.dedup_cons_of_mem hp] at hdedup
    constructor
    · rintro ⟨htog, hlt⟩ -
      rw [hdedup, hperm.length_eq, List.length_cons] at hlt
      exact ⟨hiff.1 htog hp, hlt⟩
    · intro hj
      obtain ⟨hreach, hlt⟩ := hj hp
      refine ⟨hiff.2 fun _ => hreach, ?_⟩
      rw [hdedup, hperm.length_eq, List.length_cons]
      exact hlt
  · rw [List.dedup_cons_of_notMem hp, List.length_cons] at hdedup
    refine ⟨fun _ hp' => absurd hp' hp, fun _ => ⟨hiff.2 fun hp' => absurd hp' hp, ?_⟩⟩
    rw [hdedup, hperm.length_eq, List.length_cons]
    omega

omit [CommRing α] in
theorem Tidy.sublist {sp' : List (Point α)} (h : Tidy sp) (hs : sp'.Sublist sp) : Tidy sp' := by
  refine ⟨h.together.sublist hs, ?_⟩
  have hless := surplus_sublist hs
  have hfew := h.few
  omega

/-! ### Runs -/

/-- **`sp_delete_duplicates` leaves no duplicates** in any list of a run if and only if every point
that is added joins the equal ones that the list has. -/
theorem deletesDuplicates_iff_joins (ops : List (Op α)) : (∃ sp, listAfter ops = some sp) ∧
    ((∀ ops₁, ops₁ <+: ops → ∀ sp, listAfter ops₁ = some sp → DeletesDuplicates sp) ↔
      ∀ ops₁ x y, ops₁ ++ [.addPoint x y] <+: ops →
        ∀ sp, listAfter ops₁ = some sp → Joins sp ⟨x, y⟩) := by
  refine ⟨listAfter_total ops, ?_⟩
  simp only [deletes_iff]
  apply run_iff
  · refine ⟨?_, by simp⟩
    intro a b h
    cases h
  · intro sp sp' h hs
    exact h.sublist hs
  · intro sp p h
    exact tidy_scan_iff h p

/-- The third point goes to the front, away from its equal. -/
theorem duplicate_apart : ∃ sp : List (Point ℤ),
    listAfter [.addPoint 2 0, .addPoint 1 0, .addPoint 1 0] = some sp ∧
      spDeleteDuplicates sp = ([⟨1, 0⟩, ⟨2, 0⟩, ⟨1, 0⟩], 0) ∧ ¬DeletesDuplicates sp := by
  refine ⟨[⟨1, 0⟩, ⟨2, 0⟩, ⟨1, 0⟩], by decide, by decide, ?_⟩
  intro h
  have hdistinct := h.distinct
  revert hdistinct
  decide

end OSLab.Warmup
