import OSLab.Warmup.PointWalk
import Mathlib.Algebra.Order.Ring.Rat
import Mathlib.Data.List.Induction
import Mathlib.Tactic.NormNum

/-!
# When the list of points stays sorted

Points are ordered by their distance from the origin, then by `x`, then by `y`.
`sp_add_point` puts a point behind others that come after it when it reaches the last node
without comparing, and when it passes points of the same distance by `y` alone.

* `sorted_scan_iff`: a point added to a sorted list leaves it sorted if and only if it is `Placed`.
* `inOrder_iff_placed`: in every run the lists are all in order if and only if every point that
  is added is `Placed`.
-/

namespace OSLab.Warmup

variable {α : Type} [CommRing α] [LinearOrder α] {p q : Point α}
  {sp S N X M E B : List (Point α)} {m m' : Comparing}

/-- The list is sorted. -/
def Sorted (sp : List (Point α)) : Prop := sp.Pairwise (· ≤ ·)

theorem sorted_insert {A C : List (Point α)} :
    Sorted (A ++ p :: C) ↔ Sorted (A ++ C) ∧ (∀ a ∈ A, a ≤ p) ∧ ∀ c ∈ C, p ≤ c := by
  unfold Sorted
  rw [List.pairwise_append, List.pairwise_append, List.pairwise_cons]
  simp only [List.mem_cons, forall_eq_or_imp]
  constructor
  · rintro ⟨hA, ⟨hp, hC⟩, hAC⟩
    exact ⟨⟨hA, hC, fun a ha => (hAC a ha).2⟩, fun a ha => (hAC a ha).1, hp⟩
  · rintro ⟨⟨hA, hC, hAC⟩, hp, hp'⟩
    exact ⟨hA, ⟨hp', hC⟩, fun a ha => ⟨hp a ha, hAC a ha⟩⟩

/-! ### The walk along a sorted list -/

/-- The nodes that are not nearer to the origin than `p`: at the same distance those to the left
of `p`, straight below it and at `p` itself, and then those that come after `p`. -/
structure Parts (p : Point α) (X M E B : List (Point α)) : Prop where
  left : ∀ q ∈ X, q.originDist = p.originDist ∧ q.x < p.x
  below : ∀ q ∈ M, q.originDist = p.originDist ∧ q.x = p.x ∧ q.y < p.y
  same : ∀ q ∈ E, q = p
  after : ∀ q ∈ B, p < q

/-- The new point stops where it belongs. The list has it already, or no node comes after it, or
the only node that does has the greater coordinates, or the first of several is not below it on
the circle when there is a point straight below. -/
def Fits (p : Point α) (compared : Prop) (M E B : List (Point α)) : Prop :=
  E ≠ [] ∨ match B with
    | [] => True
    | [b] => (M ≠ [] → p.y < b.y) ∧
        (M = [] → compared ∧ (p.x < b.x ∨ p.x = b.x ∧ p.y < b.y))
    | b :: _ => M ≠ [] → ¬(b.originDist = p.originDist ∧ b.y < p.y)

namespace Parts

theorem left_le (h : Parts p X M E B) (hq : q ∈ X) : q ≤ p := by
  obtain ⟨hd, hx⟩ := h.left q hq
  exact (Point.lt_iff.2 (Or.inr ⟨hd, Or.inl hx⟩)).le

theorem below_le (h : Parts p X M E B) (hq : q ∈ M) : q ≤ p := by
  obtain ⟨hd, hx, hy⟩ := h.below q hq
  exact (Point.lt_iff.2 (Or.inr ⟨hd, Or.inr ⟨hx, hy⟩⟩)).le

end Parts

/-- What is compared behind the points that come before the new one. -/
def comparingBehind (X M : List (Point α)) : Comparing :=
  if M = [] then if X = [] then .distance else .onlyX else .onlyY

theorem foldlM_pass (h : ∀ q ∈ S, pass p m q = some m') :
    S.foldlM (pass p) m = some (if S = [] then m else m') := by
  cases S with
  | nil => rfl
  | cons s S =>
    have hstay : ∀ S : List (Point α), (∀ q ∈ S, pass p m' q = some m') →
        S.foldlM (pass p) m' = some m' := by
      intro S hS
      induction S with
      | nil => rfl
      | cons s S ih =>
        rw [List.foldlM_cons, hS s List.mem_cons_self]
        exact ih fun q hq => hS q (List.mem_cons_of_mem _ hq)
    rw [List.foldlM_cons, h s List.mem_cons_self, if_neg (List.cons_ne_nil _ _)]
    apply hstay
    intro q hq
    exact pass_again (h q (List.mem_cons_of_mem _ hq))

/-- The walk passes all points that come before the new one. -/
theorem foldlM_before (hN : ∀ q ∈ N, q.originDist < p.originDist) (h : Parts p X M E B) :
    (N ++ (X ++ M)).foldlM (pass p) .distance = some (comparingBehind X M) := by
  have hleft : ∀ q ∈ X, pass p .distance q = some .onlyX := by
    intro q hq
    obtain ⟨hd, hx⟩ := h.left q hq
    exact passFar_left hd hx
  have hbelow : ∀ m, ∀ q ∈ M, pass p m q = some .onlyY := by
    intro m q hq
    obtain ⟨hd, hx, hy⟩ := h.below q hq
    cases m with
    | distance => exact passFar_below hd hx hy
    | onlyX => exact (if_pos hd).trans (passFar_below hd hx hy)
    | onlyY => exact if_pos ⟨hd, hy⟩
  have hnear : ∀ q ∈ N, pass p .distance q = some .distance := by
    intro q hq
    exact passFar_near (hN q hq)
  rw [List.foldlM_append, foldlM_pass hnear, ite_self, Option.bind_eq_bind, Option.bind_some, List.foldlM_append, foldlM_pass hleft,
    Option.bind_eq_bind, Option.bind_some, foldlM_pass (hbelow _)]
  rfl

/-- The only point that comes after the new one stops it if and only if it `Fits`. -/
theorem not_goesBehind_iff {b : Point α} (hb : p < b) :
    ¬GoesBehind p (comparingBehind X M) b ↔ Fits p (X ≠ []) M [] [b] := by
  have hne : b.x = p.x → b.y ≠ p.y := by
    intro hx hy
    exact hb.ne' (Point.ext hx hy)
  unfold Fits comparingBehind
  by_cases hM : M = []
  · by_cases hX : X = []
    · simp [hM, hX, GoesBehind]
    · simp only [hM, hX, if_true, if_false, GoesBehind, ne_eq, not_true, not_false_iff,
        false_or, false_implies, true_and, forall_const, not_or, not_lt, not_and]
      constructor
      · rintro ⟨hx, hy⟩
        rcases hx.lt_or_eq with hx | hx
        · exact Or.inl hx
        · exact Or.inr ⟨hx, lt_of_le_of_ne (hy hx.symm) (hne hx.symm).symm⟩
      · rintro (hx | ⟨hx, hy⟩)
        · exact ⟨hx.le, fun h => absurd h hx.ne'⟩
        · exact ⟨hx.le, fun _ => hy.le⟩
  · simp only [hM, if_false, GoesBehind, ne_eq, not_true, not_false_iff, false_or, false_implies,
      and_true, forall_const, not_or, not_lt, not_and, not_not]
    constructor
    · rintro ⟨hy, hx⟩
      refine lt_of_le_of_ne hy fun he => ?_
      exact hne (hx he.symm) he.symm
    · intro hy
      exact ⟨hy.le, fun he => absurd he hy.ne'⟩

/-- A point that comes after the new one stops it, but for one case. -/
theorem pass_after {b : Point α} (hb : p < b) : pass p m b =
    if m = .onlyY ∧ b.originDist = p.originDist ∧ b.y < p.y then some .onlyY else none := by
  have hstop := passFar_stop hb.le
  cases m with
  | distance =>
    rw [if_neg (by rintro ⟨⟨⟩, -⟩)]
    exact hstop
  | onlyX =>
    rw [if_neg (by rintro ⟨⟨⟩, -⟩)]
    simp only [pass, hstop, ite_self]
  | onlyY => simp only [pass, hstop, ite_self, true_and]

omit [CommRing α] [LinearOrder α] in
theorem comparingBehind_eq : comparingBehind X M = .onlyY ↔ M ≠ [] := by
  unfold comparingBehind
  by_cases hM : M = []
  · by_cases hX : X = [] <;> simp [hM, hX]
  · simp [hM]

/-- **Where the walk puts a point** into a sorted list, behind those that come before it. -/
theorem scan_fits (h : Parts p X M E B) : ∃ A C, A ++ C = E ++ B ∧
    scan p (comparingBehind X M) (E ++ B) = A ++ p :: C ∧
    ((∀ a ∈ A, a ≤ p) ↔ Fits p (X ≠ []) M E B) := by
  have hafter := h.after
  cases E with
  | cons e E =>
    -- it goes in front of the same point
    obtain rfl : e = p := h.same e List.mem_cons_self
    rcases scan_member e (comparingBehind X M) [] (E ++ B) with ⟨-, hs⟩ | ⟨hn, -⟩
    · exact ⟨[], e :: (E ++ B), rfl, hs, fun _ => Or.inl (List.cons_ne_nil _ _), fun _ => by simp⟩
    · cases hn
  | nil =>
    match B with
    | [] => exact ⟨[], [], rfl, by rw [List.append_nil, scan]; rfl, fun _ => Or.inr trivial, by simp⟩
    | [b] =>
      have hb : p < b := hafter b List.mem_cons_self
      rw [← not_goesBehind_iff hb]
      by_cases hg : GoesBehind p (comparingBehind X M) b
      · refine ⟨[b], [], rfl, scan_behind hg, fun ha => ?_, fun hn => absurd hg hn⟩
        exact absurd (ha b List.mem_cons_self) (not_le.2 hb)
      · exact ⟨[], [b], rfl, scan_front hg, fun _ => hg, fun _ => by simp⟩
    | b :: c :: B =>
      have hb : p < b := hafter b List.mem_cons_self
      have hpass := pass_after (m := comparingBehind X M) hb
      simp only [comparingBehind_eq] at hpass
      by_cases hy : M ≠ [] ∧ b.originDist = p.originDist ∧ b.y < p.y
      · rw [if_pos hy] at hpass
        obtain ⟨A, C, hA, hs⟩ := scan_split p .onlyY (c :: B)
        refine ⟨b :: A, C, ?_, ?_, fun ha => ?_, fun hf => ?_⟩
        · rw [List.cons_append, hA]
          rfl
        · rw [List.nil_append, scan_pass hpass, hs]
          rfl
        · exact absurd (ha b List.mem_cons_self) (not_le.2 hb)
        · exact absurd hy.2 (hf.resolve_left (fun hn => hn rfl) hy.1)
      · rw [if_neg hy] at hpass
        refine ⟨[], b :: c :: B, rfl, scan_stop hpass, fun _ => ?_, by simp⟩
        exact Or.inr fun hM hby => hy ⟨hM, hby⟩

/-- A sorted list falls into the points up to some place and those from there on. -/
theorem exists_split {P : Point α → Prop} (hP : ∀ a b, a ≤ b → P b → P a) (hs : Sorted sp) :
    ∃ A C, sp = A ++ C ∧ (∀ a ∈ A, P a) ∧ ∀ c ∈ C, ¬P c := by
  induction sp with
  | nil => exact ⟨[], [], rfl, by simp, by simp⟩
  | cons a sp ih =>
    obtain ⟨ha, hs⟩ := List.pairwise_cons.1 hs
    by_cases hPa : P a
    · obtain ⟨A, C, rfl, hA, hC⟩ := ih hs
      exact ⟨a :: A, C, rfl, List.forall_mem_cons.2 ⟨hPa, hA⟩, hC⟩
    · refine ⟨[], a :: sp, rfl, by simp, fun c hc hPc => ?_⟩
      rcases List.mem_cons.1 hc with rfl | hc
      · exact hPa hPc
      · exact hPa (hP a c (ha c hc) hPc)

theorem exists_parts (hs : Sorted sp) (p : Point α) : ∃ N X M E B,
    sp = N ++ (X ++ (M ++ (E ++ B))) ∧ (∀ q ∈ N, q.originDist < p.originDist) ∧
      Parts p X M E B := by
  have hsub : ∀ {A C : List (Point α)}, Sorted (A ++ C) → Sorted C := fun h =>
    (List.pairwise_append.1 h).2.1
  obtain ⟨N, R₁, rfl, hN, hR₁⟩ := exists_split (P := fun q => q.originDist < p.originDist)
    (fun a b hab hb => (Point.dist_le hab).trans_lt hb) hs
  obtain ⟨X, R₂, rfl, hX, hR₂⟩ := exists_split
    (P := fun q => q.originDist < p.originDist ∨ q.originDist = p.originDist ∧ q.x < p.x) (by
      rintro a b hab hb
      rcases hab.lt_or_eq with hlt | rfl
      · rcases Point.lt_iff.1 hlt with hd | ⟨hd, hx⟩
        · exact Or.inl (hb.elim (hd.trans ·) fun hb => hb.1 ▸ hd)
        · rcases hb with hb | ⟨hb, hbx⟩
          · exact Or.inl (hd ▸ hb)
          · exact Or.inr ⟨hd.trans hb, hx.elim (fun hx => hx.trans hbx) fun hx => hx.1 ▸ hbx⟩
      · exact hb) (hsub hs)
  obtain ⟨M, R₃, rfl, hM, hR₃⟩ := exists_split (P := fun q => q < p)
    (fun a b hab hb => hab.trans_lt hb) (hsub (hsub hs))
  obtain ⟨E, B, rfl, hE, hB⟩ := exists_split (P := fun q => q ≤ p)
    (fun a b hab hb => hab.trans hb) (hsub (hsub (hsub hs)))
  have hfar : ∀ q, q < p → (q.originDist < p.originDist ∨ q.originDist = p.originDist ∧ q.x < p.x) ∨
      q.originDist = p.originDist ∧ q.x = p.x ∧ q.y < p.y := by
    intro q hq
    rcases Point.lt_iff.1 hq with hd | ⟨hd, hx | hy⟩
    · exact Or.inl (Or.inl hd)
    · exact Or.inl (Or.inr ⟨hd, hx⟩)
    · exact Or.inr ⟨hd, hy⟩
  refine ⟨N, X, M, E, B, rfl, hN, fun q hq => ?_, fun q hq => ?_, fun q hq => ?_, fun q hq => ?_⟩
  · exact (hX q hq).resolve_left (hR₁ q (by simp [hq]))
  · exact (hfar q (hM q hq)).resolve_left (hR₂ q (by simp [hq]))
  · exact le_antisymm (hE q hq) (not_lt.1 (hR₃ q (by simp [hq])))
  · exact not_le.1 (hB q hq)

/-- `q` is straight below `p` on the circle around the origin. -/
def Under (q p : Point α) : Prop := q.originDist = p.originDist ∧ q.x = p.x ∧ q.y < p.y

/-- The list has the point already, or none that comes after it, or
* only the last one does, and it is above the point if another one is straight below the point, and
  else it has the greater coordinates and there is one of the same distance to the left;
* several do, and when there is one straight below the point, the first of them is not lower than
  the point at the same distance. -/
def Placed (sp : List (Point α)) (p : Point α) : Prop :=
  p ∈ sp ∨ match sp.filter (p < ·) with
    | [] => True
    | [b] => ((∃ q ∈ sp, Under q p) → p.y < b.y) ∧
        ((¬∃ q ∈ sp, Under q p) → (∃ q ∈ sp, q.originDist = p.originDist ∧ q.x < p.x) ∧
          (p.x < b.x ∨ p.x = b.x ∧ p.y < b.y))
    | b :: _ => (∃ q ∈ sp, Under q p) → ¬(b.originDist = p.originDist ∧ b.y < p.y)

/-- The condition, read off the parts of the list. -/
theorem placed_iff (hN : ∀ q ∈ N, q.originDist < p.originDist) (h : Parts p X M E B) :
    Placed (N ++ (X ++ (M ++ (E ++ B)))) p ↔ Fits p (X ≠ []) M E B := by
  have hNlt : ∀ q ∈ N, q < p := fun q hq => Point.lt_iff.2 (Or.inl (hN q hq))
  have hfilter : (N ++ (X ++ (M ++ (E ++ B)))).filter (p < ·) = B := by
    have hnone : ∀ l : List (Point α), (∀ q ∈ l, q ≤ p) → l.filter (p < ·) = [] := by
      intro l hl
      rw [List.filter_eq_nil_iff]
      intro q hq
      rw [decide_eq_true_eq]
      exact not_lt.2 (hl q hq)
    rw [List.filter_append, List.filter_append, List.filter_append, List.filter_append,
      hnone N fun q hq => (hNlt q hq).le, hnone X fun q hq => h.left_le hq,
      hnone M fun q hq => h.below_le hq, hnone E fun q hq => (h.same q hq).le]
    simp only [List.nil_append]
    exact List.filter_eq_self.2 fun q hq => decide_eq_true (h.after q hq)
  have hmem : p ∈ N ++ (X ++ (M ++ (E ++ B))) ↔ E ≠ [] := by
    constructor
    · rintro hp rfl
      simp only [List.mem_append, List.not_mem_nil, false_or] at hp
      rcases hp with hp | hp | hp | hp
      · exact lt_irrefl _ (hN p hp)
      · exact lt_irrefl _ (h.left p hp).2
      · exact lt_irrefl _ (h.below p hp).2.2
      · exact lt_irrefl _ (h.after p hp)
    · intro hE
      obtain ⟨e, E, rfl⟩ := List.exists_cons_of_ne_nil hE
      rw [h.same e List.mem_cons_self]
      simp
  have hunder : (∃ q ∈ N ++ (X ++ (M ++ (E ++ B))), Under q p) ↔ M ≠ [] := by
    constructor
    · rintro ⟨q, hq, hd, hx, hy⟩ rfl
      simp only [List.mem_append, List.not_mem_nil, false_or] at hq
      rcases hq with hq | hq | hq | hq
      · exact (hN q hq).ne hd
      · exact (h.left q hq).2.ne hx
      · rw [h.same q hq] at hy
        exact lt_irrefl _ hy
      · exact lt_asymm (h.after q hq) (Point.lt_iff.2 (Or.inr ⟨hd, Or.inr ⟨hx, hy⟩⟩))
    · intro hM
      obtain ⟨m, M, rfl⟩ := List.exists_cons_of_ne_nil hM
      exact ⟨m, by simp, h.below m List.mem_cons_self⟩
  have hleft : (∃ q ∈ N ++ (X ++ (M ++ (E ++ B))), q.originDist = p.originDist ∧ q.x < p.x) ↔
      X ≠ [] := by
    constructor
    · rintro ⟨q, hq, hd, hx⟩ rfl
      simp only [List.mem_append, List.not_mem_nil, false_or] at hq
      rcases hq with hq | hq | hq | hq
      · exact (hN q hq).ne hd
      · exact hx.ne (h.below q hq).2.1
      · rw [h.same q hq] at hx
        exact lt_irrefl _ hx
      · exact lt_asymm (h.after q hq) (Point.lt_iff.2 (Or.inr ⟨hd, Or.inl hx⟩))
    · intro hX
      obtain ⟨x, X, rfl⟩ := List.exists_cons_of_ne_nil hX
      exact ⟨x, by simp, h.left x List.mem_cons_self⟩
  unfold Placed Fits
  rw [hfilter, hmem, hunder, hleft]
  simp only [ne_eq, not_not]

/-- **A point added to a sorted list** leaves it sorted if and only if it is `Placed`. -/
theorem sorted_scan_iff (hs : Sorted sp) (p : Point α) :
    Sorted (scan p .distance sp) ↔ Placed sp p := by
  obtain ⟨N, X, M, E, B, rfl, hN, h⟩ := exists_parts hs p
  obtain ⟨A, C, hA, hscan, hfits⟩ := scan_fits h
  have hbefore : ∀ q ∈ N ++ (X ++ M), q ≤ p := by
    intro q hq
    rcases List.mem_append.1 hq with hq | hq
    · exact (Point.lt_iff.2 (Or.inl (hN q hq))).le
    · rcases List.mem_append.1 hq with hq | hq
      · exact h.left_le hq
      · exact h.below_le hq
  have hafter : ∀ c ∈ C, p ≤ c := by
    intro c hc
    have hc : c ∈ E ++ B := by
      rw [← hA]
      exact List.mem_append_right _ hc
    rcases List.mem_append.1 hc with hc | hc
    · exact (h.same c hc).ge
    · exact (h.after c hc).le
  have hsp : N ++ (X ++ M) ++ (A ++ C) = N ++ (X ++ (M ++ (E ++ B))) := by
    rw [hA]
    simp only [List.append_assoc]
  have hres : scan p .distance (N ++ (X ++ (M ++ (E ++ B)))) = N ++ (X ++ M) ++ A ++ p :: C := by
    rw [← hsp, hA, scan_over (foldlM_before hN h), hscan]
    simp only [List.append_assoc]
  rw [placed_iff hN h, ← hfits, hres, sorted_insert, List.append_assoc, hsp]
  constructor
  · rintro ⟨-, hall, -⟩ a ha
    exact hall a (List.mem_append_right _ ha)
  · intro hfit
    refine ⟨hs, ?_, hafter⟩
    intro a ha
    rcases List.mem_append.1 ha with ha | ha
    · exact hbefore a ha
    · exact hfit a ha

/-! ### Runs -/

/-- An operation on the list, and what it takes. -/
inductive Op (α : Type)
  | addPoint (x y : α)
  | removeFirst
  | removeLast
  | removeByIndex (index : ℤ)
  | deleteDuplicates

/-- The list after an operation. A removal that fails leaves the list as it is. -/
def Op.exec (sp : List (Point α)) : Op α → Option (List (Point α))
  | .addPoint x y => spAddPoint sp x y
  | .removeFirst => some ((spRemoveFirst sp).elim sp Prod.snd)
  | .removeLast => some ((spRemoveLast sp).elim sp Prod.snd)
  | .removeByIndex index => some ((spRemoveByIndex sp index).elim sp Prod.snd)
  | .deleteDuplicates => some (spDeleteDuplicates sp).1

/-- The list after the operations on the list of `sp_init`. -/
def listAfter (ops : List (Op α)) : Option (List (Point α)) := runAll Op.exec [] ops

omit [CommRing α] [LinearOrder α] in
theorem removeLastFrom_ok (temp : Point α) (rest : List (Point α)) :
    (removeLastFrom temp rest).2 ++ [(removeLastFrom temp rest).1] = temp :: rest := by
  induction rest generalizing temp with
  | nil => rfl
  | cons t rest ih =>
    unfold removeLastFrom
    rw [List.cons_append, ih]

omit [CommRing α] [LinearOrder α] in
theorem removeFrom_sublist {index count : ℤ} {r : Point α × List (Point α)}
    (h : removeFrom index count sp = some r) : r.2.Sublist sp := by
  induction sp generalizing count r with
  | nil => cases h
  | cons temp rest ih =>
    unfold removeFrom at h
    split at h
    · cases h
      exact List.sublist_cons_self _ _
    · obtain ⟨r', hr', rfl⟩ := Option.map_eq_some_iff.1 h
      exact (ih hr').cons_cons temp

omit [CommRing α] in
theorem deleteFrom_sublist (pre : Point α) (rest : List (Point α)) :
    (deleteFrom pre rest).1.Sublist rest := by
  induction rest generalizing pre with
  | nil => exact List.Sublist.refl _
  | cons temp rest ih =>
    unfold deleteFrom
    split
    · exact (ih pre).cons temp
    · exact (ih temp).cons_cons temp

/-- The operations other than adding a point take nodes out of the list. -/
theorem exec_sublist (sp : List (Point α)) {op : Op α} (hop : ∀ x y, op ≠ .addPoint x y) :
    ∃ sp', op.exec sp = some sp' ∧ sp'.Sublist sp := by
  cases op with
  | addPoint x y => exact absurd rfl (hop x y)
  | removeFirst =>
    refine ⟨_, rfl, ?_⟩
    cases sp with
    | nil => exact List.Sublist.refl _
    | cons temp rest => exact List.sublist_cons_self _ _
  | removeLast =>
    refine ⟨_, rfl, ?_⟩
    cases sp with
    | nil => exact List.Sublist.refl _
    | cons temp rest =>
      show (removeLastFrom temp rest).2.Sublist (temp :: rest)
      rw [← removeLastFrom_ok]
      exact List.sublist_append_left _ _
  | removeByIndex index =>
    refine ⟨_, rfl, ?_⟩
    cases hr : spRemoveByIndex sp index with
    | none => exact List.Sublist.refl _
    | some r => exact removeFrom_sublist hr
  | deleteDuplicates =>
    refine ⟨_, rfl, ?_⟩
    cases sp with
    | nil => exact List.Sublist.refl _
    | cons pre rest => exact (deleteFrom_sublist pre rest).cons_cons pre

theorem listAfter_concat {ops : List (Op α)} (h : listAfter ops = some sp) (op : Op α) :
    listAfter (ops ++ [op]) = op.exec sp := by
  unfold listAfter at h ⊢
  rw [runAll_concat, h, Option.bind_some]

/-- A step of a run. -/
theorem exec_cases (sp : List (Point α)) (op : Op α) :
    (∃ x y, op = .addPoint x y ∧ op.exec sp = some (scan ⟨x, y⟩ .distance sp)) ∨
      ∃ sp', op.exec sp = some sp' ∧ sp'.Sublist sp := by
  by_cases hop : ∀ x y, op ≠ .addPoint x y
  · exact Or.inr (exec_sublist sp hop)
  · simp only [not_forall, not_not] at hop
    obtain ⟨x, y, rfl⟩ := hop
    exact Or.inl ⟨x, y, rfl, addPoint_scan sp x y⟩

theorem listAfter_total (ops : List (Op α)) : ∃ sp, listAfter ops = some sp := by
  induction ops using List.reverseRecOn with
  | nil => exact ⟨[], rfl⟩
  | append_singleton ops op ih =>
    obtain ⟨sp, hsp⟩ := ih
    rw [listAfter_concat hsp]
    rcases exec_cases sp op with ⟨x, y, -, h⟩ | ⟨sp', h, -⟩
    · exact ⟨_, h⟩
    · exact ⟨_, h⟩

/-- **A property of the lists of a run** that nodes taken out do not break holds of all of them if
and only if every point that is added keeps it. -/
theorem run_iff {ops : List (Op α)} {I : List (Point α) → Prop}
    {Good : List (Point α) → Point α → Prop} (h0 : I [])
    (hsub : ∀ {sp sp'}, I sp → sp'.Sublist sp → I sp')
    (hadd : ∀ {sp} p, I sp → (I (scan p .distance sp) ↔ Good sp p)) :
    (∀ ops₁, ops₁ <+: ops → ∀ sp, listAfter ops₁ = some sp → I sp) ↔
      ∀ ops₁ x y, ops₁ ++ [.addPoint x y] <+: ops →
        ∀ sp, listAfter ops₁ = some sp → Good sp ⟨x, y⟩ := by
  constructor
  · intro h ops₁ x y hpre sp hsp
    have hI := h ops₁ ((List.prefix_append _ _).trans hpre) sp hsp
    apply (hadd _ hI).1
    exact h _ hpre _ ((listAfter_concat hsp _).trans (addPoint_scan sp x y))
  · intro h ops₁
    -- by induction on the run, with the property before each operation
    induction ops₁ using List.reverseRecOn with
    | nil =>
      intro _ sp hsp
      cases hsp
      exact h0
    | append_singleton ops₁ op ih =>
      intro hpre sp' hsp'
      obtain ⟨sp, hsp⟩ := listAfter_total ops₁
      have hI := ih ((List.prefix_append _ _).trans hpre) sp hsp
      rw [listAfter_concat hsp] at hsp'
      rcases exec_cases sp op with ⟨x, y, rfl, hexec⟩ | ⟨sp'', hexec, hless⟩
      · rw [hexec] at hsp'
        cases hsp'
        exact (hadd _ hI).2 (h ops₁ x y hpre sp hsp)
      · rw [hexec] at hsp'
        cases hsp'
        exact hsub hI hless

/-- The list is in order: it is sorted, the first point removed is a least one, and the last one a
greatest. -/
structure InOrder (sp : List (Point α)) : Prop where
  sorted : Sorted sp
  first : ∀ p sp', spRemoveFirst sp = some (p, sp') → ∀ q ∈ sp, p ≤ q
  last : ∀ p sp', spRemoveLast sp = some (p, sp') → ∀ q ∈ sp, q ≤ p

theorem Sorted.inOrder (h : Sorted sp) : InOrder sp where
  sorted := h
  first p sp' hr q hq := by
    cases sp with
    | nil => cases hr
    | cons temp rest =>
      obtain ⟨rfl, rfl⟩ := Prod.mk.inj (Option.some.inj hr)
      rcases List.mem_cons.1 hq with rfl | hq
      · exact le_rfl
      · exact (List.pairwise_cons.1 h).1 q hq
  last p sp' hr q hq := by
    cases sp with
    | nil => cases hr
    | cons temp rest =>
      obtain rfl : (removeLastFrom temp rest).1 = p := congrArg Prod.fst (Option.some.inj hr)
      have hlast := removeLastFrom_ok temp rest
      rw [← hlast] at h hq
      rcases List.mem_append.1 hq with hq | hq
      · exact (List.pairwise_append.1 h).2.2 q hq _ (List.mem_singleton_self _)
      · exact (List.mem_singleton.1 hq).le

/-- **The list stays in order** through a run if and only if every point that is added is `Placed`
when it is. -/
theorem inOrder_iff_placed (ops : List (Op α)) : (∃ sp, listAfter ops = some sp) ∧
    ((∀ ops₁, ops₁ <+: ops → ∀ sp, listAfter ops₁ = some sp → InOrder sp) ↔
      ∀ ops₁ x y, ops₁ ++ [.addPoint x y] <+: ops →
        ∀ sp, listAfter ops₁ = some sp → Placed sp ⟨x, y⟩) := by
  refine ⟨listAfter_total ops, ?_⟩
  have hsorted : (∀ ops₁, ops₁ <+: ops → ∀ sp, listAfter ops₁ = some sp → Sorted sp) ↔
      ∀ ops₁ x y, ops₁ ++ [.addPoint x y] <+: ops →
        ∀ sp, listAfter ops₁ = some sp → Placed sp ⟨x, y⟩ :=
    run_iff List.Pairwise.nil (fun hs hsub => hs.sublist hsub) (fun p hs => sorted_scan_iff hs p)
  rw [← hsorted]
  constructor
  · intro h ops₁ hpre sp hsp
    exact (h ops₁ hpre sp hsp).sorted
  · intro h ops₁ hpre sp hsp
    exact (h ops₁ hpre sp hsp).inOrder

/-- The second of two points goes behind the first, though it is nearer to the origin. -/
theorem second_point_behind : ∃ sp : List (Point ℚ),
    listAfter [.addPoint 2 0, .addPoint 1 0] = some sp ∧
      spRemoveFirst sp = some (⟨2, 0⟩, [⟨1, 0⟩]) ∧ ¬InOrder sp := by
  refine ⟨[⟨2, 0⟩, ⟨1, 0⟩], rfl, rfl, fun h => ?_⟩
  have hle := h.first ⟨2, 0⟩ [⟨1, 0⟩] rfl ⟨1, 0⟩ (by simp)
  refine absurd hle (not_le.2 (Point.lt_iff.2 (Or.inl ?_)))
  norm_num [Point.originDist]

end OSLab.Warmup
