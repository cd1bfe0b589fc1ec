import OSLab.Warmup.PointOrder
import Mathlib.Algebra.Order.Group.Multiset

/-!
# The points are all accounted for

`sp_add_point` adds one point, a removal takes out the one at its position and reports it, and
`sp_delete_duplicates` frees some. An `Account` of a run collects the points added and those
taken out.

* `keepsPoints_iff`: the operations do this to a list if and only if it has at most `2^31` nodes:
  in a longer one the `int` that counts the nodes wraps around to a negative index.
* `points_balance`: in every run the points in the list and those taken out are those added.
-/

namespace OSLab.Warmup

variable {α : Type} [CommRing α] [LinearOrder α] {p q : Point α} {sp : List (Point α)}

/-- What an operation returns, what it stores in `*ret`, and the list it leaves. -/
@[ext] structure OpResult (α : Type) where
  code : ℤ
  ret : Option (Point α)
  list : List (Point α)

omit [CommRing α] [LinearOrder α] in
/-- A removal returns 1 and the point, or 0. -/
def removal (sp : List (Point α)) : Option (Point α × List (Point α)) → OpResult α
  | none => ⟨0, none, sp⟩
  | some (p, sp') => ⟨1, some p, sp'⟩

/-- An operation; `none` if it stores through a `NULL` pointer or does not end. -/
def Op.result (sp : List (Point α)) : Op α → Option (OpResult α)
  | .addPoint x y => (spAddPoint sp x y).map fun sp' => ⟨1, none, sp'⟩
  | .removeFirst => some (removal sp (spRemoveFirst sp))
  | .removeLast => some (removal sp (spRemoveLast sp))
  | .removeByIndex index => some (removal sp (spRemoveByIndex sp index))
  | .deleteDuplicates => some ⟨(spDeleteDuplicates sp).2, none, (spDeleteDuplicates sp).1⟩

theorem result_list (sp : List (Point α)) (op : Op α) :
    (op.result sp).map OpResult.list = op.exec sp := by
  have hremoval : ∀ r, (removal sp r).list = r.elim sp Prod.snd := by
    intro r
    cases r <;> rfl
  cases op with
  | addPoint x y =>
    simp only [Op.result, Op.exec, Option.map_map]
    exact Option.map_id'
  | removeFirst => exact congrArg some (hremoval _)
  | removeLast => exact congrArg some (hremoval _)
  | removeByIndex index => exact congrArg some (hremoval _)
  | deleteDuplicates => rfl

/-! ### One operation -/

omit [CommRing α] [LinearOrder α] in
/-- The point at position `i` is taken out and reported, or there is none. -/
def Removes (sp : List (Point α)) (i : ℤ) (o : OpResult α) : Prop :=
  (∃ A p C, sp = A ++ p :: C ∧ (A.length : ℤ) = i ∧ o = ⟨1, some p, A ++ C⟩) ∨
    (i < 0 ∨ sp.length ≤ i) ∧ o = ⟨0, none, sp⟩

omit [CommRing α] [LinearOrder α] in
/-- The walk of `sp_remove_by_index`, when `c` nodes are passed: it stops at the node whose number
is the index modulo `2^32`. -/
theorem removeFrom_ok {index : ℤ} (h0 : -2 ^ 31 ≤ index) (h1 : index < 2 ^ 31) {n : ℕ}
    (hn : (n : ℤ) = index % 2 ^ 32) (sp : List (Point α)) {c : ℕ} (hc : c ≤ n) :
    (∃ A p C, sp = A ++ p :: C ∧ c + A.length = n ∧
      removeFrom index (toInt32 c) sp = some (p, A ++ C)) ∨
    c + sp.length ≤ n ∧ removeFrom index (toInt32 c) sp = none := by
  induction sp generalizing c with
  | nil => exact Or.inr ⟨hc, rfl⟩
  | cons temp rest ih =>
    have hiff : toInt32 c = index ↔ c = n := by
      unfold toInt32
      rw [Int.bmod_def]
      split <;> omega
    unfold removeFrom
    by_cases h : c = n
    · rw [if_pos (hiff.2 h)]
      exact Or.inl ⟨[], temp, rest, rfl, h, rfl⟩
    · rw [if_neg (fun he => h (hiff.1 he)), toInt32_succ]
      have hc' : c + 1 ≤ n := by omega
      rcases ih hc' with ⟨A, p, C, rfl, hlen, hr⟩ | ⟨hlen, hr⟩
      · refine Or.inl ⟨temp :: A, p, C, rfl, ?_, ?_⟩
        · rw [List.length_cons]
          omega
        · push_cast at hr
          rw [hr]
          rfl
      · refine Or.inr ⟨?_, ?_⟩
        · rw [List.length_cons]
          omega
        · push_cast at hr
          rw [hr]
          rfl

/-- What the operations are to do with the points of a list. `sp_add_point` returns 1 and puts the
new one in one place; a removal takes out the one at its position. -/
structure KeepsPoints (sp : List (Point α)) : Prop where
  add : ∀ x y, ∃ A C, sp = A ++ C ∧
    (Op.addPoint x y).result sp = some ⟨1, none, A ++ ⟨x, y⟩ :: C⟩
  first : ∃ o, Op.removeFirst.result sp = some o ∧ Removes sp 0 o
  last : ∃ o, Op.removeLast.result sp = some o ∧ Removes sp (sp.length - 1) o
  byIndex : ∀ i : ℤ, -2 ^ 31 ≤ i → i < 2 ^ 31 →
    ∃ o, (Op.removeByIndex i).result sp = some o ∧ Removes sp i o

theorem add_ok (sp : List (Point α)) (x y : α) : ∃ A C, sp = A ++ C ∧
    (Op.addPoint x y).result sp = some ⟨1, none, A ++ ⟨x, y⟩ :: C⟩ := by
  obtain ⟨A, C, hA, hs⟩ := scan_split ⟨x, y⟩ .distance sp
  refine ⟨A, C, hA.symm, ?_⟩
  simp only [Op.result]
  rw [addPoint_scan, hs]
  rfl

theorem removeFirst_ok (sp : List (Point α)) :
    ∃ o, Op.removeFirst.result sp = some o ∧ Removes sp 0 o := by
  refine ⟨_, rfl, ?_⟩
  cases sp with
  | nil => exact Or.inr ⟨Or.inr (by simp), rfl⟩
  | cons temp rest => exact Or.inl ⟨[], temp, rest, rfl, rfl, rfl⟩

theorem removeLast_ok (sp : List (Point α)) :
    ∃ o, Op.removeLast.result sp = some o ∧ Removes sp (sp.length - 1) o := by
  refine ⟨_, rfl, ?_⟩
  cases sp with
  | nil => exact Or.inr ⟨Or.inl (by simp), rfl⟩
  | cons temp rest =>
    have hlast := removeLastFrom_ok temp rest
    refine Or.inl ⟨(removeLastFrom temp rest).2, (removeLastFrom temp rest).1, [], hlast.symm, ?_, ?_⟩
    · rw [← hlast, List.length_append, List.length_singleton]
      push_cast
      omega
    · rw [List.append_nil]
      rfl

/-- An index counts from the front, and a negative one from `2^32`. -/
theorem removeByIndex_ok (sp : List (Point α)) {i : ℤ} (h0 : -2 ^ 31 ≤ i) (h1 : i < 2 ^ 31) :
    ∃ o, (Op.removeByIndex i).result sp = some o ∧
      Removes sp (i % 2 ^ 32) o := by
  have hpos : 0 ≤ i % 2 ^ 32 := Int.emod_nonneg _ (by norm_num)
  obtain ⟨n, hn⟩ : ∃ n : ℕ, (n : ℤ) = i % 2 ^ 32 := ⟨(i % 2 ^ 32).toNat, Int.toNat_of_nonneg hpos⟩
  refine ⟨_, rfl, ?_⟩
  have hzero : spRemoveByIndex sp i = removeFrom i (toInt32 (0 : ℕ)) sp := rfl
  rw [hzero, ← hn]
  rcases removeFrom_ok h0 h1 hn sp (Nat.zero_le n) with ⟨A, p, C, rfl, hlen, hr⟩ | ⟨hlen, hr⟩
  · rw [hr]
    exact Or.inl ⟨A, p, C, rfl, by omega, rfl⟩
  · rw [hr]
    exact Or.inr ⟨Or.inr (by omega), rfl⟩

theorem keepsPoints_iff (sp : List (Point α)) : KeepsPoints sp ↔ sp.length ≤ 2 ^ 31 := by
  constructor
  · intro h
    by_contra hlong
    -- the smallest index is that of the node number `2^31`
    obtain ⟨o, ho, hr⟩ := h.byIndex (-2 ^ 31) le_rfl (by norm_num)
    obtain ⟨o', ho', hr'⟩ := removeByIndex_ok sp (i := -2 ^ 31) le_rfl (by norm_num)
    obtain rfl : o = o' := Option.some.inj (ho.symm.trans ho')
    have hnone : o = ⟨0, none, sp⟩ := by
      rcases hr with ⟨A, p, C, -, hlen, -⟩ | ⟨-, hr⟩
      · omega
      · exact hr
    rcases hr' with ⟨A, p, C, -, -, hr'⟩ | ⟨hlen, -⟩
    · rw [hnone] at hr'
      cases hr'
    · omega
  · intro h
    refine ⟨add_ok sp, removeFirst_ok sp, removeLast_ok sp, ?_⟩
    intro i h0 h1
    obtain ⟨o, ho, hr⟩ := removeByIndex_ok sp h0 h1
    refine ⟨o, ho, ?_⟩
    by_cases hi : 0 ≤ i
    · rw [Int.emod_eq_of_lt hi (by omega)] at hr
      exact hr
    · rcases hr with ⟨A, p, C, rfl, hlen, -⟩ | ⟨-, hr⟩
      · rw [List.length_append, List.length_cons] at h
        omega
      · exact Or.inr ⟨Or.inl (by omega), hr⟩

/-! ### Runs -/

/-- The nodes that `sp_delete_duplicates` frees behind `pre`. -/
def freedFrom (pre : Point α) : List (Point α) → List (Point α)
  | [] => []
  | temp :: rest =>
    if pre.x = temp.x ∧ pre.y = temp.y then temp :: freedFrom pre rest else freedFrom temp rest

/-- The point that an operation adds. -/
def Op.adds : Op α → Multiset (Point α)
  | .addPoint x y => {⟨x, y⟩}
  | _ => 0

/-- The points that an operation takes out: the one reported, or those freed. -/
def Op.takes (sp : List (Point α)) (ret : Option (Point α)) : Op α → Multiset (Point α)
  | .addPoint _ _ => 0
  | .deleteDuplicates => sp.head?.elim 0 fun pre => (freedFrom pre sp.tail : Multiset (Point α))
  | _ => (ret.toList : Multiset (Point α))

/-- The list, and the points added and taken out so far. -/
structure Account (α : Type) where
  list : List (Point α)
  added : Multiset (Point α)
  taken : Multiset (Point α)

def Account.step (s : Account α) (op : Op α) : Option (Account α) :=
  (op.result s.list).map fun o =>
    ⟨o.list, s.added + op.adds, s.taken + op.takes s.list o.ret⟩

/-- The account of a run from `sp_init`. -/
def accountAfter (ops : List (Op α)) : Option (Account α) := runAll Account.step ⟨[], 0, 0⟩ ops

omit [CommRing α] in
theorem freedFrom_perm (pre : Point α) (rest : List (Point α)) :
    ((deleteFrom pre rest).1 ++ freedFrom pre rest).Perm rest := by
  induction rest generalizing pre with
  | nil => exact List.Perm.refl _
  | cons temp rest ih =>
    unfold deleteFrom freedFrom
    split
    · exact List.perm_middle.trans ((ih pre).cons temp)
    · exact (ih temp).cons temp

omit [CommRing α] [LinearOrder α] in
theorem removeFrom_perm {index count : ℤ} {r : Point α × List (Point α)}
    (h : removeFrom index count sp = some r) : (r.1 :: r.2).Perm sp := by
  induction sp generalizing count r with
  | nil => cases h
  | cons temp rest ih =>
    unfold removeFrom at h
    split at h
    · cases h
      exact List.Perm.refl _
    · obtain ⟨r', hr', rfl⟩ := Option.map_eq_some_iff.1 h
      exact (List.Perm.swap temp r'.1 r'.2).trans ((ih hr').cons temp)

omit [CommRing α] [LinearOrder α] in
/-- A removal takes out the point that it reports. -/
theorem removal_balance {r : Option (Point α × List (Point α))}
    (h : ∀ r', r = some r' → (r'.1 :: r'.2).Perm sp) :
    ((removal sp r).list : Multiset (Point α)) + ((removal sp r).ret.toList : Multiset (Point α)) =
      sp := by
  cases r with
  | none => exact add_zero _
  | some r =>
    obtain ⟨p, sp'⟩ := r
    show (sp' : Multiset (Point α)) + ([p] : List (Point α)) = sp
    rw [Multiset.coe_add, Multiset.coe_eq_coe]
    exact (List.perm_append_singleton p sp').trans (h _ rfl)

/-- **A step of the account.** -/
theorem step_balance (sp : List (Point α)) (op : Op α) : ∃ o, op.result sp = some o ∧
    (o.list : Multiset (Point α)) + op.takes sp o.ret = (sp : Multiset (Point α)) + op.adds := by
  cases op with
  | addPoint x y =>
    obtain ⟨A, C, rfl, ho⟩ := add_ok sp x y
    refine ⟨_, ho, ?_⟩
    show ((A ++ ⟨x, y⟩ :: C : List (Point α)) : Multiset (Point α)) + 0 =
      (A ++ C : List (Point α)) + ([⟨x, y⟩] : List (Point α))
    rw [add_zero, Multiset.coe_add, Multiset.coe_eq_coe]
    exact List.perm_middle.trans (List.perm_append_singleton _ _).symm
  | removeFirst =>
    refine ⟨_, rfl, (removal_balance ?_).trans (add_zero _).symm⟩
    intro r hr
    cases sp with
    | nil => cases hr
    | cons temp rest =>
      cases hr
      exact List.Perm.refl _
  | removeLast =>
    refine ⟨_, rfl, (removal_balance ?_).trans (add_zero _).symm⟩
    intro r hr
    cases sp with
    | nil => cases hr
    | cons temp rest =>
      cases hr
      rw [← removeLastFrom_ok temp rest]
      exact (List.perm_append_singleton _ _).symm
  | removeByIndex i =>
    refine ⟨_, rfl, (removal_balance ?_).trans (add_zero _).symm⟩
    intro r hr
    exact removeFrom_perm hr
  | deleteDuplicates =>
    refine ⟨_, rfl, ?_⟩
    cases sp with
    | nil => rfl
    | cons pre rest =>
      show ((pre :: (deleteFrom pre rest).1 : List (Point α)) : Multiset (Point α)) +
        (freedFrom pre rest : Multiset (Point α)) = (pre :: rest : List (Point α)) + 0
      rw [add_zero, Multiset.coe_add]
      exact Multiset.coe_eq_coe.2 ((freedFrom_perm pre rest).cons pre)

/-- **No point is lost or invented.** In every run the points in the list and those taken out are
those added; and the operations do with the list what they are to do if and only if it has at most
`2^31` nodes. -/
theorem points_balance (ops : List (Op α)) : ∃ s, accountAfter ops = some s ∧
    listAfter ops = some s.list ∧ (s.list : Multiset (Point α)) + s.taken = s.added ∧
    (KeepsPoints s.list ↔ s.list.length ≤ 2 ^ 31) := by
  suffices h : ∃ s, accountAfter ops = some s ∧ listAfter ops = some s.list ∧
      (s.list : Multiset (Point α)) + s.taken = s.added by
    obtain ⟨s, hs, hlist, hbal⟩ := h
    exact ⟨s, hs, hlist, hbal, keepsPoints_iff s.list⟩
  -- by induction on the run, with the account balanced before each operation
  induction ops using List.reverseRecOn with
  | nil => exact ⟨⟨[], 0, 0⟩, rfl, rfl, rfl⟩
  | append_singleton ops op ih =>
    obtain ⟨s, hs, hlist, hbal⟩ := ih
    obtain ⟨o, ho, hstep⟩ := step_balance s.list op
    refine ⟨⟨o.list, s.added + op.adds, s.taken + op.takes s.list o.ret⟩, ?_, ?_, ?_⟩
    · unfold accountAfter at hs ⊢
      rw [runAll_concat, hs, Option.bind_some, Account.step, ho]
      rfl
    · rw [listAfter_concat hlist, ← result_list, ho]
      rfl
    · show (o.list : Multiset (Point α)) + (s.taken + op.takes s.list o.ret) = s.added + op.adds
      rw [add_left_comm, hstep, ← hbal, ← add_assoc, add_comm s.taken]

/-- Points are added one by one. -/
theorem listAfter_replicate (n : ℕ) (x y : α) : ∃ sp : List (Point α),
    listAfter (List.replicate n (.addPoint x y)) = some sp ∧ sp.length = n := by
  induction n with
  | zero => exact ⟨[], rfl, rfl⟩
  | succ n ih =>
    obtain ⟨sp, hsp, hlen⟩ := ih
    obtain ⟨A, C, rfl, hs⟩ := scan_split ⟨x, y⟩ .distance sp
    refine ⟨A ++ ⟨x, y⟩ :: C, ?_, ?_⟩
    · rw [List.replicate_succ', listAfter_concat hsp]
      exact (addPoint_scan _ x y).trans (congrArg some hs)
    · rw [List.length_append] at hlen
      rw [List.length_append, List.length_cons]
      omega

/-- In a list of `2^31 + 1` points the index `-2^31` is that of the last one. -/
theorem negative_index_removes : ∃ sp : List (Point ℚ),
    listAfter (List.replicate (2 ^ 31 + 1) (.addPoint 0 0)) = some sp ∧
      (∃ p sp', (Op.removeByIndex (-2 ^ 31)).result sp = some ⟨1, some p, sp'⟩) ∧
      ¬KeepsPoints sp := by
  obtain ⟨sp, hsp, hlen⟩ := listAfter_replicate (2 ^ 31 + 1) (0 : ℚ) 0
  refine ⟨sp, hsp, ?_, ?_⟩
  · obtain ⟨o, ho, hr⟩ := removeByIndex_ok sp (i := -2 ^ 31) le_rfl (by norm_num)
    rcases hr with ⟨A, p, C, -, -, rfl⟩ | ⟨h, -⟩
    · exact ⟨p, A ++ C, ho⟩
    · omega
  · rw [keepsPoints_iff]
    omega

end OSLab.Warmup
