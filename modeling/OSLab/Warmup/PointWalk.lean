import OSLab.Warmup.SortedPoints
import Mathlib.Data.Prod.Lex
import Mathlib.Order.Basic

/-!
# The walk of `sp_add_point`

The nested loops of `sp_add_point` go along the list once. What a node does to the new point
depends on what the loop is comparing when it gets there: distances, `x` alone (a node of the
same distance to the left was passed), or `y` alone (a node straight below was passed).

* `addPoint_scan`: `sp_add_point` puts the new point where `scan` does.
* `scan_split`: that is between two nodes or at an end, and `scan_apart`: never between two
  nodes of one point.
-/

namespace OSLab.Warmup

variable {α : Type} [CommRing α] [LinearOrder α] {p q new t temp : Point α}
  {passed rest A C : List (Point α)} {key : Point α → α} {c : Cursor α} {fuel : ℕ}

/-! ### The order -/

namespace Point

/-- The distance, `x` and `y`, compared in this order. -/
def order (p : Point α) : α ×ₗ (α ×ₗ α) := toLex (p.originDist, toLex (p.x, p.y))

omit [LinearOrder α] in
theorem order_injective : Function.Injective (order : Point α → α ×ₗ (α ×ₗ α)) := by
  rintro ⟨x, y⟩ ⟨x', y'⟩ h
  have h1 := congrArg (fun o => (ofLex (ofLex o).2)) h
  obtain ⟨rfl, rfl⟩ := Prod.mk.inj h1
  rfl

instance : LinearOrder (Point α) := LinearOrder.lift' order order_injective

theorem lt_iff : p < q ↔ p.originDist < q.originDist ∨ p.originDist = q.originDist ∧
    (p.x < q.x ∨ p.x = q.x ∧ p.y < q.y) := by
  show p.order < q.order ↔ _
  unfold order
  rw [Prod.Lex.toLex_lt_toLex, Prod.Lex.toLex_lt_toLex]

theorem dist_le (h : p ≤ q) : p.originDist ≤ q.originDist := by
  by_contra hn
  exact absurd h (not_le.2 (lt_iff.2 (Or.inl (not_le.1 hn))))

end Point

/-! ### The walk -/

/-- What is compared at the next node. -/
inductive Comparing
  | distance
  | onlyX
  | onlyY
  deriving DecidableEq

/-- A node that is not the last one, when distances are compared: what is compared behind it, or
`none` if the new point goes in front of it. -/
def passFar (p q : Point α) : Option Comparing :=
  if q.originDist < p.originDist then some .distance
  else if q.originDist = p.originDist ∧ q.x < p.x then some .onlyX
  else if q.originDist = p.originDist ∧ q.x = p.x ∧ q.y < p.y then some .onlyY
  else none

/-- The same when anything may be compared. The walk by `x` ends at a node of another distance, and
the one by `y` too, but it starts again from a node of the same `y`. -/
def pass (p : Point α) : Comparing → Point α → Option Comparing
  | .distance, q => passFar p q
  | .onlyX, q => if q.originDist = p.originDist then passFar p q else none
  | .onlyY, q =>
    if q.originDist = p.originDist ∧ q.y < p.y then some .onlyY
    else if q.y = p.y then passFar p q
    else none

/-- The new point goes behind `q`, the last node. Its distance is not compared. -/
def GoesBehind (p : Point α) : Comparing → Point α → Prop
  | .distance, _ => True
  | .onlyX, q => q.x < p.x ∨ q.x = p.x ∧ q.y < p.y
  | .onlyY, q => q.y < p.y ∨ q.y = p.y ∧ q.x ≠ p.x

instance (p : Point α) (m : Comparing) (q : Point α) : Decidable (GoesBehind p m q) := by
  cases m <;> unfold GoesBehind <;> infer_instance

/-- The list with the new point, from where `m` is compared. -/
def scan (p : Point α) : Comparing → List (Point α) → List (Point α)
  | _, [] => [p]
  | m, [q] => if GoesBehind p m q then [q, p] else [p, q]
  | m, q :: t :: rest =>
    match pass p m q with
    | some m' => q :: scan p m' (t :: rest)
    | none => p :: q :: t :: rest

variable {m m' : Comparing}

theorem passFar_near (h : q.originDist < p.originDist) : passFar p q = some .distance := by
  unfold passFar
  rw [if_pos h]

theorem passFar_left (hd : q.originDist = p.originDist) (hx : q.x < p.x) :
    passFar p q = some .onlyX := by
  unfold passFar
  rw [if_neg hd.not_lt, if_pos ⟨hd, hx⟩]

theorem passFar_below (hd : q.originDist = p.originDist) (hx : q.x = p.x) (hy : q.y < p.y) :
    passFar p q = some .onlyY := by
  unfold passFar
  rw [if_neg hd.not_lt, if_neg fun h => hx.not_lt h.2, if_pos ⟨hd, hx, hy⟩]

theorem passFar_stop (h : p ≤ q) : passFar p q = none := by
  have hn := not_lt.2 h
  rw [Point.lt_iff] at hn
  unfold passFar
  rw [if_neg fun hd => hn (Or.inl hd), if_neg fun hx => hn (Or.inr ⟨hx.1, Or.inl hx.2⟩),
    if_neg fun hy => hn (Or.inr ⟨hy.1, Or.inr hy.2⟩)]

theorem scan_behind (h : GoesBehind p m q) : scan p m [q] = [q, p] := by
  unfold scan
  exact if_pos h

theorem scan_front (h : ¬GoesBehind p m q) : scan p m [q] = [p, q] := by
  unfold scan
  exact if_neg h

theorem scan_pass (h : pass p m q = some m') :
    scan p m (q :: t :: rest) = q :: scan p m' (t :: rest) := by
  rw [scan, h]

theorem scan_stop (h : pass p m q = none) :
    scan p m (q :: t :: rest) = p :: q :: t :: rest := by
  rw [scan, h]

/-! ### The loops are the walk -/

/-- What `compareBy` does behind its walk. -/
def stopAt (key : Point α → α) (new : Point α) (c : Cursor α) :
    Option (List (Point α) ⊕ Cursor α) :=
  if key new ≠ key c.temp then
    if c.rest = [] ∧ key c.temp < key new then some (.inl (c.append new))
    else if c.passed = [] then none
    else some (.inl (c.insertBefore new))
  else some (.inr c)

theorem compareBy_lt (h : key new < key c.temp) :
    compareBy key new c = some (.inl (c.insertBefore new)) := by
  unfold compareBy
  rw [if_pos h]

theorem compareBy_stop (h : key c.temp ≤ key new) :
    compareBy key new c = stopAt key new (walk key new c.passed c.temp c.rest) := by
  unfold compareBy
  rw [if_neg (not_lt.2 h)]
  rcases lt_or_eq_of_le h with h | h
  · rw [if_pos h]
    rfl
  · rw [if_neg (by rw [h]; exact lt_irrefl _)]
    have hw : walk key new c.passed c.temp c.rest = c := by
      obtain ⟨passed, temp, rest⟩ := c
      cases rest with
      | nil => rfl
      | cons t rest => rw [walk, if_neg (by rintro ⟨-, hlt⟩; exact hlt.ne h)]
    rw [hw, stopAt, if_neg (not_not.2 h.symm)]

/-- The turn of the loop after `x` was compared. -/
def endTurn (new : Point α) (fuel : ℕ) (c : Cursor α) : Option (List (Point α)) :=
  match compareBy Point.y new c with
  | none => none
  | some (.inl sp) => some sp
  | some (.inr c) =>
    if new.x = c.temp.x ∧ new.y = c.temp.y then some (c.insertBefore new) else addLoop new fuel c

/-- A turn at a node of the same distance. -/
theorem addLoop_same (h : new.originDist = temp.originDist) :
    addLoop new (fuel + 1) ⟨passed, temp, t :: rest⟩ =
      match compareBy Point.x new ⟨passed, temp, t :: rest⟩ with
      | none => none
      | some (.inl sp) => some sp
      | some (.inr c) => endTurn new fuel c := by
  rw [addLoop, if_neg (by rw [h]; exact lt_irrefl _), if_neg (by rw [h]; exact lt_irrefl _)]
  unfold compareSame endTurn
  rcases compareBy Point.x new ⟨passed, temp, t :: rest⟩ with _ | sp | c
  · rfl
  · rfl
  · simp only
    rcases compareBy Point.y new c with _ | sp | c
    · rfl
    · rfl
    · simp only
      by_cases he : new.x = c.temp.x ∧ new.y = c.temp.y
      · rw [if_pos he, if_pos he]
      · rw [if_neg he, if_neg he]

theorem addLoop_last : addLoop new fuel ⟨passed, temp, []⟩ =
    some (passed.reverse ++ [temp, new]) := by
  unfold addLoop Cursor.append
  rfl

/-- What the turn does after a walk by `x`, and after one by `y`. -/
def afterX (new : Point α) (fuel : ℕ) (c : Cursor α) : Option (List (Point α)) :=
  match stopAt Point.x new c with
  | none => none
  | some (.inl sp) => some sp
  | some (.inr c) => endTurn new fuel c

@[inherit_doc afterX]
def afterY (new : Point α) (fuel : ℕ) (c : Cursor α) : Option (List (Point α)) :=
  match stopAt Point.y new c with
  | none => none
  | some (.inl sp) => some sp
  | some (.inr c) =>
    if new.x = c.temp.x ∧ new.y = c.temp.y then some (c.insertBefore new) else addLoop new fuel c

theorem addLoop_walk (hd : new.originDist = temp.originDist) (hx : temp.x ≤ new.x) :
    addLoop new (fuel + 1) ⟨passed, temp, t :: rest⟩ =
      afterX new fuel (walk Point.x new passed temp (t :: rest)) := by
  rw [addLoop_same hd, compareBy_stop (c := ⟨passed, temp, t :: rest⟩) hx]
  rfl

theorem endTurn_walk (hy : temp.y ≤ new.y) :
    endTurn new fuel ⟨passed, temp, rest⟩ = afterY new fuel (walk Point.y new passed temp rest) := by
  unfold endTurn
  rw [compareBy_stop (c := ⟨passed, temp, rest⟩) hy]
  rfl

theorem afterX_of_ne (hne : passed ≠ []) (hx : temp.x ≠ new.x)
    (hl : ¬(rest = [] ∧ temp.x < new.x)) :
    afterX new fuel ⟨passed, temp, rest⟩ = some (passed.reverse ++ new :: temp :: rest) := by
  unfold afterX stopAt
  rw [if_pos hx.symm, if_neg hl, if_neg hne]
  rfl

theorem afterY_of_ne (hne : passed ≠ []) (hy : temp.y ≠ new.y)
    (hl : ¬(rest = [] ∧ temp.y < new.y)) :
    afterY new fuel ⟨passed, temp, rest⟩ = some (passed.reverse ++ new :: temp :: rest) := by
  unfold afterY stopAt
  rw [if_pos hy.symm, if_neg hl, if_neg hne]
  rfl

theorem afterX_last (hx : temp.x < new.x) :
    afterX new fuel ⟨passed, temp, []⟩ = some (passed.reverse ++ [temp, new]) := by
  unfold afterX stopAt
  rw [if_pos hx.ne', if_pos ⟨rfl, hx⟩]
  rfl

theorem afterY_last (hy : temp.y < new.y) :
    afterY new fuel ⟨passed, temp, []⟩ = some (passed.reverse ++ [temp, new]) := by
  unfold afterY stopAt
  rw [if_pos hy.ne', if_pos ⟨rfl, hy⟩]
  rfl

theorem afterX_of_eq (hx : temp.x = new.x) :
    afterX new fuel ⟨passed, temp, rest⟩ = endTurn new fuel ⟨passed, temp, rest⟩ := by
  unfold afterX stopAt
  rw [if_neg (not_not.2 hx.symm)]

theorem afterY_at (hx : temp.x = new.x) (hy : temp.y = new.y) :
    afterY new fuel ⟨passed, temp, rest⟩ = some (passed.reverse ++ new :: temp :: rest) := by
  unfold afterY stopAt
  rw [if_neg (not_not.2 hy.symm)]
  exact if_pos ⟨hx.symm, hy.symm⟩

theorem afterY_of_eq (hy : temp.y = new.y) (hx : temp.x ≠ new.x) :
    afterY new fuel ⟨passed, temp, rest⟩ = addLoop new fuel ⟨passed, temp, rest⟩ := by
  unfold afterY stopAt
  rw [if_neg (not_not.2 hy.symm)]
  exact if_neg fun h => hx h.1.symm

theorem endTurn_lt (hy : new.y < temp.y) :
    endTurn new fuel ⟨passed, temp, rest⟩ = some (passed.reverse ++ new :: temp :: rest) := by
  unfold endTurn
  rw [compareBy_lt (c := ⟨passed, temp, rest⟩) hy]
  rfl

/-! ### One node -/

theorem walk_pass (hd : new.originDist = temp.originDist) (h : key temp < key new) :
    walk key new passed temp (t :: rest) = walk key new (temp :: passed) t rest := by
  rw [walk, if_pos ⟨hd, h⟩]

theorem walk_stay (h : ¬(new.originDist = temp.originDist ∧ key temp < key new)) :
    walk key new passed temp (t :: rest) = ⟨passed, temp, t :: rest⟩ := by
  rw [walk, if_neg h]

/-- From `temp` on the loops do what the walk does, whatever they compare there. -/
structure Follows (new : Point α) (fuel : ℕ) (passed : List (Point α)) (temp : Point α)
    (rest : List (Point α)) : Prop where
  distance : addLoop new fuel ⟨passed, temp, rest⟩ =
    some (passed.reverse ++ scan new .distance (temp :: rest))
  onlyX : passed ≠ [] → afterX new fuel (walk Point.x new passed temp rest) =
    some (passed.reverse ++ scan new .onlyX (temp :: rest))
  onlyY : passed ≠ [] → afterY new fuel (walk Point.y new passed temp rest) =
    some (passed.reverse ++ scan new .onlyY (temp :: rest))

namespace Follows

theorem last (new : Point α) (fuel : ℕ) (passed : List (Point α)) (temp : Point α) :
    Follows new fuel passed temp [] := by
  refine ⟨addLoop_last, ?_, ?_⟩
  · intro hne
    rcases lt_trichotomy temp.x new.x with hx | hx | hx
    · rw [walk, afterX_last hx, scan_behind (m := .onlyX) (Or.inl hx)]
    · rw [walk, afterX_of_eq hx]
      rcases lt_trichotomy temp.y new.y with hy | hy | hy
      · rw [endTurn_walk hy.le, walk, afterY_last hy,
          scan_behind (m := .onlyX) (Or.inr ⟨hx, hy⟩)]
      · rw [endTurn_walk hy.le, walk, afterY_at hx hy, scan_front]
        rintro (h | h)
        · exact h.ne hx
        · exact h.2.ne hy
      · rw [endTurn_lt hy, scan_front]
        rintro (h | h)
        · exact h.ne hx
        · exact lt_asymm hy h.2
    · rw [walk, afterX_of_ne hne hx.ne' (fun h => lt_asymm hx h.2), scan_front]
      rintro (h | h)
      · exact lt_asymm hx h
      · exact hx.ne' h.1
  · intro hne
    rcases lt_trichotomy temp.y new.y with hy | hy | hy
    · rw [walk, afterY_last hy, scan_behind (m := .onlyY) (Or.inl hy)]
    · by_cases hx : temp.x = new.x
      · rw [walk, afterY_at hx hy, scan_front]
        rintro (h | h)
        · exact h.ne hy
        · exact h.2 hx
      · rw [walk, afterY_of_eq hy hx, addLoop_last, scan_behind (m := .onlyY) (Or.inr ⟨hy, hx⟩)]
    · rw [walk, afterY_of_ne hne hy.ne' (fun h => lt_asymm hy h.2), scan_front]
      rintro (h | h)
      · exact lt_asymm hy h
      · exact hy.ne' h.1

/-- When the node in front of it is passed. -/
theorem behind {r : Option (List (Point α))}
    (h : r = some ((temp :: passed).reverse ++ scan new m rest)) :
    r = some (passed.reverse ++ temp :: scan new m rest) := by
  rw [h, List.reverse_cons, List.append_assoc]
  rfl

variable (ih : ∀ fuel, rest.length ≤ fuel → Follows new fuel (temp :: passed) t rest)
include ih

/-- The comparison of `y` at a node of the same distance and `x`. -/
theorem sameX (hm : pass new m temp = passFar new temp) (hf : rest.length ≤ fuel)
    (hd : new.originDist = temp.originDist) (hx : temp.x = new.x) :
    endTurn new fuel ⟨passed, temp, t :: rest⟩ =
      some (passed.reverse ++ scan new m (temp :: t :: rest)) := by
  rcases lt_trichotomy temp.y new.y with hy | hy | hy
  · rw [endTurn_walk hy.le, walk_pass hd hy,
      scan_pass (hm.trans (passFar_below hd.symm hx hy))]
    exact behind ((ih fuel hf).onlyY (List.cons_ne_nil _ _))
  · obtain rfl : temp = new := Point.ext hx hy
    rw [endTurn_walk le_rfl, walk_stay (fun h => lt_irrefl _ h.2), afterY_at rfl rfl,
      scan_stop (hm.trans (passFar_stop le_rfl))]
  · have hlt : new < temp := Point.lt_iff.2 (Or.inr ⟨hd, Or.inr ⟨hx.symm, hy⟩⟩)
    rw [endTurn_lt hy, scan_stop (hm.trans (passFar_stop hlt.le))]

/-- A turn of the outer loop. -/
theorem far (hf : rest.length ≤ fuel) :
    addLoop new (fuel + 1) ⟨passed, temp, t :: rest⟩ =
      some (passed.reverse ++ scan new .distance (temp :: t :: rest)) := by
  rcases lt_trichotomy temp.originDist new.originDist with hd | hd | hd
  · rw [addLoop, if_pos hd, scan_pass (m := .distance) (passFar_near hd)]
    exact behind (ih fuel hf).distance
  · rcases lt_trichotomy temp.x new.x with hx | hx | hx
    · rw [addLoop_walk hd.symm hx.le, walk_pass hd.symm hx,
        scan_pass (m := .distance) (passFar_left hd hx)]
      exact behind ((ih fuel hf).onlyX (List.cons_ne_nil _ _))
    · rw [addLoop_walk hd.symm hx.le, walk_stay (fun h => hx.not_lt h.2), afterX_of_eq hx]
      exact sameX ih (m := .distance) rfl hf hd.symm hx
    · have hlt : new < temp := Point.lt_iff.2 (Or.inr ⟨hd.symm, Or.inl hx⟩)
      rw [addLoop_same hd.symm, compareBy_lt (c := ⟨passed, temp, t :: rest⟩) hx,
        scan_stop (m := .distance) (passFar_stop hlt.le)]
      rfl
  · have hlt : new < temp := Point.lt_iff.2 (Or.inl hd)
    rw [addLoop, if_neg (lt_asymm hd), if_pos hd, scan_stop (m := .distance) (passFar_stop hlt.le)]
    rfl

/-- The walk by `x`, where it has passed a node. -/
theorem byX (hf : rest.length ≤ fuel) (hne : passed ≠ []) :
    afterX new fuel (walk Point.x new passed temp (t :: rest)) =
      some (passed.reverse ++ scan new .onlyX (temp :: t :: rest)) := by
  have hnl : ∀ {P : Prop}, ¬(t :: rest = [] ∧ P) := fun h => absurd h.1 (List.cons_ne_nil _ _)
  by_cases hd : temp.originDist = new.originDist
  · have hm : pass new .onlyX temp = passFar new temp := if_pos hd
    rcases lt_trichotomy temp.x new.x with hx | hx | hx
    · rw [walk_pass hd.symm hx, scan_pass (hm.trans (passFar_left hd hx))]
      exact behind ((ih fuel hf).onlyX (List.cons_ne_nil _ _))
    · rw [walk_stay (fun h => hx.not_lt h.2), afterX_of_eq hx]
      exact sameX ih hm hf hd.symm hx
    · have hlt : new < temp := Point.lt_iff.2 (Or.inr ⟨hd.symm, Or.inl hx⟩)
      rw [walk_stay (fun h => lt_asymm hx h.2), afterX_of_ne hne hx.ne' hnl,
        scan_stop (hm.trans (passFar_stop hlt.le))]
  · -- neither this walk nor the one by `y` gets past a node of another distance
    rw [walk_stay (fun h => hd h.1.symm), scan_stop (m := .onlyX) (if_neg hd)]
    by_cases hx : temp.x = new.x
    · rw [afterX_of_eq hx]
      rcases lt_trichotomy temp.y new.y with hy | hy | hy
      · rw [endTurn_walk hy.le, walk_stay (fun h => hd h.1.symm), afterY_of_ne hne hy.ne hnl]
      · obtain rfl : temp = new := Point.ext hx hy
        exact absurd rfl hd
      · rw [endTurn_lt hy]
    · rw [afterX_of_ne hne hx hnl]

/-- The walk by `y`. -/
theorem byY (hf : rest.length ≤ fuel) (hne : passed ≠ [])
    (hfar : addLoop new fuel ⟨passed, temp, t :: rest⟩ =
      some (passed.reverse ++ scan new .distance (temp :: t :: rest))) :
    afterY new fuel (walk Point.y new passed temp (t :: rest)) =
      some (passed.reverse ++ scan new .onlyY (temp :: t :: rest)) := by
  by_cases hy : new.originDist = temp.originDist ∧ temp.y < new.y
  · have hm : pass new .onlyY temp = some .onlyY := if_pos ⟨hy.1.symm, hy.2⟩
    rw [walk_pass hy.1 hy.2, scan_pass hm]
    exact behind ((ih fuel hf).onlyY (List.cons_ne_nil _ _))
  · have hm : pass new .onlyY temp = if temp.y = new.y then passFar new temp else none :=
      if_neg fun h => hy ⟨h.1.symm, h.2⟩
    rw [walk_stay hy]
    by_cases he : temp.y = new.y
    · rw [if_pos he] at hm
      by_cases hx : temp.x = new.x
      · obtain rfl : temp = new := Point.ext hx he
        rw [afterY_at rfl rfl, scan_stop (hm.trans (passFar_stop le_rfl))]
      · -- nothing has moved: the outer loop goes on at this node
        rw [afterY_of_eq he hx, hfar, scan, scan, hm]
        rfl
    · rw [if_neg he] at hm
      rw [afterY_of_ne hne he (fun h => absurd h.1 (List.cons_ne_nil _ _)), scan_stop hm]

end Follows

/-- **The loops are the walk**, by induction on the nodes in front of them. -/
theorem loops_follow (new : Point α) (passed : List (Point α)) (temp : Point α)
    (rest : List (Point α)) (hf : rest.length ≤ fuel) : Follows new fuel passed temp rest := by
  induction rest generalizing passed temp fuel with
  | nil => exact Follows.last new fuel passed temp
  | cons t rest ih =>
    obtain ⟨fuel, rfl⟩ := Nat.exists_eq_add_of_le' (Nat.le_of_add_left_le hf)
    rw [List.length_cons, Nat.succ_le_succ_iff] at hf
    have ih : ∀ fuel, rest.length ≤ fuel → Follows new fuel (temp :: passed) t rest := by
      intro fuel hf
      exact ih (temp :: passed) t hf
    have hfar := Follows.far ih hf
    refine ⟨hfar, ?_, ?_⟩
    · intro hne
      exact Follows.byX ih (by omega) hne
    · intro hne
      exact Follows.byY ih (by omega) hne hfar

/-- **`sp_add_point` ends**, with the new point where the walk puts it. -/
theorem addPoint_scan (sp : List (Point α)) (x y : α) :
    spAddPoint sp x y = some (scan ⟨x, y⟩ .distance sp) := by
  cases sp with
  | nil => rfl
  | cons temp rest => exact (loops_follow ⟨x, y⟩ [] temp rest le_rfl).distance

/-! ### Where the walk puts the new point -/

theorem passFar_ne (h : passFar p q = some m) : q ≠ p := by
  rintro rfl
  rw [passFar_stop le_rfl] at h
  cases h

/-- A node at the new point stops the walk. -/
theorem pass_self (p : Point α) (m : Comparing) : pass p m p = none := by
  cases m with
  | distance => exact passFar_stop le_rfl
  | onlyX => exact (if_pos rfl).trans (passFar_stop le_rfl)
  | onlyY =>
    exact (if_neg fun h => lt_irrefl _ h.2).trans ((if_pos rfl).trans (passFar_stop le_rfl))

/-- A node that the walk passes, it passes also when it is the last one. -/
theorem pass_goesBehind (h : pass p m q = some m') : GoesBehind p m q := by
  cases m with
  | distance => trivial
  | onlyX =>
    simp only [pass] at h
    by_cases hd : q.originDist = p.originDist
    · rw [if_pos hd] at h
      unfold passFar at h
      rw [if_neg hd.not_lt] at h
      by_cases hx : q.originDist = p.originDist ∧ q.x < p.x
      · exact Or.inl hx.2
      · rw [if_neg hx] at h
        by_cases hy : q.originDist = p.originDist ∧ q.x = p.x ∧ q.y < p.y
        · exact Or.inr hy.2
        · rw [if_neg hy] at h
          cases h
    · rw [if_neg hd] at h
      cases h
  | onlyY =>
    simp only [pass] at h
    by_cases hy : q.originDist = p.originDist ∧ q.y < p.y
    · exact Or.inl hy.2
    · rw [if_neg hy] at h
      by_cases he : q.y = p.y
      · rw [if_pos he] at h
        exact Or.inr ⟨he, fun hx => passFar_ne h (Point.ext hx he)⟩
      · rw [if_neg he] at h
        cases h

/-- It goes on behind the nodes that it passes. -/
theorem scan_over (h : A.foldlM (pass p) m = some m') : scan p m (A ++ C) = A ++ scan p m' C := by
  induction A generalizing m with
  | nil =>
    cases h
    rfl
  | cons q A ih =>
    rw [List.foldlM_cons, Option.bind_eq_bind, Option.bind_eq_some_iff] at h
    obtain ⟨m₁, hq, hA⟩ := h
    cases hAC : A ++ C with
    | nil =>
      obtain ⟨rfl, rfl⟩ := List.append_eq_nil_iff.1 hAC
      exact scan_behind (pass_goesBehind hq)
    | cons t rest => rw [List.cons_append, hAC, scan_pass hq, ← hAC, ih hA, List.cons_append]

/-- A node that was passed is passed again. -/
theorem pass_again (h : pass p m q = some m') : pass p m' q = some m' := by
  have hfar : ∀ {m'}, passFar p q = some m' → pass p m' q = some m' := by
    intro m' h
    unfold passFar at h
    split at h
    · cases h
      exact passFar_near ‹_›
    · split at h
      · rename_i hx
        cases h
        exact (if_pos hx.1).trans (passFar_left hx.1 hx.2)
      · split at h
        · rename_i hy
          cases h
          exact if_pos ⟨hy.1, hy.2.2⟩
        · cases h
  cases m with
  | distance => exact hfar h
  | onlyX =>
    simp only [pass] at h
    split at h
    · exact hfar h
    · cases h
  | onlyY =>
    simp only [pass] at h
    split at h
    · cases h
      exact if_pos ‹_›
    · split at h
      · exact hfar h
      · cases h

/-- **The new point goes between two nodes or to an end**, and never between two nodes of the same
point: it would not stop at the second. -/
theorem scan_apart (p : Point α) (m : Comparing) (sp : List (Point α)) :
    ∃ A C, A ++ C = sp ∧ scan p m sp = A ++ p :: C ∧
      ∀ A' q C', A = A' ++ [q] → C ≠ q :: C' := by
  have hnil : ∀ {A' : List (Point α)} {q}, [] ≠ A' ++ [q] := by
    intro A' q h
    exact List.append_ne_nil_of_right_ne_nil _ (List.cons_ne_nil _ _) h.symm
  induction sp generalizing m with
  | nil => exact ⟨[], [], rfl, rfl, fun _ _ _ h => absurd h hnil⟩
  | cons q rest ih =>
    cases rest with
    | nil =>
      by_cases h : GoesBehind p m q
      · exact ⟨[q], [], rfl, scan_behind h, fun _ _ _ _ h => by cases h⟩
      · exact ⟨[], [q], rfl, scan_front h, fun _ _ _ h => absurd h hnil⟩
    | cons t rest =>
      cases h : pass p m q with
      | none => exact ⟨[], q :: t :: rest, rfl, scan_stop h, fun _ _ _ h => absurd h hnil⟩
      | some m' =>
        obtain ⟨A, C, hA, hs, hapart⟩ := ih m'
        refine ⟨q :: A, C, by rw [List.cons_append, hA], by rw [scan_pass h, hs]; rfl, ?_⟩
        intro A' q' C' hA' hC
        cases A with
        | nil =>
          obtain ⟨rfl, -⟩ : A' = [] ∧ q = q' := by
            cases A' with
            | nil => exact ⟨rfl, (List.cons.inj hA').1⟩
            | cons a A' => exact absurd (List.cons.inj hA').2 hnil
          obtain rfl : q = q' := (List.cons.inj hA').1
          -- the next node is the same one, so it is passed, too
          have hover : [q].foldlM (pass p) m' = some m' := by
            rw [List.foldlM_cons, pass_again h]
            rfl
          rw [← hA, hC, List.nil_append, List.nil_append] at hs
          have hq : q = p := (List.cons.inj ((scan_over (C := C') hover).symm.trans hs)).1
          rw [hq, pass_self] at h
          cases h
        | cons a A =>
          cases A' with
          | nil => cases (List.cons.inj hA').2
          | cons a' A' => exact hapart A' q' C' (List.cons.inj hA').2 hC

theorem scan_split (p : Point α) (m : Comparing) (sp : List (Point α)) :
    ∃ A C, A ++ C = sp ∧ scan p m sp = A ++ p :: C := by
  obtain ⟨A, C, hA, hs, -⟩ := scan_apart p m sp
  exact ⟨A, C, hA, hs⟩

/-- In front of a node at the new point: it gets there, or stops at one on the way. -/
theorem scan_member (p : Point α) (m : Comparing) (N R : List (Point α)) :
    N.foldlM (pass p) m ≠ none ∧ scan p m (N ++ p :: R) = N ++ p :: p :: R ∨
      N.foldlM (pass p) m = none ∧ ∃ A t C, N = A ++ t :: C ∧
        scan p m (N ++ p :: R) = A ++ p :: t :: (C ++ p :: R) := by
  induction N generalizing m with
  | nil =>
    refine Or.inl ⟨by rintro ⟨⟩, ?_⟩
    cases R with
    | nil =>
      by_cases h : GoesBehind p m p
      · exact scan_behind h
      · exact scan_front h
    | cons t R => exact scan_stop (pass_self p m)
  | cons q N ih =>
    obtain ⟨t, rest, ht⟩ : ∃ t rest, N ++ p :: R = t :: rest :=
      List.exists_cons_of_ne_nil (by simp)
    rw [List.cons_append, List.foldlM_cons, Option.bind_eq_bind]
    cases h : pass p m q with
    | none =>
      refine Or.inr ⟨rfl, [], q, N, rfl, ?_⟩
      rw [ht, scan_stop h]
      rfl
    | some m' =>
      rw [Option.bind_some, ht, scan_pass h, ← ht]
      rcases ih m' with ⟨hN, hs⟩ | ⟨hN, A, t, C, rfl, hs⟩
      · exact Or.inl ⟨hN, by rw [hs, List.cons_append]⟩
      · exact Or.inr ⟨hN, q :: A, t, C, rfl, by rw [hs, List.cons_append]⟩

end OSLab.Warmup
