import OSLab.Lib.Machine
import OSLab.Lib.Prog
import Mathlib.Algebra.Ring.Defs
import Mathlib.Order.Lattice
import Mathlib.Tactic.Common

/-!
# The sorted list of points (`warmup/sorted_points.c`)

A `struct sorted_points` is the list of its nodes. Coordinates are exact numbers of an
ordered ring, and `origin_dist` is the square of the distance, which orders the points as the
distance does. Memory is always available, and freeing a node has no effect but to unlink it.
The `int` counters wrap around.

`sp_add_point` walks along the list with two pointers, `temp` and the node `pre` before it: a
`Cursor`. Storing through `pre` when it is `NULL` aborts. The loop takes the number of turns
it may use.
-/

namespace OSLab.Warmup

/-- `struct point`. -/
@[ext] structure Point (α : Type) where
  x : α
  y : α
  deriving DecidableEq, Repr

variable {α : Type} [CommRing α] [LinearOrder α]

/-- `origin_dist`, squared. -/
def Point.originDist (p : Point α) : α := p.y ^ 2 + p.x ^ 2

/-- Where `sp_add_point` is in the list: `temp`, the nodes behind it, and those before it, the
last (`pre`) first. -/
structure Cursor (α : Type) where
  passed : List (Point α)
  temp : Point α
  rest : List (Point α)

namespace Cursor

/-- `new_point` between `pre` and `temp`. -/
def insertBefore (c : Cursor α) (new : Point α) : List (Point α) :=
  c.passed.reverse ++ new :: c.temp :: c.rest

/-- `temp->next = new_point`. -/
def append (c : Cursor α) (new : Point α) : List (Point α) := c.passed.reverse ++ [c.temp, new]

end Cursor

/-- `while (temp->next != NULL && origin_dist is equal && key(new_point) > key(temp))`. -/
def walk (key : Point α → α) (new : Point α) (passed : List (Point α)) (temp : Point α) :
    List (Point α) → Cursor α
  | [] => ⟨passed, temp, []⟩
  | t :: rest =>
    if new.originDist = temp.originDist ∧ key temp < key new
    then walk key new (temp :: passed) t rest
    else ⟨passed, temp, t :: rest⟩

/-- The comparison of one coordinate of two points at the same distance. It returns the new list,
or where to go on when the coordinates agree. -/
def compareBy (key : Point α → α) (new : Point α) (c : Cursor α) :
    Option (List (Point α) ⊕ Cursor α) :=
  if key new < key c.temp then some (.inl (c.insertBefore new))
  else if key c.temp < key new then
    let c := walk key new c.passed c.temp c.rest
    if key new ≠ key c.temp then
      if c.rest = [] ∧ key c.temp < key new then some (.inl (c.append new))
      -- `pre->next = new_point`
      else if c.passed = [] then none
      else some (.inl (c.insertBefore new))
    else some (.inr c)
  else some (.inr c)

/-- The branch for the same distance: first `x`, then `y`. -/
def compareSame (new : Point α) (c : Cursor α) : Option (List (Point α) ⊕ Cursor α) :=
  match compareBy Point.x new c with
  | some (.inr c) =>
    match compareBy Point.y new c with
    | some (.inr c) =>
      if new.x = c.temp.x ∧ new.y = c.temp.y then some (.inl (c.insertBefore new))
      else some (.inr c)
    | r => r
  | r => r

/-- The loop of `sp_add_point`. Behind it the new point is appended. -/
def addLoop (new : Point α) : ℕ → Cursor α → Option (List (Point α))
  | _, ⟨passed, temp, []⟩ => some (Cursor.append ⟨passed, temp, []⟩ new)
  | 0, _ => none
  | fuel + 1, ⟨passed, temp, t :: rest⟩ =>
    if temp.originDist < new.originDist then addLoop new fuel ⟨temp :: passed, t, rest⟩
    else if new.originDist < temp.originDist
    then some (Cursor.insertBefore ⟨passed, temp, t :: rest⟩ new)
    else match compareSame new ⟨passed, temp, t :: rest⟩ with
      | none => none
      | some (.inl sp) => some sp
      | some (.inr c) => addLoop new fuel c

/-- `sp_add_point`, which returns 1: behind the loop `temp->next` is `NULL`, so that `return 0` is
not reached. -/
def spAddPoint (sp : List (Point α)) (x y : α) : Option (List (Point α)) :=
  match sp with
  | [] => some [⟨x, y⟩]
  | temp :: rest => addLoop ⟨x, y⟩ rest.length ⟨[], temp, rest⟩

omit [CommRing α] [LinearOrder α]

/-- `sp_remove_first`: the point and the list that is left, or `none` for the result 0. -/
def spRemoveFirst : List (Point α) → Option (Point α × List (Point α))
  | [] => none
  | temp :: rest => some (temp, rest)

/-- `while (temp->next != NULL)`. -/
def removeLastFrom (temp : Point α) : List (Point α) → Point α × List (Point α)
  | [] => (temp, [])
  | t :: rest => ((removeLastFrom t rest).1, temp :: (removeLastFrom t rest).2)

/-- `sp_remove_last`. -/
def spRemoveLast : List (Point α) → Option (Point α × List (Point α))
  | [] => none
  | temp :: rest => some (removeLastFrom temp rest)

/-- `while (temp != NULL)`, with `count` nodes passed. -/
def removeFrom (index count : ℤ) : List (Point α) → Option (Point α × List (Point α))
  | [] => none
  | temp :: rest =>
    if count = index then some (temp, rest)
    else (removeFrom index (toInt32 (count + 1)) rest).map fun r => (r.1, temp :: r.2)

/-- `sp_remove_by_index`. -/
def spRemoveByIndex (sp : List (Point α)) (index : ℤ) : Option (Point α × List (Point α)) :=
  removeFrom index 0 sp

variable [DecidableEq α]

/-- `while (temp != NULL && pre != NULL)`: the list behind `pre`, and `count`. -/
def deleteFrom (pre : Point α) : List (Point α) → List (Point α) × ℤ
  | [] => ([], 0)
  | temp :: rest =>
    if pre.x = temp.x ∧ pre.y = temp.y then
      ((deleteFrom pre rest).1, toInt32 ((deleteFrom pre rest).2 + 1))
    else (temp :: (deleteFrom temp rest).1, (deleteFrom temp rest).2)

/-- `sp_delete_duplicates`. -/
def spDeleteDuplicates : List (Point α) → List (Point α) × ℤ
  | [] => ([], 0)
  | pre :: rest => (pre :: (deleteFrom pre rest).1, (deleteFrom pre rest).2)

end OSLab.Warmup
