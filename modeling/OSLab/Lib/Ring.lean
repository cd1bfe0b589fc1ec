import Mathlib.Data.List.Range
import Mathlib.Data.Nat.Notation
import Mathlib.Logic.Function.Basic
import Mathlib.Tactic.Common

/-!
# Ring buffers

An array of `size` slots, a position `out` of the oldest element and the number `n` of
elements: `Ring.contents` lists them, oldest first, wrapping at the end of the array.

* `contents_push`: writing the slot after the last element appends.
* `contents_pop`: advancing `out` drops the oldest element.
* `used_push`, `used_pop`: the number of elements as the distance between two wrapping
  positions, one slot being kept free.
-/

namespace OSLab.Ring

variable {α : Type} {buf : ℕ → α} {size inp out n : ℕ}

/-- The elements from position `out` on, oldest first. -/
def contents (buf : ℕ → α) (size out n : ℕ) : List α :=
  (List.range n).map fun k => buf ((out + k) % size)

/-- The number of elements between two positions. -/
def used (size inp out : ℕ) : ℕ := (inp + size - out) % size

@[simp] theorem contents_length : (contents buf size out n).length = n := by
  simp [contents]

/-- Different offsets below `size` are different slots. -/
theorem slot_ne {a b : ℕ} (hab : a < b) (hb : b < size) :
    (out + a) % size ≠ (out + b) % size := by
  intro h
  have hd : (b - a) % size = 0 := by
    have := Nat.sub_mod_eq_zero_of_mod_eq h.symm
    rwa [Nat.add_sub_add_left] at this
  rw [Nat.mod_eq_of_lt (by omega)] at hd
  omega

/-- Writing the first free slot appends. -/
theorem contents_push (buf : ℕ → α) (out : ℕ) (hn : n < size) (x : α) :
    contents (Function.update buf ((out + n) % size) x) size out (n + 1) =
      contents buf size out n ++ [x] := by
  unfold contents
  rw [List.range_succ, List.map_append, List.map_singleton, Function.update_self]
  congr 1
  refine List.map_congr_left fun k hk => ?_
  rw [Function.update_of_ne (slot_ne (List.mem_range.1 hk) hn)]

/-- Advancing `out` drops the oldest element. -/
theorem contents_pop (buf : ℕ → α) (size out n : ℕ) :
    contents buf size out (n + 1) =
      buf (out % size) :: contents buf size ((out + 1) % size) n := by
  unfold contents
  rw [List.range_succ_eq_map, List.map_cons, List.map_map]
  refine congrArg₂ _ (by simp) (List.map_congr_left fun k _ => ?_)
  simp only [Function.comp, Nat.mod_add_mod]
  congr 2
  omega

theorem used_lt (hs : 0 < size) : used size inp out < size := Nat.mod_lt _ hs

/-- The number of elements, by whether the positions have wrapped. -/
theorem used_cases (hi : inp < size) (ho : out < size) :
    (out ≤ inp ∧ used size inp out = inp - out) ∨
      (inp < out ∧ used size inp out = inp + size - out) := by
  unfold used
  rcases Nat.lt_or_ge inp out with h | h
  · exact .inr ⟨h, Nat.mod_eq_of_lt (by omega)⟩
  · refine .inl ⟨h, ?_⟩
    rw [show inp + size - out = inp - out + size by omega, Nat.add_mod_right]
    exact Nat.mod_eq_of_lt (by omega)

/-- The ring is empty exactly when the positions agree. -/
theorem used_eq_zero (hi : inp < size) (ho : out < size) : used size inp out = 0 ↔ inp = out := by
  rcases used_cases hi ho with h | h <;> omega

/-- The first free slot is at `inp`. -/
theorem slot_used (hi : inp < size) (ho : out < size) : (out + used size inp out) % size = inp := by
  rcases used_cases hi ho with ⟨h, e⟩ | ⟨h, e⟩ <;> rw [e]
  · rw [show out + (inp - out) = inp by omega, Nat.mod_eq_of_lt hi]
  · rw [show out + (inp + size - out) = inp + size by omega, Nat.add_mod_right, Nat.mod_eq_of_lt hi]

/-- The next position: one on, or the start. -/
theorem succ_mod (hi : inp < size) :
    ((inp + 1) % size = inp + 1 ∧ inp + 1 < size) ∨ ((inp + 1) % size = 0 ∧ inp + 1 = size) := by
  rcases Nat.lt_or_ge (inp + 1) size with h | h
  · exact .inl ⟨Nat.mod_eq_of_lt h, h⟩
  · have e : inp + 1 = size := by omega
    exact .inr ⟨by rw [e, Nat.mod_self], e⟩

/-- Advancing `inp` adds an element, as long as a slot stays free. -/
theorem used_push (hi : inp < size) (ho : out < size) (hn : used size inp out + 1 < size) :
    used size ((inp + 1) % size) out = used size inp out + 1 := by
  have hi' : (inp + 1) % size < size := Nat.mod_lt _ (by omega)
  rcases used_cases hi' ho with h | h <;> rcases used_cases hi ho with h' | h' <;>
    rcases succ_mod hi with e | e <;> omega

/-- Advancing `inp` in a full ring makes it look empty. -/
theorem used_push_full (hi : inp < size) (ho : out < size) (hn : used size inp out + 1 = size) :
    (inp + 1) % size = out := by
  rcases used_cases hi ho with h' | h' <;> rcases succ_mod hi with e | e <;> omega

/-- Advancing `out` removes an element. -/
theorem used_pop (hi : inp < size) (ho : out < size) (hn : 0 < used size inp out) :
    used size inp ((out + 1) % size) + 1 = used size inp out := by
  have ho' : (out + 1) % size < size := Nat.mod_lt _ (by omega)
  rcases used_cases hi ho' with h | h <;> rcases used_cases hi ho with h' | h' <;>
    rcases succ_mod ho with e | e <;> omega

end OSLab.Ring
