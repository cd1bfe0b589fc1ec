import OSLab.Lib.Prog

/-!
# Programs that return

`Returns c x`: from the state `x` the program `c` comes to its end. What is known of a first step,
from a proof about the runs it has, may be used for the steps after it.
-/

namespace OSLab.Prog

variable {σ α β : Type} {c : Prog σ α} {d : α → Prog σ β} {x y : σ}

/-- The program returns. -/
def Returns (c : Prog σ α) (x : σ) : Prop := ∃ a y, c x = some (a, y)

namespace Returns

theorem of_run {a : α} (h : c x = some (a, y)) : Returns c x := ⟨a, y, h⟩

theorem of_wp {Q : α → σ → Prop} (h : wp False c Q x) : Returns c x := by
  obtain ⟨a, y, hr, -⟩ := h.returns
  exact ⟨a, y, hr⟩

theorem pure (a : α) : Returns (pure a : Prog σ α) x := ⟨a, x, rfl⟩

/-- What follows may use what is known of the first step. -/
theorem bind (h : Returns c x) (hd : ∀ a y, c x = some (a, y) → Returns (d a) y) :
    Returns (c >>= d) x := by
  obtain ⟨a, y, hr⟩ := h
  obtain ⟨b, z, hz⟩ := hd a y hr
  exact ⟨b, z, (bind_of_run hr).trans hz⟩

/-- A first step whose result is known. -/
theorem bind_run {a : α} (h : c x = some (a, y)) (hd : Returns (d a) y) : Returns (c >>= d) x := by
  obtain ⟨b, z, hz⟩ := hd
  exact ⟨b, z, (bind_of_run h).trans hz⟩

end Returns

end OSLab.Prog
