import OSLab.Lib.Prog
import Mathlib.Algebra.Group.Basic

/-!
# Accounts

An account is a value of a commutative group that a program adds to and takes from: how
many references it holds, how many blocks it has taken. `Adds I f c d` says that every run
of `c` from a state in `I` ends in `I` and adds `d a` to the account `f`, where `a` is what
`c` returned. The rules go through a program from its beginning: what a part has added is
subtracted from what the rest still has to add (`Adds.bind`).
-/

namespace OSLab

open Prog

variable {σ τ α β G : Type} [AddCommGroup G]

/-- Every run of `c` keeps `I` and adds to the account `f`. -/
def Adds (I : σ → Prop) (f : σ → G) (c : Prog σ α) (d : α → G) : Prop :=
  ∀ s, I s → wp True c (fun a t => I t ∧ f t = f s + d a) s

namespace Adds

variable {I : σ → Prop} {f : σ → G} {c : Prog σ α} {d e : α → G} {d' : β → G}

theorem of_run (h : Adds I f c d) {s t : σ} {a : α} (hs : I s) (hr : c s = some (a, t)) :
    I t ∧ f t = f s + d a :=
  (h s hs).of_run hr

theorem congr (h : Adds I f c e) (he : ∀ a, e a = d a) : Adds I f c d := by
  intro s hs
  refine wp_mono (h s hs) ?_
  intro a t ht
  rw [← he]
  exact ht

theorem pure {a : α} (h : d a = 0) : Adds I f (pure a) d := by
  intro s hs
  rw [wp_pure, h, add_zero]
  exact ⟨hs, rfl⟩

theorem abort : Adds I f (abort : Prog σ α) d := fun _ _ => wp_abort.2 trivial

theorem reads {g : σ → Option α} (h : ∀ a, d a = 0) : Adds I f (reads g) d := by
  intro s hs
  refine wp_reads_of ?_
  intro a _
  rw [h, add_zero]
  exact ⟨hs, rfl⟩

theorem require {p : Prop} [Decidable p] {d : Unit → G} (h : d () = 0) :
    Adds I f (require p) d := by
  intro s hs
  rw [wp_require, h, add_zero]
  exact ⟨fun _ => ⟨hs, rfl⟩, fun _ => trivial⟩

theorem modify {g : σ → σ} {d : Unit → G} (hI : ∀ s, I s → I (g s))
    (hf : ∀ s, I s → f (g s) = f s + d ()) : Adds I f (modify g) d := by
  intro s hs
  rw [wp_modify]
  exact ⟨hI s hs, hf s hs⟩

/-- What the first part has added is not to be added by the second. -/
theorem bind {k : α → Prog σ β} (hc : Adds I f c e)
    (hk : ∀ a, Adds I f (k a) fun b => d' b - e a) : Adds I f (c >>= k) d' := by
  intro s hs
  rw [wp_bind]
  refine wp_mono (hc s hs) ?_
  intro a t ht
  refine wp_mono (hk a t ht.1) ?_
  intro b u hu
  refine ⟨hu.1, ?_⟩
  rw [hu.2, ht.2, add_assoc, add_sub_cancel]

/-- The first part adds nothing. -/
theorem bind_zero {k : α → Prog σ β} (hc : Adds I f c fun _ => 0)
    (hk : ∀ a, Adds I f (k a) d') : Adds I f (c >>= k) d' := by
  refine hc.bind ?_
  intro a
  simpa only [sub_zero] using hk a

theorem getState_bind {k : σ → Prog σ β} (hk : ∀ s, Adds I f (k s) d') :
    Adds I f (getState >>= k) d' := by
  intro s hs
  rw [wp_bind, wp_getState]
  exact hk s s hs

theorem ite {p : Prop} [Decidable p] {b : Prog σ α} (hc : p → Adds I f c d)
    (hb : ¬p → Adds I f b d) : Adds I f (if p then c else b) d := by
  split
  · exact hc ‹_›
  · exact hb ‹_›

/-- A program on a part of the state that neither the account nor the invariant sees. -/
theorem zoom {getPart : σ → Option τ} {setPart : τ → σ → σ} {b : Prog τ α}
    (hI : ∀ p s, I s → I (setPart p s)) (hf : ∀ p s, f (setPart p s) = f s) :
    Adds I f (zoom getPart setPart b) fun _ => 0 := by
  intro s hs
  refine wp_of_run ?_
  intro a t ht
  unfold Prog.zoom at ht
  split at ht
  · simp at ht
  · split at ht
    · simp at ht
    · obtain ⟨rfl, rfl⟩ := Prod.mk.inj (Option.some.inj ht)
      rw [add_zero]
      exact ⟨hI _ s hs, hf _ s⟩

end Adds

end OSLab
