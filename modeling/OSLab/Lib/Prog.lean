import Mathlib.Data.Nat.Notation
import Mathlib.Tactic.Common

/-!
# Programs with a state that may abort

`Prog σ α` is a program over a state `σ` that returns an `α` or aborts (a failed
assertion, an `exit`, an access outside an object). `wp ok c Q s` is the weakest
precondition: run from `s`, `c` either returns with `Q`, or it aborts and `ok`
holds. With `ok := False` it says that `c` returns (total correctness), with
`ok := True` it only speaks about the runs that do (partial correctness); the
rules are the same for both.

* `wp_bind`, `wp_pure`, `wp_ite`, `wp_require`: the structural rules.
* `wp_forRange`: the invariant rule for a counted loop.
* `Keeps f c`: no run of `c` changes what `f` observes of the state.
* `Commutes f c`: `c` does not see whether the state was changed by `f`.
* `Moves R c`: every run of `c` leads to a state related to the first by `R`.
* `run_inv`: an invariant of each step is an invariant of a run.
-/

namespace OSLab

/-- A program over `σ`: `none` is an abort. -/
def Prog (σ α : Type) : Type := σ → Option (α × σ)

namespace Prog

variable {σ τ α β : Type}

instance : Monad (Prog σ) where
  pure a := fun s => some (a, s)
  bind c f := fun s => match c s with
    | none => none
    | some (a, s') => f a s'

/-- The current state. -/
def getState : Prog σ σ := fun s => some (s, s)

/-- Update the state. -/
def modify (f : σ → σ) : Prog σ Unit := fun s => some ((), f s)

/-- Stop here: a failed assertion, an `exit` or undefined behaviour. -/
def abort : Prog σ α := fun _ => none

/-- `assert(p)`. -/
def require (p : Prop) [Decidable p] : Prog σ Unit := if p then pure () else abort

/-- Dereference a pointer. -/
def load : Option α → Prog σ α
  | none => abort
  | some a => pure a

/-- A computation that only reads the state. -/
def reads (f : σ → Option α) : Prog σ α := fun s => (f s).map (·, s)

/-- Run a program on a part of the state. -/
def zoom (getPart : τ → Option σ) (setPart : σ → τ → τ) (c : Prog σ α) : Prog τ α := fun t =>
  match getPart t with
  | none => none
  | some s => match c s with
    | none => none
    | some (a, s') => some (a, setPart s' t)

/-- `for (i = 0; i < n; i++) body(i)`. -/
def forRange : ℕ → (ℕ → Prog σ Unit) → Prog σ Unit
  | 0, _ => pure ()
  | n + 1, body => do forRange n body; body n

/-- A counted loop with an accumulator. -/
def forAcc : ℕ → (ℕ → α → Prog σ α) → α → Prog σ α
  | 0, _, a => pure a
  | n + 1, body, a => do
    let a ← forAcc n body a
    body n a

/-- The weakest precondition of `c` for `Q`, where an abort needs `ok`. -/
def wp (ok : Prop) (c : Prog σ α) (Q : α → σ → Prop) (s : σ) : Prop :=
  match c s with
  | none => ok
  | some (a, s') => Q a s'

variable {ok : Prop} {Q R : α → σ → Prop} {s s' : σ} {c : Prog σ α}

theorem wp_mono (h : wp ok c Q s) (hQR : ∀ a t, Q a t → R a t) : wp ok c R s := by
  unfold wp at *
  split at h <;> simp_all

/-- A program that returns with `Q` satisfies `Q` at whatever it returned. -/
theorem wp.of_run (h : wp ok c Q s) {a : α} (hr : c s = some (a, s')) : Q a s' := by
  unfold wp at h; rw [hr] at h; exact h

/-- A run that is known. -/
theorem wp_run_iff {a : α} (hr : c s = some (a, s')) : wp ok c Q s ↔ Q a s' := by
  unfold wp; rw [hr]

theorem wp_of_run (h : ∀ a t, c s = some (a, t) → Q a t) : wp True c Q s := by
  unfold wp
  cases hc : c s with
  | none => trivial
  | some p => exact h p.1 p.2 hc

theorem wp.returns (h : wp False c Q s) : ∃ a t, c s = some (a, t) ∧ Q a t := by
  unfold wp at h
  split at h
  · exact h.elim
  · rename_i a t hc; exact ⟨a, t, hc, h⟩

theorem wp.weaken (h : wp False c Q s) : wp ok c Q s := by
  obtain ⟨a, t, hc, hq⟩ := h.returns
  unfold wp; rw [hc]; exact hq

theorem wp_and (h : wp ok c Q s) (h' : wp ok c R s) : wp ok c (fun a t => Q a t ∧ R a t) s := by
  unfold wp at *
  split at h <;> simp_all

@[simp] theorem wp_pure (a : α) : wp ok (pure a : Prog σ α) Q s ↔ Q a s := Iff.rfl

@[simp] theorem wp_bind {Q : β → σ → Prop} (f : α → Prog σ β) :
    wp ok (c >>= f) Q s ↔ wp ok c (fun a t => wp ok (f a) Q t) s := by
  unfold wp
  cases hc : c s with
  | none => simp [bind, hc]
  | some p => simp [bind, hc]

@[simp] theorem wp_getState {Q : σ → σ → Prop} : wp ok (getState : Prog σ σ) Q s ↔ Q s s := Iff.rfl

@[simp] theorem wp_modify {Q : Unit → σ → Prop} (f : σ → σ) :
    wp ok (modify f) Q s ↔ Q () (f s) := Iff.rfl

@[simp] theorem wp_abort : wp ok (abort : Prog σ α) Q s ↔ ok := Iff.rfl

@[simp] theorem wp_ite {p : Prop} [Decidable p] {d : Prog σ α} :
    wp ok (if p then c else d) Q s ↔ (p → wp ok c Q s) ∧ (¬p → wp ok d Q s) := by
  split <;> simp_all

@[simp] theorem wp_require {Q : Unit → σ → Prop} {p : Prop} [Decidable p] :
    wp ok (require p) Q s ↔ (p → Q () s) ∧ (¬p → ok) := by
  unfold require; simp

@[simp] theorem wp_load_some (a : α) : wp ok (load (some a) : Prog σ α) Q s ↔ Q a s := Iff.rfl

@[simp] theorem wp_load_none : wp ok (load none : Prog σ α) Q s ↔ ok := Iff.rfl

theorem wp_of_none (h : c s = none) (hok : ok) : wp ok c Q s := by
  unfold wp; rw [h]; exact hok

theorem wp_reads_iff {f : σ → Option α} {a : α} (hf : f s = some a) :
    wp ok (reads f) Q s ↔ Q a s := by
  unfold wp reads; simp [hf]

theorem wp_reads {f : σ → Option α} (a : α) (hf : f s = some a) (h : Q a s) :
    wp ok (reads f) Q s := (wp_reads_iff hf).2 h

theorem wp_reads_of {f : σ → Option α} (h : ∀ a, f s = some a → Q a s) : wp True (reads f) Q s := by
  unfold wp reads
  cases hf : f s with
  | none => simp
  | some a => simpa [hf] using h a hf

theorem wp_zoom_iff {getPart : τ → Option σ} {setPart : σ → τ → τ} {t : τ} {Q : α → τ → Prop}
    (hg : getPart t = some s) :
    wp ok (zoom getPart setPart c) Q t ↔ wp ok c (fun a s' => Q a (setPart s' t)) s := by
  unfold wp zoom
  rw [hg]
  cases hc : c s with
  | none => simp [hc]
  | some p => simp [hc]

theorem wp_zoom {getPart : τ → Option σ} {setPart : σ → τ → τ} {t : τ} {Q : α → τ → Prop}
    (hg : getPart t = some s) (h : wp ok c (fun a s' => Q a (setPart s' t)) s) :
    wp ok (zoom getPart setPart c) Q t := (wp_zoom_iff hg).2 h

-- The rules above are all that is used of `wp`; unfolding it would run the program.
attribute [irreducible] wp

/-- **The loop rule.** An invariant indexed by the counter, kept by each body, holds
at the end. -/
theorem wp_forRange {n : ℕ} {body : ℕ → Prog σ Unit} (I : ℕ → σ → Prop) (h0 : I 0 s)
    (hstep : ∀ i t, i < n → I i t → wp ok (body i) (fun _ t' => I (i + 1) t') t) :
    wp ok (forRange n body) (fun _ t => I n t) s := by
  induction n with
  | zero => exact (wp_pure _).2 h0
  | succ n ih =>
    unfold forRange
    rw [wp_bind]
    refine wp_mono (ih fun i t hi => hstep i t (by omega)) ?_
    intro _ t ht
    exact hstep n t (by omega) ht

/-- The loop rule, with an accumulator. -/
theorem wp_forAcc {n : ℕ} {body : ℕ → α → Prog σ α} {a : α} (I : ℕ → α → σ → Prop) (h0 : I 0 a s)
    (hstep : ∀ i b t, i < n → I i b t → wp ok (body i b) (fun c t' => I (i + 1) c t') t) :
    wp ok (forAcc n body a) (fun c t => I n c t) s := by
  induction n with
  | zero => exact (wp_pure _).2 h0
  | succ n ih =>
    unfold forAcc
    rw [wp_bind]
    refine wp_mono (ih fun i b t hi => hstep i b t (by omega)) ?_
    intro b t ht
    exact hstep n b t (by omega) ht

/-! ### What a program leaves unchanged -/

/-- No run of `c` changes what `f` observes of the state. -/
def Keeps (f : σ → β) (c : Prog σ α) : Prop := ∀ s, wp True c (fun _ t => f t = f s) s

section Keeps

variable {γ : Type} {f : σ → γ}

theorem Keeps.wp (h : Keeps f c) (hQ : ∀ a t, f t = f s → Q a t) : wp True c Q s :=
  wp_mono (h s) hQ

theorem Keeps.pure (a : α) : Keeps f (pure a : Prog σ α) := fun _ => (wp_pure a).2 rfl

theorem Keeps.abort : Keeps f (abort : Prog σ α) := fun _ => wp_abort.2 trivial

theorem Keeps.modify {g : σ → σ} (h : ∀ s, f (g s) = f s) : Keeps f (modify g) := fun s =>
  (wp_modify g).2 (h s)

theorem Keeps.reads (g : σ → Option α) : Keeps f (reads g) := fun _ => wp_reads_of fun _ _ => rfl

theorem Keeps.bind {d : α → Prog σ β} (hc : Keeps f c) (hd : ∀ a, Keeps f (d a)) :
    Keeps f (c >>= d) := by
  intro s
  rw [wp_bind]
  refine wp_mono (hc s) ?_
  intro a t ht
  exact wp_mono (hd a t) fun _ u hu => hu.trans ht

theorem Keeps.getState_bind {d : σ → Prog σ β} (hd : ∀ s, Keeps f (d s)) :
    Keeps f (getState >>= d) := by
  intro s
  rw [wp_bind, wp_getState]
  exact hd s s

theorem Keeps.ite {p : Prop} [Decidable p] {d : Prog σ α} (hc : Keeps f c) (hd : Keeps f d) :
    Keeps f (if p then c else d) := by
  split
  · exact hc
  · exact hd

end Keeps

/-! ### What a program does not look at -/

/-- `c` does the same on a state changed by `f`, and `f` may as well be applied afterwards. -/
def Commutes (f : σ → σ) (c : Prog σ α) : Prop := ∀ s, c (f s) = (c s).map fun p => (p.1, f p.2)

section Commutes

variable {f : σ → σ}

theorem Commutes.wp_iff (h : Commutes f c) : wp ok c Q (f s) ↔ wp ok c (fun a t => Q a (f t)) s := by
  unfold wp
  rw [h s]
  cases c s <;> rfl

theorem Commutes.pure (a : α) : Commutes f (pure a : Prog σ α) := fun _ => rfl

theorem Commutes.abort : Commutes f (abort : Prog σ α) := fun _ => rfl

theorem Commutes.require (p : Prop) [Decidable p] : Commutes f (require p) := by
  unfold Prog.require
  split
  · exact Commutes.pure ()
  · exact Commutes.abort

theorem Commutes.modify {g : σ → σ} (h : ∀ s, g (f s) = f (g s)) : Commutes f (modify g) := by
  intro s
  show some ((), g (f s)) = some ((), f (g s))
  rw [h]

theorem Commutes.reads {g : σ → Option α} (h : ∀ s, g (f s) = g s) : Commutes f (reads g) := by
  intro s
  unfold Prog.reads
  rw [h]
  cases g s <;> rfl

theorem Commutes.bind {d : α → Prog σ β} (hc : Commutes f c) (hd : ∀ a, Commutes f (d a)) :
    Commutes f (c >>= d) := by
  intro s
  show (match c (f s) with | none => none | some (a, t) => d a t) =
    Option.map _ (match c s with | none => none | some (a, t) => d a t)
  rw [hc s]
  cases c s with
  | none => rfl
  | some p => exact hd p.1 p.2

theorem Commutes.getState_bind {d : σ → Prog σ β} (hd : ∀ s, Commutes f (d s))
    (hf : ∀ s, d (f s) = d s) : Commutes f (getState >>= d) := by
  intro s
  show d (f s) (f s) = (d s s).map _
  rw [hf, hd s s]

theorem Commutes.ite {p : Prop} [Decidable p] {d : Prog σ α} (hc : Commutes f c)
    (hd : Commutes f d) : Commutes f (if p then c else d) := by
  split
  · exact hc
  · exact hd

theorem Commutes.zoom {g : τ → τ} {getPart : τ → Option σ} {setPart : σ → τ → τ}
    (hget : ∀ t, getPart (g t) = getPart t) (hset : ∀ s t, setPart s (g t) = g (setPart s t)) :
    Commutes g (zoom getPart setPart c) := by
  intro t
  unfold Prog.zoom
  rw [hget]
  cases getPart t with
  | none => rfl
  | some s =>
    simp only
    cases c s with
    | none => rfl
    | some p => simp only [hset, Option.map_some]

end Commutes

/-! ### How a program moves the state -/

/-- Every run of `c` that returns leads from a state to one that `R` relates to it. -/
def Moves (R : σ → σ → Prop) (c : Prog σ α) : Prop := ∀ s, wp True c (fun _ t => R s t) s

section Moves

variable {R : σ → σ → Prop}

theorem Moves.pure (h0 : ∀ s, R s s) (a : α) : Moves R (pure a : Prog σ α) := fun s =>
  (wp_pure a).2 (h0 s)

theorem Moves.require (h0 : ∀ s, R s s) (p : Prop) [Decidable p] : Moves R (require p) := fun s =>
  wp_require.2 ⟨fun _ => h0 s, fun _ => trivial⟩

theorem Moves.modify {g : σ → σ} (h : ∀ s, R s (g s)) : Moves R (modify g) := fun s =>
  (wp_modify g).2 (h s)

theorem Moves.bind {d : α → Prog σ β} (ht : ∀ s t u, R s t → R t u → R s u) (hc : Moves R c)
    (hd : ∀ a, Moves R (d a)) : Moves R (c >>= d) := by
  intro s
  rw [wp_bind]
  refine wp_mono (hc s) ?_
  intro a t hst
  exact wp_mono (hd a t) fun _ u htu => ht s t u hst htu

theorem Moves.getState_bind {d : σ → Prog σ β} (hd : ∀ s, Moves R (d s)) :
    Moves R (getState >>= d) := by
  intro s
  rw [wp_bind, wp_getState]
  exact hd s s

theorem Moves.ite {p : Prop} [Decidable p] {d : Prog σ α} (hc : Moves R c) (hd : Moves R d) :
    Moves R (if p then c else d) := by
  split
  · exact hc
  · exact hd

theorem Moves.forRange (h0 : ∀ s, R s s) (ht : ∀ s t u, R s t → R t u → R s u) {n : ℕ}
    {body : ℕ → Prog σ Unit} (h : ∀ i, Moves R (body i)) : Moves R (forRange n body) := by
  induction n with
  | zero => exact Moves.pure h0 ()
  | succ n ih => exact Moves.bind ht ih fun _ => h n

theorem Moves.forAcc (h0 : ∀ s, R s s) (ht : ∀ s t u, R s t → R t u → R s u) {n : ℕ}
    {body : ℕ → α → Prog σ α} (h : ∀ i a, Moves R (body i a)) (a : α) :
    Moves R (forAcc n body a) := by
  induction n with
  | zero => exact Moves.pure h0 a
  | succ n ih => exact Moves.bind ht ih fun b => h n b

end Moves

/-- From a returning sequence, the two parts. -/
theorem bind_eq_some {f : α → Prog σ β} {b : β} :
    (c >>= f) s = some (b, s') ↔ ∃ a t, c s = some (a, t) ∧ f a t = some (b, s') := by
  show (match c s with | none => none | some (a, s') => f a s') = some (b, s') ↔ _
  cases hc : c s with
  | none => simp
  | some p => obtain ⟨a, t⟩ := p; simp

theorem bind_of_run {f : α → Prog σ β} {a : α} (h : c s = some (a, s')) : (c >>= f) s = f a s' := by
  show (match c s with | none => none | some (a, s') => f a s') = _
  rw [h]

theorem bind_of_none {f : α → Prog σ β} (h : c s = none) : (c >>= f) s = none := by
  show (match c s with | none => none | some (a, s') => f a s') = _
  rw [h]

theorem getState_run (s : σ) : (getState : Prog σ σ) s = some (s, s) := rfl

theorem reads_run {f : σ → Option α} {a : α} (h : f s = some a) : reads f s = some (a, s) := by
  unfold reads
  rw [h, Option.map_some]

theorem reads_eq_some {f : σ → Option α} {a : α} :
    reads f s = some (a, s') ↔ f s = some a ∧ s' = s := by
  unfold reads
  cases f s with
  | none => simp
  | some b => simp [eq_comm]

theorem zoom_run {getPart : τ → Option σ} {setPart : σ → τ → τ} {t : τ} {a : α}
    (hg : getPart t = some s) (h : c s = some (a, s')) :
    zoom getPart setPart c t = some (a, setPart s' t) := by
  unfold zoom
  simp only [hg, h]

theorem require_run {p : Prop} [Decidable p] (h : p) : (require p : Prog σ Unit) s = some ((), s) := by
  unfold require
  rw [if_pos h]
  rfl

theorem require_none {p : Prop} [Decidable p] (h : ¬p) : (require p : Prog σ Unit) s = none := by
  unfold require
  rw [if_neg h]
  rfl

theorem require_eq_some {p : Prop} [Decidable p] {u : Unit} :
    (require p : Prog σ Unit) s = some (u, s') ↔ p ∧ s' = s := by
  by_cases h : p
  · rw [require_run h]
    simp [h, eq_comm]
  · rw [require_none h]
    simp [h]

theorem zoom_none {getPart : τ → Option σ} {setPart : σ → τ → τ} {t : τ} (hg : getPart t = none) :
    zoom getPart setPart c t = none := by
  unfold zoom
  rw [hg]

theorem zoom_eq_some {getPart : τ → Option σ} {setPart : σ → τ → τ} {t t' : τ} {a : α} :
    zoom getPart setPart c t = some (a, t') ↔
      ∃ s s', getPart t = some s ∧ c s = some (a, s') ∧ t' = setPart s' t := by
  constructor
  · intro h
    cases hg : getPart t with
    | none =>
      rw [zoom_none hg] at h
      cases h
    | some s =>
      cases hc : c s with
      | none =>
        unfold zoom at h
        simp only [hg, hc] at h
        cases h
      | some x =>
        rw [zoom_run hg hc] at h
        cases h
        exact ⟨s, x.2, rfl, hc, rfl⟩
  · intro ⟨s, s', hg, hc, ht⟩
    rw [zoom_run hg hc, ht]

theorem pure_eq_some {a b : α} : (pure a : Prog σ α) s = some (b, s') ↔ a = b ∧ s = s' := by
  show some (a, s) = some (b, s') ↔ _
  rw [Option.some_inj, Prod.mk.injEq]

theorem getState_eq_some {t : σ} : (getState : Prog σ σ) s = some (t, s') ↔ s = t ∧ s = s' := by
  show some (s, s) = some (t, s') ↔ _
  rw [Option.some_inj, Prod.mk.injEq]

theorem load_eq_some {o : Option α} {a : α} : load o s = some (a, s') ↔ o = some a ∧ s = s' := by
  cases o with
  | none => exact ⟨fun h => (by cases h), fun h => (by cases h.1)⟩
  | some b =>
    show some (b, s) = some (a, s') ↔ _
    rw [Option.some_inj, Option.some_inj, Prod.mk.injEq]

end Prog

/-! ### Runs of a labelled step -/

/-- `Run step s ls t`: from `s` the steps labelled `ls`, in order, lead to `t`. -/
inductive Run {σ lab : Type} (step : σ → lab → σ → Prop) : σ → List lab → σ → Prop
  | nil (s : σ) : Run step s [] s
  | snoc {s t u : σ} {ls : List lab} {l : lab} :
      Run step s ls t → step t l u → Run step s (ls ++ [l]) u

theorem run_nil_iff {σ lab : Type} {step : σ → lab → σ → Prop} {s t : σ} :
    Run step s [] t ↔ s = t := by
  constructor
  · intro h
    generalize hls : ([] : List lab) = ls at h
    cases h with
    | nil => rfl
    | snoc hr hl => simp at hls
  · rintro rfl
    exact .nil s

theorem run_concat_iff {σ lab : Type} {step : σ → lab → σ → Prop} {s t : σ} {ls : List lab}
    {l : lab} : Run step s (ls ++ [l]) t ↔ ∃ u, Run step s ls u ∧ step u l t := by
  constructor
  · intro h
    generalize hls : ls ++ [l] = ks at h
    cases h with
    | nil => simp at hls
    | @snoc u _ ks k hr hk =>
      obtain ⟨rfl, hk'⟩ := List.append_inj' hls rfl
      obtain rfl := List.singleton_inj.1 hk'
      exact ⟨u, hr, hk⟩
  · rintro ⟨u, hr, hl⟩
    exact hr.snoc hl

theorem Run.append {σ lab : Type} {step : σ → lab → σ → Prop} {s t u : σ} {ks ls : List lab}
    (h : Run step s ks t) (h' : Run step t ls u) : Run step s (ks ++ ls) u := by
  induction h' with
  | nil => simpa using h
  | snoc _ hl ih =>
    rw [← List.append_assoc]
    exact .snoc ih hl

/-- **Invariants over runs.** What holds at the start and is kept by every step holds
at the end of every run. -/
theorem run_inv {σ lab : Type} {step : σ → lab → σ → Prop} {I : σ → Prop}
    (hstep : ∀ s l t, I s → step s l t → I t) {s t : σ} {ls : List lab} (h : Run step s ls t)
    (hs : I s) : I t := by
  induction h with
  | nil => exact hs
  | snoc _ h ih => exact hstep _ _ _ ih h

theorem Run.mono {σ lab : Type} {step step' : σ → lab → σ → Prop}
    (h : ∀ s l t, step s l t → step' s l t) {s t : σ} {ls : List lab} (hr : Run step s ls t) :
    Run step' s ls t := by
  induction hr with
  | nil => exact .nil _
  | snoc _ hl ih => exact .snoc ih (h _ _ _ hl)

/-- **Forward simulation.** When each step of one system is one of another with the same label, from
related states to related states, then so is each run. -/
theorem Run.simulate {σ τ lab : Type} {step : σ → lab → σ → Prop} {step' : τ → lab → τ → Prop}
    {R : τ → σ → Prop} {s s' : σ} {t : τ} {ls : List lab} (hr : Run step s ls s')
    (hstep : ∀ t s l s', R t s → step s l s' → ∃ t', step' t l t' ∧ R t' s') (h0 : R t s) :
    ∃ t', Run step' t ls t' ∧ R t' s' := by
  induction hr with
  | nil => exact ⟨t, .nil t, h0⟩
  | snoc _ hl ih =>
    obtain ⟨t₁, hr₁, h₁⟩ := ih
    obtain ⟨t₂, hl₂, h₂⟩ := hstep _ _ _ _ h₁ hl
    exact ⟨t₂, hr₁.snoc hl₂, h₂⟩

/-- **Two systems in lockstep.** When related states take the same labelled steps to related
states, as long as a condition on the first system and the label holds, then under the
condition both can run the same labels. -/
theorem run_lockstep {σ τ lab : Type} {step : σ → lab → σ → Prop} {step' : τ → lab → τ → Prop}
    {R : σ → τ → Prop} {G : σ → lab → Prop} {s₀ : σ} {t₀ : τ} {ks : List lab} (h0 : R s₀ t₀)
    (hto : ∀ s t l s', R s t → G s l → step s l s' → ∃ t', step' t l t' ∧ R s' t')
    (hfrom : ∀ s t l t', R s t → G s l → step' t l t' → ∃ s', step s l s' ∧ R s' t')
    (hG : ∀ ls l s, ls ++ [l] <+: ks → Run step s₀ ls s → G s l) :
    (∃ s, Run step s₀ ks s) ↔ ∃ t, Run step' t₀ ks t := by
  constructor
  · rintro ⟨s, hr⟩
    suffices h : ∃ t, Run step' t₀ ks t ∧ R s t from h.imp fun _ ht => ht.1
    induction hr with
    | nil => exact ⟨t₀, .nil _, h0⟩
    | @snoc s u ls l hr hl ih =>
      obtain ⟨t, ht, hR⟩ := ih fun ls₁ l₁ s₁ hp => hG ls₁ l₁ s₁ (hp.trans (List.prefix_append _ _))
      obtain ⟨t', hl', hR'⟩ := hto s t l u hR (hG ls l s (List.prefix_refl _) hr) hl
      exact ⟨t', ht.snoc hl', hR'⟩
  · rintro ⟨t, hr⟩
    suffices h : ∃ s, Run step s₀ ks s ∧ R s t from h.imp fun _ hs => hs.1
    induction hr with
    | nil => exact ⟨s₀, .nil _, h0⟩
    | @snoc t u ls l hr hl ih =>
      obtain ⟨s, hs, hR⟩ := ih fun ls₁ l₁ s₁ hp => hG ls₁ l₁ s₁ (hp.trans (List.prefix_append _ _))
      obtain ⟨s', hl', hR'⟩ := hfrom s t l u hR (hG ls l s (List.prefix_refl _) hs) hl
      exact ⟨s', hs.snoc hl', hR'⟩

/-- A run whose labels all meet a condition is a run of steps that meet it. -/
theorem Run.guard {σ lab : Type} {step : σ → lab → σ → Prop} {P : σ → lab → Prop} {s t : σ}
    {ls : List lab} (hr : Run step s ls t) (h : ∀ l ∈ ls, ∀ s, P s l) :
    Run (fun s l t => P s l ∧ step s l t) s ls t := by
  induction hr with
  | nil => exact .nil _
  | snoc _ hl ih => exact .snoc (ih fun l hm => h l (by simp [hm])) ⟨h _ (by simp) _, hl⟩

/-- Take the labelled steps one after another, as long as each is possible. -/
def runAll {σ lab : Type} (f : σ → lab → Option σ) (s : σ) : List lab → Option σ
  | [] => some s
  | l :: ls => (f s l).bind fun t => runAll f t ls

theorem runAll_concat {σ lab : Type} (f : σ → lab → Option σ) (s : σ) (ls : List lab) (l : lab) :
    runAll f s (ls ++ [l]) = (runAll f s ls).bind fun t => f t l := by
  induction ls generalizing s with
  | nil => cases hf : f s l <;> simp [runAll, hf]
  | cons k ls ih =>
    rw [List.cons_append, runAll, runAll, Option.bind_assoc]
    exact congrArg _ (funext ih)

theorem runAll_run {σ lab : Type} {f : σ → lab → Option σ} {s s₀ t : σ} {ks ls : List lab}
    (hr : Run (fun s l t => f s l = some t) s₀ ks s) (h : runAll f s ls = some t) :
    Run (fun s l t => f s l = some t) s₀ (ks ++ ls) t := by
  induction ls generalizing s ks with
  | nil =>
    obtain rfl : s = t := Option.some.inj h
    simpa using hr
  | cons l ls ih =>
    obtain ⟨u, hu, hx⟩ := Option.bind_eq_some_iff.1 h
    have := ih (hr.snoc hu) hx
    simpa using this

/-- A run that ends in a state with a decided property. -/
theorem runAll_any {σ lab : Type} (f : σ → lab → Option σ) (s : σ) (ls : List lab) (p : σ → Bool)
    (h : (runAll f s ls).any p = true) :
    ∃ t, Run (fun s l t => f s l = some t) s ls t ∧ p t = true := by
  obtain ⟨t, ht, hp⟩ := (Option.any_eq_true _ _).1 h
  exact ⟨t, runAll_run (.nil s) ht, hp⟩

end OSLab
