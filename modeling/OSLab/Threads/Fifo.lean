import OSLab.Threads.Wake

/-!
# The scheduler over whole runs

`run_fifo`: along every run from `thread_init` the queues are the sequences one gets by
replaying `seqStep`. Each valid thread is in one place, the chains end in `NULL` and have no
repetition, and a wake-up returns the number of threads it moved.
-/

namespace OSLab.Threads

open Prog

variable {s s' t : Sched} {v : View} {ls : List Label} {l : Label} {enabled : Bool}

/-- A step that is allowed in the state it is taken in. -/
def allowedStep (s : Sched) (l : Label) (t : Sched) : Prop := Allowed s l ∧ step s l t

/-- A step of the code together with its effect on the sequences. A wake-up returns how
many threads it moves. -/
def fifoStep (p : Sched × View) (l : Label) (p' : Sched × View) : Prop :=
  allowedStep p.1 l p'.1 ∧ p'.2 = seqStep p.1 p.2 l ∧
  ∀ q all, l = .call (.wakeup (some q) all) → p'.1.ret = (p.2.woken q all).length

theorem Represents.setRet {full : Prop} (h : Represents full s v) (a : ℤ) :
    Represents full { s with ret := a } v :=
  h.same ⟨rfl, rfl, rfl, rfl, rfl, rfl⟩

theorem init_apart : View.init.Apart where
  ready := by simp [View.init]
  waiting := by simp [View.init]
  awake := by simp [View.init]
  queues := by simp [View.init]

theorem init_holds {i : ℕ} : View.init.Holds i ↔ i = 0 := by simp [View.Holds, View.init]

/-- `thread_init` leaves thread 0 running and nothing in the queues. -/
theorem init_rep (enabled : Bool) : Rep (threadInit enabled) View.init where
  running := rfl
  ready := ⟨rfl, by simp [View.init]⟩
  idle _ := .inl rfl
  alloc _ := rfl
  waiting _ _ _ h := by simp [threadInit] at h
  apart := init_apart
  index i hi := by rw [init_holds.1 hi]; rfl
  valid i := by
    rw [init_holds]
    constructor
    · rintro rfl
      exact ⟨by decide, by simp [Sched.isValid, threadInit]⟩
    · intro h
      simpa [Sched.isValid, threadInit] using h.2

/-- One step: the new state represents the new sequences. -/
theorem represents_step {full : Prop} (h : Represents full s v) (ha : full → Allowed s l)
    (hs : step s l t) : Represents full t (seqStep s v l) := by
  obtain ⟨o, s', hr, rfl⟩ := hs
  have h' := label_ok h ha hr
  cases o with
  | returned a => exact h'.setRet a
  | pending => exact h'

theorem step_ok (h : Rep s v) (hs : allowedStep s l t) : Rep t (seqStep s v l) :=
  rep_iff.2 (represents_step (rep_iff.1 h) (fun _ => hs.1) hs.2)

theorem step_ret (h : Rep s v) {q : ℕ} {all : Bool}
    (hs : step s (.call (.wakeup (some q) all)) t) : t.ret = (v.woken q all).length := by
  obtain ⟨o, s', hr, rfl⟩ := hs
  have hr' : threadWakeup (some q) all s = some (o, s') := by
    unfold Label.run at hr
    cases hf : s.frames with
    | nil => simpa [hf, runOp] using hr
    | cons f fs => simp [hf] at hr
  obtain ⟨-, rfl⟩ := (threadWakeup_ok (rep_iff.1 h) q all (.inr trivial)).of_run hr'
  rfl

theorem fifoStep_ok (h : Rep s v) (hs : allowedStep s l t) :
    fifoStep (s, v) l (t, seqStep s v l) :=
  ⟨hs, rfl, fun _ _ e => step_ret h (e ▸ hs.2)⟩

/-- Every run from `thread_init` is a run on the sequences. -/
theorem run_fifo (hr : Run allowedStep (threadInit enabled) ls t) :
    ∃ v, Run fifoStep (threadInit enabled, View.init) ls (t, v) ∧ Rep t v := by
  induction hr with
  | nil => exact ⟨View.init, .nil _, init_rep enabled⟩
  | snoc _ hl ih =>
    obtain ⟨v, hrun, hrep⟩ := ih
    exact ⟨_, .snoc hrun (fifoStep_ok hrep hl), step_ok hrep hl⟩

/-- Run the labels one after another, as long as each step is possible. -/
def exec (s : Sched) : List Label → Option Sched
  | [] => some s
  | l :: ls => match l.run s with
    | none => none
    | some (.returned a, s') => exec { s' with ret := a } ls
    | some (.pending, s') => exec s' ls

theorem exec_run {ks : List Label} (hr : Run allowedStep s ks s')
    (hall : ∀ l ∈ ls, ∀ s, Allowed s l) (he : exec s' ls = some t) :
    Run allowedStep s (ks ++ ls) t := by
  induction ls generalizing s' ks with
  | nil =>
    obtain rfl : s' = t := Option.some.inj he
    simpa using hr
  | cons l ls ih =>
    have hl : ∀ u, step s' l u → exec u ls = some t → Run allowedStep s (ks ++ l :: ls) t := by
      intro u hu hx
      have := ih (hr.snoc ⟨hall l (by simp) s', hu⟩) (fun k hk => hall k (by simp [hk])) hx
      simpa using this
    unfold exec at he
    split at he
    · simp at he
    · rename_i a u hu; exact hl _ ⟨_, u, hu, rfl⟩ he
    · rename_i u hu; exact hl _ ⟨_, u, hu, rfl⟩ he

end OSLab.Threads
