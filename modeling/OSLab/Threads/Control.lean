import OSLab.Threads.Inversion

/-!
# One thread's control

`Rest.control i` is where thread `i` is in its calls and the signal mask it has: the running
thread's own, the saved context of any other. A step changes the control of the running
thread only (`effect_other`), wherever it switches to, and `Acts` lists how (`effect_own`).
-/

namespace OSLab.Threads

open Prog

variable {s t : Sched} {v : View} {full : Prop} {k : Label} {R : Rest} {i p : ℕ}
  {ls : List Label} {enabled : Bool}

/-- The pending frames and the mask of thread `i`. -/
def Rest.control (R : Rest) (i : ℕ) : Context :=
  if i = R.current then ⟨R.frames, R.interrupts⟩ else R.context i

theorem control_current : R.control R.current = ⟨R.frames, R.interrupts⟩ := if_pos rfl

theorem control_other (hi : i ≠ R.current) : R.control i = R.context i := if_neg hi

theorem control_switch {f : Frame} (hi : i ≠ R.current) :
    (R.switch f p).control i = R.control i := by
  rw [control_other hi]
  by_cases h : i = p
  · subst h
    exact control_current (R := R.switch f i)
  · rw [control_other (R := R.switch f p) h]
    exact Function.update_of_ne hi _ _

theorem control_leave (hi : i ≠ R.current) : (R.leave p).control i = R.control i := by
  rw [control_other hi]
  by_cases h : i = p
  · subst h
    exact control_current (R := R.leave i)
  · exact control_other (R := R.leave p) h

theorem control_create {stack : Option ℕ} {j : ℕ} (hi : i ≠ R.current) :
    (R.create j stack).control i = if i = j then ⟨[.stub], false⟩ else R.control i := by
  rw [control_other (R := R.create j stack) hi, control_other hi]
  exact Function.update_apply _ _ _ _

/-- The step creates thread `i`. -/
def Creates (s : Sched) (k : Label) (i : ℕ) : Prop :=
  (∃ stack, k = .call (.create stack)) ∧ firstInvalid s = some i

/-- A step leaves every other thread's control as it was. -/
theorem effect_other (he : Effect s k R) (hi : i ≠ s.currentThreadId) (hnew : ¬Creates s k i) :
    R.control i = s.rest.control i := by
  have hctx : ∀ {R : Rest}, R.current = s.currentThreadId → R.context = s.context →
      R.control i = s.rest.control i := by
    intro R hc hx
    rw [control_other (by rwa [hc]), control_other (R := s.rest) hi, hx]
    rfl
  have hsw : ∀ {R : Rest} {f p}, R.current = s.currentThreadId → R.context = s.context →
      (R.switch f p).control i = s.rest.control i := fun hc hx => by
    rw [control_switch (by rwa [hc]), hctx hc hx]
  cases he with
  | @creates stack j hj hstack =>
    have hne : i ≠ j := fun e => hnew ⟨⟨stack, rfl⟩, e ▸ hj⟩
    rw [control_create (R := s.rest) hi, if_neg hne]
  | exits hp => exact control_leave (R := s.rest.freePending) hi
  | kills h =>
    refine hctx ?_ ?_ <;> unfold Rest.reap <;> split <;> rfl
  | _ => first
    | exact hctx rfl rfl
    | exact hsw rfl rfl

/-- A new thread is at its beginning. -/
theorem effect_created (he : Effect s k R) (hi : i ≠ s.currentThreadId) (hnew : Creates s k i) :
    R.control i = ⟨[.stub], false⟩ := by
  obtain ⟨⟨stack, rfl⟩, hf⟩ := hnew
  cases he with
  | idle h => exact absurd (hf.symm.trans h) (by simp)
  | creates hj hstack =>
    rw [control_create (R := s.rest) hi, if_pos (Option.some.inj (hf.symm.trans hj))]

/-- A frame at which `thread_yield` or `thread_sleep` resumes. -/
inductive Frame.Switches (mask : Bool) : Frame → Prop
  | index (p : ℕ) : Switches mask (.returnIndex p mask)
  | tid (p : ℤ) : Switches mask (.returnTid p mask)

/-- The frame of a call that lost the processor, if it did. -/
def Lost (mask : Bool) (fs : List Frame) : Prop := fs = [] ∨ ∃ f, f.Switches mask ∧ fs = [f]

/-- The running thread's own control after its step. -/
inductive Acts (s : Sched) : Label → Context → Prop
  | same {op : Op} (hid : op ≠ .id) (hset : ∀ b, op ≠ .setInterrupts b) :
      Acts s (.call op) ⟨s.frames, s.interrupts⟩
  | id : Acts s (.call .id) ⟨s.frames, false⟩
  | setInterrupts (b : Bool) : Acts s (.call (.setInterrupts b)) ⟨s.frames, b⟩
  | switches {op : Op} {f : Frame} (hid : op ≠ .id) (hf : f.Switches s.interrupts) :
      Acts s (.call op) ⟨f :: s.frames, false⟩
  | lockAcquires (l : ℕ) :
      Acts s (.call (.lockAcquire l)) ⟨.acquireLoop l s.interrupts :: s.frames, false⟩
  | cvWaits {c l : ℕ} {fs : List Frame} (h : Lost false fs) :
      Acts s (.call (.cvWait c l)) ⟨fs ++ .cvReacquire l s.interrupts :: s.frames, false⟩
  | preempts {fs : List Frame} (h : Lost false fs) :
      Acts s .preempt ⟨fs ++ .handlerDone :: s.frames, false⟩
  | finishes {f : Frame} {fs : List Frame} (hf : s.frames = f :: fs) (h : f.Final) :
      Acts s .resume ⟨fs, f.mask⟩
  | acquires {l : ℕ} {e : Bool} {fs : List Frame} {lock : Lock}
      (hf : s.frames = .acquireLoop l e :: fs) (hl : s.locks l = some lock)
      (ha : lock.available = true) : Acts s .resume ⟨fs, e⟩
  | acquireStays {l : ℕ} {e m : Bool} {fs gs : List Frame}
      (hf : s.frames = .acquireLoop l e :: fs) (h : Lost s.interrupts gs) :
      Acts s .resume ⟨gs ++ .acquireLoop l e :: fs, m⟩
  | reacquires {l : ℕ} {e : Bool} {fs : List Frame} (hf : s.frames = .cvReacquire l e :: fs) :
      Acts s .resume ⟨.acquireLoop l s.interrupts :: .cvDone e :: fs, false⟩

theorem switches_of {f : Frame} {m : Bool} (hf : f = .returnIndex p m ∨ f = .returnTid p m) :
    f.Switches m := by
  rcases hf with rfl | rfl
  · exact .index p
  · exact .tid p

/-- **How a step changes the running thread's control**, unless the thread ends. -/
theorem effect_own (he : Effect s k R) (hv : R.isValid s.currentThreadId = true) :
    Acts s k (R.control s.currentThreadId) := by
  -- the running thread is the same after the step
  have hown : ∀ {R : Rest}, R.current = s.currentThreadId →
      R.control s.currentThreadId = ⟨R.frames, R.interrupts⟩ := by
    intro R hc
    rw [← hc]
    exact control_current
  -- the step switched, with a frame to come back to
  have hsw : ∀ {R : Rest} {f p}, R.current = s.currentThreadId → p ≠ s.currentThreadId →
      (R.switch f p).control s.currentThreadId = ⟨f :: R.frames, R.interrupts⟩ := by
    intro R f p hc hp
    rw [control_other (R := R.switch f p) hp.symm, ← hc]
    exact Function.update_self _ _ _
  cases he with
  | @idle op h =>
    rw [hown rfl]
    refine .same ?_ ?_
    · rintro rfl; exact h
    · rintro b rfl; exact h
  | id => rw [hown rfl]; exact .id
  | setInterrupts b => rw [hown rfl]; exact .setInterrupts b
  | creates hi hstack => rw [hown rfl]; exact .same (by simp) (by simp)
  | yieldStays tid => rw [hown rfl]; exact .same (by simp) (by simp)
  | yields hf hp => rw [hsw rfl hp.1]; exact .switches (by simp) (switches_of hf)
  | exitStays => rw [hown rfl]; exact .same (by simp) (by simp)
  | exits hp => exact absurd hv (by simp [Rest.leave, Rest.freePending, Rest.free, Sched.rest])
  | @kills j h =>
    have : (s.rest.reap j).control s.currentThreadId = ⟨s.frames, s.interrupts⟩ := by
      rw [hown] <;> unfold Rest.reap <;> split <;> rfl
    rw [this]
    exact .same (by simp) (by simp)
  | sleeps hp => rw [hsw rfl hp.1]; exact .switches (by simp) (.index _)
  | lockCreates hl hq => rw [hown rfl]; exact .same (by simp) (by simp)
  | lockDestroys hl ha => rw [hown rfl]; exact .same (by simp) (by simp)
  | lockAcquires l => rw [hown rfl]; exact .lockAcquires l
  | lockReleases hl => rw [hown rfl]; exact .same (by simp) (by simp)
  | cvCreates hc hq => rw [hown rfl]; exact .same (by simp) (by simp)
  | cvDestroys hc => rw [hown rfl]; exact .same (by simp) (by simp)
  | cvWaitStays hc hl => rw [hown rfl]; exact .cvWaits (Or.inl rfl)
  | cvWaits hc hl hp => rw [hsw rfl hp.1]; exact .cvWaits (Or.inr ⟨_, .index _, rfl⟩)
  | preemptStays => rw [hown rfl]; exact .preempts (Or.inl rfl)
  | preempts hf hp =>
    rw [hsw rfl hp.1]; exact .preempts (Or.inr ⟨_, switches_of hf, rfl⟩)
  | @finishes f fs hf h =>
    have ht : (s.rest.pop f.mask).frames = fs := congrArg List.tail hf
    rw [hown rfl, ht]
    exact .finishes hf h
  | @acquires l e fs lock hf hl ha =>
    have ht : (s.rest.pop e).frames = fs := congrArg List.tail hf
    rw [hown rfl]
    have := Acts.acquires hf hl ha
    rwa [← ht] at this
  | acquireStays hf hl =>
    rw [hown rfl]
    have := Acts.acquireStays (m := s.interrupts) hf (Or.inl rfl)
    rwa [List.nil_append, ← hf] at this
  | @acquireSleeps l p e fs lock hf hl hp =>
    rw [hsw rfl hp.1]
    have hlost : Lost s.interrupts [.returnIndex p s.interrupts] := Or.inr ⟨_, .index p, rfl⟩
    have := Acts.acquireStays (m := false) hf hlost
    rwa [List.singleton_append, ← hf] at this
  | reacquires hf => rw [hown rfl]; exact .reacquires hf

/-- A thread that lost the processor in a step is in a call. -/
theorem effect_switched (he : Effect s k R) (hv : R.isValid s.currentThreadId = true)
    (hc : R.current ≠ s.currentThreadId) : (R.control s.currentThreadId).frames ≠ [] := by
  have hsw : ∀ {R : Rest} {f p}, R.current = s.currentThreadId → p ≠ s.currentThreadId →
      ((R.switch f p).control s.currentThreadId).frames ≠ [] := by
    intro R f p hc hp
    rw [control_other (R := R.switch f p) hp.symm, ← hc]
    have : (R.switch f p).context R.current = ⟨f :: R.frames, R.interrupts⟩ :=
      Function.update_self _ _ _
    rw [this]
    simp
  cases he with
  | exits hp => exact absurd hv (by simp [Rest.leave, Rest.freePending, Rest.free, Sched.rest])
  | kills h =>
    refine absurd ?_ hc
    unfold Rest.reap
    split <;> rfl
  | yields hf hp => exact hsw rfl hp.1
  | sleeps hp => exact hsw rfl hp.1
  | cvWaits _ _ hp => exact hsw rfl hp.1
  | preempts hf hp => exact hsw rfl hp.1
  | acquireSleeps _ _ hp => exact hsw rfl hp.1
  | _ => exact absurd rfl hc

/-- Which threads are valid after a step. -/
theorem effect_valid (he : Effect s k R) (hv : R.isValid i = true) :
    s.isValid i = true ∨ Creates s k i := by
  cases he with
  | @creates stack j hj hstack =>
    by_cases h : i = j
    · exact Or.inr ⟨⟨stack, rfl⟩, h ▸ hj⟩
    · refine Or.inl ?_
      have : Function.update s.isValid j true i = true := hv
      rwa [Function.update_of_ne h] at this
  | exits hp =>
    refine Or.inl ?_
    have : Function.update s.isValid s.currentThreadId false i = true := hv
    rw [Function.update_apply] at this
    split at this
    · simp at this
    · exact this
  | @kills j h =>
    refine Or.inl ?_
    have : Function.update s.isValid j false i = true := by
      unfold Rest.reap at hv
      split at hv <;> exact hv
    rw [Function.update_apply] at this
    split at this
    · simp at this
    · exact this
  | _ => exact Or.inl hv

/-! ### Runs -/

theorem Represents.weaken (h : Represents full s v) : Represents False s v :=
  { h with back := fun hf => hf.elim }

/-- **Runs that are watched.** What holds at the start, and is kept by every step from a state
whose pointers represent some sequences, holds in every state of every run. -/
theorem run_watched {γ : Type} {R : Sched × γ → Label → Sched × γ → Prop} {I : Sched × γ → Prop}
    {g : γ} {p : Sched × γ} (hr : Run R (threadInit enabled, g) ls p)
    (h0 : I (threadInit enabled, g))
    (hstep : ∀ p l q v, I p → Represents False p.1 v → R p l q → step p.1 l q.1 ∧ I q) :
    I p ∧ ∃ v, Represents False p.1 v := by
  apply run_inv (I := fun p => I p ∧ ∃ v, Represents False p.1 v) _ hr
  · exact ⟨h0, View.init, (rep_iff.1 (init_rep enabled)).weaken⟩
  · intro p l q h hs
    obtain ⟨hI, v, hv⟩ := h
    obtain ⟨hlab, hq⟩ := hstep p l q v hI hv hs
    exact ⟨hq, _, represents_step hv False.elim hlab⟩

theorem Represents.valid_current (h : Represents full s v) :
    s.isValid s.currentThreadId = true := by
  rw [h.running]
  exact (h.valid _ Represents.holds_running).2

theorem firstInvalid_invalid (h : firstInvalid s = some i) : s.isValid i = false := by
  have := List.find?_some h
  simpa using this

/-! ### Watching a run -/

section Watch

variable {γ : Type} {obs : Sched → Label → Sched → γ → γ}

/-- A step together with what an observer of the steps makes of it. -/
def watch (obs : Sched → Label → Sched → γ → γ) (p : Sched × γ) (k : Label) (q : Sched × γ) :
    Prop := step p.1 k q.1 ∧ q.2 = obs p.1 k q.1 p.2

/-- The next state, when the label fits. -/
def Label.next (k : Label) (s : Sched) : Option Sched := (k.run s).map fun r =>
  match r.1 with
  | .returned a => { r.2 with ret := a }
  | .pending => r.2

theorem step_next (h : k.next s = some t) : step s k t := by
  obtain ⟨⟨o, s'⟩, hr, rfl⟩ := Option.map_eq_some_iff.1 h
  exact ⟨o, s', hr, rfl⟩

def watchNext (obs : Sched → Label → Sched → γ → γ) (p : Sched × γ) (k : Label) :
    Option (Sched × γ) := (k.next p.1).map fun t => (t, obs p.1 k t p.2)

theorem watch_next {p q : Sched × γ} (h : watchNext obs p k = some q) : watch obs p k q := by
  obtain ⟨t, ht, rfl⟩ := Option.map_eq_some_iff.1 h
  exact ⟨step_next ht, rfl⟩

/-- A watched run that ends with a decided property. -/
theorem watch_any (p : Sched × γ) (ls : List Label) (good : Sched × γ → Bool)
    (h : (runAll (watchNext obs) p ls).any good = true) :
    ∃ q, Run (watch obs) p ls q ∧ good q = true := by
  obtain ⟨q, hq, hg⟩ := runAll_any _ _ _ _ h
  exact ⟨q, hq.mono fun _ _ _ => watch_next, hg⟩

end Watch

end OSLab.Threads
