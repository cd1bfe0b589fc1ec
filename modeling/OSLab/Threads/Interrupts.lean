import OSLab.Threads.Control

/-!
# The interrupt setting across calls

`observe` watches a run: which call each thread is in and the setting it made the call
with, and for every call that returns the settings before and after it.

`interrupts_preserved`: a call of an operation of `thread.h` gives the setting back exactly
when it is not `thread_id` called with interrupts enabled, whatever ran in between.
-/

namespace OSLab.Threads

open Prog

variable {s t : Sched} {v : View} {full : Prop} {k : Label} {R : Rest} {i p : ℕ}
  {ls : List Label} {enabled : Bool}

/-- A call that has returned. -/
structure Return where
  op : Op
  before : Bool
  after : Bool
  deriving DecidableEq, Repr

/-- The calls threads are in, with the setting at the call, and those that have returned. -/
structure Calls where
  call : ℕ → Option (Op × Bool)
  returns : List Return

namespace Calls

def start : Calls := ⟨fun _ => none, []⟩

/-- The running thread is in the call `c` after a step that left `t`: the call is over if
the thread is back in user code. -/
def settle (g : Calls) (i : ℕ) (c : Option (Op × Bool)) (t : Sched) : Calls :=
  if t.currentThreadId = i ∧ t.frames = [] then
    { call := Function.update g.call i none
      returns := g.returns ++ (c.map fun c => ⟨c.1, c.2, t.interrupts⟩).toList }
  else { g with call := Function.update g.call i c }

/-- A thread that the step creates is in no call. -/
def renew (g : Calls) (s : Sched) : Label → Calls
  | .call (.create _) =>
    { g with call := fun i => if firstInvalid s = some i then none else g.call i }
  | _ => g

end Calls

/-- The call the running thread is in during a step. -/
def currentCall (s : Sched) (k : Label) (g : Calls) : Option (Op × Bool) :=
  match k with
  | .call op => some (op, s.interrupts)
  | _ => g.call s.currentThreadId

/-- What a step from `s` to `t` shows. -/
def observe (s : Sched) (k : Label) (t : Sched) (g : Calls) : Calls :=
  (g.renew s k).settle s.currentThreadId (currentCall s k g) t

def observedStep : Sched × Calls → Label → Sched × Calls → Prop := watch observe

/-- The operations of `thread.h`; `interrupts_set` is not one. -/
def Op.inThreadH : Op → Prop
  | .setInterrupts _ => False
  | _ => True

/-- The setting that a call's frame gives back; a thread's and a handler's are no calls. -/
def Frame.gives : Frame → Option Bool
  | .stub | .handlerDone => none
  | f => some f.mask

/-- The setting that the outermost call gives back. -/
def outer (fs : List Frame) : Option Bool := fs.getLast?.bind Frame.gives

theorem outer_cons {f : Frame} {fs : List Frame} (h : fs ≠ []) : outer (f :: fs) = outer fs := by
  obtain ⟨g, gs, rfl⟩ := List.exists_cons_of_ne_nil h
  simp [outer, List.getLast?_cons_cons]

theorem outer_append {gs fs : List Frame} (h : fs ≠ []) : outer (gs ++ fs) = outer fs := by
  induction gs with
  | nil => rfl
  | cons g gs ih => rw [List.cons_append, outer_cons (by simp [h]), ih]

/-- Every valid thread's frames give back the setting of the call it is in. -/
structure Observed (s : Sched) (g : Calls) : Prop where
  calls : ∀ i, s.isValid i = true → (g.call i).map (·.2) = outer (s.rest.control i).frames
  ops : ∀ i op b, s.isValid i = true → g.call i = some (op, b) → op ≠ .id
  returns : ∀ r ∈ g.returns, r.op.inThreadH → (r.after = r.before ↔ ¬(r.op = .id ∧ r.before = true))

theorem observed_init : Observed (threadInit enabled) Calls.start where
  calls i hi := by
    obtain rfl : i = 0 := by simpa [threadInit, Sched.isValid] using hi
    rfl
  ops i op b _ h := by simp [Calls.start] at h
  returns r hr := by simp [Calls.start] at hr

theorem Frame.Switches.gives {m : Bool} {f : Frame} (h : f.Switches m) : f.gives = some m := by
  cases h <;> rfl

theorem Frame.mask_of_gives {f : Frame} {b : Bool} (h : f.gives = some b) : f.mask = b := by
  cases f <;> first | exact Option.some.inj h | cases h

/-- What a step by the running thread owes its call `c` in the control `x` it leaves. -/
structure Settles (c : Option (Op × Bool)) (x : Context) : Prop where
  pending : x.frames ≠ [] → c.map (·.2) = outer x.frames
  op : x.frames ≠ [] → ∀ op b, c = some (op, b) → op ≠ .id
  done : x.frames = [] → ∀ op b, c = some (op, b) → op.inThreadH →
    (x.mask = b ↔ ¬(op = .id ∧ b = true))

/-- A frame that ends gives back the setting of the call. -/
theorem Observed.finishes {g : Calls} (hg : Observed s g)
    (hcur : s.isValid s.currentThreadId = true) {f : Frame} {fs : List Frame}
    (hf : s.frames = f :: fs) {m : Bool} (hm : m = f.mask) :
    Settles (g.call s.currentThreadId) ⟨fs, m⟩ := by
  have hcall := hg.calls _ hcur
  have hown : s.rest.control s.currentThreadId = ⟨s.frames, s.interrupts⟩ :=
    control_current (R := s.rest)
  rw [hown, hf] at hcall
  refine ⟨fun hne => ?_, fun _ op b h => hg.ops _ op b hcur h, fun he op b h _ => ?_⟩
  · rw [hcall, outer_cons hne]
  · simp only at he
    subst he
    have hne := hg.ops _ op b hcur h
    have hb : f.gives = some b := by
      rw [h] at hcall
      exact hcall.symm
    simp [hm, Frame.mask_of_gives hb, hne]

theorem acts_settles {g : Calls} (hg : Observed s g) (hcur : s.isValid s.currentThreadId = true)
    (hs : step s k t) {x : Context} (ha : Acts s k x) : Settles (currentCall s k g) x := by
  have hown : s.rest.control s.currentThreadId = ⟨s.frames, s.interrupts⟩ :=
    control_current (R := s.rest)
  cases ha with
  | same hid hset =>
    refine ⟨fun h => absurd (step_call hs) h, fun h => absurd (step_call hs) h, ?_⟩
    rintro - op b ⟨⟩ -
    simp [hid]
  | id =>
    refine ⟨fun h => absurd (step_call hs) h, fun h => absurd (step_call hs) h, ?_⟩
    rintro - op b ⟨⟩ -
    cases s.interrupts <;> simp
  | setInterrupts b =>
    refine ⟨fun h => absurd (step_call hs) h, fun h => absurd (step_call hs) h, ?_⟩
    rintro - op b' ⟨⟩ h
    exact h.elim
  | @switches op f hid hf =>
    refine ⟨fun _ => ?_, ?_, by simp⟩
    · rw [step_call hs]
      exact hf.gives.symm
    · rintro - op b ⟨⟩
      exact hid
  | lockAcquires l =>
    refine ⟨fun _ => ?_, ?_, by simp⟩
    · rw [step_call hs]; rfl
    · rintro - op b ⟨⟩
      simp
  | @cvWaits c l fs h =>
    have hout : outer (fs ++ [.cvReacquire l s.interrupts]) = some s.interrupts :=
      outer_append (by simp)
    refine ⟨fun _ => ?_, ?_, by simp⟩
    · rw [step_call hs]
      exact hout.symm
    · rintro - op b ⟨⟩
      simp
  | @preempts fs h =>
    have hcall := hg.calls _ hcur
    have hout : outer (fs ++ [.handlerDone]) = none := outer_append (by simp)
    rw [hown, (step_preempt hs).1] at hcall
    refine ⟨fun _ => ?_, fun _ op b h => hg.ops _ op b hcur h, by simp⟩
    rw [(step_preempt hs).1]
    exact hcall.trans hout.symm
  | finishes hf h => exact hg.finishes hcur hf rfl
  | acquires hf hl ha => exact hg.finishes hcur hf rfl
  | acquireStays hf h =>
    have hcall := hg.calls _ hcur
    rw [hown, hf] at hcall
    refine ⟨fun _ => ?_, fun _ op b h => hg.ops _ op b hcur h, by simp⟩
    exact hcall.trans (outer_append (List.cons_ne_nil _ _)).symm
  | @reacquires l e fs hf =>
    have hcall := hg.calls _ hcur
    rw [hown, hf] at hcall
    refine ⟨fun _ => ?_, fun _ op b h => hg.ops _ op b hcur h, by simp⟩
    rw [outer_cons (by simp)]
    cases fs with
    | nil => exact hcall
    | cons f fs =>
      rw [outer_cons (by simp)] at hcall ⊢
      exact hcall

theorem renew_created {g : Calls} (h : Creates s k i) : (g.renew s k).call i = none := by
  obtain ⟨⟨stack, rfl⟩, hi⟩ := h
  simp only [Calls.renew, hi, if_true]

theorem renew_other {g : Calls} (h : ¬Creates s k i) : (g.renew s k).call i = g.call i := by
  unfold Calls.renew
  split
  · have hi : firstInvalid s ≠ some i := fun hi => h ⟨⟨_, rfl⟩, hi⟩
    simp only [hi, if_false]
  · rfl

theorem renew_returns {g : Calls} : (g.renew s k).returns = g.returns := by
  unfold Calls.renew
  split <;> rfl

/-- Other threads keep their calls, new ones have none. -/
theorem renew_ok {g : Calls} (hg : Observed s g) (he : Effect s k t.rest)
    (hi : i ≠ s.currentThreadId) (hv : t.isValid i = true) :
    ((g.renew s k).call i).map (·.2) = outer (t.rest.control i).frames ∧
      ∀ op b, (g.renew s k).call i = some (op, b) → op ≠ .id := by
  by_cases hnew : Creates s k i
  · rw [renew_created hnew, effect_created he hi hnew]
    exact ⟨rfl, by simp⟩
  · have hvs : s.isValid i = true := (effect_valid he hv).resolve_right hnew
    rw [renew_other hnew, effect_other he hi hnew]
    exact ⟨hg.calls i hvs, fun op b => hg.ops i op b hvs⟩

/-- **One step keeps what has been observed in order.** -/
theorem observed_step {g : Calls} (hg : Observed s g) (h : Represents full s v)
    (hs : step s k t) : Observed t (observe s k t g) := by
  have he := step_effect h hs
  have hcur := h.valid_current
  have hother := fun i hi hv => renew_ok (i := i) hg he hi hv
  have hret := renew_returns (s := s) (k := k) (g := g)
  unfold observe
  set g₁ := g.renew s k
  set c := currentCall s k g with hc
  have hown := fun hv => acts_settles hg hcur hs (effect_own he hv)
  by_cases hu : t.currentThreadId = s.currentThreadId ∧ t.frames = []
  · -- the call is over
    have hctl : t.rest.control s.currentThreadId = ⟨[], t.interrupts⟩ := by
      rw [← hu.1, ← hu.2]
      exact control_current (R := t.rest)
    have hv : t.isValid s.currentThreadId = true := by
      rw [← hu.1]
      exact (represents_step h.weaken False.elim hs).valid_current
    rw [Calls.settle, if_pos hu]
    refine ⟨fun i hv => ?_, fun i op b hv => ?_, fun r hr hop => ?_⟩ <;> simp only at *
    · by_cases hi : i = s.currentThreadId
      · subst hi
        rw [hctl, Function.update_self]
        rfl
      · rw [Function.update_of_ne hi]
        exact (hother i hi hv).1
    · by_cases hi : i = s.currentThreadId
      · subst hi
        simp
      · rw [Function.update_of_ne hi]
        exact (hother i hi hv).2 op b
    · rw [hret, List.mem_append] at hr
      rcases hr with hr | hr
      · exact hg.returns r hr hop
      · cases hcc : c with
        | none => simp [hcc] at hr
        | some cb =>
          obtain rfl : r = ⟨cb.1, cb.2, t.interrupts⟩ := by simpa [hcc] using hr
          have hset := hown hv
          rw [hctl] at hset
          exact hset.done rfl cb.1 cb.2 (hc ▸ hcc) hop
  · -- the call is pending, or the thread has ended
    have hne : t.isValid s.currentThreadId = true →
        (t.rest.control s.currentThreadId).frames ≠ [] := by
      intro hv
      by_cases hc : t.currentThreadId = s.currentThreadId
      · have hctl : t.rest.control s.currentThreadId = ⟨t.frames, t.interrupts⟩ := by
          rw [← hc]
          exact control_current (R := t.rest)
        rw [hctl]
        exact fun hf => hu ⟨hc, hf⟩
      · exact effect_switched he hv hc
    rw [Calls.settle, if_neg hu]
    refine ⟨fun i hv => ?_, fun i op b hv => ?_, fun r hr hop => ?_⟩ <;> simp only at *
    · by_cases hi : i = s.currentThreadId
      · subst hi
        rw [Function.update_self]
        exact (hown hv).pending (hne hv)
      · rw [Function.update_of_ne hi]
        exact (hother i hi hv).1
    · by_cases hi : i = s.currentThreadId
      · subst hi
        rw [Function.update_self]
        exact (hown hv).op (hne hv) op b
      · rw [Function.update_of_ne hi]
        exact (hother i hi hv).2 op b
    · rw [hret] at hr
      exact hg.returns r hr hop

/-- **Interrupts are given back as they were found**, except by `thread_id`: in every run, a
call that returned left the setting it was made with, if and only if it was not `thread_id`
called with interrupts enabled. -/
theorem interrupts_preserved {g : Calls}
    (hr : Run observedStep (threadInit enabled, Calls.start) ls (t, g)) :
    ∀ r ∈ g.returns, r.op.inThreadH → (r.after = r.before ↔ ¬(r.op = .id ∧ r.before = true)) := by
  refine (run_watched (I := fun p => Observed p.1 p.2) hr observed_init ?_).1.returns
  intro p k q v hg hv hs
  refine ⟨hs.1, ?_⟩
  rw [hs.2]
  exact observed_step hg hv hs.1

/-- Thread 0 creates thread 1, yields to it and is yielded to; it releases a lock and asks
for its identifier. -/
def callsRun : List Label :=
  [.call (.create (some 7)), .call (.yield threadAny), .resume, .call (.yield 0), .resume,
    .call (.lockCreate 3 4), .call (.lockAcquire 3), .resume, .call (.lockRelease 3), .call .id]

theorem callsRun_returns : (runAll (watchNext observe) (threadInit true, Calls.start) callsRun).any
    (fun q => q.2.returns = [⟨.create (some 7), true, true⟩, ⟨.yield threadAny, true, true⟩,
      ⟨.lockCreate 3 4, true, true⟩, ⟨.lockAcquire 3, true, true⟩, ⟨.lockRelease 3, true, true⟩,
      ⟨.id, true, false⟩]) = true := by
  decide +kernel

theorem interrupts_preserved_sample : ∃ t g,
    Run observedStep (threadInit true, Calls.start) callsRun (t, g) ∧ g.returns.length = 6 ∧
    ∀ r ∈ g.returns, r.op.inThreadH → (r.after = r.before ↔ ¬(r.op = .id ∧ r.before = true)) := by
  obtain ⟨⟨t, g⟩, hr, hg⟩ := watch_any _ _ _ callsRun_returns
  refine ⟨t, g, hr, ?_, interrupts_preserved hr⟩
  rw [of_decide_eq_true hg]
  rfl

/-- `thread_id` called with interrupts enabled leaves them disabled. -/
theorem thread_id_disables : ¬∀ (enabled : Bool) (ls : List Label) (t : Sched) (g : Calls),
    Run observedStep (threadInit enabled, Calls.start) ls (t, g) →
    ∀ r ∈ g.returns, r.op.inThreadH → r.after = r.before := by
  intro h
  obtain ⟨⟨t, g⟩, hr, hg⟩ := watch_any _ _ _ callsRun_returns
  have hret := of_decide_eq_true hg
  have := h true callsRun t g hr ⟨.id, true, false⟩ (by rw [hret]; simp) trivial
  simp at this

end OSLab.Threads
