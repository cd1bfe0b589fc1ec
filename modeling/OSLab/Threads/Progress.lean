import OSLab.Threads.Kill
import OSLab.Threads.Yield
import OSLab.Lib.Returns

/-!
# Every step that can be taken is taken

`Op.Live s` says when an operation may be called: the queues, locks and condition variables it is
given are allocated, what its `malloc`s return is not, and `thread_yield` is not given
`THREAD_MAX_THREADS`, which its range check lets through.

* `runOp_returns`: such a call returns.
* `step_exists`: every label that is possible in a state of a run has a step.
* `scheduler_fifo`: along every run from `thread_init` the queues are the sequences one gets by
  replaying `seqStep`, a wake-up returns the number of threads it moved, and every possible label
  has such a step.
-/

namespace OSLab.Threads

open Prog

variable {s t u : Sched} {v : View} {ls : List Label} {k : Label} {op : Op} {f : Frame}
  {enabled : Bool}

/-- The operation may be called. -/
def Op.Live (s : Sched) : Op → Prop
  | .create stack => ∀ a, stack = some a → a ∉ s.allocated
  | .yield tid => tid ≠ threadMaxThreads
  | .queueCreate q => s.waitQueues q = none
  | .queueDestroy q | .sleep (some q) | .wakeup (some q) _ => s.HasQueue q
  | .lockCreate l q => s.locks l = none ∧ s.waitQueues q = none
  | .lockDestroy l | .lockRelease l => s.HasLock l
  | .cvCreate c q => s.cvs c = none ∧ s.waitQueues q = none
  | .cvDestroy c => s.HasCv c
  | .cvWait c l | .cvSignal c l | .cvBroadcast c l => s.HasCv c ∧ s.HasLock l
  | _ => True

/-- The frame can be run: a pending `lock_acquire` looks at its lock again. -/
def Frame.Live (s : Sched) : Frame → Prop
  | .acquireLoop l _ => s.HasLock l
  | _ => True

/-- The label fits the state. -/
def Label.Possible (s : Sched) : Label → Prop
  | .call op => s.frames = [] ∧ op.Live s
  | .preempt => s.frames = [] ∧ s.interrupts = true
  | .resume => ∃ f fs, s.frames = f :: fs ∧ f.Live s

/-! ### Calls -/

theorem interruptsSet_run (s : Sched) (b : Bool) :
    interruptsSet b s = some (s.interrupts, s.setInterrupts b) := rfl

theorem finish_returns {enable : Bool} {a : ℤ} : Returns (finish enable a) s :=
  .bind_run (interruptsSet_run s enable) (.pure _)

theorem threadExit_returns (h : Sound s v) : Returns threadExit s := by
  refine .of_wp (Q := fun _ _ => True) ?_
  simp only [threadExit, wp_bind, wp_interruptsSet]
  have hown : StacksOwned (s.setInterrupts false).rest := h.owned.congr rfl rfl rfl rfl
  refine wp_mono (freePending_returns hown) fun _ s₁ _ => ?_
  simp only [wp_getState]
  cases hh : s₁.readyQ.head with
  | none => exact wp_finish.2 trivial
  | some x =>
    simp only [readyPop, deref, setcontext, wp_bind, wp_getState, wp_modify, wp_pure, hh,
      Sched.setValid_fields]

/-- **An operation that may be called returns.** -/
theorem runOp_returns (h : Sound s v) (hl : op.Live s) : Returns (runOp op) s := by
  cases op with
  | id => exact .of_run rfl
  | create stack =>
    rw [runOp]
    exact .of_wp (threadCreate_returns hl)
  | yield tid => exact .of_wp (threadYield_returns h hl)
  | exit => exact threadExit_returns h
  | kill tid => exact .of_wp (threadKill_returns h tid)
  | queueCreate q =>
    exact .bind (.of_wp (waitQueueCreate_ok h.rep q (.inl hl))) fun _ _ _ => .pure _
  | queueDestroy q =>
    exact .bind (.of_wp (waitQueueDestroy_ok h.rep False.elim (.inl hl))) fun _ _ _ => .pure _
  | sleep queue =>
    cases queue with
    | none => exact .bind_run (interruptsSet_run s false) finish_returns
    | some q => exact .of_wp (threadSleep_ok h.rep q (.inl hl))
  | wakeup queue all =>
    cases queue with
    | none => exact .bind_run (interruptsSet_run s false) finish_returns
    | some q => exact .of_wp (threadWakeup_ok h.rep q all (.inl hl))
  | lockCreate l q => exact .of_wp (lockCreate_ok h.rep l q (.inl hl))
  | lockDestroy l => exact .of_wp (lockDestroy_ok h.rep False.elim (.inl hl))
  | lockAcquire l => exact .of_run rfl
  | lockRelease l => exact .of_wp (lockRelease_ok h.rep l (.inl hl))
  | cvCreate c q => exact .of_wp (cvCreate_ok h.rep c q (.inl hl))
  | cvDestroy c => exact .of_wp (cvDestroy_ok h.rep False.elim (.inl hl))
  | cvWait c l => exact .of_wp (cvWait_ok h.rep c l (.inl hl))
  | cvSignal c l => exact .of_wp (cvWake_ok h.rep false c l (.inl hl))
  | cvBroadcast c l => exact .of_wp (cvWake_ok h.rep true c l (.inl hl))
  | setInterrupts b => exact .of_run rfl

/-- A pending frame that can be run returns. -/
theorem frame_returns (h : Sound s v) (hl : f.Live s) : Returns f.run s := by
  cases f with
  | acquireLoop l enable => exact .of_wp (acquireTurn_ok h.rep l enable (.inl hl))
  | _ => exact .of_run rfl

/-- The timer interrupt yields, which never aborts. -/
theorem interruptHandler_returns (h : Sound s v) : Returns interruptHandler s := by
  refine .bind_run rfl (.of_wp (threadYield_returns (v := v) ⟨?_, ?_⟩ (by decide)))
  · exact h.rep.same ⟨rfl, rfl, rfl, rfl, rfl, rfl⟩
  · exact h.owned.congr rfl rfl rfl rfl

/-! ### Steps -/

/-- **Every possible label has a step.** -/
theorem step_exists (h : Sound s v) (hk : k.Possible s) : ∃ t, step s k t := by
  have hrun : ∃ o t, k.run s = some (o, t) := by
    cases k with
    | call op =>
      obtain ⟨o, t, hr⟩ := runOp_returns h hk.2
      exact ⟨o, t, (call_run hk.1).trans hr⟩
    | preempt =>
      obtain ⟨o, t, hr⟩ := interruptHandler_returns h
      refine ⟨o, t, ?_⟩
      unfold Label.run
      rw [hk.1]
      exact (if_pos hk.2).trans hr
    | resume =>
      obtain ⟨f, fs, hf, hl⟩ := hk
      obtain ⟨o, t, hr⟩ := frame_returns h hl
      refine ⟨o, t, ?_⟩
      unfold Label.run
      rw [hf]
      exact hr
  obtain ⟨o, t, hr⟩ := hrun
  exact ⟨_, o, t, hr, rfl⟩

/-- **The scheduler is a FIFO.** Every run from `thread_init`, whichever thread issues an
operation or is preempted at each step, is a run on the sequences, and the pointers of its last
state represent the last sequences. From there every label that is possible and allowed has a
step, with the effect it is meant to have. -/
theorem scheduler_fifo (hr : Run allowedStep (threadInit enabled) ls t) :
    ∃ v, Run fifoStep (threadInit enabled, View.init) ls (t, v) ∧ Rep t v ∧
      ∀ k, Allowed t k → k.Possible t → ∃ u, fifoStep (t, v) k (u, seqStep t v k) := by
  obtain ⟨v, hrun, hrep⟩ := run_fifo hr
  refine ⟨v, hrun, hrep, fun k ha hk => ?_⟩
  obtain ⟨w, hw⟩ := run_sound (hr.mono fun _ _ _ h => h.2)
  obtain ⟨u, hu⟩ := step_exists hw hk
  exact ⟨u, fifoStep_ok hrep ⟨ha, hu⟩⟩

/-- Threads 1, 2 and 3 go to sleep, one after another, and thread 0 wakes up the first. -/
def sampleRun : List Label :=
  [.call (.create (some 7)), .call (.create (some 8)), .call (.create (some 9)),
    .call (.queueCreate 5), .preempt, .resume, .call (.sleep (some 5)), .resume,
    .call (.sleep (some 5)), .resume, .call (.sleep (some 5)), .resume, .resume,
    .call (.wakeup (some 5) false)]

/-- The first wake-up moves thread 1, and a second one the other two. -/
theorem sampleRun_returns : (exec (threadInit true) sampleRun).any (fun t =>
    decide (t.ret = 1 ∧ t.frames = [] ∧ t.readyQ = ⟨some 1, some 1⟩ ∧
      t.waitQueues 5 = some ⟨some 2, some 3⟩) &&
    (exec t [.call (.wakeup (some 5) true)]).any fun u =>
      decide (u.ret = 2 ∧ u.readyQ = ⟨some 1, some 3⟩)) = true := by decide +kernel

theorem scheduler_fifo_sample : ∃ t v u, Run allowedStep (threadInit true) sampleRun t ∧
    Run fifoStep (threadInit true, View.init) sampleRun (t, v) ∧ Rep t v ∧ t.ret = 1 ∧
    fifoStep (t, v) (.call (.wakeup (some 5) true))
      (u, seqStep t v (.call (.wakeup (some 5) true))) ∧ u.ret = 2 := by
  obtain ⟨t, ht, hgood⟩ := (Option.any_eq_true _ _).1 sampleRun_returns
  rw [Bool.and_eq_true, decide_eq_true_eq] at hgood
  obtain ⟨⟨hret, hf, -, hq⟩, hnext⟩ := hgood
  obtain ⟨u, hu, hret'⟩ := (Option.any_eq_true _ _).1 hnext
  have hall : ∀ l ∈ sampleRun, ∀ s, Allowed s l := by simp [sampleRun, Allowed]
  have hr : Run allowedStep (threadInit true) sampleRun t := exec_run (.nil _) hall ht
  obtain ⟨v, hv, hrep, hprog⟩ := scheduler_fifo hr
  obtain ⟨u', hu'⟩ := hprog (.call (.wakeup (some 5) true)) trivial
    ⟨hf, by show (t.waitQueues 5).isSome = true; rw [hq]; rfl⟩
  -- the step that exists is the one that was computed
  have hstep : Run allowedStep t [.call (.wakeup (some 5) true)] u :=
    exec_run (.nil _) (by simp [Allowed]) hu
  obtain ⟨t', ht', hs⟩ := run_concat_iff.1 (show Run allowedStep t ([] ++ _) u from hstep)
  obtain rfl := run_nil_iff.1 ht'
  obtain rfl := step_unique hs.2 hu'.1.2
  exact ⟨t, v, u, hr, hv, hrep, hret, hu', (of_decide_eq_true hret').1⟩

end OSLab.Threads
