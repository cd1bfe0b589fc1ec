import OSLab.Threads.Effects
import OSLab.Threads.Fifo

/-!
# What a step can do

`Effect s l R`: from `s` a step labelled `l` can leave `R` outside the queues. `step_effect`
is the inversion lemma of the step: every step is one of these cases. Later modules argue by
cases on `Effect` and do not unfold an operation.
-/

namespace OSLab.Threads

open Prog

variable {s s' t : Sched} {v : View} {full : Prop} {q l c : ℕ} {all enable : Bool} {lock : Lock}

theorem lockBusy_some : s.lockBusy l = some lock ↔
    s.locks l = some lock ∧ lock.available = false := by
  simp [Sched.lockBusy, Option.filter_eq_some_iff]

theorem waitQueueCreate_rest (q : ℕ) :
    wp True (waitQueueCreate q) (fun _ t => s.waitQueues q = none ∧ t.rest = s.rest) s := by
  simp only [waitQueueCreate, wp_bind, wp_getState, wp_require, wp_modify]
  exact ⟨fun hq => ⟨hq, rfl⟩, fun _ => trivial⟩

/-! ### Locks and condition variables -/

theorem lockRelease_rest (l : ℕ) :
    wp True (lockRelease l) (fun o t => (∃ a, o = .returned a) ∧
      (s.lockBusy l = none ∧ t.rest = s.rest ∨ ∃ lock, s.lockBusy l = some lock ∧
        t.rest = s.rest.setLock l (some { lock with available := true }))) s := by
  simp only [lockRelease, wp_bind, wp_interruptsSet, wp_getState, Sched.setInterrupts_fields]
  cases hl : s.locks l with
  | none => simp only [deref, wp_abort]
  | some lock =>
    simp only [deref, wp_pure, wp_ite, wp_bind, wp_modify]
    refine ⟨fun ha => ?_, fun ha => ?_⟩
    · refine wp_mono (threadWakeup_rest _ _) fun _ t ht => ?_
      refine wp_finish.2 ⟨⟨_, rfl⟩, Or.inr ⟨lock, lockBusy_of_busy hl ha, ?_⟩⟩
      rw [Sched.rest_setInterrupts, ht.2, Sched.rest_setHasLock, Sched.rest_setLock]
      rfl
    · exact wp_finish.2 ⟨⟨_, rfl⟩, Or.inl ⟨lockBusy_of_free hl ha, rfl⟩⟩

theorem cvWait_rest (h : Represents full s v) (c l : ℕ) :
    wp True (cvWait c l) (fun o t =>
      (s.lockBusy l = none ∧ (∃ a, o = .returned a) ∧ t.rest = s.rest) ∨
      ∃ q lock R, s.cvs c = some q ∧ s.lockBusy l = some lock ∧ o = .pending ∧
        R = (s.rest.setLock l (some { lock with available := true })).push
          (.cvReacquire l s.interrupts) ∧
        (t.rest = R ∨ ∃ p, R.CanRun p ∧ t.rest = R.switch (.returnIndex p false) p)) s := by
  have h₁ := h.same (same_setInterrupts s false)
  simp only [cvWait, wp_bind, wp_interruptsSet, wp_getState, Sched.setInterrupts_fields]
  cases hc : s.cvs c with
  | none => simp only [deref, wp_abort]
  | some q =>
    cases hl : s.locks l with
    | none => simp only [deref, wp_pure, wp_abort]
    | some lock =>
      simp only [deref, wp_pure, wp_ite, wp_bind, wp_modify]
      refine ⟨fun ha => ?_, fun ha => ?_⟩
      · refine wp_mono (wp_and (lockRelease_ok h₁ l (.inr trivial)) (lockRelease_rest l)) fun _ s₂ h₂ => ?_
        obtain ⟨hrep, -, hfree | ⟨lock', hb, hr⟩⟩ := h₂
        · rw [lockBusy_of_busy (by simpa using hl) ha] at hfree
          simp at hfree
        obtain rfl : lock = lock' := by
          have := (lockBusy_some.1 hb).1
          simp only [Sched.setInterrupts_fields, hl] at this
          exact Option.some.inj this
        set s₃ := s₂.setFrames (.cvReacquire l s.interrupts :: s₂.frames) with hs₃
        have hsame : Same s₂ s₃ := by constructor <;> simp [s₃]
        have h₃ : s₃.rest = (s.rest.setLock l (some { lock with available := true })).push
            (.cvReacquire l s.interrupts) := by
          have hf : s₂.frames = s.frames := congrArg Rest.frames hr
          rw [hs₃, Sched.rest_setFrames, hr, hf]
          rfl
        refine wp_mono (threadSleep_rest (hrep.same hsame) (some q)) fun o t ht => ?_
        refine Or.inr ⟨q, lock, _, rfl, lockBusy_of_busy hl ha, trivial, rfl, ?_⟩
        rcases ht with ⟨-, -, ht⟩ | ⟨p, -, hp, ht⟩
        · exact Or.inl (ht.trans h₃)
        · have hm : s₃.interrupts = false := congrArg Rest.interrupts h₃
          rw [hm] at ht
          rw [h₃] at hp ht
          exact Or.inr ⟨p, hp, ht⟩
      · exact wp_finish.2 (Or.inl ⟨lockBusy_of_free hl ha, ⟨_, rfl⟩, rfl⟩)

theorem cvWake_rest (all : Bool) (c l : ℕ) :
    wp True (cvWake all c l) (fun o t => (∃ a, o = .returned a) ∧ t.rest = s.rest) s := by
  simp only [cvWake, wp_bind, wp_interruptsSet, wp_getState, Sched.setInterrupts_fields]
  cases hc : s.cvs c with
  | none => simp only [deref, wp_abort]
  | some q =>
    cases hl : s.locks l with
    | none => simp only [deref, wp_pure, wp_abort]
    | some lock =>
      simp only [deref, wp_pure, wp_ite, wp_bind]
      refine ⟨fun _ => ?_, fun _ => wp_finish.2 ⟨⟨_, rfl⟩, rfl⟩⟩
      refine wp_mono (threadWakeup_rest _ _) fun _ t ht => wp_finish.2 ⟨⟨_, rfl⟩, ?_⟩
      rw [Sched.rest_setInterrupts, ht.2]
      rfl

theorem acquireTurn_rest (h : Represents full s v) (l : ℕ) (enable : Bool) :
    wp True (acquireTurn l enable) (fun o t => ∃ lock, s.locks l = some lock ∧
      (lock.available = true ∧ (∃ a, o = .returned a) ∧
          t.rest = (s.rest.setLock l (some { lock with available := false })).pop enable ∨
        lock.available = false ∧ o = .pending ∧ (t.rest = s.rest ∨ ∃ p, s.rest.CanRun p ∧
          t.rest = s.rest.block.switch (.returnIndex p s.interrupts) p))) s := by
  simp only [acquireTurn, wp_bind, wp_getState]
  cases hl : s.locks l with
  | none => simp only [deref, wp_abort]
  | some lock =>
    simp only [deref, wp_pure, wp_ite, wp_bind, wp_modify]
    refine ⟨fun ha => ?_, fun ha => ?_⟩
    · refine wp_finish.2 ⟨lock, rfl, Or.inl ⟨ha, ⟨_, rfl⟩, ?_⟩⟩
      rw [Sched.rest_setInterrupts, Sched.rest_setLock, Sched.rest_setHasLock, Sched.rest_setFrames]
      rfl
    · refine wp_mono (threadSleep_rest h _) fun o t ht => ?_
      refine ⟨lock, rfl, Or.inr ⟨by simpa using ha, trivial, ?_⟩⟩
      rcases ht with ⟨-, -, ht⟩ | ⟨p, -, hp, ht⟩
      · exact Or.inl ht
      · exact Or.inr ⟨p, hp, ht⟩

theorem lockCreate_rest (l q : ℕ) :
    wp True (lockCreate l q) (fun o t => (∃ a, o = .returned a) ∧ s.locks l = none ∧
      s.waitQueues q = none ∧ t.rest = s.rest.setLock l (some ⟨q, true⟩)) s := by
  simp only [lockCreate, waitQueueCreate, wp_bind, wp_interruptsSet, wp_getState, wp_require,
    wp_modify, Sched.setInterrupts_fields]
  refine ⟨fun hl => ⟨fun hq => ?_, fun _ => trivial⟩, fun _ => trivial⟩
  exact wp_finish.2 ⟨⟨_, rfl⟩, hl, hq, rfl⟩

theorem lockDestroy_rest (l : ℕ) :
    wp True (lockDestroy l) (fun o t => (∃ a, o = .returned a) ∧ ∃ lock, s.locks l = some lock ∧
      (lock.available = false ∧ t.rest = s.rest ∨
        lock.available = true ∧ t.rest = s.rest.setLock l none)) s := by
  simp only [lockDestroy, wp_bind, wp_interruptsSet, wp_getState, Sched.setInterrupts_fields]
  cases hl : s.locks l with
  | none => simp only [deref, wp_abort]
  | some lock =>
    simp only [deref, wp_pure, wp_ite, wp_bind, wp_modify]
    refine ⟨fun ha => ?_, fun ha => ?_⟩
    · refine (waitQueueDestroy_keeps _).wp fun _ t ht => ?_
      refine wp_finish.2 ⟨⟨_, rfl⟩, lock, rfl, Or.inr ⟨ha, ?_⟩⟩
      rw [Sched.rest_setInterrupts, Sched.rest_setLock, ht]
      rfl
    · exact wp_finish.2 ⟨⟨_, rfl⟩, lock, rfl, Or.inl ⟨by simpa using ha, rfl⟩⟩

theorem cvCreate_rest (c q : ℕ) :
    wp True (cvCreate c q) (fun o t => (∃ a, o = .returned a) ∧ s.cvs c = none ∧
      s.waitQueues q = none ∧
      t.rest = { s.rest with cvs := Function.update s.rest.cvs c (some q) }) s := by
  simp only [cvCreate, waitQueueCreate, wp_bind, wp_interruptsSet, wp_getState, wp_require,
    wp_modify, Sched.setInterrupts_fields]
  refine ⟨fun hc => ⟨fun hq => ?_, fun _ => trivial⟩, fun _ => trivial⟩
  exact wp_finish.2 ⟨⟨_, rfl⟩, hc, hq, rfl⟩

theorem cvDestroy_rest (c : ℕ) :
    wp True (cvDestroy c) (fun o t => (∃ a, o = .returned a) ∧ ∃ q, s.cvs c = some q ∧
      t.rest = { s.rest with cvs := Function.update s.rest.cvs c none }) s := by
  simp only [cvDestroy, wp_bind, wp_interruptsSet, wp_getState, Sched.setInterrupts_fields]
  cases hc : s.cvs c with
  | none => simp only [deref, wp_abort]
  | some q =>
    simp only [deref, wp_pure, wp_modify]
    refine (waitQueueDestroy_keeps _).wp fun _ t ht => ?_
    refine wp_finish.2 ⟨⟨_, rfl⟩, q, rfl, ?_⟩
    rw [Sched.rest_setInterrupts, Sched.rest_setCv, ht]
    rfl

/-! ### Steps -/

/-- An operation that has no effect outside the queues. -/
def Idle (s : Sched) : Op → Prop
  | .create _ => firstInvalid s = none
  | .kill tid => ∀ i : ℕ, tid = i → ¬s.Kills i
  | .queueCreate q => s.waitQueues q = none
  | .lockRelease l | .cvWait _ l => s.lockBusy l = none
  | .lockDestroy l => ∃ lock, s.lockBusy l = some lock
  | .id | .setInterrupts _ | .yield _ | .exit | .lockCreate _ _ | .cvCreate _ _ | .cvDestroy _
  | .lockAcquire _ => False
  | _ => True

/-- The signal mask when a frame has ended. -/
def Frame.mask : Frame → Bool
  | .stub | .handlerDone => true
  | .returnIndex _ e | .returnTid _ e | .acquireLoop _ e | .cvReacquire _ e | .cvDone e => e

/-- A frame that ends in one step whatever the state. -/
def Frame.Final : Frame → Prop
  | .acquireLoop _ _ | .cvReacquire _ _ => False
  | _ => True

/-- What a step leaves outside the queues. -/
inductive Effect (s : Sched) : Label → Rest → Prop
  | idle {op : Op} (h : Idle s op) : Effect s (.call op) s.rest
  | id : Effect s (.call .id) s.rest.block
  | setInterrupts (b : Bool) : Effect s (.call (.setInterrupts b)) { s.rest with interrupts := b }
  | creates {stack : Option ℕ} {i : ℕ} (hi : firstInvalid s = some i)
      (hstack : ∀ a, stack = some a → a ∉ s.allocated) :
      Effect s (.call (.create stack)) (s.rest.create i stack)
  | yieldStays (tid : ℤ) : Effect s (.call (.yield tid)) s.rest.freePending
  | yields {tid : ℤ} {f : Frame} {p : ℕ}
      (hf : f = .returnIndex p s.interrupts ∨ f = .returnTid p s.interrupts)
      (hp : s.rest.CanRun p) : Effect s (.call (.yield tid)) (s.rest.freePending.block.switch f p)
  | exitStays : Effect s (.call .exit) s.rest.freePending
  | exits {p : ℕ} (hp : s.rest.CanRun p) : Effect s (.call .exit) (s.rest.freePending.leave p)
  | kills {i : ℕ} (h : s.Kills i) : Effect s (.call (.kill i)) (s.rest.reap i)
  | sleeps {queue : Option ℕ} {p : ℕ} (hp : s.rest.CanRun p) :
      Effect s (.call (.sleep queue)) (s.rest.block.switch (.returnIndex p s.interrupts) p)
  | lockCreates {l q : ℕ} (hl : s.locks l = none) (hq : s.waitQueues q = none) :
      Effect s (.call (.lockCreate l q)) (s.rest.setLock l (some ⟨q, true⟩))
  | lockDestroys {l : ℕ} {lock : Lock} (hl : s.locks l = some lock) (ha : lock.available = true) :
      Effect s (.call (.lockDestroy l)) (s.rest.setLock l none)
  | lockAcquires (l : ℕ) :
      Effect s (.call (.lockAcquire l)) (s.rest.push (.acquireLoop l s.interrupts))
  | lockReleases {l : ℕ} {lock : Lock} (hl : s.lockBusy l = some lock) :
      Effect s (.call (.lockRelease l)) (s.rest.setLock l (some { lock with available := true }))
  | cvCreates {c q : ℕ} (hc : s.cvs c = none) (hq : s.waitQueues q = none) :
      Effect s (.call (.cvCreate c q)) { s.rest with cvs := Function.update s.rest.cvs c (some q) }
  | cvDestroys {c q : ℕ} (hc : s.cvs c = some q) :
      Effect s (.call (.cvDestroy c)) { s.rest with cvs := Function.update s.rest.cvs c none }
  | cvWaitStays {c l q : ℕ} {lock : Lock} (hc : s.cvs c = some q) (hl : s.lockBusy l = some lock) :
      Effect s (.call (.cvWait c l))
        ((s.rest.setLock l (some { lock with available := true })).push
          (.cvReacquire l s.interrupts))
  | cvWaits {c l q p : ℕ} {lock : Lock} (hc : s.cvs c = some q) (hl : s.lockBusy l = some lock)
      (hp : s.rest.CanRun p) :
      Effect s (.call (.cvWait c l))
        (((s.rest.setLock l (some { lock with available := true })).push
          (.cvReacquire l s.interrupts)).switch (.returnIndex p false) p)
  | preemptStays : Effect s .preempt (s.rest.push .handlerDone).freePending
  | preempts {f : Frame} {p : ℕ} (hf : f = .returnIndex p false ∨ f = .returnTid p false)
      (hp : s.rest.CanRun p) :
      Effect s .preempt ((s.rest.push .handlerDone).freePending.switch f p)
  | finishes {f : Frame} {fs : List Frame} (hf : s.frames = f :: fs) (h : f.Final) :
      Effect s .resume (s.rest.pop f.mask)
  | acquires {l : ℕ} {e : Bool} {fs : List Frame} {lock : Lock}
      (hf : s.frames = .acquireLoop l e :: fs) (hl : s.locks l = some lock)
      (ha : lock.available = true) :
      Effect s .resume ((s.rest.setLock l (some { lock with available := false })).pop e)
  | acquireStays {l : ℕ} {e : Bool} {fs : List Frame} {lock : Lock}
      (hf : s.frames = .acquireLoop l e :: fs) (hl : s.lockBusy l = some lock) :
      Effect s .resume s.rest
  | acquireSleeps {l p : ℕ} {e : Bool} {fs : List Frame} {lock : Lock}
      (hf : s.frames = .acquireLoop l e :: fs) (hl : s.lockBusy l = some lock)
      (hp : s.rest.CanRun p) :
      Effect s .resume (s.rest.block.switch (.returnIndex p s.interrupts) p)
  | reacquires {l : ℕ} {e : Bool} {fs : List Frame} (hf : s.frames = .cvReacquire l e :: fs) :
      Effect s .resume { s.rest with
        frames := .acquireLoop l s.interrupts :: .cvDone e :: fs, interrupts := false }

theorem runOp_effect (h : Represents full s v) (op : Op) :
    wp True (runOp op) (fun _ t => Effect s (.call op) t.rest) s := by
  cases op with
  | id =>
    simp only [runOp, threadId, wp_bind, wp_interruptsSet, wp_getState, wp_pure]
    exact .id
  | create stack =>
    refine wp_mono (threadCreate_rest stack) fun _ t ht => ?_
    rcases ht.2 with ⟨hi, hr⟩ | ⟨i, hi, hstack, hr⟩ <;> rw [hr]
    · exact .idle hi
    · exact .creates hi hstack
  | yield tid =>
    refine wp_mono (threadYield_rest h tid) fun _ t ht => ?_
    rcases ht with ⟨-, -, hr⟩ | ⟨f, p, -, hf, hp, hr⟩ <;> rw [hr]
    · exact .yieldStays tid
    · exact .yields hf hp
  | exit =>
    refine wp_mono (threadExit_rest h) fun _ t ht => ?_
    rcases ht with ⟨-, -, hr⟩ | ⟨p, -, hp, hr⟩ <;> rw [hr]
    · exact .exitStays
    · exact .exits hp
  | kill tid =>
    refine wp_mono (threadKill_rest tid) fun _ t ht => ?_
    rcases ht.2 with ⟨hk, hr⟩ | ⟨i, rfl, hk, hr⟩ <;> rw [hr]
    · exact .idle hk
    · exact .kills hk
  | queueCreate q =>
    simp only [runOp, wp_bind, wp_pure]
    refine wp_mono (waitQueueCreate_rest q) fun _ t ht => ?_
    rw [ht.2]; exact .idle ht.1
  | queueDestroy q =>
    simp only [runOp, wp_bind, wp_pure]
    refine (waitQueueDestroy_keeps q).wp fun _ t ht => ?_
    rw [ht]; exact .idle trivial
  | sleep queue =>
    refine wp_mono (threadSleep_rest h queue) fun _ t ht => ?_
    rcases ht with ⟨-, -, hr⟩ | ⟨p, -, hp, hr⟩ <;> rw [hr]
    · exact .idle trivial
    · exact .sleeps hp
  | wakeup queue all =>
    refine wp_mono (threadWakeup_rest queue all) fun _ t ht => ?_
    rw [ht.2]; exact .idle trivial
  | lockCreate l q =>
    refine wp_mono (lockCreate_rest l q) fun _ t ht => ?_
    obtain ⟨-, hl, hq, hr⟩ := ht
    rw [hr]; exact .lockCreates hl hq
  | lockDestroy l =>
    refine wp_mono (lockDestroy_rest l) fun _ t ht => ?_
    obtain ⟨-, lock, hl, ⟨ha, hr⟩ | ⟨ha, hr⟩⟩ := ht <;> rw [hr]
    · exact .idle ⟨lock, lockBusy_some.2 ⟨hl, ha⟩⟩
    · exact .lockDestroys hl ha
  | lockAcquire l =>
    simp only [runOp, lockAcquire, wp_bind, wp_interruptsSet, wp_modify, wp_pure]
    exact .lockAcquires l
  | lockRelease l =>
    refine wp_mono (lockRelease_rest l) fun _ t ht => ?_
    obtain ⟨-, ⟨hb, hr⟩ | ⟨lock, hb, hr⟩⟩ := ht <;> rw [hr]
    · exact .idle hb
    · exact .lockReleases hb
  | cvCreate c q =>
    refine wp_mono (cvCreate_rest c q) fun _ t ht => ?_
    obtain ⟨-, hc, hq, hr⟩ := ht
    rw [hr]; exact .cvCreates hc hq
  | cvDestroy c =>
    refine wp_mono (cvDestroy_rest c) fun _ t ht => ?_
    obtain ⟨-, q, hc, hr⟩ := ht
    rw [hr]; exact .cvDestroys hc
  | cvWait c l =>
    refine wp_mono (cvWait_rest h c l) fun _ t ht => ?_
    obtain ⟨hb, -, hr⟩ | ⟨q, lock, R, hc, hb, -, rfl, hr | ⟨p, hp, hr⟩⟩ := ht <;> rw [hr]
    · exact .idle hb
    · exact .cvWaitStays hc hb
    · exact .cvWaits hc hb hp
  | cvSignal c l =>
    refine wp_mono (cvWake_rest false c l) fun _ t ht => ?_
    rw [ht.2]; exact .idle trivial
  | cvBroadcast c l =>
    refine wp_mono (cvWake_rest true c l) fun _ t ht => ?_
    rw [ht.2]; exact .idle trivial
  | setInterrupts b =>
    simp only [runOp, wp_bind, wp_interruptsSet, wp_pure]
    exact .setInterrupts b

theorem frame_effect (h : Represents full s v) {f : Frame} {fs : List Frame}
    (hf : s.frames = f :: fs) : wp True f.run (fun _ t => Effect s .resume t.rest) s := by
  cases f with
  | acquireLoop l enable =>
    refine wp_mono (acquireTurn_rest h l enable) fun _ t ht => ?_
    obtain ⟨lock, hl, ⟨ha, -, hr⟩ | ⟨ha, -, hr | ⟨p, hp, hr⟩⟩⟩ := ht <;> rw [hr]
    · exact .acquires hf hl ha
    · exact .acquireStays hf (lockBusy_some.2 ⟨hl, ha⟩)
    · exact .acquireSleeps hf (lockBusy_some.2 ⟨hl, ha⟩) hp
  | cvReacquire l enable =>
    simp only [Frame.run, popFrame, lockAcquire, wp_bind, wp_modify, wp_interruptsSet, wp_pure]
    have := Effect.reacquires hf
    simpa [hf] using this
  | _ =>
    simp only [Frame.run, popFrame, wp_bind, wp_modify, wp_interruptsSet, wp_getState, wp_finish,
      wp_pure]
    exact .finishes hf trivial

theorem preempt_effect (h : Represents full s v) :
    wp True interruptHandler (fun _ t => Effect s .preempt t.rest) s := by
  simp only [interruptHandler, wp_bind, wp_modify]
  have h₁ : Represents full ((s.setInterrupts false).setFrames (.handlerDone :: s.frames)) v :=
    h.same (by constructor <;> simp)
  refine wp_mono (threadYield_rest h₁ threadAny) fun _ t ht => ?_
  rcases ht with ⟨-, -, hr⟩ | ⟨f, p, -, hf, hp, hr⟩ <;> rw [hr]
  · exact .preemptStays
  · exact .preempts hf hp

/-- **What a step can do.** -/
theorem step_effect (h : Represents full s v) {k : Label} (hs : step s k t) :
    Effect s k t.rest := by
  obtain ⟨o, s', hr, rfl⟩ := hs
  have he : Effect s k s'.rest := by
    unfold Label.run at hr
    split at hr
    · exact (runOp_effect h _).of_run hr
    · split at hr
      · exact (preempt_effect h).of_run hr
      · simp at hr
    · rename_i f fs hf
      exact (frame_effect h hf).of_run hr
    · simp at hr
  cases o with
  | returned a => exact he
  | pending => exact he

/-- Operations are issued from user code. -/
theorem step_call {op : Op} (hs : step s (.call op) t) : s.frames = [] := by
  obtain ⟨o, s', hr, -⟩ := hs
  unfold Label.run at hr
  split at hr <;> simp_all

/-- The signal is taken in user code while it is not blocked. -/
theorem step_preempt (hs : step s .preempt t) : s.frames = [] ∧ s.interrupts = true := by
  obtain ⟨o, s', hr, -⟩ := hs
  unfold Label.run at hr
  split at hr <;> simp_all

end OSLab.Threads
