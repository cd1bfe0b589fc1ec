import OSLab.Threads.Wake

/-!
# What the operations do beside the queues

`Rest` is the part of the state that is not a queue: the table's contexts and stacks, the
running thread and its pending frames, the locks, the condition variables, the stacks and
the signal mask. Moving threads between queues keeps it; each operation has one lemma that
says what it makes of it (`threadYield_rest`, `threadSleep_rest`, `threadExit_rest`, ...).
-/

namespace OSLab.Threads

open Prog

variable {s s' : Sched} {v : View} {full : Prop} {q l c : ℕ} {all enable : Bool}

/-- The part of the state that is not a queue. -/
structure Rest where
  index : ℕ → ℕ
  isValid : ℕ → Bool
  context : ℕ → Context
  stackMemory : ℕ → Option ℕ
  current : ℕ
  pending : Option ℕ
  allocated : List ℕ
  locks : ℕ → Option Lock
  cvs : ℕ → Option ℕ
  interrupts : Bool
  frames : List Frame

namespace Sched

variable (s : Sched)

def context (i : ℕ) : Context := (s.tcb i).threadContext
def stackMemory (i : ℕ) : Option ℕ := (s.tcb i).stackMemory

def rest : Rest where
  index := s.index
  isValid := s.isValid
  context := s.context
  stackMemory := s.stackMemory
  current := s.currentThreadId
  pending := s.stackMemToBeDeleted
  allocated := s.allocated
  locks := s.locks
  cvs := s.cvs
  interrupts := s.interrupts
  frames := s.frames

/-- An update of one table entry, seen through `Rest`. -/
theorem rest_setThread (i : ℕ) (f : Thread → Thread) :
    (s.setThread i f).rest = { s.rest with
      index := Function.update s.rest.index i (f (s.tcb i)).index
      isValid := Function.update s.rest.isValid i (f (s.tcb i)).isValid
      context := Function.update s.rest.context i (f (s.tcb i)).threadContext
      stackMemory := Function.update s.rest.stackMemory i (f (s.tcb i)).stackMemory } := by
  simp only [rest, setThread, Rest.mk.injEq, and_true]
  refine ⟨?_, ?_, ?_, ?_⟩ <;> funext j <;> by_cases h : j = i <;>
    simp [index, isValid, context, stackMemory, h]

@[simp] theorem rest_setNext (i : ℕ) (p : Option ℕ) : (s.setNext i p).rest = s.rest := by
  simp only [setNext, rest_setThread]
  simp only [rest, Rest.mk.injEq, and_true]
  refine ⟨?_, ?_, ?_, ?_⟩ <;> exact Function.update_eq_self i _

@[simp] theorem rest_setHasLock (i : ℕ) (b : Bool) : (s.setHasLock i b).rest = s.rest := by
  simp only [setHasLock, rest_setThread]
  simp only [rest, Rest.mk.injEq, and_true]
  refine ⟨?_, ?_, ?_, ?_⟩ <;> exact Function.update_eq_self i _

@[simp] theorem rest_setValid (i : ℕ) (b : Bool) :
    (s.setValid i b).rest = { s.rest with isValid := Function.update s.rest.isValid i b } := by
  simp only [setValid, rest_setThread]
  simp only [rest, Rest.mk.injEq, and_true, true_and]
  refine ⟨?_, ?_, ?_⟩ <;> exact Function.update_eq_self i _

@[simp] theorem rest_setStackMemory (i : ℕ) (a : Option ℕ) :
    (s.setStackMemory i a).rest =
      { s.rest with stackMemory := Function.update s.rest.stackMemory i a } := by
  simp only [setStackMemory, rest_setThread]
  simp only [rest, Rest.mk.injEq, and_true]
  refine ⟨?_, ?_, ?_⟩ <;> exact Function.update_eq_self i _

@[simp] theorem rest_saveContext (f : Frame) :
    (s.saveContext f).rest = { s.rest with
      context := Function.update s.rest.context s.rest.current ⟨f :: s.rest.frames, s.rest.interrupts⟩ } := by
  simp only [saveContext, rest_setThread]
  simp only [rest, Rest.mk.injEq, and_true, true_and]
  refine ⟨?_, ?_, ?_⟩ <;> exact Function.update_eq_self _ _

@[simp] theorem rest_initThread (i : ℕ) (stack : Option ℕ) :
    (s.initThread i stack).rest = { s.rest with
      index := Function.update s.rest.index i i
      isValid := Function.update s.rest.isValid i true
      context := Function.update s.rest.context i ⟨[.stub], s.rest.interrupts⟩
      stackMemory := Function.update s.rest.stackMemory i stack } := rest_setThread s i _

@[simp] theorem rest_loadContext (p : ℕ) :
    (s.loadContext p).rest = { s.rest with
      frames := (s.rest.context p).frames, interrupts := (s.rest.context p).mask } := rfl

@[simp] theorem rest_setCurrent (i : ℕ) : (s.setCurrent i).rest = { s.rest with current := i } := rfl

@[simp] theorem rest_setReadyHead (p : Option ℕ) : (s.setReadyHead p).rest = s.rest := rfl

@[simp] theorem rest_setReadyTail (p : Option ℕ) : (s.setReadyTail p).rest = s.rest := rfl

@[simp] theorem rest_setWaitQueue (q : ℕ) (w : Option Queue) :
    (s.setWaitQueue q w).rest = s.rest := rfl

@[simp] theorem rest_setLock (l : ℕ) (o : Option Lock) :
    (s.setLock l o).rest = { s.rest with locks := Function.update s.rest.locks l o } := rfl

@[simp] theorem rest_setCv (c : ℕ) (o : Option ℕ) :
    (s.setCv c o).rest = { s.rest with cvs := Function.update s.rest.cvs c o } := rfl

@[simp] theorem rest_setInterrupts (b : Bool) :
    (s.setInterrupts b).rest = { s.rest with interrupts := b } := rfl

@[simp] theorem rest_setFrames (fs : List Frame) :
    (s.setFrames fs).rest = { s.rest with frames := fs } := rfl

@[simp] theorem rest_setPendingStack (a : Option ℕ) :
    (s.setPendingStack a).rest = { s.rest with pending := a } := rfl

@[simp] theorem rest_setAllocated (as : List ℕ) :
    (s.setAllocated as).rest = { s.rest with allocated := as } := rfl

end Sched

namespace Rest

variable (R : Rest)

/-- The stacks left after `free(a)`. -/
def free (a : Option ℕ) : Rest :=
  { R with allocated := a.elim R.allocated fun a => R.allocated.erase a }

/-- After the deferred free at the start of `thread_yield` and `thread_exit`. -/
def freePending : Rest := { R.free R.pending with pending := none }

/-- The running thread's context is saved, to resume at `f`, and `p` runs. -/
def switch (f : Frame) (p : ℕ) : Rest := { R with
  context := Function.update R.context R.current ⟨f :: R.frames, R.interrupts⟩
  current := p
  frames := (R.context p).frames
  interrupts := (R.context p).mask }

/-- The running thread ends and `p` runs. -/
def leave (p : ℕ) : Rest := { R with
  isValid := Function.update R.isValid R.current false
  pending := R.stackMemory R.current
  current := p
  frames := (R.context p).frames
  interrupts := (R.context p).mask }

/-- Thread `i` is killed: only a thread other than 0 has its stack freed. -/
def reap (i : ℕ) : Rest :=
  if i = 0 then { R with isValid := Function.update R.isValid i false }
  else { R.free (R.stackMemory i) with
    isValid := Function.update R.isValid i false
    stackMemory := Function.update R.stackMemory i none }

/-- Thread `i` is created on `stack`. -/
def create (i : ℕ) (stack : Option ℕ) : Rest := { R with
  index := Function.update R.index i i
  isValid := Function.update R.isValid i true
  context := Function.update R.context i ⟨[.stub], false⟩
  stackMemory := Function.update R.stackMemory i stack
  allocated := stack.toList ++ R.allocated }

/-- The lock at `l` is set to `o`. -/
def setLock (l : ℕ) (o : Option Lock) : Rest := { R with locks := Function.update R.locks l o }

/-- The running thread blocks the signal and stays in its call, at `f`. -/
def push (f : Frame) : Rest := { R with frames := f :: R.frames, interrupts := false }

/-- The running thread's innermost call ends, with the mask `b`. -/
def pop (b : Bool) : Rest := { R with frames := R.frames.tail, interrupts := b }

/-- The signal is blocked. -/
def block : Rest := { R with interrupts := false }

/-- `p` can run in place of the running thread. -/
def CanRun (p : ℕ) : Prop := p ≠ R.current ∧ R.isValid p = true

end Rest

/-! ### Moving threads between queues keeps the rest -/

theorem deref_keeps {α γ : Type} {f : Sched → γ} (o : Option α) : Keeps f (deref o) := by
  cases o with
  | none => exact .abort
  | some a => exact .pure a

theorem readyAppend_keeps (i : ℕ) : Keeps Sched.rest (readyAppend i) := by
  refine .getState_bind fun s => .bind (deref_keeps _) fun t => ?_
  refine .bind (.modify fun s => by simp) fun _ => .getState_bind fun s => ?_
  exact .bind (.modify fun s => by simp) fun _ => .modify fun s => by simp

theorem readyPop_keeps : Keeps Sched.rest readyPop := by
  refine .getState_bind fun s => .bind (deref_keeps _) fun h => ?_
  exact .modify fun s => by simp

theorem readyUnlink_keeps (pre : Option ℕ) (t : ℕ) : Keeps Sched.rest (readyUnlink pre t) := by
  cases pre with
  | none => exact readyPop_keeps
  | some p => exact .modify fun s => by simp

theorem createEnqueue_keeps (i : ℕ) : Keeps Sched.rest (createEnqueue i) := by
  refine .getState_bind fun s => ?_
  have hhead : Keeps Sched.rest (getState >>= fun s : Sched =>
      if s.readyQ.head = none then modify (·.setReadyHead s.readyQ.tail) else pure ()) :=
    .getState_bind fun s => .ite (.modify fun s => by simp) (.pure ())
  cases s.readyQ.tail with
  | none => exact .bind (.modify fun s => by simp) fun _ => hhead
  | some t =>
    refine .bind (.modify fun s => by simp) fun _ => .getState_bind fun s => ?_
    exact .bind (.modify fun s => by simp) fun _ => hhead

theorem sleepEnqueue_keeps (q i : ℕ) : Keeps Sched.rest (sleepEnqueue q i) := by
  refine .getState_bind fun s => .bind (deref_keeps _) fun w => ?_
  cases w.head with
  | none => exact .bind (.modify fun s => by simp) fun _ => .modify fun s => by simp
  | some h =>
    refine .bind (deref_keeps _) fun t => .bind (.modify fun s => by simp) fun _ => ?_
    refine .getState_bind fun s => .bind (.modify fun s => by simp) fun _ => ?_
    exact .modify fun s => by simp

theorem waitQueueDestroy_keeps (q : ℕ) : Keeps Sched.rest (waitQueueDestroy q) :=
  .getState_bind fun s => .bind (deref_keeps _) fun _ => .modify fun s => by simp

/-! ### Freeing stacks -/

theorem freeStack_rest (a : Option ℕ) :
    wp True (freeStack a) (fun _ t => (∀ b, a = some b → b ∈ s.allocated) ∧ t.rest = s.rest.free a)
      s := by
  cases a with
  | none => exact (wp_pure _).2 ⟨by simp, rfl⟩
  | some a =>
    simp only [freeStack, wp_bind, wp_getState, wp_require, wp_modify]
    refine ⟨fun ha => ⟨?_, rfl⟩, fun _ => trivial⟩
    intro b hb
    rwa [← Option.some.inj hb]

theorem freePending_rest : wp True freePending (fun _ t => t.rest = s.rest.freePending) s := by
  simp only [freePending, wp_bind, wp_getState, wp_modify]
  refine wp_mono (freeStack_rest s.stackMemToBeDeleted) ?_
  intro _ t ht
  rw [Sched.rest_setPendingStack, ht.2]
  rfl

/-! ### Switching to another thread -/

/-- What is saved and what is loaded when `p` is switched to. -/
theorem rest_switch {f : Frame} {p : ℕ} (hne : p ≠ s.currentThreadId)
    (h : s'.rest = { s.rest with
      context :=
        Function.update s.rest.context s.rest.current ⟨f :: s.rest.frames, s.rest.interrupts⟩ }) :
    ((s'.setCurrent p).loadContext p).rest = s.rest.switch f p := by
  have hne' : p ≠ s.rest.current := hne
  simp only [Sched.rest_loadContext, Sched.rest_setCurrent, h, Function.update_of_ne hne']
  rfl

theorem Represents.canRun (h : Represents full s v) {p : ℕ} (hp : p ∈ v.ready) :
    s.rest.CanRun p := by
  refine ⟨fun e => h.running_notMem ?_, (h.valid p (Represents.holds_ready hp)).2⟩
  have : p = v.running := e.trans h.running
  rwa [← this]

theorem yieldAny_rest (h : Represents full s v) (enable : Bool) :
    wp True (yieldAny enable) (fun o t =>
      (∃ a, o = .returned a ∧ t.rest = { s.rest with interrupts := enable }) ∨
      ∃ p, o = .pending ∧ s.rest.CanRun p ∧ t.rest = s.rest.switch (.returnIndex p enable) p)
      s := by
  cases hr : v.ready with
  | nil =>
    simp only [yieldAny, wp_bind, wp_getState, h.head_nil hr, wp_finish]
    exact Or.inl ⟨_, rfl, rfl⟩
  | cons p r =>
    have hp : p ∈ v.ready := by simp [hr]
    have hrun := h.canRun hp
    simp only [yieldAny, wp_bind, wp_getState, h.head_cons hr, wp_modify]
    refine (readyAppend_keeps _).wp fun _ s₁ h₁ => ?_
    refine readyPop_keeps.wp fun _ s₂ h₂ => ?_
    have h₃ := h₂.trans h₁
    simp only [Sched.rest_saveContext, Sched.rest_setNext] at h₃
    simp only [setcontext, wp_bind, wp_modify, wp_pure]
    have hi : s₂.index p = p := by
      have : s₂.index = s.index := congrArg Rest.index h₃
      rw [this]
      exact h.index p (Represents.holds_ready hp)
    rw [hi]
    exact Or.inr ⟨p, trivial, hrun, rest_switch hrun.1 h₃⟩

theorem yieldTo_rest (h : Represents full s v) (tid : ℤ) (enable : Bool) :
    wp True (yieldTo tid enable) (fun o t =>
      (∃ a, o = .returned a ∧ t.rest = { s.rest with interrupts := enable }) ∨
      ∃ p, o = .pending ∧ s.rest.CanRun p ∧ t.rest = s.rest.switch (.returnTid p enable) p)
      s := by
  have hstay : ∀ a, wp True (finish enable a) (fun o t =>
      (∃ a, o = .returned a ∧ t.rest = { s.rest with interrupts := enable }) ∨
      ∃ p, o = .pending ∧ s.rest.CanRun p ∧ t.rest = s.rest.switch (.returnTid p enable) p) s :=
    fun a => wp_finish.2 (Or.inl ⟨a, rfl, rfl⟩)
  simp only [yieldTo, wp_bind, wp_getState, wp_ite, wp_require]
  refine ⟨fun _ => hstay _, fun _ => ⟨fun _ => ⟨fun _ => hstay _, fun _ => ?_⟩, fun _ => trivial⟩⟩
  rcases findThread_chain tid none h.ready.chain
      (fun t ht => h.index t (Represents.holds_ready ht))
      (h.length_lt (fun t ht => Represents.holds_ready ht) h.ready_nodup) with
    ⟨l₁, t, l₂, hl, htid, hfind⟩ | ⟨-, hfind⟩
  · refine wp_reads _ hfind ?_
    obtain rfl : tid = t := htid.symm
    have hrun := h.canRun (p := t) (by simp [hl])
    simp only [wp_bind, wp_modify, Int.toNat_natCast]
    refine (readyAppend_keeps _).wp fun _ s₁ h₁ => ?_
    refine (readyUnlink_keeps _ _).wp fun _ s₂ h₂ => ?_
    have h₃ := h₂.trans h₁
    rw [Sched.rest_saveContext] at h₃
    simp only [setcontext, wp_bind, wp_modify, wp_pure]
    exact Or.inr ⟨t, trivial, hrun, rest_switch hrun.1 h₃⟩
  · refine wp_reads _ hfind ?_
    by_cases hd : s.readyQ.head = none
    · simp only [hd, if_true]; exact hstay _
    · simp only [hd, if_false]; exact hstay _

/-- The state after the common prefix of `thread_yield` and `thread_exit`. -/
theorem prefix_rest (h : Represents full s v) {Q : Unit → Sched → Prop}
    (hQ : ∀ t, Represents full t v → t.rest = s.rest.freePending.block →
      Q () t) : wp True freePending Q (s.setInterrupts false) := by
  have h₁ : wp True freePending (fun _ t => Represents full t v) (s.setInterrupts false) :=
    prefix_ok h fun _ ht => ht
  refine wp_mono (wp_and h₁ freePending_rest) fun _ t ht => hQ t ht.1 ?_
  rw [ht.2]
  rfl

/-- **`thread_yield`** returns with the mask restored, or saves a context that restores it. -/
theorem threadYield_rest (h : Represents full s v) (tid : ℤ) :
    wp True (threadYield tid) (fun o t =>
      (∃ a, o = .returned a ∧ t.rest = s.rest.freePending) ∨
      ∃ f p, o = .pending ∧ (f = .returnIndex p s.interrupts ∨ f = .returnTid p s.interrupts) ∧
        s.rest.CanRun p ∧
        t.rest = s.rest.freePending.block.switch f p) s := by
  simp only [threadYield, wp_bind, wp_interruptsSet]
  refine prefix_rest h fun s₁ h₁ hs₁ => ?_
  have hrun : ∀ p, s₁.rest.CanRun p → s.rest.CanRun p := by rw [hs₁]; exact fun _ hp => hp
  have hfree : { s₁.rest with interrupts := s.interrupts } = s.rest.freePending := by
    rw [hs₁]; rfl
  simp only [wp_getState, wp_ite]
  refine ⟨fun _ => ?_, fun _ => ⟨fun _ => ?_, fun _ => ?_⟩⟩
  · exact wp_finish.2 (Or.inl ⟨_, rfl, hfree⟩)
  · refine wp_mono (yieldAny_rest h₁ _) fun o t ht => ?_
    rcases ht with ⟨a, ho, ht⟩ | ⟨p, ho, hp, ht⟩
    · exact Or.inl ⟨a, ho, ht.trans hfree⟩
    · exact Or.inr ⟨_, p, ho, Or.inl rfl, hrun p hp, by rw [ht, hs₁]⟩
  · refine wp_mono (yieldTo_rest h₁ _ _) fun o t ht => ?_
    rcases ht with ⟨a, ho, ht⟩ | ⟨p, ho, hp, ht⟩
    · exact Or.inl ⟨a, ho, ht.trans hfree⟩
    · exact Or.inr ⟨_, p, ho, Or.inr rfl, hrun p hp, by rw [ht, hs₁]⟩

/-- **`thread_sleep`** likewise. -/
theorem threadSleep_rest (h : Represents full s v) (queue : Option ℕ) :
    wp True (threadSleep queue) (fun o t =>
      (∃ a, o = .returned a ∧ t.rest = s.rest) ∨
      ∃ p, o = .pending ∧ s.rest.CanRun p ∧
        t.rest = s.rest.block.switch (.returnIndex p s.interrupts) p)
      s := by
  have h₁ := h.same (same_setInterrupts s false)
  simp only [threadSleep, wp_bind, wp_interruptsSet]
  cases queue with
  | none => exact wp_finish.2 (Or.inl ⟨_, rfl, rfl⟩)
  | some q =>
    cases hr : v.ready with
    | nil =>
      simp only [wp_bind, wp_getState, h₁.head_nil hr, wp_finish]
      exact Or.inl ⟨_, rfl, rfl⟩
    | cons p r =>
      have hp : p ∈ v.ready := by simp [hr]
      have hrun := h.canRun hp
      simp only [wp_bind, wp_getState, h₁.head_cons hr, wp_modify]
      refine (sleepEnqueue_keeps _ _).wp fun _ s₁ hs₁ => ?_
      refine readyPop_keeps.wp fun _ s₂ hs₂ => ?_
      have h₃ := hs₂.trans hs₁
      rw [Sched.rest_saveContext] at h₃
      simp only [setcontext, wp_bind, wp_modify, wp_pure]
      have hi : s₂.index p = p := by
        have : s₂.index = s.index := congrArg Rest.index h₃
        rw [this]
        exact h.index p (Represents.holds_ready hp)
      rw [hi]
      have hsw := rest_switch (s := s.setInterrupts false) hrun.1 h₃
      exact Or.inr ⟨p, trivial, hrun, hsw⟩

/-- **`thread_exit`** returns with the mask restored, or ends the running thread. -/
theorem threadExit_rest (h : Represents full s v) :
    wp True threadExit (fun o t =>
      (∃ a, o = .returned a ∧ t.rest = s.rest.freePending) ∨
      ∃ p, o = .pending ∧ s.rest.CanRun p ∧ t.rest = s.rest.freePending.leave p) s := by
  simp only [threadExit, wp_bind, wp_interruptsSet]
  refine prefix_rest h fun s₁ h₁ hs₁ => ?_
  cases hr : v.ready with
  | nil =>
    simp only [wp_getState, h₁.head_nil hr, wp_finish]
    refine Or.inl ⟨_, rfl, ?_⟩
    rw [Sched.rest_setInterrupts, hs₁]
    rfl
  | cons p r =>
    have hp : p ∈ v.ready := by simp [hr]
    simp only [wp_getState, h₁.head_cons hr, wp_bind, wp_modify]
    refine readyPop_keeps.wp fun _ s₂ hs₂ => ?_
    have hcur : s₁.currentThreadId = s.rest.current := congrArg Rest.current hs₁
    rw [Sched.rest_setValid, hs₁, hcur] at hs₂
    have hi : s₂.index p = p := by
      have h1 : s₂.index = s.index := congrArg Rest.index hs₂
      rw [h1]
      exact h.index p (Represents.holds_ready hp)
    simp only [setcontext, wp_bind, wp_modify, wp_pure]
    refine Or.inr ⟨p, trivial, h.canRun hp, ?_⟩
    have hm : (s₂.tcb s₂.currentThreadId).stackMemory = s₂.rest.stackMemory s₂.rest.current := rfl
    have hi' : (s₂.setPendingStack (s₂.rest.stackMemory s₂.rest.current)).index p = p := hi
    rw [hm, hi', Sched.rest_loadContext, Sched.rest_setCurrent, Sched.rest_setPendingStack, hs₂]
    rfl

/-! ### Operations that return at once -/

theorem reap_rest (i : ℕ) : wp True (reap i) (fun _ t => t.rest = s.rest.reap i) s := by
  have hm : ((s.setValid i false).tcb i).stackMemory = s.rest.stackMemory i :=
    congrFun (congrArg Rest.stackMemory (s.rest_setValid i false)) i
  simp only [reap, wp_bind, wp_ite, wp_getState, wp_pure, wp_modify, Rest.reap]
  refine ⟨fun hi => ?_, fun hi => ?_⟩
  · refine wp_mono (freeStack_rest _) fun _ t ht => ?_
    rw [if_neg hi, Sched.rest_setStackMemory, ht.2, Sched.rest_setValid, hm]
    rfl
  · obtain rfl : i = 0 := by simpa using hi
    simp

theorem findThread_congr (hn : s'.next = s.next) (hi : s'.index = s.index) (tid : ℤ) (fuel : ℕ)
    (pre p : Option ℕ) : findThread s' tid fuel pre p = findThread s tid fuel pre p := by
  induction fuel generalizing pre p with
  | zero => rfl
  | succ fuel ih => cases p with
    | none => rfl
    | some t => simp only [findThread, hn, hi, ih]

/-- `thread_kill(i)` has an effect: `i` is valid, does not run, and is in the ready queue. -/
def Sched.Kills (s : Sched) (i : ℕ) : Prop :=
  i < threadMaxThreads ∧ i ≠ s.currentThreadId ∧ s.isValid i = true ∧
    ∃ p, findThread s i (threadMaxThreads + 1) none s.readyQ.head = some (some p)

/-- **`thread_kill`** ends the thread named, or does nothing. -/
theorem threadKill_rest (tid : ℤ) :
    wp True (threadKill tid) (fun o t => (∃ a, o = .returned a) ∧
      ((∀ i : ℕ, tid = i → ¬s.Kills i) ∧ t.rest = s.rest ∨
        ∃ i : ℕ, tid = i ∧ s.Kills i ∧ t.rest = s.rest.reap i)) s := by
  simp only [threadKill, wp_bind, wp_interruptsSet, wp_getState, wp_ite]
  refine ⟨fun hbad => ?_, fun hok => ⟨fun hhead => ?_, fun _ => ?_⟩⟩
  · refine wp_finish.2 ⟨⟨_, rfl⟩, Or.inl ⟨?_, rfl⟩⟩
    rintro i rfl ⟨hlt, hcur, hval, -⟩
    rcases hbad with hc | hc | hc
    · exact hcur (by exact_mod_cast hc)
    · exact hc ⟨by omega, by omega⟩
    · simp [hval] at hc
  · refine wp_finish.2 ⟨⟨_, rfl⟩, Or.inl ⟨?_, rfl⟩⟩
    rintro i rfl ⟨-, -, -, p, hp⟩
    have hh : s.readyQ.head = none := by simpa using hhead
    simp [hh, findThread] at hp
  refine wp_reads_of fun found hf => ?_
  rw [findThread_congr (s := s) (by simp) (by simp)] at hf
  simp only [Sched.setInterrupts_fields] at hf
  cases found with
  | none =>
    refine wp_finish.2 ⟨⟨_, rfl⟩, Or.inl ⟨?_, rfl⟩⟩
    rintro i rfl ⟨-, -, -, p, hp⟩
    simp [hf] at hp
  | some p =>
    simp only [not_or, not_not, Bool.not_eq_false] at hok
    obtain ⟨hcur, ⟨hpos, hlt⟩, hval⟩ := hok
    obtain ⟨i, rfl⟩ : ∃ i : ℕ, tid = i := ⟨tid.toNat, (Int.toNat_of_nonneg hpos).symm⟩
    have hk : s.Kills i := by
      refine ⟨by omega, fun e => hcur (by simp [e]), by simpa using hval, p, by simpa using hf⟩
    simp only [wp_bind]
    refine (readyUnlink_keeps _ _).wp fun _ s₁ h₁ => ?_
    have hend : ∀ s₂ : Sched, s₂.rest = s₁.rest →
        wp True (do reap (i : ℤ).toNat; finish s.interrupts i) (fun o t => (∃ a, o = .returned a) ∧
          ((∀ j : ℕ, (i : ℤ) = j → ¬s.Kills j) ∧ t.rest = s.rest ∨
            ∃ j : ℕ, (i : ℤ) = j ∧ s.Kills j ∧ t.rest = s.rest.reap j)) s₂ := by
      intro s₂ h₂
      rw [wp_bind]
      refine wp_mono (reap_rest _) fun _ s₃ h₃ => wp_finish.2 ⟨⟨_, rfl⟩, Or.inr ⟨i, rfl, hk, ?_⟩⟩
      rw [Sched.rest_setInterrupts, h₃, h₂, h₁, Sched.rest_setInterrupts, Int.toNat_natCast]
      unfold Rest.reap
      split <;> rfl
    simp only [wp_getState, wp_ite, wp_bind, wp_modify] at hend ⊢
    refine ⟨fun _ => hend _ (by simp), fun _ => hend _ rfl⟩

/-- **`thread_create`** fills in the first free entry. -/
theorem threadCreate_rest (stack : Option ℕ) :
    wp True (threadCreate stack) (fun o t => (∃ a, o = .returned a) ∧
      (firstInvalid s = none ∧ t.rest = s.rest ∨
        ∃ i, firstInvalid s = some i ∧ (∀ a, stack = some a → a ∉ s.allocated) ∧
          t.rest = s.rest.create i stack)) s := by
  have hfirst : firstInvalid (s.setInterrupts false) = firstInvalid s := rfl
  simp only [threadCreate, wp_bind, wp_interruptsSet, wp_getState, hfirst]
  cases hi : firstInvalid s with
  | none => exact wp_finish.2 ⟨⟨_, rfl⟩, Or.inl ⟨rfl, rfl⟩⟩
  | some i =>
    simp only [wp_bind, wp_modify]
    cases stack with
    | none =>
      refine wp_finish.2 ⟨⟨_, rfl⟩, Or.inr ⟨i, rfl, by simp, ?_⟩⟩
      rw [Sched.rest_setInterrupts, Sched.rest_initThread]
      rfl
    | some a =>
      simp only [wp_bind, wp_require, wp_modify]
      refine ⟨fun ha => ?_, fun _ => trivial⟩
      refine (createEnqueue_keeps i).wp fun _ s₁ h₁ => ?_
      refine wp_finish.2 ⟨⟨_, rfl⟩, Or.inr ⟨i, rfl, ?_, ?_⟩⟩
      · intro b hb
        rw [← Option.some.inj hb]
        exact ha
      · rw [Sched.rest_setInterrupts, h₁, Sched.rest_setAllocated, Sched.rest_initThread]
        rfl

/-- Every run of `c` that returns leaves `interrupts_set(enable)` behind and nothing else
outside the queues. -/
def Ends (enable : Bool) (c : Prog Sched Outcome) : Prop :=
  ∀ s : Sched, wp True c (fun o t => (∃ a, o = .returned a) ∧
    t.rest = { s.rest with interrupts := enable }) s

theorem Ends.finish (a : ℤ) : Ends enable (finish enable a) := fun _ => wp_finish.2 ⟨⟨a, rfl⟩, rfl⟩

theorem Ends.bind {α : Type} {c : Prog Sched α} {d : α → Prog Sched Outcome}
    (hc : Keeps Sched.rest c) (hd : ∀ a, Ends enable (d a)) : Ends enable (c >>= d) := by
  intro s
  rw [wp_bind]
  refine hc.wp fun a t ht => ?_
  refine wp_mono (hd a t) fun o u hu => ⟨hu.1, ?_⟩
  rw [hu.2, ht]

theorem Ends.getState_bind {d : Sched → Prog Sched Outcome} (hd : ∀ s, Ends enable (d s)) :
    Ends enable (getState >>= d) := by
  intro s
  rw [wp_bind, wp_getState]
  exact hd s s

theorem wakeupAll_ends (q : ℕ) (w : Queue) : Ends enable (wakeupAll q w enable) := by
  have hend : Ends enable (deref w.tail >>= fun t => (Prog.modify fun s : Sched => s.setNext t none) >>=
      fun _ => reads (fun s => countChain s (threadMaxThreads + 1) w.head) >>= fun c =>
        (Prog.modify fun s : Sched => s.setWaitQueue q (some ⟨none, none⟩)) >>= fun _ =>
          OSLab.Threads.finish enable c) := by
    refine .bind (deref_keeps _) fun t => .bind (.modify fun s => by simp) fun _ => ?_
    exact .bind (.reads _) fun c => .bind (.modify fun s => by simp) fun _ => .finish _
  refine .getState_bind fun s => ?_
  cases s.readyQ.head with
  | none => exact .bind (.modify fun s => by simp) fun _ => .bind (.modify fun s => by simp) fun _ => hend
  | some h =>
    refine .bind (deref_keeps _) fun t => .bind (.modify fun s => by simp) fun _ => ?_
    exact .bind (.modify fun s => by simp) fun _ => hend

theorem wakeupOne_ends (q h : ℕ) (w : Queue) : Ends enable (wakeupOne q h w enable) := by
  have hend : Ends enable (getState >>= fun s : Sched =>
      (Prog.modify fun s' : Sched => s'.setWaitQueue q (some { w with head := s.next h })) >>=
        fun _ => (Prog.modify fun s : Sched => s.setNext h none) >>= fun _ =>
          OSLab.Threads.finish enable 1) :=
    .getState_bind fun s => .bind (.modify fun s => by simp) fun _ =>
      .bind (.modify fun s => by simp) fun _ => .finish _
  refine .getState_bind fun s => ?_
  cases s.readyQ.head with
  | none => exact .bind (.modify fun s => by simp) fun _ => .bind (.modify fun s => by simp) fun _ => hend
  | some x =>
    refine .bind (deref_keeps _) fun t => .bind (.modify fun s => by simp) fun _ => ?_
    exact .getState_bind fun s => .bind (.modify fun s => by simp) fun _ => hend

/-- **`thread_wakeup`** only moves threads between queues. -/
theorem threadWakeup_rest (queue : Option ℕ) (all : Bool) :
    wp True (threadWakeup queue all) (fun o t => (∃ a, o = .returned a) ∧ t.rest = s.rest) s := by
  unfold threadWakeup
  rw [wp_bind, wp_interruptsSet]
  have hends : ∀ c : Prog Sched Outcome, Ends s.interrupts c →
      wp True c (fun o t => (∃ a, o = .returned a) ∧ t.rest = s.rest) (s.setInterrupts false) :=
    fun c hc => hc (s.setInterrupts false)
  apply hends
  cases queue with
  | none => exact .finish 0
  | some q =>
    refine .getState_bind fun s' => .bind (deref_keeps _) fun w => ?_
    cases w.head with
    | none => exact .finish 0
    | some h => cases all with
      | true => exact wakeupAll_ends q w
      | false => exact wakeupOne_ends q h w

end OSLab.Threads
