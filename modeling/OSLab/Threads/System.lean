import OSLab.Threads.Thread

/-!
# Runs of the thread package

A step of the system is an operation the running thread issues from user code, a
timer interrupt taken in user code, or one resumption point of the running thread.
Every operation runs with the signal blocked, so no interrupt falls inside one, and
whichever thread a step switches to first runs its own pending frames.
-/

namespace OSLab.Threads

open Prog

/-- An operation of `thread.h`, with the values its `malloc`s return. -/
inductive Op
  | id
  | create (stack : Option ℕ)
  | yield (tid : ℤ)
  | exit
  | kill (tid : ℤ)
  | queueCreate (q : ℕ)
  | queueDestroy (q : ℕ)
  | sleep (queue : Option ℕ)
  | wakeup (queue : Option ℕ) (all : Bool)
  | lockCreate (l q : ℕ)
  | lockDestroy (l : ℕ)
  | lockAcquire (l : ℕ)
  | lockRelease (l : ℕ)
  | cvCreate (c q : ℕ)
  | cvDestroy (c : ℕ)
  | cvWait (c l : ℕ)
  | cvSignal (c l : ℕ)
  | cvBroadcast (c l : ℕ)
  | setInterrupts (enabled : Bool)
  deriving DecidableEq, Repr

/-- What happens next: the running thread issues an operation, the timer interrupts it,
or it runs its innermost pending frame. -/
inductive Label
  | call (op : Op)
  | preempt
  | resume
  deriving DecidableEq, Repr

/-- The code of an operation. -/
def runOp : Op → Prog Sched Outcome
  | .id => threadId
  | .create stack => threadCreate stack
  | .yield tid => threadYield tid
  | .exit => threadExit
  | .kill tid => threadKill tid
  | .queueCreate q => do waitQueueCreate q; return .returned q
  | .queueDestroy q => do waitQueueDestroy q; return .returned 0
  | .sleep queue => threadSleep queue
  | .wakeup queue all => threadWakeup queue all
  | .lockCreate l q => lockCreate l q
  | .lockDestroy l => lockDestroy l
  | .lockAcquire l => lockAcquire l
  | .lockRelease l => lockRelease l
  | .cvCreate c q => cvCreate c q
  | .cvDestroy c => cvDestroy c
  | .cvWait c l => cvWait c l
  | .cvSignal c l => cvSignal c l
  | .cvBroadcast c l => cvBroadcast c l
  | .setInterrupts enabled => do let old ← interruptsSet enabled; return .returned old.toNat

/-- Drop the innermost frame. -/
def popFrame : Prog Sched Unit := modify fun s => s.setFrames s.frames.tail

/-- Run the innermost pending frame of the running thread. -/
def Frame.run : Frame → Prog Sched Outcome
  | .stub => do
    popFrame
    let _ ← interruptsSet true
    return .pending
  | .returnIndex tempHead enable => do
    popFrame
    let _ ← interruptsSet enable
    let s ← getState
    return .returned (s.index tempHead)
  | .returnTid wantTid enable => do
    popFrame
    finish enable wantTid
  | .acquireLoop lock enable => acquireTurn lock enable
  | .cvReacquire lock enable => do
    popFrame
    modify fun s => s.setFrames (.cvDone enable :: s.frames)
    lockAcquire lock
  | .cvDone enable => do
    popFrame
    finish enable 0
  | .handlerDone => do
    popFrame
    let _ ← interruptsSet true
    return .pending

/-- `interrupt_handler`: entered with the signal blocked, it calls
`thread_yield(THREAD_ANY)`; the mask is restored when it returns. -/
def interruptHandler : Prog Sched Outcome := do
  modify fun s => (s.setInterrupts false).setFrames (.handlerDone :: s.frames)
  threadYield threadAny

/-- The program one label stands for, when the label fits the state. -/
def Label.run (l : Label) (s : Sched) : Option (Outcome × Sched) :=
  match l, s.frames with
  | .call op, [] => runOp op s
  | .preempt, [] => if s.interrupts then interruptHandler s else none
  | .resume, f :: _ => f.run s
  | _, _ => none

/-- One step: the value a call returned is kept in `ret`. -/
def step (s : Sched) (l : Label) (t : Sched) : Prop :=
  ∃ o s', l.run s = some (o, s') ∧ t = match o with
    | .returned v => { s' with ret := v }
    | .pending => s'

/-- After `thread_init`: thread 0 runs, with the signal mask it was called with. -/
def threadInit (enabled : Bool) : Sched where
  tcb i := ⟨i = 0, 0, false, ⟨[], false⟩, none, none⟩
  currentThreadId := 0
  readyQ := ⟨none, none⟩
  stackMemToBeDeleted := none
  waitQueues _ := none
  locks _ := none
  cvs _ := none
  allocated := []
  interrupts := enabled
  frames := []
  ret := 0

end OSLab.Threads
