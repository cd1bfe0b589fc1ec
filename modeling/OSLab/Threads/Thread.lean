import OSLab.Lib.Prog
import OSLab.Lib.Chain
import Mathlib.Data.Int.Notation

/-!
# The thread package (`threads/thread.c`)

The scheduler's state is the thread table `TCB` with its intrusive `next` fields,
the ready queue and the wait queues as head and tail pointers into the table, the
locks and condition variables on the heap, and the signal mask. A pointer to a
table entry is its index; `NULL` is `none`; dereferencing `NULL` or a freed object
aborts.

A context switch cuts a call in two: `getcontext` saves where the call resumes.
`Frame` lists those resumption points, and a saved context is a stack of frames
(the innermost call first). The running thread's pending frames are in
`Sched.frames`; with none pending it is in user code and may issue any operation.
-/

namespace OSLab.Threads

/-- `THREAD_MAX_THREADS`. -/
def threadMaxThreads : ℕ := 1024

/-! Control and error codes; an identifier is a number below `threadMaxThreads`. -/

def threadAny : ℤ := -1
def threadSelf : ℤ := -2
def threadInvalid : ℤ := -3
def threadNone : ℤ := -4
def threadNoMore : ℤ := -5
def threadNoMemory : ℤ := -6

/-- Where a suspended call resumes. -/
inductive Frame
  /-- `thread_stub`: enables interrupts and enters the thread's main function. -/
  | stub
  /-- The end of `thread_yield(THREAD_ANY)` and `thread_sleep`:
  `interrupts_set(enable); return temp_head->index`. -/
  | returnIndex (tempHead : ℕ) (enable : Bool)
  /-- The end of `thread_yield(want_tid)`: `interrupts_set(enable); return want_tid`. -/
  | returnTid (wantTid : ℤ) (enable : Bool)
  /-- The test of the loop of `lock_acquire`. -/
  | acquireLoop (lock : ℕ) (enable : Bool)
  /-- `cv_wait` after its `thread_sleep`: reacquire the lock. -/
  | cvReacquire (lock : ℕ) (enable : Bool)
  /-- The end of `cv_wait`. -/
  | cvDone (enable : Bool)
  /-- The end of the signal handler: the signal mask is restored. -/
  | handlerDone
  deriving DecidableEq, Repr

/-- What `getcontext` saves: the pending frames and the signal mask. -/
structure Context where
  frames : List Frame
  mask : Bool
  deriving DecidableEq, Repr

/-- An entry of the thread table. -/
structure Thread where
  isValid : Bool
  index : ℕ
  hasLock : Bool
  threadContext : Context
  stackMemory : Option ℕ
  next : Option ℕ
  deriving Repr

/-- A queue of threads: `struct ready_queue` and `struct wait_queue`. -/
structure Queue where
  head : Option ℕ
  tail : Option ℕ
  deriving DecidableEq, Repr

structure Lock where
  waitQ : ℕ
  available : Bool
  deriving DecidableEq, Repr

/-- The state of the package: the globals of `thread.c`, the heap objects it
allocates, the signal mask (`interrupts`), and the running thread's pending frames and
the value its last call returned. -/
structure Sched where
  tcb : ℕ → Thread
  currentThreadId : ℕ
  readyQ : Queue
  stackMemToBeDeleted : Option ℕ
  waitQueues : ℕ → Option Queue
  locks : ℕ → Option Lock
  cvs : ℕ → Option ℕ
  allocated : List ℕ
  interrupts : Bool
  frames : List Frame
  ret : ℤ

namespace Sched

/-! ### Fields of the table and updates

Each update comes with what it does to the fields the queues consist of. -/

def next (s : Sched) (i : ℕ) : Option ℕ := (s.tcb i).next
def index (s : Sched) (i : ℕ) : ℕ := (s.tcb i).index
def isValid (s : Sched) (i : ℕ) : Bool := (s.tcb i).isValid

def setThread (s : Sched) (i : ℕ) (f : Thread → Thread) : Sched :=
  { s with tcb := Function.update s.tcb i (f (s.tcb i)) }

def setNext (s : Sched) (i : ℕ) (q : Option ℕ) : Sched :=
  s.setThread i fun t => { t with next := q }

def setValid (s : Sched) (i : ℕ) (b : Bool) : Sched :=
  s.setThread i fun t => { t with isValid := b }

def setHasLock (s : Sched) (i : ℕ) (b : Bool) : Sched :=
  s.setThread i fun t => { t with hasLock := b }

def setStackMemory (s : Sched) (i : ℕ) (a : Option ℕ) : Sched :=
  s.setThread i fun t => { t with stackMemory := a }

/-- The fields `thread_create` fills in; the context enters `thread_stub`, with the mask
of the creating call. -/
def initThread (s : Sched) (i : ℕ) (stack : Option ℕ) : Sched :=
  s.setThread i fun t => { t with
    isValid := true, index := i, next := none
    threadContext := ⟨[.stub], s.interrupts⟩, stackMemory := stack }

/-- `getcontext(&TCB[current_thread_id].thread_context)`: the pending frames, with the
point the call itself resumes at, and the signal mask. -/
def saveContext (s : Sched) (resume : Frame) : Sched :=
  s.setThread s.currentThreadId fun t =>
    { t with threadContext := ⟨resume :: s.frames, s.interrupts⟩ }

/-- `setcontext(&p->thread_context)`. -/
def loadContext (s : Sched) (p : ℕ) : Sched :=
  { s with
    frames := (s.tcb p).threadContext.frames
    interrupts := (s.tcb p).threadContext.mask }

def setCurrent (s : Sched) (i : ℕ) : Sched := { s with currentThreadId := i }

def setReadyHead (s : Sched) (p : Option ℕ) : Sched :=
  { s with readyQ := { s.readyQ with head := p } }

def setReadyTail (s : Sched) (p : Option ℕ) : Sched :=
  { s with readyQ := { s.readyQ with tail := p } }

def setWaitQueue (s : Sched) (q : ℕ) (w : Option Queue) : Sched :=
  { s with waitQueues := Function.update s.waitQueues q w }

def setLock (s : Sched) (l : ℕ) (v : Option Lock) : Sched :=
  { s with locks := Function.update s.locks l v }

def setCv (s : Sched) (c : ℕ) (q : Option ℕ) : Sched :=
  { s with cvs := Function.update s.cvs c q }

def setInterrupts (s : Sched) (b : Bool) : Sched := { s with interrupts := b }

def setFrames (s : Sched) (fs : List Frame) : Sched := { s with frames := fs }

def setPendingStack (s : Sched) (a : Option ℕ) : Sched := { s with stackMemToBeDeleted := a }

def setAllocated (s : Sched) (as : List ℕ) : Sched := { s with allocated := as }

section Fields

variable (s : Sched)

@[simp] theorem setNext_fields (i : ℕ) (q : Option ℕ) :
    (s.setNext i q).next = Function.update s.next i q ∧ (s.setNext i q).index = s.index ∧
    (s.setNext i q).isValid = s.isValid ∧ (s.setNext i q).currentThreadId = s.currentThreadId ∧
    (s.setNext i q).readyQ = s.readyQ ∧ (s.setNext i q).waitQueues = s.waitQueues ∧
    (s.setNext i q).locks = s.locks ∧ (s.setNext i q).cvs = s.cvs ∧
    (s.setNext i q).frames = s.frames ∧ (s.setNext i q).interrupts = s.interrupts := by
  refine ⟨?_, ?_, ?_, rfl, rfl, rfl, rfl, rfl, rfl, rfl⟩ <;> funext j <;>
    by_cases h : j = i <;>
    simp [setNext, setThread, next, index, isValid, h]

@[simp] theorem setValid_fields (i : ℕ) (b : Bool) :
    (s.setValid i b).next = s.next ∧ (s.setValid i b).index = s.index ∧
    (s.setValid i b).isValid = Function.update s.isValid i b ∧
    (s.setValid i b).currentThreadId = s.currentThreadId ∧ (s.setValid i b).readyQ = s.readyQ ∧
    (s.setValid i b).waitQueues = s.waitQueues ∧ (s.setValid i b).locks = s.locks ∧
    (s.setValid i b).cvs = s.cvs ∧ (s.setValid i b).frames = s.frames ∧
    (s.setValid i b).interrupts = s.interrupts := by
  refine ⟨?_, ?_, ?_, rfl, rfl, rfl, rfl, rfl, rfl, rfl⟩ <;> funext j <;>
    by_cases h : j = i <;>
    simp [setValid, setThread, next, index, isValid, h]

@[simp] theorem setHasLock_fields (i : ℕ) (b : Bool) :
    (s.setHasLock i b).next = s.next ∧ (s.setHasLock i b).index = s.index ∧
    (s.setHasLock i b).isValid = s.isValid ∧
    (s.setHasLock i b).currentThreadId = s.currentThreadId ∧
    (s.setHasLock i b).readyQ = s.readyQ ∧ (s.setHasLock i b).waitQueues = s.waitQueues ∧
    (s.setHasLock i b).locks = s.locks ∧ (s.setHasLock i b).cvs = s.cvs ∧
    (s.setHasLock i b).frames = s.frames ∧ (s.setHasLock i b).interrupts = s.interrupts := by
  refine ⟨?_, ?_, ?_, rfl, rfl, rfl, rfl, rfl, rfl, rfl⟩ <;> funext j <;>
    by_cases h : j = i <;>
    simp [setHasLock, setThread, next, index, isValid, h]

@[simp] theorem setStackMemory_fields (i : ℕ) (a : Option ℕ) :
    (s.setStackMemory i a).next = s.next ∧ (s.setStackMemory i a).index = s.index ∧
    (s.setStackMemory i a).isValid = s.isValid ∧
    (s.setStackMemory i a).currentThreadId = s.currentThreadId ∧
    (s.setStackMemory i a).readyQ = s.readyQ ∧ (s.setStackMemory i a).waitQueues = s.waitQueues ∧
    (s.setStackMemory i a).locks = s.locks ∧ (s.setStackMemory i a).cvs = s.cvs ∧
    (s.setStackMemory i a).frames = s.frames ∧
    (s.setStackMemory i a).interrupts = s.interrupts := by
  refine ⟨?_, ?_, ?_, rfl, rfl, rfl, rfl, rfl, rfl, rfl⟩ <;> funext j <;>
    by_cases h : j = i <;>
    simp [setStackMemory, setThread, next, index, isValid, h]

@[simp] theorem initThread_fields (i : ℕ) (stack : Option ℕ) :
    (s.initThread i stack).next = Function.update s.next i none ∧
    (s.initThread i stack).isValid = Function.update s.isValid i true ∧
    (s.initThread i stack).index = Function.update s.index i i ∧
    (s.initThread i stack).currentThreadId = s.currentThreadId ∧
    (s.initThread i stack).readyQ = s.readyQ ∧
    (s.initThread i stack).waitQueues = s.waitQueues ∧ (s.initThread i stack).locks = s.locks ∧
    (s.initThread i stack).cvs = s.cvs ∧ (s.initThread i stack).frames = s.frames := by
  refine ⟨?_, ?_, ?_, rfl, rfl, rfl, rfl, rfl, rfl⟩ <;> funext j <;>
    by_cases h : j = i <;>
    simp [initThread, setThread, next, index, isValid, h]

@[simp] theorem saveContext_fields (f : Frame) :
    (s.saveContext f).next = s.next ∧ (s.saveContext f).index = s.index ∧
    (s.saveContext f).isValid = s.isValid ∧
    (s.saveContext f).currentThreadId = s.currentThreadId ∧ (s.saveContext f).readyQ = s.readyQ ∧
    (s.saveContext f).waitQueues = s.waitQueues ∧ (s.saveContext f).locks = s.locks ∧
    (s.saveContext f).cvs = s.cvs ∧ (s.saveContext f).frames = s.frames ∧
    (s.saveContext f).interrupts = s.interrupts := by
  refine ⟨?_, ?_, ?_, rfl, rfl, rfl, rfl, rfl, rfl, rfl⟩ <;> funext j <;>
    by_cases h : j = s.currentThreadId <;>
    simp [saveContext, setThread, next, index, isValid, h]

@[simp] theorem loadContext_fields (p : ℕ) :
    (s.loadContext p).next = s.next ∧ (s.loadContext p).index = s.index ∧
    (s.loadContext p).isValid = s.isValid ∧
    (s.loadContext p).currentThreadId = s.currentThreadId ∧ (s.loadContext p).readyQ = s.readyQ ∧
    (s.loadContext p).waitQueues = s.waitQueues ∧ (s.loadContext p).locks = s.locks ∧
    (s.loadContext p).cvs = s.cvs := by
  exact ⟨rfl, rfl, rfl, rfl, rfl, rfl, rfl, rfl⟩

@[simp] theorem setCurrent_fields (i : ℕ) :
    (s.setCurrent i).next = s.next ∧ (s.setCurrent i).index = s.index ∧
    (s.setCurrent i).isValid = s.isValid ∧ (s.setCurrent i).currentThreadId = i ∧
    (s.setCurrent i).readyQ = s.readyQ ∧ (s.setCurrent i).waitQueues = s.waitQueues ∧
    (s.setCurrent i).locks = s.locks ∧ (s.setCurrent i).cvs = s.cvs ∧
    (s.setCurrent i).frames = s.frames ∧ (s.setCurrent i).interrupts = s.interrupts := by
  exact ⟨rfl, rfl, rfl, rfl, rfl, rfl, rfl, rfl, rfl, rfl⟩

@[simp] theorem setReadyHead_fields (p : Option ℕ) :
    (s.setReadyHead p).next = s.next ∧ (s.setReadyHead p).index = s.index ∧
    (s.setReadyHead p).isValid = s.isValid ∧
    (s.setReadyHead p).currentThreadId = s.currentThreadId ∧
    (s.setReadyHead p).readyQ = ⟨p, s.readyQ.tail⟩ ∧
    (s.setReadyHead p).waitQueues = s.waitQueues ∧ (s.setReadyHead p).locks = s.locks ∧
    (s.setReadyHead p).cvs = s.cvs ∧ (s.setReadyHead p).frames = s.frames ∧
    (s.setReadyHead p).interrupts = s.interrupts := by
  exact ⟨rfl, rfl, rfl, rfl, rfl, rfl, rfl, rfl, rfl, rfl⟩

@[simp] theorem setReadyTail_fields (p : Option ℕ) :
    (s.setReadyTail p).next = s.next ∧ (s.setReadyTail p).index = s.index ∧
    (s.setReadyTail p).isValid = s.isValid ∧
    (s.setReadyTail p).currentThreadId = s.currentThreadId ∧
    (s.setReadyTail p).readyQ = ⟨s.readyQ.head, p⟩ ∧
    (s.setReadyTail p).waitQueues = s.waitQueues ∧ (s.setReadyTail p).locks = s.locks ∧
    (s.setReadyTail p).cvs = s.cvs ∧ (s.setReadyTail p).frames = s.frames ∧
    (s.setReadyTail p).interrupts = s.interrupts := by
  exact ⟨rfl, rfl, rfl, rfl, rfl, rfl, rfl, rfl, rfl, rfl⟩

@[simp] theorem setWaitQueue_fields (q : ℕ) (w : Option Queue) :
    (s.setWaitQueue q w).next = s.next ∧ (s.setWaitQueue q w).index = s.index ∧
    (s.setWaitQueue q w).isValid = s.isValid ∧
    (s.setWaitQueue q w).currentThreadId = s.currentThreadId ∧
    (s.setWaitQueue q w).readyQ = s.readyQ ∧
    (s.setWaitQueue q w).waitQueues = Function.update s.waitQueues q w ∧
    (s.setWaitQueue q w).locks = s.locks ∧ (s.setWaitQueue q w).cvs = s.cvs ∧
    (s.setWaitQueue q w).frames = s.frames ∧ (s.setWaitQueue q w).interrupts = s.interrupts := by
  exact ⟨rfl, rfl, rfl, rfl, rfl, rfl, rfl, rfl, rfl, rfl⟩

@[simp] theorem setLock_fields (l : ℕ) (o : Option Lock) :
    (s.setLock l o).next = s.next ∧ (s.setLock l o).index = s.index ∧
    (s.setLock l o).isValid = s.isValid ∧ (s.setLock l o).currentThreadId = s.currentThreadId ∧
    (s.setLock l o).readyQ = s.readyQ ∧ (s.setLock l o).waitQueues = s.waitQueues ∧
    (s.setLock l o).locks = Function.update s.locks l o ∧ (s.setLock l o).cvs = s.cvs ∧
    (s.setLock l o).frames = s.frames ∧ (s.setLock l o).interrupts = s.interrupts := by
  exact ⟨rfl, rfl, rfl, rfl, rfl, rfl, rfl, rfl, rfl, rfl⟩

@[simp] theorem setCv_fields (c : ℕ) (q : Option ℕ) :
    (s.setCv c q).next = s.next ∧ (s.setCv c q).index = s.index ∧
    (s.setCv c q).isValid = s.isValid ∧ (s.setCv c q).currentThreadId = s.currentThreadId ∧
    (s.setCv c q).readyQ = s.readyQ ∧ (s.setCv c q).waitQueues = s.waitQueues ∧
    (s.setCv c q).locks = s.locks ∧ (s.setCv c q).cvs = Function.update s.cvs c q ∧
    (s.setCv c q).frames = s.frames ∧ (s.setCv c q).interrupts = s.interrupts := by
  exact ⟨rfl, rfl, rfl, rfl, rfl, rfl, rfl, rfl, rfl, rfl⟩

@[simp] theorem setInterrupts_fields (b : Bool) :
    (s.setInterrupts b).next = s.next ∧ (s.setInterrupts b).index = s.index ∧
    (s.setInterrupts b).isValid = s.isValid ∧
    (s.setInterrupts b).currentThreadId = s.currentThreadId ∧
    (s.setInterrupts b).readyQ = s.readyQ ∧ (s.setInterrupts b).waitQueues = s.waitQueues ∧
    (s.setInterrupts b).locks = s.locks ∧ (s.setInterrupts b).cvs = s.cvs ∧
    (s.setInterrupts b).frames = s.frames ∧ (s.setInterrupts b).interrupts = b := by
  exact ⟨rfl, rfl, rfl, rfl, rfl, rfl, rfl, rfl, rfl, rfl⟩

@[simp] theorem setFrames_fields (fs : List Frame) :
    (s.setFrames fs).next = s.next ∧ (s.setFrames fs).index = s.index ∧
    (s.setFrames fs).isValid = s.isValid ∧ (s.setFrames fs).currentThreadId = s.currentThreadId ∧
    (s.setFrames fs).readyQ = s.readyQ ∧ (s.setFrames fs).waitQueues = s.waitQueues ∧
    (s.setFrames fs).locks = s.locks ∧ (s.setFrames fs).cvs = s.cvs ∧
    (s.setFrames fs).frames = fs ∧ (s.setFrames fs).interrupts = s.interrupts := by
  exact ⟨rfl, rfl, rfl, rfl, rfl, rfl, rfl, rfl, rfl, rfl⟩

@[simp] theorem setPendingStack_fields (a : Option ℕ) :
    (s.setPendingStack a).next = s.next ∧ (s.setPendingStack a).index = s.index ∧
    (s.setPendingStack a).isValid = s.isValid ∧
    (s.setPendingStack a).currentThreadId = s.currentThreadId ∧
    (s.setPendingStack a).readyQ = s.readyQ ∧ (s.setPendingStack a).waitQueues = s.waitQueues ∧
    (s.setPendingStack a).locks = s.locks ∧ (s.setPendingStack a).cvs = s.cvs ∧
    (s.setPendingStack a).frames = s.frames ∧
    (s.setPendingStack a).interrupts = s.interrupts := by
  exact ⟨rfl, rfl, rfl, rfl, rfl, rfl, rfl, rfl, rfl, rfl⟩

@[simp] theorem setAllocated_fields (as : List ℕ) :
    (s.setAllocated as).next = s.next ∧ (s.setAllocated as).index = s.index ∧
    (s.setAllocated as).isValid = s.isValid ∧
    (s.setAllocated as).currentThreadId = s.currentThreadId ∧
    (s.setAllocated as).readyQ = s.readyQ ∧ (s.setAllocated as).waitQueues = s.waitQueues ∧
    (s.setAllocated as).locks = s.locks ∧ (s.setAllocated as).cvs = s.cvs ∧
    (s.setAllocated as).frames = s.frames ∧ (s.setAllocated as).interrupts = s.interrupts := by
  exact ⟨rfl, rfl, rfl, rfl, rfl, rfl, rfl, rfl, rfl, rfl⟩

end Fields

end Sched

open Prog

/-- Dereference a pointer. -/
def deref {α : Type} : Option α → Prog Sched α
  | none => abort
  | some a => pure a

/-- `free` of a thread's stack; `free(NULL)` does nothing, and freeing what is not
allocated is undefined. -/
def freeStack : Option ℕ → Prog Sched Unit
  | none => pure ()
  | some a => do
    let s ← getState
    require (a ∈ s.allocated)
    modify fun s => s.setAllocated (s.allocated.erase a)

/-- `interrupts_set`: sets the mask and returns the old setting. -/
def interruptsSet (enabled : Bool) : Prog Sched Bool := do
  let s ← getState
  modify (·.setInterrupts enabled)
  return s.interrupts

/-- What a call does: it returns, or it stays pending (control has gone to another
thread, or a frame of the call is still to run). -/
inductive Outcome
  | returned (v : ℤ)
  | pending
  deriving DecidableEq, Repr

/-- `interrupts_set(enable); return v`. -/
def finish (enable : Bool) (v : ℤ) : Prog Sched Outcome := do
  let _ ← interruptsSet enable
  return .returned v

/-- `setcontext(&p->thread_context)`: control leaves the call. -/
def setcontext (p : ℕ) : Prog Sched Outcome := do
  modify (·.loadContext p)
  return .pending

/-- The deferred `free(stack_mem_to_be_deleted)`. -/
def freePending : Prog Sched Unit := do
  let s ← getState
  freeStack s.stackMemToBeDeleted
  modify (·.setPendingStack none)

/-! ### Operations -/

def threadId : Prog Sched Outcome := do
  let _ ← interruptsSet false
  let s ← getState
  -- the `interrupts_set(enable)` after this return is dead code in the source
  return .returned s.currentThreadId

/-- The table search of `thread_create`. -/
def firstInvalid (s : Sched) : Option ℕ :=
  (List.range threadMaxThreads).find? fun i => !s.isValid i

/-- Linking `&TCB[i]` at the end of `readyQ` as `thread_create` does. -/
def createEnqueue (i : ℕ) : Prog Sched Unit := do
  let s ← getState
  match s.readyQ.tail with
  | none => modify (·.setReadyTail (some i))
  | some t => do
    modify (·.setNext t (some i))
    let s ← getState
    modify (·.setReadyTail (s.next t))
  let s ← getState
  if s.readyQ.head = none then modify (·.setReadyHead s.readyQ.tail) else pure ()

/-- `thread_create`; `stack` is what `malloc(THREAD_MIN_STACK)` returns. -/
def threadCreate (stack : Option ℕ) : Prog Sched Outcome := do
  let enable ← interruptsSet false
  let s ← getState
  match firstInvalid s with
  | none => finish enable threadNoMore
  | some i => do
    modify (·.initThread i stack)
    match stack with
    | none => finish enable threadNoMemory
    | some a => do
      require (a ∉ s.allocated)
      modify fun s => s.setAllocated (a :: s.allocated)
      createEnqueue i
      finish enable i

/-- `readyQ.tail->next = &TCB[i]; readyQ.tail = readyQ.tail->next;
readyQ.tail->next = NULL`. -/
def readyAppend (i : ℕ) : Prog Sched Unit := do
  let s ← getState
  let t ← deref s.readyQ.tail
  modify (·.setNext t (some i))
  let s ← getState
  modify (·.setReadyTail (s.next t))
  modify (·.setNext i none)

/-- `readyQ.head = readyQ.head->next`. -/
def readyPop : Prog Sched Unit := do
  let s ← getState
  let h ← deref s.readyQ.head
  modify (·.setReadyHead (s.next h))

/-- Removing `temp` from `readyQ`, where `pre` comes before it:
`if (pre == NULL) readyQ.head = readyQ.head->next; else pre->next = temp->next`. -/
def readyUnlink (pre : Option ℕ) (temp : ℕ) : Prog Sched Unit :=
  match pre with
  | none => readyPop
  | some p => modify fun s => s.setNext p (s.next temp)

/-- The search of a queue for `tid`: the entry before it and the entry, `none` if the
chain ends first. It walks at most `fuel` entries. -/
def findThread (s : Sched) (tid : ℤ) :
    ℕ → Option ℕ → Option ℕ → Option (Option (Option ℕ × ℕ))
  | 0, _, _ => none
  | _ + 1, _, none => some none
  | fuel + 1, pre, some t =>
    if (s.index t : ℤ) = tid then some (some (pre, t))
    else findThread s tid fuel (some t) (s.next t)

/-- `thread_yield(THREAD_ANY)` after its common prefix. -/
def yieldAny (enable : Bool) : Prog Sched Outcome := do
  let s ← getState
  match s.readyQ.head with
  | none => finish enable threadNone
  | some tempHead => do
    let cur := s.currentThreadId
    modify (·.setNext cur none)
    modify (·.saveContext (.returnIndex tempHead enable))
    readyAppend cur
    readyPop
    modify fun s => s.setCurrent (s.index tempHead)
    setcontext tempHead

/-- `thread_yield(want_tid)` for an identifier, after its common prefix. -/
def yieldTo (wantTid : ℤ) (enable : Bool) : Prog Sched Outcome := do
  let s ← getState
  if wantTid < 0 ∨ (threadMaxThreads : ℤ) < wantTid then finish enable threadInvalid
  else do
    -- `want_tid > THREAD_MAX_THREADS` lets 1024 through to `TCB[1024]`
    require (wantTid.toNat < threadMaxThreads)
    if s.isValid wantTid.toNat = false then finish enable threadInvalid
    else do
      let found ← reads fun s => findThread s wantTid (threadMaxThreads + 1) none s.readyQ.head
      match found with
      | some (pre, temp) => do
        let cur := s.currentThreadId
        modify (·.saveContext (.returnTid wantTid enable))
        readyAppend cur
        readyUnlink pre temp
        modify (·.setCurrent wantTid.toNat)
        setcontext temp
      | none =>
        if s.readyQ.head = none then finish enable threadNone else finish enable threadInvalid

def threadYield (wantTid : ℤ) : Prog Sched Outcome := do
  let enable ← interruptsSet false
  freePending
  let s ← getState
  if wantTid = threadSelf ∨ wantTid = s.currentThreadId then finish enable s.currentThreadId
  else if wantTid = threadAny then yieldAny enable
  else yieldTo wantTid enable

def threadExit : Prog Sched Outcome := do
  let enable ← interruptsSet false
  freePending
  let s ← getState
  match s.readyQ.head with
  | none => finish enable threadNone
  | some tempHead => do
    modify (·.setValid s.currentThreadId false)
    readyPop
    modify fun s => s.setPendingStack (s.tcb s.currentThreadId).stackMemory
    modify fun s => s.setCurrent (s.index tempHead)
    setcontext tempHead

/-- What is left of a killed thread: its table entry is free and so is its stack. -/
def reap (tid : ℕ) : Prog Sched Unit := do
  modify (·.setValid tid false)
  if tid ≠ 0 then do
    let s ← getState
    freeStack (s.tcb tid).stackMemory
    modify (·.setStackMemory tid none)
  else pure ()

def threadKill (tid : ℤ) : Prog Sched Outcome := do
  let enable ← interruptsSet false
  let s ← getState
  if tid = s.currentThreadId ∨ ¬(0 ≤ tid ∧ tid < threadMaxThreads) ∨
      s.isValid tid.toNat = false then finish enable threadInvalid
  else if s.readyQ.head = none then finish enable threadInvalid
  else do
    let found ← reads fun s => findThread s tid (threadMaxThreads + 1) none s.readyQ.head
    match found with
    | some (pre, temp) => do
      readyUnlink pre temp
      let s ← getState
      if s.next temp = none then modify (·.setReadyTail pre) else pure ()
      reap tid.toNat
      finish enable tid
    | none => finish enable threadInvalid

/-- `wait_queue_create`; `q` is what `malloc` returns. -/
def waitQueueCreate (q : ℕ) : Prog Sched Unit := do
  let s ← getState
  require (s.waitQueues q = none)
  modify (·.setWaitQueue q (some ⟨none, none⟩))

/-- `wait_queue_destroy`: frees the queue. -/
def waitQueueDestroy (q : ℕ) : Prog Sched Unit := do
  let s ← getState
  let _ ← deref (s.waitQueues q)
  modify (·.setWaitQueue q none)

/-- Linking `&TCB[i]` at the end of a wait queue as `thread_sleep` does. -/
def sleepEnqueue (q i : ℕ) : Prog Sched Unit := do
  let s ← getState
  let w ← deref (s.waitQueues q)
  match w.head with
  | none => do
    modify (·.setWaitQueue q (some ⟨some i, some i⟩))
    modify (·.setNext i none)
  | some _ => do
    let t ← deref w.tail
    modify (·.setNext t (some i))
    let s ← getState
    modify (·.setWaitQueue q (some { w with tail := s.next t }))
    modify (·.setNext i none)

def threadSleep (queue : Option ℕ) : Prog Sched Outcome := do
  let enable ← interruptsSet false
  match queue with
  | none => finish enable threadInvalid
  | some q => do
    let s ← getState
    match s.readyQ.head with
    | none => finish enable threadNone
    | some tempHead => do
      modify (·.saveContext (.returnIndex tempHead enable))
      sleepEnqueue q s.currentThreadId
      readyPop
      modify fun s => s.setCurrent (s.index tempHead)
      setcontext tempHead

/-- The counting loop of `thread_wakeup`. -/
def countChain (s : Sched) : ℕ → Option ℕ → Option ℕ
  | 0, _ => none
  | _ + 1, none => some 0
  | fuel + 1, some t => (countChain s fuel (s.next t)).map (· + 1)

/-- `thread_wakeup(queue, 1)` on a non-empty queue. -/
def wakeupAll (q : ℕ) (w : Queue) (enable : Bool) : Prog Sched Outcome := do
  let s ← getState
  match s.readyQ.head with
  | none => do
    modify (·.setReadyHead w.head)
    modify (·.setReadyTail w.tail)
  | some _ => do
    let t ← deref s.readyQ.tail
    modify (·.setNext t w.head)
    modify (·.setReadyTail w.tail)
  let t ← deref w.tail
  modify (·.setNext t none)
  let c ← reads fun s => countChain s (threadMaxThreads + 1) w.head
  modify (·.setWaitQueue q (some ⟨none, none⟩))
  finish enable c

/-- `thread_wakeup(queue, 0)` on a non-empty queue. -/
def wakeupOne (q h : ℕ) (w : Queue) (enable : Bool) : Prog Sched Outcome := do
  let s ← getState
  match s.readyQ.head with
  | none => do
    modify (·.setReadyHead (some h))
    modify (·.setReadyTail (some h))
  | some _ => do
    let t ← deref s.readyQ.tail
    modify (·.setNext t (some h))
    let s ← getState
    modify (·.setReadyTail (s.next t))
  let s ← getState
  modify (·.setWaitQueue q (some { w with head := s.next h }))
  modify (·.setNext h none)
  finish enable 1

def threadWakeup (queue : Option ℕ) (all : Bool) : Prog Sched Outcome := do
  let enable ← interruptsSet false
  match queue with
  | none => finish enable 0
  | some q => do
    let s ← getState
    let w ← deref (s.waitQueues q)
    match w.head with
    | none => finish enable 0
    | some h => if all then wakeupAll q w enable else wakeupOne q h w enable

/-! ### Locks and condition variables -/

/-- `lock_create`; `l` and `q` are what its two `malloc`s return. -/
def lockCreate (l q : ℕ) : Prog Sched Outcome := do
  let enable ← interruptsSet false
  let s ← getState
  require (s.locks l = none)
  waitQueueCreate q
  modify (·.setLock l (some ⟨q, true⟩))
  finish enable l

def lockDestroy (l : ℕ) : Prog Sched Outcome := do
  let enable ← interruptsSet false
  let s ← getState
  let lock ← deref (s.locks l)
  if lock.available then do
    waitQueueDestroy lock.waitQ
    modify (·.setLock l none)
  else pure ()
  finish enable 0

/-- `lock_acquire` up to its loop. -/
def lockAcquire (l : ℕ) : Prog Sched Outcome := do
  let enable ← interruptsSet false
  modify fun s => s.setFrames (.acquireLoop l enable :: s.frames)
  return .pending

/-- One turn of the loop of `lock_acquire`, and what follows it. The frame of the loop
stays pending until the lock is available. -/
def acquireTurn (l : ℕ) (enable : Bool) : Prog Sched Outcome := do
  let s ← getState
  let lock ← deref (s.locks l)
  if lock.available then do
    modify fun s => s.setFrames s.frames.tail
    modify (·.setHasLock s.currentThreadId true)
    modify (·.setLock l (some { lock with available := false }))
    finish enable 0
  else do
    let _ ← threadSleep (some lock.waitQ)
    return .pending

def lockRelease (l : ℕ) : Prog Sched Outcome := do
  let enable ← interruptsSet false
  let s ← getState
  let lock ← deref (s.locks l)
  if lock.available = false then do
    modify (·.setLock l (some { lock with available := true }))
    modify (·.setHasLock s.currentThreadId false)
    let _ ← threadWakeup (some lock.waitQ) true
    pure ()
  else pure ()
  finish enable 0

/-- `cv_create`; `c` and `q` are what its two `malloc`s return. -/
def cvCreate (c q : ℕ) : Prog Sched Outcome := do
  let enable ← interruptsSet false
  let s ← getState
  require (s.cvs c = none)
  waitQueueCreate q
  modify (·.setCv c (some q))
  finish enable c

def cvDestroy (c : ℕ) : Prog Sched Outcome := do
  let enable ← interruptsSet false
  let s ← getState
  let q ← deref (s.cvs c)
  waitQueueDestroy q
  modify (·.setCv c none)
  finish enable 0

/-- `cv_wait` up to the return of its `thread_sleep`. -/
def cvWait (c l : ℕ) : Prog Sched Outcome := do
  let enable ← interruptsSet false
  let s ← getState
  let q ← deref (s.cvs c)
  let lock ← deref (s.locks l)
  if lock.available = false then do
    let _ ← lockRelease l
    modify fun s => s.setFrames (.cvReacquire l enable :: s.frames)
    let _ ← threadSleep (some q)
    return .pending
  else finish enable 0

/-- `cv_signal` (`all = false`) and `cv_broadcast` (`all = true`). -/
def cvWake (all : Bool) (c l : ℕ) : Prog Sched Outcome := do
  let enable ← interruptsSet false
  let s ← getState
  let q ← deref (s.cvs c)
  let lock ← deref (s.locks l)
  if lock.available = false then do
    let _ ← threadWakeup (some q) all
    pure ()
  else pure ()
  finish enable 0

def cvSignal : ℕ → ℕ → Prog Sched Outcome := cvWake false

def cvBroadcast : ℕ → ℕ → Prog Sched Outcome := cvWake true

end OSLab.Threads
