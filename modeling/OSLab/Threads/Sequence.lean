import OSLab.Threads.System

/-!
# Queues as sequences

`View` is what the scheduler's queues are for: who runs, who is ready and in which
order, who sleeps in each wait queue and since when. `seqStep` is the effect each
step is meant to have on it, on lists and without pointers.

`Rep s v` says that the pointer structures of `s` represent `v`. Its `idle` field is
what makes the stale `readyQ.tail` harmless: while the ready queue is empty the tail
is `NULL` or the running thread.
-/

namespace OSLab.Threads

/-- The queues as sequences; `waiting q` is `none` when no queue is allocated at `q`. -/
structure View where
  running : ℕ
  ready : List ℕ
  waiting : ℕ → Option (List ℕ)

namespace View

variable (v : View)

/-- The first ready thread runs in place of the running one. -/
def dispatch : View :=
  match v.ready with
  | [] => v
  | t :: r => { v with running := t, ready := r }

/-- `t` becomes ready, behind all others. -/
def enqueue (t : ℕ) : View := { v with ready := v.ready ++ [t] }

/-- `thread_yield(THREAD_ANY)`: the caller goes to the end, the first ready runs. -/
def yieldAny : View := if v.ready = [] then v else (v.enqueue v.running).dispatch

/-- `thread_yield(t)`: the caller goes to the end, `t` runs. -/
def yieldTo (t : ℕ) : View :=
  if t ∈ v.ready then { v with running := t, ready := v.ready.erase t ++ [v.running] } else v

/-- `t` leaves the ready queue. -/
def remove (t : ℕ) : View := { v with ready := v.ready.erase t }

/-- The running thread goes to sleep behind the sleepers of `q`. -/
def sleep (q : ℕ) : View :=
  match v.ready, v.waiting q with
  | _ :: _, some l =>
    { v.dispatch with waiting := Function.update v.waiting q (some (l ++ [v.running])) }
  | _, _ => v

/-- The threads a wake-up of `q` takes: all sleepers, or the longest sleeping one. -/
def woken (q : ℕ) (all : Bool) : List ℕ :=
  match v.waiting q with
  | none => []
  | some l => if all then l else l.take 1

/-- The woken threads become ready in the order they went to sleep. -/
def wakeup (q : ℕ) (all : Bool) : View :=
  match v.waiting q with
  | none => v
  | some l => { v with
      ready := v.ready ++ v.woken q all
      waiting := Function.update v.waiting q (some (l.drop (v.woken q all).length)) }

/-- A wait queue is allocated, empty, or freed. -/
def setQueue (q : ℕ) (l : Option (List ℕ)) : View :=
  { v with waiting := Function.update v.waiting q l }

/-- `t` is the running thread, ready, or asleep in some queue. -/
def Holds (t : ℕ) : Prop := t = v.running ∨ t ∈ v.ready ∨ ∃ q l, v.waiting q = some l ∧ t ∈ l

/-- No thread is in two places, or twice in one. -/
structure Apart : Prop where
  ready : (v.running :: v.ready).Nodup
  waiting : ∀ q l, v.waiting q = some l → l.Nodup
  awake : ∀ q l, v.waiting q = some l → ∀ t ∈ l, t ≠ v.running ∧ t ∉ v.ready
  queues : ∀ q q' l l', v.waiting q = some l → v.waiting q' = some l' → ∀ t ∈ l, t ∈ l' → q = q'

end View

/-- A head and a tail pointer represent `l`: the chain from the head is `l`, and the
tail is its last node unless `l` is empty. -/
structure IsQueue (next : ℕ → Option ℕ) (w : Queue) (l : List ℕ) : Prop where
  chain : Chain next w.head l
  tail : l ≠ [] → w.tail = l.getLast?

/-- The pointer structures of `s` represent `v`. -/
structure Rep (s : Sched) (v : View) : Prop where
  running : s.currentThreadId = v.running
  ready : IsQueue s.next s.readyQ v.ready
  idle : v.ready = [] → s.readyQ.tail = none ∨ s.readyQ.tail = some v.running
  alloc : ∀ q, (s.waitQueues q).isSome = (v.waiting q).isSome
  waiting : ∀ q w l, s.waitQueues q = some w → v.waiting q = some l → IsQueue s.next w l
  apart : v.Apart
  index : ∀ t, v.Holds t → s.index t = t
  valid : ∀ t, v.Holds t ↔ t < threadMaxThreads ∧ s.isValid t = true

/-- The running thread finds the lock taken, when it asks for it or waits on it. -/
def Sched.lockBusy (s : Sched) (l : ℕ) : Option Lock :=
  (s.locks l).filter fun lock => !lock.available

/-- The effect of an operation on the sequences. -/
def seqOp (s : Sched) (v : View) : Op → View
  | .create (some _) => (firstInvalid s).elim v v.enqueue
  | .yield tid =>
    if tid = threadAny then v.yieldAny
    else if tid < 0 then v else v.yieldTo tid.toNat
  | .exit => v.dispatch
  | .kill tid => if tid < 0 then v else v.remove tid.toNat
  | .queueCreate q | .lockCreate _ q | .cvCreate _ q => v.setQueue q (some [])
  | .queueDestroy q => v.setQueue q none
  | .cvDestroy c => match s.cvs c with
    | some q => v.setQueue q none
    | none => v
  | .lockDestroy l => match s.locks l with
    | some lock => if lock.available then v.setQueue lock.waitQ none else v
    | none => v
  | .sleep (some q) => v.sleep q
  | .wakeup (some q) all => v.wakeup q all
  | .lockRelease l => match s.lockBusy l with
    | some lock => v.wakeup lock.waitQ true
    | none => v
  | .cvWait c l => match s.cvs c, s.lockBusy l with
    | some q, some lock => (v.wakeup lock.waitQ true).sleep q
    | _, _ => v
  | .cvSignal c l => match s.cvs c, s.lockBusy l with
    | some q, some _ => v.wakeup q false
    | _, _ => v
  | .cvBroadcast c l => match s.cvs c, s.lockBusy l with
    | some q, some _ => v.wakeup q true
    | _, _ => v
  | _ => v

/-- The effect of a step on the sequences. A pending `lock_acquire` sleeps for as long as
the lock is taken; every other resumption leaves the queues alone. -/
def seqStep (s : Sched) (v : View) : Label → View
  | .call op => seqOp s v op
  | .preempt => v.yieldAny
  | .resume => match s.frames with
    | .acquireLoop l _ :: _ => match s.lockBusy l with
      | some lock => v.sleep lock.waitQ
      | none => v
    | _ => v

/-- The sequences after `thread_init`. -/
def View.init : View := ⟨0, [], fun _ => none⟩

/-- A wait queue is allocated at `q`. -/
def Sched.HasQueue (s : Sched) (q : ℕ) : Prop := (s.waitQueues q).isSome = true

/-- A lock is allocated at `l`, with its wait queue. -/
def Sched.HasLock (s : Sched) (l : ℕ) : Prop :=
  ∃ lock, s.locks l = some lock ∧ s.HasQueue lock.waitQ

/-- A condition variable is allocated at `c`, with its wait queue. -/
def Sched.HasCv (s : Sched) (c : ℕ) : Prop := ∃ q, s.cvs c = some q ∧ s.HasQueue q

/-- No thread sleeps in the wait queue at `q`. -/
def Sched.NoSleeper (s : Sched) (q : ℕ) : Prop := ∀ w, s.waitQueues q = some w → w.head = none

/-- What a step must not do: a stack `malloc` that fails, or freeing a wait queue in which
a thread sleeps. -/
def Allowed (s : Sched) : Label → Prop
  | .call (.create stack) => stack ≠ none
  | .call (.queueDestroy q) => s.NoSleeper q
  | .call (.lockDestroy l) => ∀ lock, s.locks l = some lock → lock.available = true →
      s.NoSleeper lock.waitQ
  | .call (.cvDestroy c) => ∀ q, s.cvs c = some q → s.NoSleeper q
  | _ => True

end OSLab.Threads
