import OSLab.Lib.Prog
import OSLab.Lib.Machine
import OSLab.Lib.Ring
import Mathlib.Data.Fintype.Card
import Mathlib.Data.Finset.Filter

/-!
# Handing requests to the worker threads (`webserver/server_thread.c`)

The producer (`main`) calls `server_request` for each connection; `nr_threads` workers
run `stub`. They share a ring of `max_requests + 1` slots, a mutex and two condition
variables. A step is one piece of a thread's code between two points where another
thread can be seen: taking the mutex, the body of a critical section up to the unlock or
the wait, and the unlock. A thread blocked in `pthread_cond_wait` becomes `woken` by a
signal or spuriously, and then has to get the mutex back.

Arithmetic on the positions is `int` arithmetic, which wraps. An access outside the
buffer has no step.
-/

namespace OSLab.Webserver

/-- The fields of `struct server` the hand-off uses. -/
structure Server where
  maxRequests : ℕ
  buffer : ℤ → ℤ
  inPos : ℤ
  outPos : ℤ

namespace Server

/-- `max_requests + 1`. The buffer has that many slots; for a negative number the
`malloc` fails. -/
def ringSize (sv : Server) : ℤ := toInt32 (sv.maxRequests + 1)

/-- The access `buffer[i]` is inside the buffer. -/
def InBuffer (sv : Server) (i : ℤ) : Prop := 0 ≤ i ∧ i < sv.ringSize

instance (sv : Server) (i : ℤ) : Decidable (sv.InBuffer i) :=
  inferInstanceAs (Decidable (_ ∧ _))

/-- `(in - out + max_requests + 1) % (max_requests + 1) == max_requests`. -/
def Full (sv : Server) : Prop :=
  (toInt32 (sv.inPos - sv.outPos + sv.maxRequests + 1)).tmod sv.ringSize = sv.maxRequests

instance (sv : Server) : Decidable sv.Full := inferInstanceAs (Decidable (_ = _))

/-- `in == out`. -/
def Empty (sv : Server) : Prop := sv.inPos = sv.outPos

instance (sv : Server) : Decidable sv.Empty := inferInstanceAs (Decidable (_ = _))

/-- `buffer[in] = connfd; in = (in + 1) % (max_requests + 1)`. -/
def put (sv : Server) (connfd : ℤ) : Server :=
  { sv with
    buffer := Function.update sv.buffer sv.inPos connfd
    inPos := (toInt32 (sv.inPos + 1)).tmod sv.ringSize }

/-- `out = (out + 1) % (max_requests + 1)`. -/
def advance (sv : Server) : Server :=
  { sv with outPos := (toInt32 (sv.outPos + 1)).tmod sv.ringSize }

end Server

/-- Where a worker is in `stub`. -/
inductive Worker
  /-- About to take `buffer_lock`. -/
  | start
  /-- At the test of the waiting loop, with the lock. -/
  | test
  /-- In `pthread_cond_wait(buffer_empty)`, not signalled. -/
  | blocked
  /-- In `pthread_cond_wait(buffer_empty)`, to get the lock back. -/
  | woken
  /-- It has taken a descriptor and is about to unlock. -/
  | taken (connfd : ℤ)
  /-- In `do_server_request`. -/
  | serving (connfd : ℤ)
  deriving DecidableEq, Repr

/-- Where the producer is. -/
inductive Producer
  /-- In `main`, outside `server_request`. -/
  | outside
  /-- About to take `buffer_lock`. -/
  | start (connfd : ℤ)
  /-- At the test of the waiting loop, with the lock. -/
  | test (connfd : ℤ)
  /-- In `pthread_cond_wait(buffer_full)`, not signalled. -/
  | blocked (connfd : ℤ)
  /-- In `pthread_cond_wait(buffer_full)`, to get the lock back. -/
  | woken (connfd : ℤ)
  /-- It has stored the descriptor and is about to unlock. -/
  | stored
  /-- In `do_server_request`: there are no workers. -/
  | serving (connfd : ℤ)
  deriving DecidableEq, Repr

/-- Who holds `buffer_lock`. -/
inductive Party (nr : ℕ)
  | producer
  | worker (i : Fin nr)
  deriving DecidableEq, Repr

/-- The server: the shared fields, the mutex and where each thread is. -/
structure Sys (nr : ℕ) where
  sv : Server
  holder : Option (Party nr)
  producer : Producer
  workers : Fin nr → Worker

/-- A step. -/
inductive Label (nr : ℕ)
  /-- `main` accepts a connection and calls `server_request`. -/
  | request (connfd : ℤ)
  | producerLock
  /-- The producer's critical section; `wakes` is the worker its signal unblocks. -/
  | producerTest (wakes : Option (Fin nr))
  | producerUnlock
  | producerSpurious
  /-- `do_server_request` of the producer returns. -/
  | producerDone
  | workerLock (i : Fin nr)
  | workerTest (i : Fin nr)
  | workerUnlock (i : Fin nr)
  | workerSpurious (i : Fin nr)
  /-- `do_server_request` of a worker returns. -/
  | workerDone (i : Fin nr)
  deriving DecidableEq, Repr

namespace Sys

variable {nr : ℕ}

def setWorker (s : Sys nr) (i : Fin nr) (w : Worker) : Sys nr :=
  { s with workers := Function.update s.workers i w }

/-- `pthread_cond_signal(buffer_empty)`: unblocks a blocked worker if there is one. -/
def signalEmpty (s : Sys nr) : Option (Fin nr) → Option (Sys nr)
  | none => if ∀ i, s.workers i ≠ .blocked then some s else none
  | some i => if s.workers i = .blocked then some (s.setWorker i .woken) else none

/-- `pthread_cond_signal(buffer_full)`; only the producer waits there. -/
def signalFull (s : Sys nr) : Sys nr :=
  match s.producer with
  | .blocked connfd => { s with producer := .woken connfd }
  | _ => s

/-- `pthread_mutex_lock(buffer_lock)`, and the end of a `pthread_cond_wait`. -/
def lockAs (s : Sys nr) (p : Party nr) : Option (Sys nr) :=
  if s.holder = none then some { s with holder := some p } else none

def unlock (s : Sys nr) : Sys nr := { s with holder := none }

/-- The critical section of `server_request`, up to the unlock or the wait. -/
def requestBody (s : Sys nr) (connfd : ℤ) (wakes : Option (Fin nr)) : Option (Sys nr) :=
  if s.sv.Full then some { s.unlock with producer := .blocked connfd }
  else if ¬s.sv.InBuffer s.sv.inPos then none
  else
    let stored := { s with sv := s.sv.put connfd, producer := .stored }
    if s.sv.Empty then stored.signalEmpty wakes else some stored

/-- The critical section of `stub`, up to the unlock or the wait. -/
def stubBody (s : Sys nr) (i : Fin nr) : Option (Sys nr) :=
  if s.sv.Empty then some (s.unlock.setWorker i .blocked)
  else if ¬s.sv.InBuffer s.sv.outPos then none
  else
    let taken := ({ s with sv := s.sv.advance } : Sys nr).setWorker i (.taken (s.sv.buffer s.sv.outPos))
    if s.sv.Full then some taken.signalFull else some taken

/-- The state a step leads to, if it can be taken. -/
def run (s : Sys nr) : Label nr → Option (Sys nr)
  | .request connfd => match s.producer with
    | .outside =>
      some { s with producer := if nr = 0 then .serving connfd else .start connfd }
    | _ => none
  | .producerLock => match s.producer with
    | .start connfd | .woken connfd =>
      ({ s with producer := .test connfd } : Sys nr).lockAs .producer
    | _ => none
  | .producerTest wakes => match s.producer with
    | .test connfd => s.requestBody connfd wakes
    | _ => none
  | .producerUnlock => match s.producer with
    | .stored => some { s.unlock with producer := .outside }
    | _ => none
  | .producerSpurious => match s.producer with
    | .blocked connfd => some { s with producer := .woken connfd }
    | _ => none
  | .producerDone => match s.producer with
    | .serving _ => some { s with producer := .outside }
    | _ => none
  | .workerLock i => match s.workers i with
    | .start | .woken => (s.setWorker i .test).lockAs (.worker i)
    | _ => none
  | .workerTest i => match s.workers i with
    | .test => s.stubBody i
    | _ => none
  | .workerUnlock i => match s.workers i with
    | .taken connfd => some (s.unlock.setWorker i (.serving connfd))
    | _ => none
  | .workerSpurious i => match s.workers i with
    | .blocked => some (s.setWorker i .woken)
    | _ => none
  | .workerDone i => match s.workers i with
    | .serving _ => some (s.setWorker i .start)
    | _ => none

end Sys

variable {nr : ℕ}

/-- One step of the server. -/
def step (s : Sys nr) (l : Label nr) (t : Sys nr) : Prop := s.run l = some t

/-- After `server_init(nr, max_requests, _)`; the buffer holds what `malloc` left in it. -/
def serverInit (nr maxRequests : ℕ) (buffer : ℤ → ℤ) : Sys nr where
  sv := ⟨maxRequests, buffer, 0, 0⟩
  holder := none
  producer := .outside
  workers _ := .start

end OSLab.Webserver
