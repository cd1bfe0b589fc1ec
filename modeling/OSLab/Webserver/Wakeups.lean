import OSLab.Webserver.Buffer

/-!
# Signals of the hand-off

Each side signals only when its test changes: the producer when the ring was empty, a
worker when it was full.

* `no_idle_worker`: while some worker is blocked there are enough workers on their way to
  the ring for all it holds, as long as the producer does not outrun them (`Attended`).
* `idle_worker`: it can, as a store into a ring that is not empty signals nobody.
* `handoff_no_deadlock`: both sides can be blocked for ever exactly when `max_requests` is
  `0`, where the ring is full and empty at once.
-/

namespace OSLab.Webserver

variable {nr mr : ℕ} {s t : Sys nr} {l : Label nr} {ls : List (Label nr)} {buffer : ℤ → ℤ}

/-! ### Workers on their way to the ring -/

/-- The worker will look at the ring before it serves a request or waits. -/
def Worker.awake : Worker → Bool
  | .start | .test | .woken => true
  | _ => false

/-- In `do_server_request`. -/
def Worker.isServing : Worker → Bool
  | .serving _ => true
  | _ => false

namespace Sys

/-- The number of workers on their way to the ring. -/
def awake (s : Sys nr) : ℕ := (Finset.univ.filter fun i => (s.workers i).awake).card

/-- Some worker is blocked in `pthread_cond_wait(buffer_empty)` with no signal pending. -/
def SomeBlocked (s : Sys nr) : Prop := ∃ i, s.workers i = .blocked

/-- A request is queued, the lock is free, one worker is blocked with no signal pending,
and all the others are in `do_server_request`. -/
def Stranded (s : Sys nr) : Prop :=
  ¬s.sv.Empty ∧ s.holder = none ∧
    ∃ i, s.workers i = .blocked ∧ ∀ j, j ≠ i → (s.workers j).isServing = true

instance (s : Sys nr) : Decidable s.Stranded := inferInstanceAs (Decidable (_ ∧ _ ∧ _))

/-- The producer is blocked with no signal pending, and so is every worker. -/
def Deadlocked (s : Sys nr) : Prop :=
  (∃ c, s.producer = .blocked c) ∧ ∀ i, s.workers i = .blocked

end Sys

/-- How a change of one worker changes the number of those awake. -/
theorem awake_update {s t : Sys nr} {i : Fin nr} {w : Worker}
    (ht : t.workers = Function.update s.workers i w) :
    t.awake + (s.workers i).awake.toNat = s.awake + w.awake.toNat := by
  unfold Sys.awake
  set F := Finset.univ.filter fun j => (s.workers j).awake = true with hF
  have hmem : i ∈ F ↔ (s.workers i).awake = true := by simp [hF]
  rw [ht]
  cases hw : w.awake with
  | true =>
    have e : (Finset.univ.filter fun j => (Function.update s.workers i w j).awake = true) =
        insert i F := by
      ext j
      by_cases hj : j = i
      · subst hj; simp [hw]
      · simp [hF, hj]
    rw [e]
    cases hs : (s.workers i).awake with
    | true => rw [Finset.insert_eq_of_mem (hmem.2 hs)]
    | false => rw [Finset.card_insert_of_notMem (by simp [hmem, hs])]; rfl
  | false =>
    have e : (Finset.univ.filter fun j => (Function.update s.workers i w j).awake = true) =
        F.erase i := by
      ext j
      by_cases hj : j = i
      · subst hj; simp [hw]
      · simp [hF, hj]
    rw [e]
    cases hs : (s.workers i).awake with
    | true => exact Finset.card_erase_add_one (hmem.2 hs)
    | false => rw [Finset.erase_eq_of_notMem (by simp [hmem, hs])]

theorem awake_same {s t : Sys nr} (h : t.workers = s.workers) : t.awake = s.awake := by
  unfold Sys.awake; rw [h]

/-- The producer does not outrun the workers: it stores into a ring that is not empty while
some worker is blocked only if the ring holds fewer descriptors than there are workers on
their way to it. -/
def Attended (s : Sys nr) : Label nr → Prop
  | .producerTest _ =>
    ¬s.sv.Full → ¬s.sv.Empty → s.SomeBlocked → s.sv.used < s.awake
  | _ => True

/-- A step in which the producer does not outrun the workers. -/
def attendedStep (s : Sys nr) (l : Label nr) (t : Sys nr) : Prop := Attended s l ∧ step s l t

/-- What carries the proof: with a worker blocked, enough others are on their way. -/
structure Covered (s : Sys nr) : Prop where
  placed : s.sv.Placed
  max_lt : s.sv.maxRequests < 2 ^ 31
  enough : s.SomeBlocked → s.sv.used ≤ s.awake

/-- Storing adds at most one descriptor. -/
theorem Server.Placed.used_put_le {sv : Server} (h : sv.Placed) (hb : sv.InBuffer sv.inPos)
    (hm : sv.maxRequests < 2 ^ 31) (c : ℤ) : (sv.put c).used ≤ sv.used + 1 := by
  have hlt := hb.lt hm
  rcases Nat.lt_or_ge sv.used sv.maxRequests with hu | hu
  · rw [h.used_put (by omega) hu]
  · rw [h.used_put_full (by omega) (le_antisymm Server.used_le hu)]
    omega

/-- A worker that is not blocked afterwards leaves only workers blocked that were. -/
theorem someBlocked_update {i : Fin nr} {w : Worker} (hw : w ≠ .blocked)
    (ht : t.workers = Function.update s.workers i w) (hb : t.SomeBlocked) : s.SomeBlocked := by
  obtain ⟨j, hj⟩ := hb
  rw [ht, Function.update_apply] at hj
  split at hj
  · exact absurd hj hw
  · exact ⟨j, hj⟩

/-- A step that only moves one worker that is not in its critical section. -/
theorem Covered.move (h : Covered s) {i : Fin nr} {w : Worker} (hsv : t.sv = s.sv)
    (ht : t.workers = Function.update s.workers i w) (hw : w ≠ .blocked)
    (ha : (s.workers i).awake = true → w.awake = true) : Covered t := by
  refine ⟨by rw [hsv]; exact h.placed, by rw [hsv]; exact h.max_lt, fun hb => ?_⟩
  have hle := h.enough (someBlocked_update hw ht hb)
  have hc := awake_update ht
  rw [hsv]
  cases hs : (s.workers i).awake with
  | true =>
    have := ha hs
    simp only [hs, this, Bool.toNat_true] at hc
    omega
  | false =>
    simp only [hs, Bool.toNat_false] at hc
    omega

/-- A step of the producer outside its critical section. -/
theorem Covered.producer (h : Covered s) (hsv : t.sv = s.sv) (hw : t.workers = s.workers) :
    Covered t := by
  refine ⟨by rw [hsv]; exact h.placed, by rw [hsv]; exact h.max_lt, fun hb => ?_⟩
  obtain ⟨i, hi⟩ := hb
  rw [hsv, awake_same hw]
  exact h.enough ⟨i, by rw [← hw]; exact hi⟩

theorem lockAs_eq {p : Party nr} (h : s.lockAs p = some t) : t = { s with holder := some p } :=
  (Option.some.inj (Option.ite_none_right_eq_some.1 h).2).symm

/-- The producer's critical section, with the workers not outrun. -/
theorem Covered.requestBody {c : ℤ} {w : Option (Fin nr)} (h : Covered s)
    (ha : ¬s.sv.Full → ¬s.sv.Empty → s.SomeBlocked → s.sv.used < s.awake)
    (hs : s.requestBody c w = some t) : Covered t := by
  obtain ⟨hp, hm, hle⟩ := h
  have hmr : t.sv.maxRequests = s.sv.maxRequests := by
    rcases requestBody_cases hs with ⟨-, rfl⟩ | ⟨-, -, e, -⟩
    · rfl
    · rw [e]; rfl
  rcases requestBody_cases hs with ⟨-, rfl⟩ | ⟨hf, hb, e, -, hcase⟩
  · exact ⟨hp, hm, hle⟩
  have hput := hp.used_put_le hb hm c
  refine ⟨by rw [e]; exact hp.put (hb.lt hm) c, by omega, ?_⟩
  rw [e]
  rintro ⟨j, hj⟩
  rcases hcase with ⟨he, ew⟩ | ⟨-, hno, ew⟩ | ⟨he, i, hi, ew⟩
  · -- nobody is signalled
    rw [ew] at hj
    have := ha hf he ⟨j, hj⟩
    rw [awake_same ew]
    omega
  · rw [ew] at hj
    exact absurd hj (hno j)
  · -- the signalled worker is there for the one descriptor
    have := awake_update ew
    have hu := hp.empty_iff.1 he
    have hbl : (s.workers i).awake = false := by rw [hi]; rfl
    have hwk : Worker.woken.awake = true := rfl
    rw [hbl, hwk] at this
    simp only [Bool.toNat_false, Bool.toNat_true] at this
    omega

/-- A worker's critical section. -/
theorem Covered.stubBody {i : Fin nr} (h : Covered s) (hi : s.workers i = .test)
    (hs : s.stubBody i = some t) : Covered t := by
  obtain ⟨hp, hm, hle⟩ := h
  have htest : (s.workers i).awake = true := by rw [hi]; rfl
  rcases stubBody_cases hs with ⟨he, rfl⟩ | ⟨he, hb, e, ew, -⟩
  · refine ⟨hp, hm, fun _ => ?_⟩
    have : s.sv.used = 0 := hp.empty_iff.1 he
    show s.sv.used ≤ _
    omega
  · have hpos : 0 < s.sv.used := Nat.pos_of_ne_zero fun hz => he (hp.empty_iff.2 hz)
    have hadv := hp.used_advance (by have := hb.lt hm; omega) hpos
    have hc := awake_update ew
    have htk : (Worker.taken (s.sv.buffer s.sv.outPos)).awake = false := rfl
    rw [htest, htk] at hc
    simp only [Bool.toNat_false, Bool.toNat_true] at hc
    refine ⟨by rw [e]; exact hp.advance (hb.lt hm), by rw [e]; exact hm, fun hbl => ?_⟩
    have := hle (someBlocked_update (by simp) ew hbl)
    rw [e]
    omega

/-- **One step keeps the workers covered.** -/
theorem Covered.step (h : Covered s) (hs : attendedStep s l t) : Covered t := by
  obtain ⟨ha, hs⟩ := hs
  unfold OSLab.Webserver.step at hs
  cases l with
  | producerTest w =>
    simp only [Sys.run] at hs
    split at hs
    · exact h.requestBody ha hs
    · cases hs
  | workerTest i =>
    simp only [Sys.run] at hs
    split at hs
    · rename_i hi; exact h.stubBody hi hs
    · cases hs
  | producerLock =>
    simp only [Sys.run] at hs
    split at hs
    · obtain rfl := lockAs_eq hs; exact h.producer rfl rfl
    · obtain rfl := lockAs_eq hs; exact h.producer rfl rfl
    · cases hs
  | workerLock i =>
    simp only [Sys.run] at hs
    split at hs
    · obtain rfl := lockAs_eq hs; exact h.move rfl rfl (by simp) fun _ => rfl
    · obtain rfl := lockAs_eq hs; exact h.move rfl rfl (by simp) fun _ => rfl
    · cases hs
  | workerUnlock i =>
    simp only [Sys.run] at hs
    split at hs
    · rename_i c hi
      obtain rfl := Option.some.inj hs
      exact h.move rfl rfl (by simp) (by rw [hi]; simp [Worker.awake])
    · cases hs
  | workerSpurious i =>
    simp only [Sys.run] at hs
    split at hs
    · obtain rfl := Option.some.inj hs; exact h.move rfl rfl (by simp) fun _ => rfl
    · cases hs
  | workerDone i =>
    simp only [Sys.run] at hs
    split at hs
    · obtain rfl := Option.some.inj hs; exact h.move rfl rfl (by simp) fun _ => rfl
    · cases hs
  | _ =>
    simp only [Sys.run] at hs
    split at hs
    · obtain rfl := Option.some.inj hs; exact h.producer rfl rfl
    · cases hs

theorem init_covered (hm : mr < 2 ^ 31) : Covered (serverInit nr mr buffer) := by
  refine ⟨init_placed nr mr buffer, hm, ?_⟩
  rintro ⟨i, hi⟩
  simp [serverInit] at hi

/-- **No worker sleeps beside a queued request**, as long as the producer does not outrun
the workers. -/
theorem no_idle_worker (hm : mr < 2 ^ 31)
    (hr : Run attendedStep (serverInit nr mr buffer) ls t) : ¬t.Stranded := by
  rintro ⟨he, -, i, hi, hall⟩
  have hc := run_inv (fun _ _ _ h hs => Covered.step h hs) hr (init_covered hm)
  have hle := hc.enough ⟨i, hi⟩
  have hpos : 0 < t.sv.used := Nat.pos_of_ne_zero fun hz => he (hc.placed.empty_iff.2 hz)
  obtain ⟨j, hj⟩ := Finset.card_pos.1 (show 0 < t.awake by omega)
  have hj' : (t.workers j).awake = true := by simpa using hj
  by_cases hji : j = i
  · rw [hji, hi] at hj'
    exact absurd hj' (by decide)
  · have hserv := hall j hji
    cases hw : t.workers j <;> simp_all [Worker.awake, Worker.isServing]

instance (s : Sys nr) : Decidable s.SomeBlocked := inferInstanceAs (Decidable (∃ _, _))

instance (s : Sys nr) (l : Label nr) : Decidable (Attended s l) :=
  match l with
  | .producerTest _ => inferInstanceAs (Decidable (_ → _ → _ → _))
  | .request _ | .producerLock | .producerUnlock | .producerSpurious | .producerDone
  | .workerLock _ | .workerTest _ | .workerUnlock _ | .workerSpurious _ | .workerDone _ =>
    inferInstanceAs (Decidable True)

/-- Take an attended step, if the label is one. -/
def attendedRun (s : Sys nr) (l : Label nr) : Option (Sys nr) :=
  if Attended s l then s.run l else none

theorem attendedRun_step (h : attendedRun s l = some t) : attendedStep s l t :=
  Option.ite_none_right_eq_some.1 h

/-- Of three workers two wait. A request arrives, and a second one before the signalled worker gets
the lock; the worker that is on its way takes the first. -/
def attendedSample : List (Label 3) :=
  [.workerLock 1, .workerTest 1, .workerLock 2, .workerTest 2, .request 7, .producerLock,
    .producerTest (some 1), .producerUnlock, .request 8, .producerLock, .producerTest none,
    .producerUnlock, .workerLock 0, .workerTest 0, .workerUnlock 0]

/-- The second request is then queued beside a blocked worker, but another worker is woken. -/
theorem no_idle_worker_sample : ∃ t,
    Run attendedStep (serverInit 3 2 fun _ => 0) attendedSample t ∧
    (¬t.sv.Empty ∧ t.workers 2 = .blocked ∧ t.workers 0 = .serving 7) ∧ ¬t.Stranded := by
  obtain ⟨t, hr, ht⟩ := runAll_any attendedRun (serverInit 3 2 fun _ => 0) attendedSample
    (fun t => decide (¬t.sv.Empty ∧ t.workers 2 = .blocked ∧ t.workers 0 = .serving 7))
    (by decide +kernel)
  have hr' := hr.mono fun _ _ _ h => attendedRun_step h
  exact ⟨t, hr', of_decide_eq_true ht, no_idle_worker (by decide) hr'⟩

/-- Two workers wait and two requests arrive before the signalled worker gets the lock. -/
def strandedSample : List (Label 2) :=
  [.workerLock 0, .workerTest 0, .workerLock 1, .workerTest 1, .request 7, .producerLock,
    .producerTest (some 0), .producerUnlock, .request 8, .producerLock, .producerTest none,
    .producerUnlock, .workerLock 0, .workerTest 0, .workerUnlock 0]

/-- The second request stays queued beside a sleeping worker. -/
theorem idle_worker : ¬∀ buffer ls t, Run step (serverInit 2 2 buffer) ls t → ¬t.Stranded := by
  intro h
  obtain ⟨t, hr, hs⟩ := runAll_any Sys.run (serverInit 2 2 fun _ => 0) strandedSample
    (fun t => decide t.Stranded) (by decide +kernel)
  exact h _ _ t hr (of_decide_eq_true hs)

/-! ### No deadlock -/

/-- What carries the proof: the producer waits only beside a full ring, and beside a
descriptor some worker is not blocked. -/
structure Live (s : Sys nr) : Prop where
  placed : s.sv.Placed
  max_lt : s.sv.maxRequests < 2 ^ 31
  full : ∀ c, s.producer = .blocked c → s.sv.Full
  someone : 0 < s.sv.used → ∃ i, s.workers i ≠ .blocked

/-- A step outside the critical sections, after which the producer is blocked only if it was
and a worker only if it was. -/
theorem Live.move (h : Live s) (hsv : t.sv = s.sv)
    (hp : ∀ c, t.producer = .blocked c → s.producer = .blocked c)
    (hw : ∀ i, t.workers i = .blocked → s.workers i = .blocked) : Live t := by
  refine ⟨by rw [hsv]; exact h.placed, by rw [hsv]; exact h.max_lt, fun c hc => ?_, fun hu => ?_⟩
  · rw [hsv]; exact h.full c (hp c hc)
  · rw [hsv] at hu
    obtain ⟨i, hi⟩ := h.someone hu
    exact ⟨i, fun hb => hi (hw i hb)⟩

theorem blocked_of_update {i j : Fin nr} {w : Worker} (hw : w ≠ .blocked)
    (hj : Function.update s.workers i w j = .blocked) : s.workers j = .blocked := by
  rw [Function.update_apply] at hj
  split at hj
  · exact absurd hj hw
  · exact hj

theorem Live.requestBody {c : ℤ} {w : Option (Fin nr)} (h : Live s) (hn : 1 ≤ nr)
    (hs : s.requestBody c w = some t) : Live t := by
  obtain ⟨hp, hm, hf, hsome⟩ := h
  rcases requestBody_cases hs with ⟨hfull, rfl⟩ | ⟨-, hb, e, ep, hcase⟩
  · exact ⟨hp, hm, fun _ _ => hfull, hsome⟩
  refine ⟨by rw [e]; exact hp.put (hb.lt hm) c, by rw [e]; exact hm, ?_, fun _ => ?_⟩
  · intro c' hc'
    rw [ep] at hc'
    cases hc'
  rcases hcase with ⟨he, ew⟩ | ⟨-, hno, ew⟩ | ⟨he, i, hi, ew⟩
  · -- the ring held a descriptor already
    have hpos : 0 < s.sv.used := Nat.pos_of_ne_zero fun hz => he (hp.empty_iff.2 hz)
    rw [ew]
    exact hsome hpos
  · rw [ew]
    exact ⟨⟨0, hn⟩, hno _⟩
  · exact ⟨i, by rw [ew]; simp⟩

theorem Live.stubBody {i : Fin nr} (h : Live s) (hs : s.stubBody i = some t) : Live t := by
  obtain ⟨hp, hm, hf, hsome⟩ := h
  rcases stubBody_cases hs with ⟨he, rfl⟩ | ⟨he, hb, e, ew, ep⟩
  · have hz : s.sv.used = 0 := hp.empty_iff.1 he
    refine ⟨hp, hm, hf, fun hu => ?_⟩
    have : 0 < s.sv.used := hu
    omega
  refine ⟨by rw [e]; exact hp.advance (hb.lt hm), by rw [e]; exact hm, fun c hc => ?_, fun _ => ?_⟩
  · -- a producer that waits does so since the ring is full, and then it is signalled
    rcases ep with ⟨hnf, ep⟩ | ⟨-, ep⟩
    · exact absurd (hf c (ep ▸ hc)) hnf
    · exact absurd hc (ep c)
  · exact ⟨i, by rw [ew]; simp⟩

/-- **One step keeps the hand-off live.** -/
theorem Live.step (h : Live s) (hn : 1 ≤ nr) (hs : step s l t) : Live t := by
  unfold OSLab.Webserver.step at hs
  cases l with
  | producerTest w =>
    simp only [Sys.run] at hs
    split at hs
    · exact h.requestBody hn hs
    · cases hs
  | workerTest i =>
    simp only [Sys.run] at hs
    split at hs
    · exact h.stubBody hs
    · cases hs
  | producerLock =>
    simp only [Sys.run] at hs
    split at hs
    · obtain rfl := lockAs_eq hs; exact h.move rfl (by simp) fun _ => id
    · obtain rfl := lockAs_eq hs; exact h.move rfl (by simp) fun _ => id
    · cases hs
  | request c =>
    simp only [Sys.run] at hs
    split at hs
    · obtain rfl := Option.some.inj hs
      refine h.move rfl (fun c' hc' => ?_) fun _ => id
      simp only at hc'
      split at hc' <;> cases hc'
    · cases hs
  | workerLock i =>
    simp only [Sys.run] at hs
    split at hs
    · obtain rfl := lockAs_eq hs; exact h.move rfl (fun _ => id) fun _ => blocked_of_update (by simp)
    · obtain rfl := lockAs_eq hs; exact h.move rfl (fun _ => id) fun _ => blocked_of_update (by simp)
    · cases hs
  | workerUnlock i | workerSpurious i | workerDone i =>
    simp only [Sys.run] at hs
    split at hs
    · obtain rfl := Option.some.inj hs
      exact h.move rfl (fun _ => id) fun _ => blocked_of_update (by simp)
    · cases hs
  | producerUnlock | producerSpurious | producerDone =>
    simp only [Sys.run] at hs
    split at hs
    · obtain rfl := Option.some.inj hs; exact h.move rfl (by simp) fun _ => id
    · cases hs

theorem init_live (hm : mr < 2 ^ 31) : Live (serverInit nr mr buffer) := by
  have hp := init_placed nr mr buffer
  refine ⟨hp, hm, fun c hc => by simp [serverInit] at hc, fun hu => ?_⟩
  have := hp.empty_iff.1 rfl
  omega

/-- **No deadlock**, if a request can be queued at all. -/
theorem no_deadlock (hn : 1 ≤ nr) (hm : mr < 2 ^ 31) (hpos : 1 ≤ mr)
    (hr : Run step (serverInit nr mr buffer) ls t) : ¬t.Deadlocked := by
  rintro ⟨⟨c, hc⟩, hall⟩
  have h := run_inv (I := fun s => Live s ∧ s.sv.maxRequests = mr)
    (fun _ _ _ h hs => ⟨h.1.step hn hs, (step_maxRequests hs).trans h.2⟩) hr ⟨init_live hm, rfl⟩
  obtain ⟨hl, hmr⟩ := h
  have hu := hl.placed.full_used hl.max_lt (by omega) (hl.full c hc)
  obtain ⟨i, hi⟩ := hl.someone (by omega)
  exact hi (hall i)

/-- With `max_requests = 0` the first `k` workers go to sleep, one after another. -/
theorem sleep_run (buffer : ℤ → ℤ) (k : ℕ) (hk : k ≤ nr) : ∃ ls s, Run step (serverInit nr 0 buffer) ls s ∧
    s.sv = (serverInit nr 0 buffer).sv ∧ s.holder = none ∧ s.producer = .outside ∧
    ∀ i : Fin nr, s.workers i = if (i : ℕ) < k then .blocked else .start := by
  induction k with
  | zero => exact ⟨[], _, .nil _, rfl, rfl, rfl, fun i => by simp [serverInit]⟩
  | succ k ih =>
    obtain ⟨ls, s, hr, hsv, ho, hp, hw⟩ := ih (by omega)
    have hstart : s.workers ⟨k, hk⟩ = .start := by rw [hw]; simp
    have h1 := hr.snoc (l := .workerLock ⟨k, hk⟩)
      (u := { s.setWorker ⟨k, hk⟩ .test with holder := some (.worker ⟨k, hk⟩) })
      (by simp [step, Sys.run, Sys.lockAs, Sys.setWorker, hstart, ho])
    have h2 := h1.snoc (l := .workerTest ⟨k, hk⟩) (u := s.setWorker ⟨k, hk⟩ .blocked) (by
      simp [step, Sys.run, Sys.stubBody, Sys.setWorker, Sys.unlock, hsv, serverInit,
        Server.Empty, ho])
    refine ⟨_, _, h2, hsv, ho, hp, fun i => ?_⟩
    simp only [Sys.setWorker, Function.update_apply, hw]
    by_cases hi : i = ⟨k, hk⟩
    · rw [if_pos hi, hi, if_pos (by simp)]
    · have : (i : ℕ) ≠ k := fun e => hi (Fin.ext e)
      rw [if_neg hi]
      exact if_congr (by omega) rfl rfl

/-- With `max_requests = 0` the ring is full and empty at once: everybody waits. -/
theorem deadlock_run (buffer : ℤ → ℤ) (hn : 1 ≤ nr) :
    ∃ ls t, Run step (serverInit nr 0 buffer) ls t ∧ t.Deadlocked := by
  obtain ⟨ls, s, hr, hsv, ho, hp, hw⟩ := sleep_run buffer nr (le_refl nr)
  have h0 : nr ≠ 0 := by omega
  have h1 : (toInt32 (0 - 0 + (0 : ℕ) + 1)).tmod (toInt32 ((0 : ℕ) + 1)) = (0 : ℕ) := by decide
  have hf : s.sv.Full := by rw [hsv]; exact h1
  have h1 := hr.snoc (l := .request 0) (u := { s with producer := .start 0 })
    (by simp [step, Sys.run, hp, h0])
  have h2 := h1.snoc (l := .producerLock)
    (u := { s with producer := .test 0, holder := some .producer })
    (by simp [step, Sys.run, Sys.lockAs, ho])
  have h3 := h2.snoc (l := .producerTest none) (u := { s with producer := .blocked 0 })
    (by simp [step, Sys.run, Sys.requestBody, Sys.unlock, hf, ho])
  exact ⟨_, _, h3, ⟨0, rfl⟩, fun i => by simp [hw]⟩

/-- **The hand-off cannot deadlock, if and only if `max_requests` is not `0`.** -/
theorem handoff_no_deadlock (hn : 1 ≤ nr) (hm : mr < 2 ^ 31) :
    (∀ buffer ls t, Run step (serverInit nr mr buffer) ls t → ¬t.Deadlocked) ↔ 1 ≤ mr := by
  constructor
  · intro h
    by_contra hz
    obtain rfl : mr = 0 := by omega
    obtain ⟨ls, t, hr, hd⟩ := deadlock_run (fun _ => 0) hn
    exact h _ ls t hr hd
  · intro h buffer ls t hr
    exact no_deadlock hn hm h hr

theorem handoff_no_deadlock_sample : (1 ≤ 2 ∧ 1 < 2 ^ 31) ∧
    ((∀ buffer ls t, Run step (serverInit 2 1 buffer) ls t → ¬t.Deadlocked) ↔ 1 ≤ 1) :=
  ⟨by decide, handoff_no_deadlock (by decide) (by decide)⟩

theorem handoff_deadlock :
    ¬∀ buffer ls t, Run step (serverInit 1 0 buffer) ls t → ¬t.Deadlocked := by
  intro h
  obtain ⟨ls, t, hr, hd⟩ := deadlock_run (fun _ => 0) (le_refl 1)
  exact h _ ls t hr hd

end OSLab.Webserver
