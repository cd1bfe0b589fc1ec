import OSLab.Threads.Control

/-!
# The queues of locks and condition variables

Each lock and each condition variable owns a wait queue that no other owns (`Owned`), as
long as the operations on bare wait queues leave these queues alone (`Foreign`), which
`thread.h` gives nobody a pointer to.

`no_lost_wakeup`: in every run the queue of a lock that is available is empty, so
`lock_destroy` discards no waiting thread.
-/

namespace OSLab.Threads

open Prog

variable {s t : Sched} {v : View} {full : Prop} {k : Label} {R : Rest} {i l c q q' u : ℕ}
  {o o' : ℕ ⊕ ℕ} {all : Bool} {ls : List Label} {enabled : Bool} {lock : Lock}

namespace View

/-! ### What the operations leave in the other queues -/

theorem waiting_dispatch : v.dispatch.waiting = v.waiting := by
  unfold dispatch
  split <;> rfl

theorem waiting_yieldAny : v.yieldAny.waiting = v.waiting := by
  unfold yieldAny
  split
  · rfl
  · exact waiting_dispatch

theorem waiting_yieldTo : (v.yieldTo u).waiting = v.waiting := by
  unfold yieldTo
  split <;> rfl

theorem waiting_sleep (h : q' ≠ q) : (v.sleep q).waiting q' = v.waiting q' := by
  unfold sleep
  split
  · exact Function.update_of_ne h _ _
  · rfl

theorem isSome_sleep : ((v.sleep q).waiting q').isSome = (v.waiting q').isSome := by
  unfold sleep
  split
  · rename_i hl
    by_cases h : q' = q
    · subst h
      simp [hl]
    · simp only [Function.update_of_ne h]
  · rfl

theorem waiting_wakeup (h : q' ≠ q) : (v.wakeup q all).waiting q' = v.waiting q' := by
  unfold wakeup
  split
  · rfl
  · exact Function.update_of_ne h _ _

theorem isSome_wakeup : ((v.wakeup q all).waiting q').isSome = (v.waiting q').isSome := by
  unfold wakeup
  split
  · rfl
  · rename_i l hl
    by_cases h : q' = q
    · subst h
      simp [hl]
    · simp only [Function.update_of_ne h]

/-- A wake-up of all empties the queue. -/
theorem waiting_wakeupAll (h : (v.waiting q).isSome = true) :
    (v.wakeup q true).waiting q = some [] := by
  obtain ⟨l, hl⟩ := Option.isSome_iff_exists.1 h
  rw [wakeup_some hl]
  simp [woken, hl]

end View

/-! ### Who owns a queue -/

/-- The queue of a lock (`inl`) or a condition variable (`inr`). -/
def Sched.queueOf (s : Sched) : ℕ ⊕ ℕ → Option ℕ
  | .inl l => (s.locks l).map (·.waitQ)
  | .inr c => s.cvs c

/-- The queues that locks and condition variables own are allocated, and each has one owner. -/
structure Owned (s : Sched) (v : View) : Prop where
  alloc : ∀ o q, s.queueOf o = some q → (v.waiting q).isSome = true
  unique : ∀ o o' q, s.queueOf o = some q → s.queueOf o' = some q → o = o'

/-- An operation on a bare wait queue names one that no lock or condition variable owns. -/
def Foreign (s : Sched) : Label → Prop
  | .call (.queueDestroy q) | .call (.sleep (some q)) | .call (.wakeup (some q) _) =>
    ∀ o, s.queueOf o ≠ some q
  | _ => True

theorem queueOf_lock (hl : s.locks l = some lock) : s.queueOf (.inl l) = some lock.waitQ := by
  simp [Sched.queueOf, hl]

theorem queueOf_busy (hl : s.lockBusy l = some lock) : s.queueOf (.inl l) = some lock.waitQ :=
  queueOf_lock (lockBusy_some.1 hl).1

theorem queueOf_cv (hc : s.cvs c = some q) : s.queueOf (.inr c) = some q := hc

theorem queueOf_congr (hl : t.locks = s.locks) (hc : t.cvs = s.cvs) : t.queueOf = s.queueOf := by
  funext o
  cases o <;> simp [Sched.queueOf, hl, hc]

theorem queueOf_setLock {lock' : Option Lock} (hl : t.locks = Function.update s.locks l lock')
    (hc : t.cvs = s.cvs) :
    t.queueOf = Function.update s.queueOf (.inl l) (lock'.map (·.waitQ)) := by
  funext o
  cases o with
  | inl l' =>
    by_cases h : l' = l
    · subst h
      simp [Sched.queueOf, hl]
    · rw [Function.update_of_ne (by simpa using h)]
      simp [Sched.queueOf, hl, h]
  | inr c => simp [Sched.queueOf, hc]

theorem queueOf_setCv {q : Option ℕ} (hl : t.locks = s.locks)
    (hc : t.cvs = Function.update s.cvs c q) :
    t.queueOf = Function.update s.queueOf (.inr c) q := by
  funext o
  cases o with
  | inl l => simp [Sched.queueOf, hl]
  | inr c' =>
    by_cases h : c' = c
    · subst h
      simp [Sched.queueOf, hc]
    · rw [Function.update_of_ne (by simpa using h)]
      simp [Sched.queueOf, hc, h]

/-- Setting the availability of a lock moves no queue. -/
theorem queueOf_available {b : Bool} (h : s.locks l = some lock)
    (hl : t.locks = Function.update s.locks l (some { lock with available := b }))
    (hc : t.cvs = s.cvs) : t.queueOf = s.queueOf := by
  rw [queueOf_setLock hl hc]
  exact Function.update_eq_self_iff.2 (queueOf_lock h).symm

/-- Who owns a queue changes only when an owner is made, with a new empty queue, or ends,
and its queue with it. -/
theorem queueOf_step (he : Effect s k t.rest) : t.queueOf = s.queueOf ∨
    (∃ o q, s.waitQueues q = none ∧ t.queueOf = Function.update s.queueOf o (some q) ∧
      seqStep s v k = v.setQueue q (some [])) ∨
    ∃ o q, s.queueOf o = some q ∧ t.queueOf = Function.update s.queueOf o none ∧
      seqStep s v k = v.setQueue q none := by
  obtain ⟨R, hR⟩ : ∃ R, R = t.rest := ⟨_, rfl⟩
  rw [← hR] at he
  have hlocks : t.locks = R.locks := by rw [hR]; rfl
  have hcvs : t.cvs = R.cvs := by rw [hR]; rfl
  have hstay : R.locks = s.locks → R.cvs = s.cvs → t.queueOf = s.queueOf := fun hl hc =>
    queueOf_congr (hlocks.trans hl) (hcvs.trans hc)
  cases he with
  | @kills i hk =>
    refine Or.inl (hstay ?_ ?_) <;> unfold Rest.reap <;> split <;> rfl
  | @lockCreates l q hl hq =>
    exact Or.inr (Or.inl ⟨.inl l, q, hq, queueOf_setLock hlocks hcvs, rfl⟩)
  | @lockDestroys l lock hl ha =>
    refine Or.inr (Or.inr ⟨.inl l, lock.waitQ, queueOf_lock hl, queueOf_setLock hlocks hcvs, ?_⟩)
    simp [seqStep, seqOp, hl, ha]
  | @cvCreates c q hc hq =>
    exact Or.inr (Or.inl ⟨.inr c, q, hq, queueOf_setCv hlocks hcvs, rfl⟩)
  | @cvDestroys c q hc =>
    refine Or.inr (Or.inr ⟨.inr c, q, hc, queueOf_setCv hlocks hcvs, ?_⟩)
    simp [seqStep, seqOp, hc]
  | lockReleases hl => exact Or.inl (queueOf_available (lockBusy_some.1 hl).1 hlocks hcvs)
  | cvWaitStays hc hl => exact Or.inl (queueOf_available (lockBusy_some.1 hl).1 hlocks hcvs)
  | cvWaits hc hl hp => exact Or.inl (queueOf_available (lockBusy_some.1 hl).1 hlocks hcvs)
  | acquires hf hl ha => exact Or.inl (queueOf_available hl hlocks hcvs)
  | _ => exact Or.inl (hstay rfl rfl)

/-- `cv_signal` or `cv_broadcast`. -/
def cvOp (all : Bool) (c l : ℕ) : Op := if all then .cvBroadcast c l else .cvSignal c l

theorem seqOp_cvOp {all : Bool} {c l : ℕ} {lock : Lock} (hc : s.cvs c = some q)
    (hl : s.lockBusy l = some lock) : seqOp s v (cvOp all c l) = v.wakeup q all := by
  cases all <;> simp [cvOp, seqOp, hc, hl]

/-- Without the condition variable or without the lock nothing is woken. -/
theorem seqOp_cvOp_none {all : Bool} {c l : ℕ} (h : s.cvs c = none ∨ s.lockBusy l = none) :
    seqOp s v (cvOp all c l) = v := by
  rcases h with h | h
  · cases all <;> simp [cvOp, seqOp, h]
  · cases all <;> simp [cvOp, seqOp, h]

/-- What a step does to a queue that a lock or a condition variable owns before and after. -/
inductive QueueStep (s : Sched) (v : View) (k : Label) (q : ℕ) : Prop
  | same (h : (seqStep s v k).waiting q = v.waiting q)
  | wakes {c l : ℕ} {all : Bool} {lock : Lock} (hk : k = .call (cvOp all c l))
      (hc : s.cvs c = some q) (hl : s.lockBusy l = some lock) (h : seqStep s v k = v.wakeup q all)
  | releases {l : ℕ} {lock : Lock} (hl : s.lockBusy l = some lock) (hq : lock.waitQ = q)
      (h : (seqStep s v k).waiting q = some [])
  | waits {c l : ℕ} {lock : Lock} (hk : k = .call (.cvWait c l)) (hc : s.cvs c = some q)
      (hl : s.lockBusy l = some lock) (h : seqStep s v k = (v.wakeup lock.waitQ true).sleep q)
  | blocks {l : ℕ} {e : Bool} {fs : List Frame} {lock : Lock} (hk : k = .resume)
      (hf : s.frames = .acquireLoop l e :: fs) (hl : s.lockBusy l = some lock)
      (hq : lock.waitQ = q) (h : seqStep s v k = v.sleep q)

theorem Owned.ne_of_free (h : Represents full s v) (ho : Owned s v) (hq : s.queueOf o = some q)
    (hfree : s.waitQueues q' = none) : q ≠ q' := by
  rintro rfl
  have := ho.alloc o q hq
  rw [← h.alloc, hfree] at this
  simp at this

theorem waiting_yield (s : Sched) (v : View) (tid : ℤ) : (seqOp s v (.yield tid)).waiting = v.waiting := by
  simp only [seqOp]
  split
  · exact View.waiting_yieldAny
  · split
    · rfl
    · exact View.waiting_yieldTo

theorem waiting_kill (s : Sched) (v : View) (tid : ℤ) : (seqOp s v (.kill tid)).waiting = v.waiting := by
  simp only [seqOp]
  split <;> rfl

/-- An owner's queue is not one that the step frees with its owner. -/
theorem Owned.ne_of_ended (ho : Owned s v) (hq : s.queueOf o = some q)
    (hq' : s.queueOf o' = some q') (hend : t.queueOf o' = none) (hlives : t.queueOf o = some q) :
    q ≠ q' := by
  rintro rfl
  obtain rfl := ho.unique o o' q hq hq'
  rw [hend] at hlives
  simp at hlives

theorem idle_queue (h : Represents full s v) (hown : Owned s v) {op : Op} (hi : Idle s op)
    (hf : Foreign s (.call op)) (hq : s.queueOf o = some q) : QueueStep s v (.call op) q := by
  -- `cv_signal` and `cv_broadcast` wake the queue of the condition variable, if the lock is taken
  have hwake : ∀ all c l, op = cvOp all c l → QueueStep s v (.call op) q := by
    intro all c l hop
    subst hop
    cases hc : s.cvs c with
    | none => exact .same (by rw [seqStep, seqOp_cvOp_none (Or.inl hc)])
    | some q' => cases hl : s.lockBusy l with
      | none => exact .same (by rw [seqStep, seqOp_cvOp_none (Or.inr hl)])
      | some lock =>
        have hseq : seqStep s v (.call (cvOp all c l)) = v.wakeup q' all := seqOp_cvOp hc hl
        by_cases he : q = q'
        · subst he
          exact .wakes rfl hc hl hseq
        · refine .same ?_
          rw [hseq]
          exact View.waiting_wakeup he
  cases op with
  | create stack =>
    have hnone : firstInvalid s = none := hi
    cases stack <;> exact .same (by simp [seqStep, seqOp, hnone])
  | kill tid => exact .same (congrFun (waiting_kill s v tid) q)
  | queueCreate q' => exact .same (Function.update_of_ne (hown.ne_of_free h hq hi) _ _)
  | queueDestroy q' =>
    have hne : q ≠ q' := fun e => hf o (e ▸ hq)
    exact .same (Function.update_of_ne hne _ _)
  | sleep queue => cases queue with
    | none => exact .same rfl
    | some q' => exact .same (View.waiting_sleep fun e => hf o (e ▸ hq))
  | wakeup queue all => cases queue with
    | none => exact .same rfl
    | some q' => exact .same (View.waiting_wakeup fun e => hf o (e ▸ hq))
  | lockRelease l =>
    have hb : s.lockBusy l = none := hi
    exact .same (by simp [seqStep, seqOp, hb])
  | cvWait c l =>
    have hb : s.lockBusy l = none := hi
    exact .same (by simp [seqStep, seqOp, hb])
  | lockDestroy l =>
    obtain ⟨lock, hl⟩ := hi
    obtain ⟨hl, ha⟩ := lockBusy_some.1 hl
    exact .same (by simp [seqStep, seqOp, hl, ha])
  | cvSignal c l => exact hwake false c l rfl
  | cvBroadcast c l => exact hwake true c l rfl
  | _ => exact hi.elim

/-- A released lock's queue is emptied, and no other lock's or variable's. -/
theorem release_queue (hown : Owned s v) (lock : Lock) (hq : s.queueOf o = some q) : q = lock.waitQ ∧ (v.wakeup lock.waitQ true).waiting q = some [] ∨
      q ≠ lock.waitQ ∧ (v.wakeup lock.waitQ true).waiting q = v.waiting q := by
  by_cases he : q = lock.waitQ
  · refine Or.inl ⟨he, ?_⟩
    rw [← he]
    exact View.waiting_wakeupAll (hown.alloc o q hq)
  · exact Or.inr ⟨he, View.waiting_wakeup he⟩

theorem queue_step (h : Represents full s v) (hown : Owned s v) (he : Effect s k t.rest)
    (hf : Foreign s k) (hq : s.queueOf o = some q) (hq' : t.queueOf o = some q) :
    QueueStep s v k q := by
  obtain ⟨R, hR⟩ : ∃ R, R = t.rest := ⟨_, rfl⟩
  rw [← hR] at he
  have hlocks : t.locks = R.locks := by rw [hR]; rfl
  have hcvs : t.cvs = R.cvs := by rw [hR]; rfl
  -- `cv_wait` releases its lock and then sleeps; the queue is that of the one or the other
  have hwait : ∀ {c l q' lock}, k = .call (.cvWait c l) → s.cvs c = some q' →
      s.lockBusy l = some lock → seqStep s v k = (v.wakeup lock.waitQ true).sleep q' →
      QueueStep s v k q := by
    intro c l q' lock hk hc hl hseq
    by_cases hqc : q = q'
    · subst hqc
      exact .waits hk hc hl hseq
    · have hw : (seqStep s v k).waiting q = (v.wakeup lock.waitQ true).waiting q := by
        rw [hseq, View.waiting_sleep hqc]
      rcases release_queue hown lock hq with ⟨hql, hr⟩ | ⟨-, hr⟩
      · exact .releases hl hql.symm (hw.trans hr)
      · exact .same (hw.trans hr)
  -- `lock_acquire` sleeps in the queue of the lock
  have hblock : ∀ {l e fs lock}, k = .resume → s.frames = .acquireLoop l e :: fs →
      s.lockBusy l = some lock → QueueStep s v k q := by
    rintro l e fs lock rfl hfr hl
    have hseq : seqStep s v .resume = v.sleep lock.waitQ := by simp only [seqStep, hfr, hl]
    by_cases hql : q = lock.waitQ
    · exact .blocks rfl hfr hl hql.symm (hql ▸ hseq)
    · exact .same (by rw [hseq, View.waiting_sleep hql])
  cases he with
  | idle hi => exact idle_queue h hown hi hf hq
  | @creates stack i hi hstack =>
    cases stack <;> exact .same (by simp [seqStep, seqOp, hi, View.enqueue])
  | yieldStays tid => exact .same (congrFun (waiting_yield s v tid) q)
  | yields hf' hp => exact .same (congrFun (waiting_yield s v _) q)
  | exitStays => exact .same (congrFun View.waiting_dispatch q)
  | exits hp => exact .same (congrFun View.waiting_dispatch q)
  | @kills i hk => exact .same (congrFun (waiting_kill s v i) q)
  | @sleeps queue p hp =>
    cases queue with
    | none => exact .same rfl
    | some q' => exact .same (View.waiting_sleep fun e => hf o (e ▸ hq))
  | lockCreates hl hq' => exact .same (Function.update_of_ne (hown.ne_of_free h hq hq') _ _)
  | @lockDestroys l lock hl ha =>
    -- two objects in use have different queues, so this is not the one that ends
    have hend : t.queueOf (.inl l) = none := by
      rw [queueOf_setLock hlocks hcvs]
      simp
    have hseq : seqStep s v (.call (.lockDestroy l)) = v.setQueue lock.waitQ none := by
      simp [seqStep, seqOp, hl, ha]
    refine .same ?_
    rw [hseq]
    exact Function.update_of_ne (hown.ne_of_ended hq (queueOf_lock hl) hend hq') _ _
  | @lockReleases l lock hl =>
    have hseq : seqStep s v (.call (.lockRelease l)) = v.wakeup lock.waitQ true := by
      simp [seqStep, seqOp, hl]
    rcases release_queue hown lock hq with ⟨hql, hr⟩ | ⟨-, hr⟩
    · exact .releases hl hql.symm (by rw [hseq, hr])
    · exact .same (by rw [hseq, hr])
  | cvCreates hc hq' => exact .same (Function.update_of_ne (hown.ne_of_free h hq hq') _ _)
  | @cvDestroys c q' hc =>
    have hend : t.queueOf (.inr c) = none := by
      rw [queueOf_setCv hlocks hcvs]
      simp
    have hseq : seqStep s v (.call (.cvDestroy c)) = v.setQueue q' none := by
      simp [seqStep, seqOp, hc]
    refine .same ?_
    rw [hseq]
    exact Function.update_of_ne (hown.ne_of_ended hq (queueOf_cv hc) hend hq') _ _
  | cvWaitStays hc hl => exact hwait rfl hc hl (by simp [seqStep, seqOp, hc, hl])
  | cvWaits hc hl hp => exact hwait rfl hc hl (by simp [seqStep, seqOp, hc, hl])
  | preemptStays => exact .same (congrFun View.waiting_yieldAny q)
  | preempts hf' hp => exact .same (congrFun View.waiting_yieldAny q)
  | acquireStays hfr hl => exact hblock rfl hfr hl
  | acquireSleeps hfr hl hp => exact hblock rfl hfr hl
  | @finishes f fs hfr hfin =>
    refine .same ?_
    cases f with
    | acquireLoop l e => exact hfin.elim
    | _ => simp [seqStep, hfr]
  | acquires hfr hl ha =>
    have hb := lockBusy_of_free hl (by simp [ha])
    exact .same (by simp [seqStep, hfr, hb])
  | reacquires hfr => exact .same (by simp [seqStep, hfr])
  | _ => exact .same rfl

theorem QueueStep.isSome (hs : QueueStep s v k q) (hq : (v.waiting q).isSome = true) :
    ((seqStep s v k).waiting q).isSome = true := by
  cases hs with
  | same h => rwa [h]
  | wakes hk hc hl h => rwa [h, View.isSome_wakeup]
  | releases hl hq h => rw [h]; rfl
  | waits hk hc hl h => rwa [h, View.isSome_sleep, View.isSome_wakeup]
  | blocks hk hf hl hq h => rwa [h, View.isSome_sleep]

/-- A new owner has a new queue, and the other owners keep theirs. -/
theorem new_owner (he : Effect s k t.rest) (hq : t.queueOf o = some q)
    (hold : s.queueOf o ≠ some q) : s.waitQueues q = none ∧ (seqStep s v k).waiting q = some [] ∧
      ∀ o', o' ≠ o → t.queueOf o' = s.queueOf o' := by
  rcases queueOf_step (v := v) he with hsame | ⟨o₁, q₁, hfree, hup, hseq⟩ | ⟨o₁, q₁, -, hup, -⟩
  · exact absurd (hsame ▸ hq) hold
  · by_cases ho : o = o₁
    · subst ho
      rw [hup, Function.update_self] at hq
      obtain rfl := Option.some.inj hq
      refine ⟨hfree, ?_, fun o' ho' => by rw [hup, Function.update_of_ne ho']⟩
      rw [hseq]
      exact Function.update_self _ _ _
    · rw [hup, Function.update_of_ne ho] at hq
      exact absurd hq hold
  · by_cases ho : o = o₁
    · subst ho
      rw [hup, Function.update_self] at hq
      simp at hq
    · rw [hup, Function.update_of_ne ho] at hq
      exact absurd hq hold

/-- **Owned queues stay owned.** -/
theorem owned_step (h : Represents full s v) (hown : Owned s v) (he : Effect s k t.rest)
    (hf : Foreign s k) : Owned t (seqStep s v k) := by
  constructor
  · intro o q hq
    by_cases hold : s.queueOf o = some q
    · exact (queue_step h hown he hf hold hq).isSome (hown.alloc o q hold)
    · obtain ⟨-, hnew, -⟩ := new_owner (v := v) he hq hold
      rw [hnew]
      rfl
  · intro o o' q hq hq'
    by_contra hne
    -- a new owner's queue was free, so no old owner has it
    have hone : ∀ {o o'}, o ≠ o' → t.queueOf o = some q → t.queueOf o' = some q →
        s.queueOf o ≠ some q → False := by
      intro o o' hne hq hq' hold
      obtain ⟨hfree, -, hothers⟩ := new_owner (v := v) he hq hold
      rw [hothers o' hne.symm] at hq'
      exact hown.ne_of_free h hq' hfree rfl
    by_cases hold : s.queueOf o = some q
    · by_cases hold' : s.queueOf o' = some q
      · exact hne (hown.unique o o' q hold hold')
      · exact hone (Ne.symm hne) hq' hq hold'
    · exact hone hne hq hq' hold

/-! ### No lost wake-up -/

/-- The queue of a lock that is available is empty. -/
def FreeEmpty (s : Sched) (v : View) : Prop :=
  ∀ l lock, s.locks l = some lock → lock.available = true → v.waiting lock.waitQ = some []

/-- A lock that is available after a step was available, or is new, or is released by it. -/
theorem available_step (he : Effect s k t.rest) {lock : Lock} (hl : t.locks l = some lock)
    (ha : lock.available = true) : s.locks l = some lock ∨ s.locks l = none ∨
      ∃ lock', s.lockBusy l = some lock' ∧ lock'.waitQ = lock.waitQ ∧
        (k = .call (.lockRelease l) ∨ ∃ c q, k = .call (.cvWait c l) ∧ s.cvs c = some q) := by
  obtain ⟨R, hR⟩ : ∃ R, R = t.rest := ⟨_, rfl⟩
  rw [← hR] at he
  have hlocks : t.locks = R.locks := by rw [hR]; rfl
  -- only the lock that a step is about can change
  have hset : ∀ {l' o}, R.locks = Function.update s.locks l' o → l = l' ∧ o = some lock ∨
      s.locks l = some lock := by
    intro l' o hup
    rw [hlocks, hup, Function.update_apply] at hl
    split at hl
    · exact Or.inl ⟨‹_›, hl⟩
    · exact Or.inr hl
  have hsame : R.locks = s.locks → s.locks l = some lock := fun h => by
    rw [hlocks, h] at hl
    exact hl
  cases he with
  | @kills i hk => exact Or.inl (hsame (by unfold Rest.reap; split <;> rfl))
  | lockCreates hfree hq =>
    rcases hset rfl with ⟨rfl, -⟩ | h
    · exact Or.inr (Or.inl hfree)
    · exact Or.inl h
  | lockDestroys hl' ha' =>
    rcases hset rfl with ⟨-, h⟩ | h
    · simp at h
    · exact Or.inl h
  | @lockReleases l' lock' hb =>
    rcases hset rfl with ⟨rfl, h⟩ | h
    · obtain rfl := Option.some.inj h
      exact Or.inr (Or.inr ⟨lock', hb, rfl, Or.inl rfl⟩)
    · exact Or.inl h
  | @cvWaitStays c l' q lock' hc hb =>
    rcases hset rfl with ⟨rfl, h⟩ | h
    · obtain rfl := Option.some.inj h
      exact Or.inr (Or.inr ⟨lock', hb, rfl, Or.inr ⟨c, q, rfl, hc⟩⟩)
    · exact Or.inl h
  | @cvWaits c l' q p lock' hc hb hp =>
    rcases hset rfl with ⟨rfl, h⟩ | h
    · obtain rfl := Option.some.inj h
      exact Or.inr (Or.inr ⟨lock', hb, rfl, Or.inr ⟨c, q, rfl, hc⟩⟩)
    · exact Or.inl h
  | acquires hf hl' ha' =>
    rcases hset rfl with ⟨-, h⟩ | h
    · obtain rfl := Option.some.inj h
      simp at ha
    · exact Or.inl h
  | _ => exact Or.inl (hsame rfl)

/-- **The queues of available locks stay empty.** -/
theorem freeEmpty_step (h : Represents full s v) (hown : Owned s v) (hfe : FreeEmpty s v)
    (he : Effect s k t.rest) (hf : Foreign s k) : FreeEmpty t (seqStep s v k) := by
  intro l lock hl ha
  have hq : t.queueOf (.inl l) = some lock.waitQ := queueOf_lock hl
  rcases available_step he hl ha with hold | hnew | ⟨lock', hb, hwq, hk⟩
  · -- it was available: its queue can only be emptied
    have hqs : s.queueOf (.inl l) = some lock.waitQ := queueOf_lock hold
    have hempty := hfe l lock hold ha
    have hbusy : ∀ l' lock', s.lockBusy l' = some lock' → lock'.waitQ = lock.waitQ → False := by
      intro l' lock' hb hwq
      have hq' := queueOf_busy hb
      rw [hwq] at hq'
      cases hown.unique _ _ _ hqs hq'
      obtain ⟨hl', ha'⟩ := lockBusy_some.1 hb
      obtain rfl := Option.some.inj (hl'.symm.trans hold)
      simp [ha] at ha'
    cases queue_step h hown he hf hqs hq with
    | same hw => rw [hw, hempty]
    | wakes hk hc hl' hw => cases hown.unique _ _ _ hqs (queueOf_cv hc)
    | releases hl' hwq hw => exact hw
    | waits hk hc hl' hw => cases hown.unique _ _ _ hqs (queueOf_cv hc)
    | blocks hk hfr hl' hwq hw => exact (hbusy _ _ hl' hwq).elim
  · have hold : s.queueOf (.inl l) ≠ some lock.waitQ := by simp [Sched.queueOf, hnew]
    exact (new_owner (v := v) he hq hold).2.1
  · have hqs : s.queueOf (.inl l) = some lock.waitQ := by
      rw [← hwq]
      exact queueOf_busy hb
    have hall : (v.wakeup lock.waitQ true).waiting lock.waitQ = some [] :=
      View.waiting_wakeupAll (hown.alloc _ _ hqs)
    rcases hk with rfl | ⟨c, q, rfl, hc⟩
    · simpa [seqStep, seqOp, hb, hwq] using hall
    · have hne : lock.waitQ ≠ q := by
        rintro rfl
        cases hown.unique _ _ _ hqs (queueOf_cv hc)
      simp only [seqStep, seqOp, hc, hb, hwq]
      rw [View.waiting_sleep hne, hall]

/-- Thread `i` waits in the queue at `q`. -/
def Sched.Waits (s : Sched) (i q : ℕ) : Prop :=
  ∃ w ts, s.waitQueues q = some w ∧ Chain s.next w.head ts ∧ i ∈ ts

theorem waits_iff (h : Represents full s v) :
    s.Waits i q ↔ ∃ ts, v.waiting q = some ts ∧ i ∈ ts := by
  constructor
  · rintro ⟨w, ts, hw, hc, hi⟩
    obtain ⟨ts', hts, hq⟩ := h.queue hw
    obtain rfl := hq.chain.unique hc
    exact ⟨ts', hts, hi⟩
  · rintro ⟨ts, hts, hi⟩
    have := h.alloc q
    rw [hts] at this
    obtain ⟨w, hw⟩ := Option.isSome_iff_exists.1 this
    exact ⟨w, ts, hw, (h.waiting q w ts hw hts).chain, hi⟩

/-- A step in which bare wait queue operations leave the owned queues alone. -/
def foreignStep (s : Sched) (k : Label) (t : Sched) : Prop := Foreign s k ∧ step s k t

theorem owned_init : Owned (threadInit enabled) View.init where
  alloc o q h := by cases o <;> simp [Sched.queueOf, threadInit] at h
  unique o o' q h := by cases o <;> simp [Sched.queueOf, threadInit] at h

/-- What holds of the owned queues in every state of every run. -/
theorem run_owned (hr : Run foreignStep (threadInit enabled) ls t) :
    ∃ v, Represents False t v ∧ Owned t v ∧ FreeEmpty t v := by
  apply run_inv (I := fun s => ∃ v, Represents False s v ∧ Owned s v ∧ FreeEmpty s v) _ hr
  · refine ⟨View.init, (rep_iff.1 (init_rep enabled)).weaken, owned_init, ?_⟩
    intro l lock hl
    simp [threadInit] at hl
  · intro s k t h hs
    obtain ⟨v, hv, hown, hfe⟩ := h
    have he := step_effect hv hs.2
    exact ⟨_, represents_step hv False.elim hs.2, owned_step hv hown he hs.1,
      freeEmpty_step hv hown hfe he hs.1⟩

/-- **No lost wake-up.** In every run no thread waits for a lock that is available, and
`lock_destroy` leaves every waiting thread where it waits. -/
theorem no_lost_wakeup (hr : Run foreignStep (threadInit enabled) ls t) :
    (∀ l lock, t.locks l = some lock → lock.available = true → ∀ i, ¬t.Waits i lock.waitQ) ∧
    ∀ l u, step t (.call (.lockDestroy l)) u → ∀ i q, t.Waits i q → u.Waits i q := by
  obtain ⟨v, hv, hown, hfe⟩ := run_owned hr
  refine ⟨fun l lock hl ha i hi => ?_, fun l u hu i q hi => ?_⟩
  · obtain ⟨ts, hts, hmem⟩ := (waits_iff hv).1 hi
    rw [hfe l lock hl ha] at hts
    obtain rfl := Option.some.inj hts
    simp at hmem
  · obtain ⟨ts, hts, hmem⟩ := (waits_iff hv).1 hi
    refine (waits_iff (represents_step hv False.elim hu)).2 ⟨ts, ?_, hmem⟩
    cases hl : t.locks l with
    | none => simpa [seqStep, seqOp, hl] using hts
    | some lock => cases ha : lock.available with
      | false => simpa [seqStep, seqOp, hl, ha] using hts
      | true =>
        have hne : q ≠ lock.waitQ := by
          rintro rfl
          rw [hfe l lock hl ha] at hts
          obtain rfl := Option.some.inj hts
          simp at hmem
        simpa [seqStep, seqOp, hl, ha, View.setQueue, hne] using hts

/-- Thread 1 takes the lock and is preempted; thread 0 asks for it and sleeps in its queue;
thread 1 releases it. -/
def waitRun : List Label :=
  [.call (.create (some 7)), .call (.lockCreate 3 4), .preempt, .resume, .call (.lockAcquire 3),
    .resume, .preempt, .resume, .resume, .call (.lockAcquire 3), .resume, .resume, .resume,
    .call (.lockRelease 3)]

theorem waitRun_available : (runAll (fun s k => k.next s) (threadInit true) waitRun).any
    (fun s => s.locks 3 = some ⟨4, true⟩) = true := by decide +kernel

theorem no_lost_wakeup_sample : ∃ t, Run foreignStep (threadInit true) waitRun t ∧
    t.locks 3 = some ⟨4, true⟩ ∧ ∀ i, ¬t.Waits i 4 := by
  obtain ⟨t, hr, ht⟩ := runAll_any _ _ _ _ waitRun_available
  have hall : ∀ k ∈ waitRun, ∀ s, Foreign s k := by simp [waitRun, Foreign]
  have hrun : Run foreignStep (threadInit true) waitRun t :=
    (hr.guard hall).mono fun _ _ _ h => ⟨h.1, step_next h.2⟩
  have hl : t.locks 3 = some ⟨4, true⟩ := of_decide_eq_true ht
  exact ⟨t, hrun, hl, (no_lost_wakeup hrun).1 3 ⟨4, true⟩ hl rfl⟩

end OSLab.Threads
