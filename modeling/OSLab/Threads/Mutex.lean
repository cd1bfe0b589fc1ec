import OSLab.Threads.Control
import Mathlib.Data.Finset.Basic

/-!
# Mutual exclusion

The lock records only whether it is available. `holders` keeps, beside a run, the threads
that have returned from `lock_acquire` or `cv_wait` on each lock and have not released it.

* `exclusive_iff`: a step keeps "each lock held by one thread at most, and not available
  while it is held" exactly when it is not a `lock_release` or a `cv_wait` on a lock that
  another thread holds, nor a `cv_wait` on an available lock (`Proper`).
* `mutual_exclusion`: so it holds in every state of every run of such steps.
-/

namespace OSLab.Threads

open Prog

variable {s t : Sched} {v : View} {full : Prop} {k : Label} {R : Rest} {l : ℕ}
  {ls : List Label} {enabled : Bool}

/-- Who holds each lock. -/
abbrev Holders : Type := ℕ → Finset ℕ

/-- The holders after a step: a `cv_wait` that finds the lock available returns at once, and
a thread that ends holds nothing. -/
def holders (s : Sched) (k : Label) (t : Sched) (H : Holders) : Holders :=
  match k with
  | .call (.lockRelease l) => Function.update H l ((H l).erase s.currentThreadId)
  | .call (.cvWait _ l) =>
    if s.lockBusy l = none then Function.update H l (insert s.currentThreadId (H l))
    else Function.update H l ((H l).erase s.currentThreadId)
  | .call .exit | .call (.kill _) => fun l => (H l).filter fun i => t.isValid i = true
  | .resume => match s.frames with
    | .acquireLoop l _ :: _ =>
      if s.lockBusy l = none then Function.update H l (insert s.currentThreadId (H l)) else H
    | _ => H
  | _ => H

/-- A lock is given up by nobody but its holder. -/
def Proper (s : Sched) (H : Holders) : Label → Prop
  | .call (.lockRelease l) => ∀ i ∈ H l, i = s.currentThreadId
  | .call (.cvWait _ l) => s.lockBusy l ≠ none ∧ ∀ i ∈ H l, i = s.currentThreadId
  | _ => True

instance (s : Sched) (H : Holders) : (k : Label) → Decidable (Proper s H k)
  | .call (.lockRelease l) => inferInstanceAs (Decidable (∀ i ∈ H l, i = s.currentThreadId))
  | .call (.cvWait _ l) =>
    inferInstanceAs (Decidable (s.lockBusy l ≠ none ∧ ∀ i ∈ H l, i = s.currentThreadId))
  | .preempt | .resume | .call .id | .call (.create _) | .call (.yield _) | .call .exit
  | .call (.kill _) | .call (.queueCreate _) | .call (.queueDestroy _) | .call (.sleep _)
  | .call (.wakeup _ _) | .call (.lockCreate _ _) | .call (.lockDestroy _)
  | .call (.lockAcquire _) | .call (.cvCreate _ _) | .call (.cvDestroy _)
  | .call (.cvSignal _ _) | .call (.cvBroadcast _ _) | .call (.setInterrupts _) => isTrue trivial

/-- Each lock has one holder at most, and is taken while it has one. -/
def Exclusive (s : Sched) (H : Holders) : Prop :=
  ∀ l i, i ∈ H l → (∃ lock, s.locks l = some lock ∧ lock.available = false) ∧ ∀ j ∈ H l, j = i

/-- Fewer holders, of locks that did not change. -/
theorem Exclusive.sub {H H' : Holders} (h : Exclusive s H) (hsub : ∀ l, H' l ⊆ H l)
    (hl : ∀ l i, i ∈ H' l → t.locks l = s.locks l) : Exclusive t H' := by
  intro l i hi
  obtain ⟨hbusy, hone⟩ := h l i (hsub l hi)
  refine ⟨?_, fun j hj => hone j (hsub l hj)⟩
  rw [hl l i hi]
  exact hbusy

/-- Nobody holds a lock that is available or not there. -/
theorem Exclusive.free {H : Holders} (h : Exclusive s H) (hl : s.lockBusy l = none) :
    H l = ∅ := by
  refine Finset.eq_empty_of_forall_notMem fun i hi => ?_
  obtain ⟨⟨lock, hlock, ha⟩, -⟩ := h l i hi
  rw [lockBusy_of_busy hlock ha] at hl
  simp at hl

theorem lockBusy_available {lock : Lock} (hl : s.locks l = some lock)
    (ha : lock.available = true) : s.lockBusy l = none := lockBusy_of_free hl (by simp [ha])

theorem update_erase_sub (H : Holders) (l i l' : ℕ) :
    Function.update H l ((H l).erase i) l' ⊆ H l' := by
  by_cases e : l' = l
  · subst e
    rw [Function.update_self]
    exact Finset.erase_subset _ _
  · rw [Function.update_of_ne e]

/-- The holder of a lock gives it up: nobody holds it. -/
theorem Exclusive.release {H : Holders} (h : Exclusive s H) {o : Option Lock}
    (hl : t.locks = Function.update s.locks l o) (hp : ∀ i ∈ H l, i = s.currentThreadId) :
    Exclusive t (Function.update H l ((H l).erase s.currentThreadId)) := by
  refine h.sub (update_erase_sub H l _) fun l' i hi => ?_
  have hne : l' ≠ l := by
    rintro rfl
    rw [Function.update_self, Finset.mem_erase] at hi
    exact hi.1 (hp i hi.2)
  rw [hl, Function.update_of_ne hne]

/-- A free lock is taken: its taker is the only holder. -/
theorem Exclusive.acquire {H : Holders} (h : Exclusive s H) {lock : Lock}
    (hf : s.lockBusy l = none) (hl : t.locks = Function.update s.locks l (some lock))
    (ha : lock.available = false) (i : ℕ) :
    Exclusive t (Function.update H l (insert i (H l))) := by
  intro l' j hj
  by_cases e : l' = l
  · subst e
    rw [Function.update_self, h.free hf] at *
    obtain rfl : j = i := by simpa using hj
    rw [hl, Function.update_self]
    exact ⟨⟨lock, rfl, ha⟩, by simp⟩
  · rw [Function.update_of_ne e] at *
    rw [hl, Function.update_of_ne e]
    exact h l' j hj

/-- **A proper step keeps exclusion.** -/
theorem exclusive_step {H : Holders} (h : Exclusive s H) (he : Effect s k t.rest)
    (hp : Proper s H k) : Exclusive t (holders s k t H) := by
  obtain ⟨R, hR⟩ : ∃ R, R = t.rest := ⟨_, rfl⟩
  rw [← hR] at he
  have hlocks : t.locks = R.locks := by rw [hR]; rfl
  -- most steps leave the locks as they are; a step that ends a thread drops it as a holder
  have hsame : R.locks = s.locks → Exclusive t H := fun hr =>
    h.sub (fun l => Finset.Subset.refl _) fun l i _ => by rw [hlocks, hr]
  have hends : R.locks = s.locks → Exclusive t fun l => (H l).filter fun i => t.isValid i = true :=
    fun hr => h.sub (fun l => Finset.filter_subset _ _) fun l i _ => by rw [hlocks, hr]
  cases he with
  | @idle op hi =>
    cases op with
    | lockRelease l =>
      exact h.sub (update_erase_sub H l _) fun l i _ => by rw [hlocks]; rfl
    | cvWait c l => exact absurd hi hp.1
    | exit => exact hi.elim
    | kill tid => exact hends rfl
    | _ => exact hsame rfl
  | exitStays => exact hends rfl
  | exits hr => exact hends rfl
  | @kills i hk =>
    refine hends ?_
    unfold Rest.reap
    split <;> rfl
  | @lockCreates l q hl hq =>
    refine h.sub (fun l => Finset.Subset.refl _) fun l' i hi => ?_
    have hne : l' ≠ l := by
      rintro rfl
      obtain ⟨⟨lock, hlock, -⟩, -⟩ := h l' i hi
      -- nobody holds a lock that is not there
      exact absurd (hl.symm.trans hlock) (by simp)
    rw [hlocks]
    exact Function.update_of_ne hne _ _
  | @lockDestroys l lock hl ha =>
    refine h.sub (fun l => Finset.Subset.refl _) fun l' i hi => ?_
    have hne : l' ≠ l := by
      rintro rfl
      have hi' : i ∈ H l' := hi
      -- nobody holds a lock that is free
      rw [h.free (lockBusy_available hl ha)] at hi'
      simp at hi'
    rw [hlocks]
    exact Function.update_of_ne hne _ _
  | lockReleases hl => exact h.release hlocks hp
  | @cvWaitStays c l q lock hc hl =>
    simp only [holders, hl, reduceCtorEq, if_false]
    exact h.release hlocks hp.2
  | @cvWaits c l q p lock hc hl hr =>
    simp only [holders, hl, reduceCtorEq, if_false]
    exact h.release hlocks hp.2
  | @finishes f fs hf hfin =>
    cases f with
    | acquireLoop l e => exact hfin.elim
    | _ => simpa only [holders, hf] using hsame rfl
  | @acquires l e fs lock hf hl ha =>
    have hb := lockBusy_available hl ha
    simp only [holders, hf, hb, if_true]
    exact h.acquire hb hlocks rfl _
  | @acquireStays l e fs lock hf hl =>
    simpa only [holders, hf, hl, reduceCtorEq, if_false] using hsame rfl
  | @acquireSleeps l p e fs lock hf hl hr =>
    simpa only [holders, hf, hl, reduceCtorEq, if_false] using hsame rfl
  | reacquires hf => simpa only [holders, hf] using hsame rfl
  | _ => exact hsame rfl

/-- A lock that is released is not taken. -/
theorem not_taken {lock : Lock} (hl : t.locks = Function.update s.locks l (some lock))
    (ha : lock.available = true) :
    ¬∃ lock, t.locks l = some lock ∧ lock.available = false := by
  rintro ⟨lock', hlock, ha'⟩
  rw [hl, Function.update_self] at hlock
  obtain rfl := Option.some.inj hlock
  simp [ha] at ha'

/-- **Exclusion is kept by the proper steps and by no others.** -/
theorem exclusive_iff {H : Holders} (h : Exclusive s H) (he : Effect s k t.rest) :
    Exclusive t (holders s k t H) ↔ Proper s H k := by
  refine ⟨fun ht => ?_, exclusive_step h he⟩
  obtain ⟨R, hR⟩ : ∃ R, R = t.rest := ⟨_, rfl⟩
  rw [← hR] at he
  have hlocks : t.locks = R.locks := by rw [hR]; rfl
  -- a holder other than the caller survives a release, so its lock must still be taken
  have hother : ∀ {l i lock}, s.lockBusy l = some lock →
      t.locks = Function.update s.locks l (some { lock with available := true }) →
      Exclusive t (Function.update H l ((H l).erase s.currentThreadId)) → i ∈ H l →
      i = s.currentThreadId := by
    intro l i lock hl hup hx hi
    by_contra hne
    refine not_taken hup rfl (hx l i ?_).1
    rw [Function.update_self]
    exact Finset.mem_erase.2 ⟨hne, hi⟩
  cases he with
  | @idle op hop =>
    cases op with
    | lockRelease l =>
      intro i hi
      rw [h.free hop] at hi
      simp at hi
    | cvWait c l =>
      have hb : s.lockBusy l = none := hop
      simp only [holders, hb, if_true] at ht
      obtain ⟨⟨lock, hlock, ha⟩, -⟩ := ht l s.currentThreadId (by simp)
      rw [hlocks] at hlock
      rw [lockBusy_of_busy hlock ha] at hb
      simp at hb
    | _ => trivial
  | lockReleases hl => exact fun i hi => hother hl hlocks ht hi
  | cvWaitStays hc hl =>
    simp only [holders, hl, reduceCtorEq, if_false] at ht
    exact ⟨by simp [hl], fun i hi => hother hl hlocks ht hi⟩
  | cvWaits hc hl hr =>
    simp only [holders, hl, reduceCtorEq, if_false] at ht
    exact ⟨by simp [hl], fun i hi => hother hl hlocks ht hi⟩
  | _ => trivial

/-- A step that gives up a lock only from its holder. -/
def properStep (p : Sched × Holders) (k : Label) (q : Sched × Holders) : Prop :=
  Proper p.1 p.2 k ∧ watch holders p k q

/-- **Mutual exclusion.** In every run in which each lock is given up only by its holder,
whatever else the threads do and wherever they are preempted, each lock has one holder at
most, and is not available while it has one. -/
theorem mutual_exclusion {H : Holders}
    (hr : Run properStep (threadInit enabled, fun _ => ∅) ls (t, H)) :
    ∀ l i, i ∈ H l → (∃ lock, t.locks l = some lock ∧ lock.available = false) ∧
      ∀ j ∈ H l, j = i := by
  refine (run_watched (I := fun p => Exclusive p.1 p.2) hr ?_ ?_).1
  · intro l i hi
    exact absurd hi (by simp)
  · intro p k q v hx hv hs
    obtain ⟨hp, hstep, hH⟩ := hs
    refine ⟨hstep, ?_⟩
    rw [hH]
    exact exclusive_step hx (step_effect hv hstep) hp

/-- Thread 1 takes the lock and is preempted; thread 0 asks for it and sleeps; thread 1
releases it and yields, and thread 0 has it. -/
def lockRun : List Label :=
  [.call (.create (some 7)), .call (.lockCreate 3 4), .preempt, .resume, .call (.lockAcquire 3),
    .resume, .preempt, .resume, .resume, .call (.lockAcquire 3), .resume, .resume, .resume,
    .call (.lockRelease 3), .call (.yield threadAny), .resume, .resume]

theorem lockRun_holder : (runAll (fun p k => if Proper p.1 p.2 k then watchNext holders p k else none)
    (threadInit true, fun _ => ∅) lockRun).any (fun q => 0 ∈ q.2 3) = true := by
  decide +kernel

theorem mutual_exclusion_sample : ∃ t H,
    Run properStep (threadInit true, fun _ => ∅) lockRun (t, H) ∧ H 3 = {0} ∧
      ∃ lock, t.locks 3 = some lock ∧ lock.available = false := by
  obtain ⟨⟨t, H⟩, hr, h0⟩ := runAll_any _ _ _ _ lockRun_holder
  have hrun : Run properStep (threadInit true, fun _ => ∅) lockRun (t, H) := by
    refine hr.mono fun p k q h => ?_
    split at h
    · rename_i hp
      exact ⟨hp, watch_next h⟩
    · simp at h
  obtain ⟨hlock, hone⟩ := mutual_exclusion hrun 3 0 (of_decide_eq_true h0)
  refine ⟨t, H, hrun, ?_, hlock⟩
  exact Finset.eq_singleton_iff_unique_mem.2 ⟨of_decide_eq_true h0, hone⟩

/-- Thread 1 has the lock when thread 0 releases it and takes it. -/
def stealRun : List Label :=
  [.call (.create (some 7)), .call (.lockCreate 3 4), .preempt, .resume, .call (.lockAcquire 3),
    .resume, .preempt, .resume, .resume, .call (.lockRelease 3), .call (.lockAcquire 3), .resume]

theorem stealRun_holders : (runAll (watchNext holders) (threadInit true, fun _ => ∅) stealRun).any
    (fun q => decide (0 ∈ q.2 3 ∧ 1 ∈ q.2 3)) = true := by decide +kernel

/-- Two threads that have returned from `lock_acquire` and have not released the lock. -/
theorem two_holders : ¬∀ (enabled : Bool) (ls : List Label) (t : Sched) (H : Holders),
    Run (watch holders) (threadInit enabled, fun _ => ∅) ls (t, H) →
    ∀ l i, i ∈ H l → ∀ j ∈ H l, j = i := by
  intro h
  obtain ⟨⟨t, H⟩, hr, hH⟩ := watch_any _ _ _ stealRun_holders
  obtain ⟨h0, h1⟩ := of_decide_eq_true hH
  exact absurd (h true stealRun t H hr 3 0 h0 1 h1) (by simp)

end OSLab.Threads
