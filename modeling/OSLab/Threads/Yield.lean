import OSLab.Threads.Returns

/-!
# What `thread_yield` does for every argument

`YieldContract s v wantTid` is the contract of a call of `thread_yield(wantTid)` in state `s`,
whose queues are `v`: who runs, how the queues change, and what the call returns, also when it
returns after other threads have run.

* `threadYield_returns`: which calls return at once, and with which value.
* `switches_result`: a caller that was switched away from gets the identifier of the thread
  that ran when it runs again.
* `yieldContract_iff`: the contract holds in every state of every run for every argument but
  `THREAD_MAX_THREADS`. The range check lets that one through to `TCB[1024]`.
-/

namespace OSLab.Threads

open Prog

variable {s t u : Sched} {v : View} {full : Prop} {i p c : ℕ} {ls : List Label} {enabled enable : Bool}
  {tid : ℤ}

/-- The call returns `code` to its caller. No queue and no thread has changed; all that was
done is the free that every `thread_yield` does for the last thread that exited. -/
def Stays (s : Sched) (code : ℤ) (o : Outcome) (t : Sched) : Prop :=
  o = .returned code ∧ t = s.freed

/-- Thread `p` runs in place of the caller, which is now last in the ready queue. When the
caller runs again, its call returns `p`, with the signal mask as it was. -/
structure Switches (s : Sched) (v : View) (p : ℕ) (o : Outcome) (t : Sched) : Prop where
  pending : o = .pending
  queues : Represents False t
    { v with running := p, ready := v.ready.erase p ++ [v.running] }
  result : ∀ ks u, Run (Away s.currentThreadId) t ks u →
    u.currentThreadId = s.currentThreadId →
    ∃ w, step u .resume w ∧ w.ret = p ∧ w.currentThreadId = s.currentThreadId ∧
      w.frames = s.frames ∧ w.interrupts = s.interrupts

/-- The contract of `thread_yield(wantTid)`: the call does not abort, and does this. -/
def YieldContract (s : Sched) (v : View) (wantTid : ℤ) : Prop :=
  ∃ o t, threadYield wantTid s = some (o, t) ∧
    if wantTid = threadSelf ∨ wantTid = s.currentThreadId then Stays s s.currentThreadId o t
    else if wantTid = threadAny then
      match v.ready with
      | [] => Stays s threadNone o t
      | p :: _ => Switches s v p o t
    else if 0 ≤ wantTid ∧ wantTid.toNat ∈ v.ready then Switches s v wantTid.toNat o t
    else ∃ code, code < 0 ∧ Stays s code o t

/-! ### Which calls return at once -/

theorem readyAppend_returns {y : ℕ} (h : s.readyQ.tail = some y) :
    wp False (readyAppend i) (fun _ t => t.readyQ.head = s.readyQ.head) s := by
  simp only [readyAppend, deref, h, wp_bind, wp_getState, wp_modify, wp_pure]
  simp

theorem yieldAny_pending (h : Represents full s v) {r : List ℕ} (hr : v.ready = p :: r) :
    wp False (yieldAny enable) (fun o _ => o = .pending) s := by
  have hh := h.head_cons hr
  obtain ⟨y, hy, -⟩ := h.last hr
  simp only [yieldAny, wp_bind, wp_getState, hh, wp_modify]
  refine wp_mono (readyAppend_returns (y := y) ?_) fun _ s₁ h₁ => ?_
  · simpa using hy
  have hh₁ : s₁.readyQ.head = some p := by simpa [hh] using h₁
  simp only [readyPop, deref, hh₁, wp_bind, wp_getState, wp_modify, wp_pure, setcontext]

/-- `thread_yield(tid)` for an identifier: it switches to a ready thread, and every other value
below the bound returns an error at once. -/
theorem yieldTo_returns (h : Represents full s v) (hb : tid ≠ threadMaxThreads) :
    wp False (yieldTo tid enable) (fun o t =>
      if 0 ≤ tid ∧ tid.toNat ∈ v.ready then o = .pending
      else ∃ code, code < 0 ∧ o = .returned code ∧ t = s.setInterrupts enable) s := by
  have herr : ¬(0 ≤ tid ∧ tid.toNat ∈ v.ready) → ∀ code : ℤ, code < 0 →
      wp False (finish enable code) (fun o t =>
        if 0 ≤ tid ∧ tid.toNat ∈ v.ready then o = .pending
        else ∃ code, code < 0 ∧ o = .returned code ∧ t = s.setInterrupts enable) s := by
    intro hn code hc
    rw [wp_finish, if_neg hn]
    exact ⟨code, hc, rfl, rfl⟩
  have hvalid : ∀ j ∈ v.ready, j < threadMaxThreads ∧ s.isValid j = true := by
    intro j hj
    exact h.valid j (Represents.holds_ready hj)
  simp only [yieldTo, wp_bind, wp_getState, wp_ite, wp_require]
  refine ⟨fun hout => ?_, fun hin => ⟨fun hlt => ⟨fun hinv => ?_, fun _ => ?_⟩, fun hge => ?_⟩⟩
  · apply herr _ threadInvalid (by decide)
    intro hm
    have := (hvalid _ hm.2).1
    omega
  · apply herr _ threadInvalid (by decide)
    intro hm
    rw [(hvalid _ hm.2).2] at hinv
    simp at hinv
  · rcases findThread_chain tid none h.ready.chain
        (fun j hj => h.index j (Represents.holds_ready hj))
        (h.length_lt (fun j hj => Represents.holds_ready hj) h.ready_nodup) with
      ⟨l₁, j, l₂, hl, rfl, hfind⟩ | ⟨hno, hfind⟩
    · -- the thread is in the ready queue
      refine wp_reads _ hfind ?_
      have hj : j ∈ v.ready := by simp [hl]
      obtain ⟨x, r, hr⟩ : ∃ x r, v.ready = x :: r := by cases l₁ <;> simp [hl]
      obtain ⟨y, hy, -⟩ := h.last hr
      have hh := h.head_cons hr
      simp only [wp_bind, wp_modify]
      refine wp_mono (readyAppend_returns (y := y) ?_) fun _ s₁ h₁ => ?_
      · simpa using hy
      refine wp_mono (readyUnlink_returns (x := x) _ ?_) fun _ s₂ _ => ?_
      · simpa [hh] using h₁
      simp only [setcontext, wp_bind, wp_modify, wp_pure, Int.toNat_natCast, hj, and_true]
      rw [if_pos (by omega)]
      trivial
    · -- it is not, and the queue may be empty
      refine wp_reads _ hfind ?_
      have hn : ¬(0 ≤ tid ∧ tid.toNat ∈ v.ready) := fun hm => hno _ hm.2 (by omega)
      by_cases hd : s.readyQ.head = none
      · simp only [hd, if_true]
        exact herr hn threadNone (by decide)
      · simp only [hd, if_false]
        exact herr hn threadInvalid (by decide)
  · omega

/-- **Which calls of `thread_yield` return at once, and with which value.** -/
theorem threadYield_returns (h : Sound s v) (hb : tid ≠ threadMaxThreads) :
    wp False (threadYield tid) (fun o t =>
      if tid = threadSelf ∨ tid = s.currentThreadId then
        Stays s s.currentThreadId o t
      else if tid = threadAny then
        match v.ready with
        | [] => Stays s threadNone o t
        | _ :: _ => o = .pending
      else if 0 ≤ tid ∧ tid.toNat ∈ v.ready then o = .pending
      else ∃ code, code < 0 ∧ Stays s code o t) s := by
  have hfreed : Represents False (s.setInterrupts false).freed v :=
    (h.rep.same (same_setInterrupts s false)).same ⟨rfl, rfl, rfl, rfl, rfl, rfl⟩
  simp only [threadYield, wp_bind, wp_interruptsSet]
  have hown : StacksOwned (s.setInterrupts false).rest := h.owned.congr rfl rfl rfl rfl
  refine wp_mono (freePending_returns hown) fun _ s₁ h₁ => ?_
  subst h₁
  have hcur : (s.setInterrupts false).freed.currentThreadId = s.currentThreadId := rfl
  rw [wp_getState, hcur]
  by_cases hself : tid = threadSelf ∨ tid = s.currentThreadId
  · simp only [if_pos hself, wp_finish]
    exact ⟨rfl, rfl⟩
  simp only [if_neg hself]
  by_cases hany : tid = threadAny
  · simp only [if_pos hany]
    cases hr : v.ready with
    | nil =>
      simp only [yieldAny, wp_bind, wp_getState, hfreed.head_nil hr, wp_finish]
      exact ⟨rfl, rfl⟩
    | cons p r => exact yieldAny_pending hfreed hr
  · simp only [if_neg hany]
    exact yieldTo_returns hfreed hb

/-! ### The result of a call that was switched away from -/

/-- **The caller gets the thread that ran.** Its call is suspended in its own context, which
nobody touches before it runs again. -/
theorem switches_result {f : Frame} {fs : List Frame} {m : Bool} (ht : Represents False t v)
    (hp : t.index p = p) (hf : f = .returnIndex p m ∨ f = .returnTid p m)
    (hctl : (t.rest.control c).frames = f :: fs) {ks : List Label} (hr : Run (Away c) t ks u)
    (hu : u.currentThreadId = c) :
    ∃ w, step u .resume w ∧ w.ret = p ∧ w.currentThreadId = c ∧ w.frames = fs ∧
      w.interrupts = m := by
  obtain ⟨hsame, hidx, -, -⟩ := away_control hr ht
  have hframes : u.frames = f :: fs := by
    have hown : u.rest.control c = ⟨u.frames, u.interrupts⟩ := by
      rw [← hu]
      exact control_current (R := u.rest)
    rw [← hsame, hown] at hctl
    exact hctl
  have hi : u.index p = p := hidx p hp
  have hrun : f.run u = some (.returned p, (u.setFrames fs).setInterrupts m) := by
    rcases hf with rfl | rfl
    · show some (Outcome.returned (u.index p : ℕ), (u.setFrames u.frames.tail).setInterrupts m) = _
      rw [hi, hframes]
      rfl
    · show some (Outcome.returned (p : ℤ), (u.setFrames u.frames.tail).setInterrupts m) = _
      rw [hframes]
      rfl
  have hlabel : Label.resume.run u = f.run u := by
    unfold Label.run
    rw [hframes]
  exact ⟨_, ⟨_, _, hlabel.trans hrun, rfl⟩, rfl, hu, rfl, rfl⟩

/-- A call that switches hands over to `p` as the contract says. -/
theorem threadYield_switches (h : Sound s v) (hp : p ∈ v.ready)
    (hview : (if tid = threadAny then v.yieldAny else if tid < 0 then v else v.yieldTo tid.toNat) =
      { v with running := p, ready := v.ready.erase p ++ [v.running] })
    (hrun : threadYield tid s = some (.pending, t)) : Switches s v p .pending t := by
  have hrep : Represents False t { v with running := p, ready := v.ready.erase p ++ [v.running] } := by
    have := (threadYield_ok h.rep tid).of_run hrun
    rwa [hview] at this
  refine ⟨rfl, hrep, fun ks u hr hc => ?_⟩
  rcases (threadYield_rest h.rep tid).of_run hrun with ⟨a, ho, -⟩ | ⟨f, q, -, hf, hq, hrest⟩
  · simp at ho
  -- the thread that `threadYield_rest` names is the one that now runs
  obtain rfl : q = p := by
    have : t.rest.current = q := by rw [hrest]; rfl
    exact this.symm.trans hrep.running
  have hctl : (t.rest.control s.currentThreadId).frames = f :: s.frames := by
    have hne : s.currentThreadId ≠ t.rest.current := by
      rw [hrest]
      exact hq.1.symm
    rw [control_other hne, hrest]
    show (Function.update s.context s.currentThreadId ⟨f :: s.frames, false⟩ _).frames = _
    rw [Function.update_self]
  have hidx : t.index q = q := by
    have hi : t.rest.index = s.index := by rw [hrest]; rfl
    have hi' : t.index = s.index := hi
    rw [hi']
    exact h.rep.index q (Represents.holds_ready hp)
  exact switches_result hrep hidx hf hctl hr hc

/-- The argument `THREAD_MAX_THREADS` is used as an index into the table. -/
theorem threadYield_beyond (h : Represents full s v) : threadYield threadMaxThreads s = none := by
  cases hr : threadYield threadMaxThreads s with
  | none => rfl
  | some r =>
    exfalso
    have hcur := (h.valid _ Represents.holds_running).1
    have hne : ¬((threadMaxThreads : ℤ) = threadSelf ∨
        (threadMaxThreads : ℤ) = s.currentThreadId) := by
      rw [h.running]
      unfold threadSelf
      omega
    have hbad : wp True (threadYield threadMaxThreads) (fun _ _ => False) s := by
      simp only [threadYield, wp_bind, wp_interruptsSet]
      refine prefix_rest h fun s₁ _ h₁ => ?_
      have hc : s₁.currentThreadId = s.currentThreadId := congrArg Rest.current h₁
      rw [wp_getState, hc, if_neg hne, if_neg (by decide)]
      simp only [yieldTo, wp_bind, wp_getState]
      rw [if_neg (by omega)]
      simp only [wp_bind, wp_require]
      refine ⟨fun hlt => ?_, fun _ => trivial⟩
      omega
    exact hbad.of_run hr

/-- **`thread_yield` meets its contract for every argument but one.** In every state of every
run the call returns or switches as the contract says for every `int` other than
`THREAD_MAX_THREADS`. -/
theorem yieldContract_iff (hr : Run step (threadInit enabled) ls s) :
    ∃ v, Represents False s v ∧ ∀ wantTid : ℤ,
      YieldContract s v wantTid ↔ wantTid ≠ threadMaxThreads := by
  obtain ⟨v, h⟩ := run_sound hr
  refine ⟨v, h.rep, fun tid => ⟨?_, fun hb => ?_⟩⟩
  · rintro ⟨o, t, hrun, -⟩ rfl
    rw [threadYield_beyond h.rep] at hrun
    simp at hrun
  obtain ⟨o, t, hrun, hout⟩ := (threadYield_returns h hb).returns
  refine ⟨o, t, hrun, ?_⟩
  by_cases hself : tid = threadSelf ∨ tid = s.currentThreadId
  · simpa only [if_pos hself] using hout
  simp only [if_neg hself] at hout ⊢
  by_cases hany : tid = threadAny
  · simp only [if_pos hany] at hout ⊢
    cases hready : v.ready with
    | nil => simpa only [hready] using hout
    | cons p r =>
      simp only [hready] at hout
      subst hout
      apply threadYield_switches h (by simp [hready]) _ hrun
      rw [if_pos hany, View.yieldAny_cons hready, hready, List.erase_cons_head]
  simp only [if_neg hany] at hout ⊢
  by_cases hm : 0 ≤ tid ∧ tid.toNat ∈ v.ready
  · simp only [if_pos hm] at hout ⊢
    subst hout
    apply threadYield_switches h hm.2 _ hrun
    rw [if_neg hany, if_neg (by omega), View.yieldTo_mem hm.2]
  · simpa only [if_neg hm] using hout

/-- Thread 0 creates threads 1 and 2 and yields to thread 2, which enters its main function. -/
def yieldRun : List Label :=
  [.call (.create (some 7)), .call (.create (some 8)), .call (.yield 2), .resume]

theorem yieldRun_returns : (exec (threadInit true) yieldRun).isSome = true := by decide +kernel

theorem yieldContract_sample : ∃ s v, Run step (threadInit true) yieldRun s ∧
    Represents False s v ∧ ∀ wantTid : ℤ, YieldContract s v wantTid ↔ wantTid ≠ threadMaxThreads := by
  obtain ⟨s, hs⟩ := Option.isSome_iff_exists.1 yieldRun_returns
  have hall : ∀ k ∈ yieldRun, ∀ s, Allowed s k := by simp [yieldRun, Allowed]
  have hr : Run step (threadInit true) yieldRun s :=
    (exec_run (.nil _) hall hs).mono fun _ _ _ h => h.2
  obtain ⟨v, hv, hc⟩ := yieldContract_iff hr
  exact ⟨s, v, hr, hv, hc⟩

/-- `thread_yield(1024)` reads `TCB[1024]`. -/
theorem yield_beyond_table : ¬∀ (enabled : Bool) (ls : List Label) (s : Sched),
    Run step (threadInit enabled) ls s →
    ∃ v, Represents False s v ∧ ∀ wantTid : ℤ, YieldContract s v wantTid := by
  intro h
  obtain ⟨v, hv, hc⟩ := h true [] _ (.nil _)
  obtain ⟨o, t, hrun, -⟩ := hc threadMaxThreads
  rw [threadYield_beyond hv] at hrun
  simp at hrun

end OSLab.Threads
