import OSLab.Threads.Create

/-!
# Which threads `thread_kill` reaches

`KillContract s v tid` is the contract of `thread_kill(tid)` in state `s`, whose queues are `v`:
any valid thread but the caller is killed, wherever it is, and every other call is refused.

* `Killed`: what is left after a thread was killed. It is on no queue, does not run again, and
  its identifier can be created again.
* `killContract_iff`: the contract holds exactly for the threads in the ready queue and the
  calls that are to be refused. A thread that sleeps is not found.
-/

namespace OSLab.Threads

open Prog

variable {s t u : Sched} {v : View} {full : Prop} {i p c : ℕ} {ls : List Label} {enabled enable : Bool}
  {tid : ℤ}

/-- `thread_kill(tid)` is to kill: `tid` is a valid thread other than the caller. -/
def Killable (s : Sched) (tid : ℤ) : Prop :=
  (0 ≤ tid ∧ tid < threadMaxThreads) ∧ s.isValid tid.toNat = true ∧ tid ≠ s.currentThreadId

/-- The queues without thread `i`. -/
def View.without (v : View) (i : ℕ) : View where
  running := v.running
  ready := v.ready.filter (· ≠ i)
  waiting q := (v.waiting q).map fun l => l.filter (· ≠ i)

/-- What is left after thread `i` was killed: the other threads are where they were. -/
structure Killed (s : Sched) (v : View) (i : ℕ) (t : Sched) : Prop where
  ret : t.ret = i
  queues : Represents False t (v.without i)
  valid : t.isValid = Function.update s.isValid i false
  context : t.context = s.context
  ended : ∀ ks u, Run (fun s k t => step s k t ∧ ¬Creates s k i) t ks u → u.currentThreadId ≠ i
  reusable : ∃ ks u, Run Creation t ks u ∧ u.ret = i ∧ u.isValid i = true

/-- The contract of `thread_kill(tid)`. -/
def KillContract (s : Sched) (v : View) (tid : ℤ) : Prop :=
  ∃ t, step s (.call (.kill tid)) t ∧
    (Killable s tid → Killed s v tid.toNat t) ∧
    (¬Killable s tid → t = { s with ret := threadInvalid })

/-- A ready thread is in the ready queue only. -/
theorem View.Apart.without_ready (h : v.Apart) (hi : i ∈ v.ready) : v.without i = v.remove i := by
  have hready : v.ready.filter (· ≠ i) = v.ready.erase i := by
    rw [(List.nodup_cons.1 h.ready).2.erase_eq_filter]
    apply List.filter_congr
    intro x _
    by_cases hx : x = i <;> simp [hx]
  have hwait : ∀ q, (v.waiting q).map (fun l => l.filter (· ≠ i)) = v.waiting q := by
    intro q
    cases hq : v.waiting q with
    | none => rfl
    | some l =>
      rw [Option.map_some, List.filter_eq_self.2]
      intro x hx
      have : x ≠ i := fun e => (h.awake q l hq x hx).2 (e ▸ hi)
      simpa using this
  unfold View.without View.remove
  rw [hready]
  congr 1
  funext q
  exact hwait q

theorem reap_returns (h : StacksOwned s.rest) (hv : s.isValid i = true) :
    wp False (reap i) (fun _ _ => True) s := by
  have hm : ((s.setValid i false).tcb i).stackMemory = s.rest.stackMemory i :=
    congrFun (congrArg Rest.stackMemory (s.rest_setValid i false)) i
  simp only [reap, wp_bind, wp_ite, wp_getState, wp_pure, wp_modify]
  refine ⟨fun _ => ?_, fun _ => trivial⟩
  rw [hm]
  apply wp_mono (freeStack_returns _)
  · intros; trivial
  · intro a ha
    exact (h.stack i a hv ha).1

/-- **`thread_kill` returns** the identifier of a ready thread, and `THREAD_INVALID` otherwise. -/
theorem threadKill_returns (h : Sound s v) (tid : ℤ) : wp False (threadKill tid) (fun o t =>
    Killable s tid ∧ tid.toNat ∈ v.ready ∧ o = .returned tid ∨
    ¬(Killable s tid ∧ tid.toNat ∈ v.ready) ∧ o = .returned threadInvalid ∧ t = s) s := by
  have hrefuse : ¬(Killable s tid ∧ tid.toNat ∈ v.ready) →
      wp False (finish s.interrupts threadInvalid) (fun o t =>
        Killable s tid ∧ tid.toNat ∈ v.ready ∧ o = .returned tid ∨
        ¬(Killable s tid ∧ tid.toNat ∈ v.ready) ∧ o = .returned threadInvalid ∧ t = s)
        (s.setInterrupts false) := by
    intro hn
    exact wp_finish.2 (Or.inr ⟨hn, rfl, rfl⟩)
  have h₁ : Represents False (s.setInterrupts false) v := h.rep.same (same_setInterrupts s false)
  simp only [threadKill, wp_bind, wp_interruptsSet, wp_getState, wp_ite]
  refine ⟨fun hbad => ?_, fun hok => ⟨fun hhead => ?_, fun hhead => ?_⟩⟩
  · apply hrefuse
    rintro ⟨⟨hrange, hv, hne⟩, -⟩
    rcases hbad with hc | hc | hc
    · exact hne hc
    · exact hc hrange
    · have hc' : s.isValid tid.toNat = false := hc
      rw [hv] at hc'
      simp at hc'
  · apply hrefuse
    rintro ⟨-, hm⟩
    rw [h.rep.ready.chain.eq_nil_iff.1 hhead] at hm
    simp at hm
  obtain ⟨x, hx⟩ := Option.ne_none_iff_exists'.1 hhead
  simp only [not_or, not_not, Bool.not_eq_false] at hok
  obtain ⟨hcur, hrange, hval⟩ := hok
  have hkill : Killable s tid := ⟨hrange, hval, hcur⟩
  rcases findThread_chain tid none h₁.ready.chain
      (fun j hj => h₁.index j (Represents.holds_ready hj))
      (h₁.length_lt (fun j hj => Represents.holds_ready hj) h₁.ready_nodup) with
    ⟨l₁, j, l₂, hl, rfl, hfind⟩ | ⟨hno, hfind⟩
  · refine wp_reads _ hfind ?_
    have hj : j ∈ v.ready := by simp [hl]
    simp only [wp_bind]
    refine wp_mono (readyUnlink_returns _ hx) ?_
    intro _ s₁ hs₁
    -- the rest of the call only needs what the unlinking keeps
    have hend : ∀ s₂ : Sched, s₂.rest = s₁.rest →
        wp False (do reap (j : ℤ).toNat; finish s.interrupts j) (fun o t =>
          Killable s j ∧ (j : ℤ).toNat ∈ v.ready ∧ o = .returned j ∨
          ¬(Killable s j ∧ (j : ℤ).toNat ∈ v.ready) ∧ o = .returned threadInvalid ∧ t = s) s₂ := by
      intro s₂ hs₂
      have hrest : s₂.rest = { s.rest with interrupts := false } := hs₂.trans hs₁
      have hown : StacksOwned s₂.rest := by
        rw [hrest]
        exact h.owned.congr rfl rfl rfl rfl
      have hv₂ : s₂.isValid j = true := by
        have : s₂.isValid = s.isValid := congrArg Rest.isValid hrest
        rw [this]
        exact hval
      rw [wp_bind]
      refine wp_mono (reap_returns hown hv₂) ?_
      intro _ s₃ _
      exact wp_finish.2 (Or.inl ⟨hkill, hj, rfl⟩)
    simp only [wp_getState, wp_ite, wp_bind, wp_modify] at hend ⊢
    refine ⟨fun _ => hend _ (by simp), fun _ => hend _ rfl⟩
  · refine wp_reads _ hfind ?_
    apply hrefuse
    rintro ⟨-, hm⟩
    have := hno _ hm
    omega

/-- The search of the ready queue finds every thread in it. -/
theorem kills_of_ready (h : Represents full s v) (hk : Killable s i) (hm : i ∈ v.ready) : s.Kills i := by
  obtain ⟨hrange, hv, hne⟩ := hk
  refine ⟨by omega, fun e => hne (by rw [e]), by simpa using hv, ?_⟩
  rcases findThread_chain i none h.ready.chain
      (fun j hj => h.index j (Represents.holds_ready hj))
      (h.length_lt (fun j hj => Represents.holds_ready hj) h.ready_nodup) with
    ⟨l₁, j, l₂, -, -, hfind⟩ | ⟨hno, -⟩
  · exact ⟨_, hfind⟩
  · exact absurd rfl (hno i hm)

/-- A ready thread that is killed is gone. -/
theorem threadKill_killed (h : Sound s v) (hu : s.frames = []) (hk : Killable s tid)
    (hm : tid.toNat ∈ v.ready) (hs : step s (.call (.kill tid)) t) (hret : t.ret = tid) :
    Killed s v tid.toNat t := by
  obtain ⟨i, rfl⟩ : ∃ i : ℕ, tid = i := ⟨tid.toNat, (Int.toNat_of_nonneg hk.1.1).symm⟩
  rw [Int.toNat_natCast] at hm ⊢
  have ht := h.step hs
  have hview : seqStep s v (.call (.kill i)) = v.without i := by
    rw [h.rep.apart.without_ready hm]
    show (if (i : ℤ) < 0 then v else v.remove (i : ℤ).toNat) = _
    rw [if_neg (by omega), Int.toNat_natCast]
  rw [hview] at ht
  have hrest : t.rest = s.rest.reap i := by
    have hkills := kills_of_ready h.rep hk hm
    have he := step_effect h.rep hs
    generalize t.rest = R at he
    generalize hj : (i : ℤ) = j at he
    cases he with
    | idle hidle => exact absurd hkills (hidle i hj.symm)
    | @kills i' _ =>
      obtain rfl : i = i' := by exact_mod_cast hj
      rfl
  have hvalid : t.isValid = Function.update s.isValid i false := by
    have : t.rest.isValid = Function.update s.isValid i false := by
      rw [hrest]
      unfold Rest.reap
      split <;> rfl
    exact this
  have hcontext : t.rest.context = s.context := by
    rw [hrest]
    unfold Rest.reap
    split <;> rfl
  have hframes : t.rest.frames = s.frames := by
    rw [hrest]
    unfold Rest.reap
    split <;> rfl
  have hfree : t.isValid i = false := by
    rw [hvalid, Function.update_self]
  refine ⟨hret, ht.rep, hvalid, hcontext, fun ks u hr => (away_invalid hr ht.rep hfree).2, ?_⟩
  apply recreated ht (hframes.trans hu)
  exact mem_unused.2 ⟨(h.rep.valid i (Represents.holds_ready hm)).1, hfree⟩

/-- **`thread_kill` kills the ready threads and no others.** In every state of every run, in
user code, a call meets the contract exactly when it is to be refused or the thread is in the
ready queue. -/
theorem killContract_iff (hr : Run step (threadInit enabled) ls s) (hu : s.frames = []) :
    ∃ v, Represents False s v ∧ ∀ tid : ℤ,
      KillContract s v tid ↔ (Killable s tid → tid.toNat ∈ v.ready) := by
  obtain ⟨v, h⟩ := run_sound hr
  refine ⟨v, h.rep, fun tid => ?_⟩
  obtain ⟨o, s', hrun, hout⟩ := (threadKill_returns h tid).returns
  rcases hout with ⟨hk, hm, rfl⟩ | ⟨hn, rfl, rfl⟩
  · have hs : step s (.call (.kill tid)) { s' with ret := tid } := step_of_returned hu hrun
    refine ⟨fun _ _ => hm, fun _ => ⟨_, hs, fun _ => ?_, fun hn => absurd hk hn⟩⟩
    exact threadKill_killed h hu hk hm hs rfl
  · have hs : step s' (.call (.kill tid)) { s' with ret := threadInvalid } :=
      step_of_returned hu hrun
    constructor
    · rintro ⟨t, ht, hkilled, -⟩ hk
      -- the call was refused, so it did not return the identifier
      have hret := (hkilled hk).ret
      rw [step_unique ht hs] at hret
      have hcode : threadInvalid = (tid.toNat : ℤ) := hret
      have hneg : threadInvalid < 0 := by decide
      omega
    · intro hready
      refine ⟨_, hs, fun hk => absurd ⟨hk, hready hk⟩ hn, fun _ => rfl⟩

/-- Thread 0 creates thread 1 and a wait queue, and thread 1 goes to sleep in it. -/
def sleeperRun : List Label :=
  [.call (.create (some 7)), .call (.queueCreate 3), .call (.yield threadAny), .resume,
    .call (.sleep (some 3)), .resume]

theorem sleeperRun_asleep : (exec (threadInit true) sleeperRun).any (fun s =>
    decide (s.frames = [] ∧ s.currentThreadId = 0 ∧ s.isValid 1 = true ∧ s.readyQ.head = none)) =
      true := by decide +kernel

theorem sleeperRun_run {s : Sched} (h : exec (threadInit true) sleeperRun = some s) :
    Run step (threadInit true) sleeperRun s := by
  have hall : ∀ k ∈ sleeperRun, ∀ s, Allowed s k := by simp [sleeperRun, Allowed]
  exact (exec_run (.nil _) hall h).mono fun _ _ _ h => h.2

theorem killContract_sample : ∃ s v, Run step (threadInit true) sleeperRun s ∧ s.frames = [] ∧
    Represents False s v ∧
      ∀ tid : ℤ, KillContract s v tid ↔ (Killable s tid → tid.toNat ∈ v.ready) := by
  obtain ⟨s, hs, hx⟩ := (Option.any_eq_true _ _).1 sleeperRun_asleep
  have hu := (of_decide_eq_true hx).1
  obtain ⟨v, hv, hc⟩ := killContract_iff (sleeperRun_run hs) hu
  exact ⟨s, v, sleeperRun_run hs, hu, hv, hc⟩

/-- A thread that sleeps is not killed. -/
theorem sleeper_survives : ¬∀ (enabled : Bool) (ls : List Label) (s : Sched),
    Run step (threadInit enabled) ls s → s.frames = [] →
    ∃ v, Represents False s v ∧ ∀ tid : ℤ, KillContract s v tid := by
  intro h
  obtain ⟨s, hs, hx⟩ := (Option.any_eq_true _ _).1 sleeperRun_asleep
  obtain ⟨hu, hcur, hv, hhead⟩ := of_decide_eq_true hx
  have hr := sleeperRun_run hs
  obtain ⟨v, -, hc⟩ := h _ _ _ hr hu
  obtain ⟨t, ht, hkilled, -⟩ := hc 1
  have hk : Killable s 1 := by
    refine ⟨by decide, hv, ?_⟩
    rw [hcur]
    decide
  have hret := (hkilled hk).ret
  -- with an empty ready queue the call returns `THREAD_INVALID`
  obtain ⟨w, hw⟩ := run_sound hr
  obtain ⟨o, s', hrun, hout⟩ := (threadKill_returns hw 1).returns
  rcases hout with ⟨-, hm, -⟩ | ⟨-, rfl, rfl⟩
  · rw [hw.rep.ready.chain.eq_nil_iff.1 hhead] at hm
    simp at hm
  · rw [step_unique ht (step_of_returned hu hrun)] at hret
    have hret' : threadInvalid = ((1 : ℤ).toNat : ℤ) := hret
    exact absurd hret' (by decide)

end OSLab.Threads
