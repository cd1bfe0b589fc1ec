import OSLab.Threads.Refine

/-!
# Waking up, and the operations built on sleeping and waking

`threadWakeup_ok`: a wake-up moves the longest sleeper, or all sleepers in order, to the
end of the ready queue, and returns how many it moved. The locks and the condition
variables only compose it with `thread_sleep`, so their effect on the queues follows.

`label_ok`: every allowed step of the system has the effect `seqStep` says.
-/

namespace OSLab.Threads

open Prog

variable {s s' : Sched} {v v' : View} {t x y q : ℕ} {l r : List ℕ} {ok full : Prop} {all : Bool}

/-- The counting loop counts the chain. -/
theorem countChain_chain {p : Option ℕ} {fuel : ℕ} (hc : Chain s.next p l) (hf : l.length < fuel) :
    countChain s fuel p = some l.length := by
  induction l generalizing p fuel with
  | nil =>
    obtain ⟨f, rfl⟩ : ∃ f, fuel = f + 1 := ⟨fuel - 1, by simp at hf; omega⟩
    obtain rfl : p = none := hc
    rfl
  | cons x r ih =>
    obtain ⟨f, rfl⟩ : ∃ f, fuel = f + 1 := ⟨fuel - 1, by simp at hf; omega⟩
    obtain rfl : p = some x := hc.1
    simp [countChain, ih hc.2 (by simpa using hf)]

/-- Clearing `next` of the last node of a chain changes nothing. -/
theorem chain_clearLast {next : ℕ → Option ℕ} {p : Option ℕ} (hc : Chain next p l)
    (hlast : l.getLast? = some t) (hnd : l.Nodup) : Chain (Function.update next t none) p l := by
  have hnil : Chain next none [] := rfl
  simpa using hc.append hnil hlast hnd (by simp)

/-- What a wake-up leaves, from what it does to the queue pointers. -/
theorem Represents.wakeup (h : Represents full s v) {w' : Queue} (hl : v.waiting q = some l)
    (hall : v.woken q all ≠ []) (hi : s'.index = s.index) (hv : s'.isValid = s.isValid)
    (hc : s'.currentThreadId = s.currentThreadId)
    (hr : IsQueue s'.next s'.readyQ (v.ready ++ v.woken q all))
    (hw : s'.waitQueues = Function.update s.waitQueues q (some w'))
    (hq : IsQueue s'.next w' (l.drop (v.woken q all).length))
    (hn : ∀ u, u ∉ v.ready → u ∉ l → u ≠ v.running → s'.next u = s.next u) :
    Represents full s' (v.wakeup q all) := by
  have hap : (v.wakeup q all).Apart := h.apart.wakeup
  have hpl : ∀ t, (v.wakeup q all).Holds t ↔ v.Holds t := fun t => View.holds_wakeup
  rw [View.wakeup_some hl] at hap hpl ⊢
  refine h.move hap hpl hi hv ?_ hr ?_ ?_ ?_
  · rw [hc]; exact h.running
  · intro e
    exact absurd (List.append_eq_nil_iff.1 e).2 hall
  · intro q'
    have := h.alloc q'
    rw [hw]
    by_cases e : q' = q <;> simp [e, this]
  · intro q' w₁ l₁ hq₁ hl₁
    rw [hw] at hq₁
    simp only at hl₁
    by_cases e : q' = q
    · subst e
      rw [Function.update_self] at hq₁ hl₁
      rw [← Option.some.inj hq₁, ← Option.some.inj hl₁]
      exact hq
    · rw [Function.update_of_ne e] at hq₁ hl₁
      refine (h.waiting q' w₁ l₁ hq₁ hl₁).congr fun u hu => ?_
      obtain ⟨h1, h2⟩ := h.apart.awake q' l₁ hl₁ u hu
      exact hn u h2 (fun hm => e (h.apart.queues q' q l₁ l hl₁ hl u hu hm)) h1

theorem wakeupAll_ok (h : Represents full s v) {w : Queue} (hw : s.waitQueues q = some w)
    (hl : v.waiting q = some (x :: l)) (enable : Bool) :
    wp ok (wakeupAll q w enable)
      (fun o s' => Represents full s' (v.wakeup q true) ∧ o = .returned (v.woken q true).length) s := by
  have hq := h.waiting q w _ hw hl
  have hnd := h.apart.waiting q _ hl
  have hwk : v.woken q true = x :: l := by simp [View.woken, hl]
  obtain ⟨z, hlast⟩ : ∃ z, (x :: l).getLast? = some z := by
    rw [List.getLast?_cons]; exact ⟨_, rfl⟩
  have htail := (hq.tail (by simp)).trans hlast
  have hz := List.mem_of_getLast? hlast
  have hlen : (x :: l).length < threadMaxThreads + 1 :=
    h.length_lt (fun t ht => Represents.holds_asleep hl ht) hnd
  simp only [wakeupAll, wp_bind, wp_getState]
  cases hr : v.ready with
  | nil =>
    simp only [h.head_nil hr, htail, deref, wp_bind, wp_modify, wp_pure]
    have hc := chain_clearLast hq.chain hlast hnd
    refine wp_reads (x :: l).length ?_ ?_
    · exact countChain_chain (by simpa using hc) hlen
    refine wp_finish.2 ⟨(h.wakeup hl (by simp [hwk]) (by simp) (by simp) (by simp) ⟨?_, ?_⟩
      (by simp; rfl) ?_ ?_).same (same_setInterrupts _ _), by rw [hwk]⟩
    · simpa [hwk, hr] using hc
    · simp [hwk, hr, hlast]
    · rw [hwk, List.drop_length]; exact ⟨rfl, by simp⟩
    · intro u _ hu _
      have huz : u ≠ z := fun e => hu (e ▸ hz)
      simp [huz]
  | cons a r =>
    obtain ⟨y, hy, hylast, hym⟩ := h.last hr
    have hyl : y ∉ x :: l := fun hm => (h.apart.awake q _ hl y hm).2 hym
    simp only [h.head_cons hr, hy, htail, deref, wp_bind, wp_modify, wp_pure]
    have hc := h.ready.chain.append hq.chain hylast h.ready_nodup hyl
    have hnd' : (v.ready ++ x :: l).Nodup := by
      rw [List.nodup_append]
      refine ⟨h.ready_nodup, hnd, ?_⟩
      rintro u hu _ hm rfl
      exact (h.apart.awake q _ hl u hm).2 hu
    have hlast' : (v.ready ++ x :: l).getLast? = some z := by
      rw [List.getLast?_append, hlast]; rfl
    refine wp_reads (x :: l).length ?_ ?_
    · refine countChain_chain ?_ hlen
      simpa using chain_clearLast (hq.chain.update hyl w.head) hlast hnd
    refine wp_finish.2 ⟨(h.wakeup hl (by simp [hwk]) (by simp) (by simp) (by simp) ⟨?_, ?_⟩
      (by simp; rfl) ?_ ?_).same (same_setInterrupts _ _), by rw [hwk]⟩
    · simpa [hwk] using chain_clearLast hc hlast' hnd'
    · intro _; rw [hwk, hlast']; simp
    · rw [hwk, List.drop_length]; exact ⟨rfl, by simp⟩
    · intro u hur hu _
      have huz : u ≠ z := fun e => hu (e ▸ hz)
      have huy : u ≠ y := fun e => hur (e ▸ hym)
      simp [huz, huy]

theorem wakeupOne_ok (h : Represents full s v) {w : Queue} (hw : s.waitQueues q = some w)
    (hl : v.waiting q = some (x :: l)) (enable : Bool) :
    wp ok (wakeupOne q x w enable)
      (fun o s' => Represents full s' (v.wakeup q false) ∧ o = .returned (v.woken q false).length) s := by
  have hq := h.waiting q w _ hw hl
  have hnd := h.apart.waiting q _ hl
  have hxl := (List.nodup_cons.1 hnd).1
  have hwk : v.woken q false = [x] := by simp [View.woken, hl]
  have hrest : IsQueue (Function.update s.next x none) { w with head := s.next x } l := by
    refine ⟨hq.chain.2.update hxl _, fun hne => ?_⟩
    obtain ⟨z, l', rfl⟩ := List.exists_cons_of_ne_nil hne
    have := hq.tail (by simp)
    rwa [List.getLast?_cons_cons] at this
  have hxr : x ∉ v.ready := (h.apart.awake q _ hl x (by simp)).2
  simp only [wakeupOne, wp_bind, wp_getState]
  cases hr : v.ready with
  | nil =>
    simp only [h.head_nil hr, wp_bind, wp_modify, wp_getState]
    refine wp_finish.2 ⟨(h.wakeup hl (by simp [hwk]) (by simp) (by simp) (by simp) ⟨?_, ?_⟩
      (by simp; rfl) ?_ ?_).same (same_setInterrupts _ _), by rw [hwk]; rfl⟩
    · simp [hwk, hr]
    · simp [hwk, hr]
    · simpa [hwk] using hrest
    · intro u _ hu _
      have hux : u ≠ x := fun e => hu (by simp [e])
      simp [hux]
  | cons a r =>
    obtain ⟨y, hy, hylast, hym⟩ := h.last hr
    have hyx : y ≠ x := fun e => hxr (e ▸ hym)
    have hyl : y ∉ l := fun hm => (h.apart.awake q _ hl y (by simp [hm])).2 hym
    simp only [h.head_cons hr, hy, deref, wp_bind, wp_modify, wp_getState, wp_pure,
      Sched.setNext_fields]
    refine wp_finish.2 ⟨(h.wakeup hl (by simp [hwk]) (by simp) (by simp) (by simp) ⟨?_, ?_⟩
      (by simp; rfl) ?_ ?_).same (same_setInterrupts _ _), by rw [hwk]; rfl⟩
    · have := h.ready.chain.snoc hylast h.ready_nodup hxr
      simpa [hwk] using this
    · intro _; rw [hwk, List.getLast?_concat]; simp
    · have : IsQueue (Function.update (Function.update s.next y (some x)) x none)
          { w with head := s.next x } l := hrest.congr fun u hu => by
        have huy : u ≠ y := fun e => hyl (e ▸ hu)
        have hux : u ≠ x := fun e => hxl (e ▸ hu)
        simp [huy, hux]
      simpa [hwk, hyx.symm] using this
    · intro u hur hu _
      have hux : u ≠ x := fun e => hu (by simp [e])
      have huy : u ≠ y := fun e => hur (e ▸ hym)
      simp [hux, huy]

/-- **`thread_wakeup` is the sequence operation**, and returns how many it moved. It aborts only
where no queue is allocated. -/
theorem threadWakeup_ok (h : Represents full s v) (q : ℕ) (all : Bool) (hok : s.HasQueue q ∨ ok) :
    wp ok (threadWakeup (some q) all)
      (fun o s' => Represents full s' (v.wakeup q all) ∧ o = .returned (v.woken q all).length) s := by
  have h₁ := h.same (same_setInterrupts s false)
  simp only [threadWakeup, wp_bind, wp_interruptsSet, wp_getState, Sched.setInterrupts_fields]
  cases hw : s.waitQueues q with
  | none =>
    simp only [deref, wp_abort]
    exact hok.resolve_left (Sched.not_hasQueue hw)
  | some w =>
    obtain ⟨l, hl, hq⟩ := h.queue hw
    simp only [deref, wp_pure]
    cases l with
    | nil =>
      have hh : w.head = none := hq.chain
      have hwk : v.woken q all = [] := by simp [View.woken, hl]
      have hv : v.wakeup q all = v := by
        have hself : Function.update v.waiting q (some []) = v.waiting := by
          rw [← hl, Function.update_eq_self]
        rw [View.wakeup_some hl, hwk, List.append_nil, List.drop_nil, hself]
      simp only [hh]
      rw [hv, hwk]
      exact finish_ok h₁ _ _
    | cons x l =>
      have hh : w.head = some x := hq.chain.1
      have hw₁ : (s.setInterrupts false).waitQueues q = some w := by simpa using hw
      simp only [hh]
      cases all
      · exact wakeupOne_ok h₁ hw₁ hl _
      · exact wakeupAll_ok h₁ hw₁ hl _

/-! ### Allocation, locks and condition variables -/

/-- Allocating an empty wait queue, or freeing one. Freeing one with sleepers takes their
places away. -/
theorem Represents.setWaitQueue (h : Represents full s v) {w : Option Queue}
    {o : Option (List ℕ)} (hw : ∀ w', w = some w' → w'.head = none) (ho : ∀ l, o = some l → l = [])
    (hwo : w.isSome = o.isSome) (hq : full → ∀ l, v.waiting q = some l → l = []) :
    Represents full (s.setWaitQueue q w) (v.setQueue q o) := by
  have hsub : ∀ t, (v.setQueue q o).Holds t → v.Holds t := fun t => View.holds_of_setQueue ho
  refine ⟨?_, ?_, ?_, ?_, ?_, h.apart.setQueue ho, ?_, ?_, ?_⟩ <;>
    simp only [Sched.setWaitQueue_fields]
  · exact h.running
  · exact h.ready
  · exact h.idle
  · intro q'
    have := h.alloc q'
    by_cases e : q' = q
    · subst e; simp [View.setQueue, hwo]
    · simp [View.setQueue, e, this]
  · intro q' w₁ l₁ hq₁ hl₁
    simp only [View.setQueue] at hl₁
    by_cases e : q' = q
    · subst e
      rw [Function.update_self] at hq₁ hl₁
      rw [ho l₁ hl₁]
      exact ⟨hw w₁ hq₁, by simp⟩
    · rw [Function.update_of_ne e] at hq₁ hl₁
      exact h.waiting q' w₁ l₁ hq₁ hl₁
  · exact fun t ht => h.index t (hsub t ht)
  · exact fun t ht => h.valid t (hsub t ht)
  · exact fun hf t h1 h2 => (View.holds_setQueue ho (hq hf)).2 (h.back hf t h1 h2)

theorem waitQueueCreate_ok (h : Represents full s v) (q : ℕ) (hok : s.waitQueues q = none ∨ ok) :
    wp ok (waitQueueCreate q) (fun _ s' => Represents full s' (v.setQueue q (some []))) s := by
  simp only [waitQueueCreate, wp_bind, wp_getState, wp_require, wp_modify]
  refine ⟨fun hq => h.setWaitQueue (by simp) (by simp) rfl ?_, hok.resolve_left⟩
  intro _ l hl
  have := h.alloc q
  rw [hq, hl] at this
  simp at this

theorem waitQueueDestroy_ok (h : Represents full s v) (ha : full → s.NoSleeper q)
    (hok : s.HasQueue q ∨ ok) :
    wp ok (waitQueueDestroy q) (fun _ s' => Represents full s' (v.setQueue q none)) s := by
  simp only [waitQueueDestroy, wp_bind, wp_getState]
  cases hw : s.waitQueues q with
  | none =>
    simp only [deref, wp_abort]
    exact hok.resolve_left (Sched.not_hasQueue hw)
  | some w =>
    simp only [deref, wp_pure, wp_modify]
    refine h.setWaitQueue (by simp) (by simp) rfl fun hf l hl => ?_
    exact (h.waiting q w l hw hl).chain.eq_nil_iff.1 (ha hf w hw)

theorem lockBusy_of_busy {l : ℕ} {lock : Lock} (hl : s.locks l = some lock)
    (ha : lock.available = false) : s.lockBusy l = some lock := by
  simp [Sched.lockBusy, hl, ha]

theorem lockBusy_of_free {l : ℕ} {lock : Lock} (hl : s.locks l = some lock)
    (ha : ¬lock.available = false) : s.lockBusy l = none := by
  simp [Sched.lockBusy, hl, ha]

/-- The wait queue of a lock that is allocated. -/
theorem Sched.HasLock.queue {l : ℕ} {lock : Lock} (h : s.HasLock l) (hl : s.locks l = some lock) :
    s.HasQueue lock.waitQ := by
  obtain ⟨lock', hl', hq⟩ := h
  rw [hl] at hl'
  exact Option.some.inj hl' ▸ hq

theorem Sched.not_hasLock {l : ℕ} (hl : s.locks l = none) : ¬s.HasLock l := by
  rintro ⟨lock, hl', -⟩
  rw [hl] at hl'
  cases hl'

/-- The wait queue of a condition variable that is allocated. -/
theorem Sched.HasCv.queue {c : ℕ} (h : s.HasCv c) (hc : s.cvs c = some q) : s.HasQueue q := by
  obtain ⟨q', hc', hq⟩ := h
  rw [hc] at hc'
  exact Option.some.inj hc' ▸ hq

theorem Sched.not_hasCv {c : ℕ} (hc : s.cvs c = none) : ¬s.HasCv c := by
  rintro ⟨q, hc', -⟩
  rw [hc] at hc'
  cases hc'

theorem lockRelease_ok (h : Represents full s v) (l : ℕ) (hok : s.HasLock l ∨ ok) :
    wp ok (lockRelease l) (fun _ s' => Represents full s' (match s.lockBusy l with
      | some lock => v.wakeup lock.waitQ true
      | none => v)) s := by
  have h₁ := h.same (same_setInterrupts s false)
  simp only [lockRelease, wp_bind, wp_interruptsSet, wp_getState, Sched.setInterrupts_fields]
  cases hl : s.locks l with
  | none =>
    simp only [deref, wp_abort]
    exact hok.resolve_left (Sched.not_hasLock hl)
  | some lock =>
    simp only [deref, wp_pure, wp_ite, wp_bind, wp_modify]
    refine ⟨fun ha => ?_, fun ha => ?_⟩
    · rw [lockBusy_of_busy hl ha]
      refine wp_mono (threadWakeup_ok (h₁.same ?_) lock.waitQ true
        (hok.imp_left (·.queue hl))) fun _ s₂ h₂ => ?_
      · constructor <;> simp
      · exact wp_mono (finish_ok h₂.1 _ _) fun _ _ h => h.1
    · rw [lockBusy_of_free hl ha]
      exact wp_mono (finish_ok h₁ _ _) fun _ _ h => h.1

/-- A wake-up allocates and frees no queue. -/
theorem View.alloc_wakeup (v : View) (q q' : ℕ) (all : Bool) :
    ((v.wakeup q all).waiting q').isSome = (v.waiting q').isSome := by
  cases hl : v.waiting q with
  | none => rw [View.wakeup, hl]
  | some l =>
    rw [View.wakeup_some hl]
    by_cases e : q' = q
    · simp [e, hl]
    · simp [e]

theorem cvWait_ok (h : Represents full s v) (c l : ℕ) (hok : (s.HasCv c ∧ s.HasLock l) ∨ ok) :
    wp ok (cvWait c l) (fun _ s' => Represents full s' (match s.cvs c, s.lockBusy l with
      | some q, some lock => (v.wakeup lock.waitQ true).sleep q
      | _, _ => v)) s := by
  have h₁ := h.same (same_setInterrupts s false)
  simp only [cvWait, wp_bind, wp_interruptsSet, wp_getState, Sched.setInterrupts_fields]
  cases hc : s.cvs c with
  | none =>
    simp only [deref, wp_abort]
    exact hok.resolve_left fun hh => Sched.not_hasCv hc hh.1
  | some q =>
    cases hl : s.locks l with
    | none =>
      simp only [deref, wp_pure, wp_abort]
      exact hok.resolve_left fun hh => Sched.not_hasLock hl hh.2
    | some lock =>
      simp only [deref, wp_pure, wp_ite, wp_bind, wp_modify]
      refine ⟨fun ha => ?_, fun ha => ?_⟩
      · have hb : (s.setInterrupts false).lockBusy l = some lock :=
          lockBusy_of_busy (by simpa using hl) ha
        have hrel := lockRelease_ok h₁ l (hok.imp_left (·.2))
        simp only [hb] at hrel
        rw [lockBusy_of_busy hl ha]
        refine wp_mono hrel fun _ s₂ h₂ => ?_
        have hq : s₂.HasQueue q ∨ ok := by
          refine hok.imp_left fun hh => ?_
          have hs : s.HasQueue q := hh.1.queue hc
          unfold Sched.HasQueue at hs ⊢
          rw [h₂.alloc, View.alloc_wakeup, ← h.alloc, hs]
        refine wp_mono (threadSleep_ok (h₂.same ?_) q hq) fun _ _ h => h
        constructor <;> simp
      · rw [lockBusy_of_free hl ha]
        exact wp_mono (finish_ok h₁ _ _) fun _ _ h => h.1

theorem cvWake_ok (h : Represents full s v) (all : Bool) (c l : ℕ)
    (hok : (s.HasCv c ∧ s.HasLock l) ∨ ok) :
    wp ok (cvWake all c l) (fun _ s' => Represents full s' (match s.cvs c, s.lockBusy l with
      | some q, some _ => v.wakeup q all
      | _, _ => v)) s := by
  have h₁ := h.same (same_setInterrupts s false)
  simp only [cvWake, wp_bind, wp_interruptsSet, wp_getState, Sched.setInterrupts_fields]
  cases hc : s.cvs c with
  | none =>
    simp only [deref, wp_abort]
    exact hok.resolve_left fun hh => Sched.not_hasCv hc hh.1
  | some q =>
    cases hl : s.locks l with
    | none =>
      simp only [deref, wp_pure, wp_abort]
      exact hok.resolve_left fun hh => Sched.not_hasLock hl hh.2
    | some lock =>
      simp only [deref, wp_pure, wp_ite, wp_bind]
      refine ⟨fun ha => ?_, fun ha => ?_⟩
      · rw [lockBusy_of_busy hl ha]
        refine wp_mono (threadWakeup_ok h₁ q all (hok.imp_left (·.1.queue hc))) fun _ s₂ h₂ => ?_
        exact wp_mono (finish_ok h₂.1 _ _) fun _ _ h => h.1
      · rw [lockBusy_of_free hl ha]
        exact wp_mono (finish_ok h₁ _ _) fun _ _ h => h.1

theorem acquireTurn_ok (h : Represents full s v) (l : ℕ) (enable : Bool)
    (hok : s.HasLock l ∨ ok) :
    wp ok (acquireTurn l enable) (fun _ s' => Represents full s' (match s.lockBusy l with
      | some lock => v.sleep lock.waitQ
      | none => v)) s := by
  simp only [acquireTurn, wp_bind, wp_getState]
  cases hl : s.locks l with
  | none =>
    simp only [deref, wp_abort]
    exact hok.resolve_left (Sched.not_hasLock hl)
  | some lock =>
    simp only [deref, wp_pure, wp_ite, wp_bind, wp_modify]
    refine ⟨fun ha => ?_, fun ha => ?_⟩
    · rw [lockBusy_of_free hl (by simp [ha])]
      refine wp_mono (finish_ok (h.same ?_) _ _) fun _ _ h => h.1
      constructor <;> simp
    · rw [lockBusy_of_busy hl (by simpa using ha)]
      exact wp_mono (threadSleep_ok h lock.waitQ (hok.imp_left (·.queue hl))) fun _ _ h => h

theorem lockCreate_ok (h : Represents full s v) (l q : ℕ)
    (hok : (s.locks l = none ∧ s.waitQueues q = none) ∨ ok) :
    wp ok (lockCreate l q) (fun _ s' => Represents full s' (v.setQueue q (some []))) s := by
  have h₁ := h.same (same_setInterrupts s false)
  simp only [lockCreate, wp_bind, wp_interruptsSet, wp_getState, wp_require, wp_modify]
  refine ⟨fun _ => ?_, fun hn => hok.resolve_left fun hh => hn hh.1⟩
  refine wp_mono (waitQueueCreate_ok h₁ q (hok.imp_left (·.2))) fun _ s₂ h₂ => ?_
  refine wp_mono (finish_ok (h₂.same ?_) _ _) fun _ _ h => h.1
  constructor <;> simp

theorem lockDestroy_ok (h : Represents full s v) {l : ℕ}
    (ha : full → Allowed s (.call (.lockDestroy l))) (hok : s.HasLock l ∨ ok) :
    wp ok (lockDestroy l) (fun _ s' => Represents full s' (match s.locks l with
      | some lock => if lock.available then v.setQueue lock.waitQ none else v
      | none => v)) s := by
  have h₁ := h.same (same_setInterrupts s false)
  simp only [lockDestroy, wp_bind, wp_interruptsSet, wp_getState, Sched.setInterrupts_fields]
  cases hl : s.locks l with
  | none =>
    simp only [deref, wp_abort]
    exact hok.resolve_left (Sched.not_hasLock hl)
  | some lock =>
    simp only [deref, wp_pure, wp_ite, wp_bind, wp_modify]
    refine ⟨fun hav => ?_, fun hav => ?_⟩
    · have hns : full → (s.setInterrupts false).NoSleeper lock.waitQ := fun hf => by
        simpa [Sched.NoSleeper] using ha hf lock hl hav
      rw [if_pos hav]
      refine wp_mono (waitQueueDestroy_ok h₁ hns (hok.imp_left (·.queue hl))) fun _ s₂ h₂ => ?_
      refine wp_mono (finish_ok (h₂.same ?_) _ _) fun _ _ h => h.1
      constructor <;> simp
    · rw [if_neg hav]
      exact wp_mono (finish_ok h₁ _ _) fun _ _ h => h.1

theorem cvCreate_ok (h : Represents full s v) (c q : ℕ)
    (hok : (s.cvs c = none ∧ s.waitQueues q = none) ∨ ok) :
    wp ok (cvCreate c q) (fun _ s' => Represents full s' (v.setQueue q (some []))) s := by
  have h₁ := h.same (same_setInterrupts s false)
  simp only [cvCreate, wp_bind, wp_interruptsSet, wp_getState, wp_require, wp_modify]
  refine ⟨fun _ => ?_, fun hn => hok.resolve_left fun hh => hn hh.1⟩
  refine wp_mono (waitQueueCreate_ok h₁ q (hok.imp_left (·.2))) fun _ s₂ h₂ => ?_
  refine wp_mono (finish_ok (h₂.same ?_) _ _) fun _ _ h => h.1
  constructor <;> simp

theorem cvDestroy_ok (h : Represents full s v) {c : ℕ}
    (ha : full → Allowed s (.call (.cvDestroy c))) (hok : s.HasCv c ∨ ok) :
    wp ok (cvDestroy c) (fun _ s' => Represents full s' (match s.cvs c with
      | some q => v.setQueue q none
      | none => v)) s := by
  have h₁ := h.same (same_setInterrupts s false)
  simp only [cvDestroy, wp_bind, wp_interruptsSet, wp_getState, Sched.setInterrupts_fields]
  cases hc : s.cvs c with
  | none =>
    simp only [deref, wp_abort]
    exact hok.resolve_left (Sched.not_hasCv hc)
  | some q =>
    have hns : full → (s.setInterrupts false).NoSleeper q := fun hf => by
      simpa [Sched.NoSleeper] using ha hf q hc
    simp only [deref, wp_pure, wp_modify]
    refine wp_mono (waitQueueDestroy_ok h₁ hns (hok.imp_left (·.queue hc))) fun _ s₂ h₂ => ?_
    refine wp_mono (finish_ok (h₂.same ?_) _ _) fun _ _ h => h.1
    constructor <;> simp

/-! ### Steps of the system -/

/-- **Every operation has the effect it is meant to have on the sequences.** -/
theorem runOp_ok (h : Represents full s v) (op : Op) (ha : full → Allowed s (.call op)) :
    wp True (runOp op) (fun _ s' => Represents full s' (seqOp s v op)) s := by
  have h₁ := h.same (same_setInterrupts s false)
  cases op with
  | id =>
    simp only [runOp, threadId, wp_bind, wp_interruptsSet, wp_getState, wp_pure]
    exact h₁
  | create stack =>
    cases stack with
    | none => exact threadCreate_noMemory h fun hf => ha hf rfl
    | some a =>
      simp only [runOp]
      exact threadCreate_ok h
  | yield tid => exact threadYield_ok h tid
  | exit => exact threadExit_ok h
  | kill tid => exact threadKill_ok h tid
  | queueCreate q =>
    simp only [runOp, wp_bind, wp_pure]
    exact waitQueueCreate_ok h q (.inr trivial)
  | queueDestroy q =>
    simp only [runOp, wp_bind, wp_pure]
    exact waitQueueDestroy_ok h ha (.inr trivial)
  | sleep queue =>
    cases queue with
    | none =>
      simp only [runOp, threadSleep, wp_bind, wp_interruptsSet]
      exact wp_mono (finish_ok h₁ _ _) fun _ _ h => h.1
    | some q => exact threadSleep_ok h q (.inr trivial)
  | wakeup queue all =>
    cases queue with
    | none =>
      simp only [runOp, threadWakeup, wp_bind, wp_interruptsSet]
      exact wp_mono (finish_ok h₁ _ _) fun _ _ h => h.1
    | some q => exact wp_mono (threadWakeup_ok h q all (.inr trivial)) fun _ _ h => h.1
  | lockCreate l q => exact lockCreate_ok h l q (.inr trivial)
  | lockDestroy l => exact lockDestroy_ok h ha (.inr trivial)
  | lockAcquire l =>
    simp only [runOp, lockAcquire, wp_bind, wp_interruptsSet, wp_modify, wp_pure]
    refine h₁.same ?_
    constructor <;> simp
  | lockRelease l => exact lockRelease_ok h l (.inr trivial)
  | cvCreate c q => exact cvCreate_ok h c q (.inr trivial)
  | cvDestroy c => exact cvDestroy_ok h ha (.inr trivial)
  | cvWait c l => exact cvWait_ok h c l (.inr trivial)
  | cvSignal c l => exact cvWake_ok h false c l (.inr trivial)
  | cvBroadcast c l => exact cvWake_ok h true c l (.inr trivial)
  | setInterrupts b =>
    simp only [runOp, wp_bind, wp_interruptsSet, wp_pure]
    exact h.same (same_setInterrupts s b)

theorem frame_ok (h : Represents full s v) (f : Frame) :
    wp True f.run (fun _ s' => Represents full s' (match f with
      | .acquireLoop l _ => match s.lockBusy l with
        | some lock => v.sleep lock.waitQ
        | none => v
      | _ => v)) s := by
  cases f with
  | acquireLoop l enable => exact acquireTurn_ok h l enable (.inr trivial)
  | cvReacquire l enable =>
    simp only [Frame.run, popFrame, lockAcquire, wp_bind, wp_modify, wp_interruptsSet, wp_pure]
    refine h.same ?_
    constructor <;> simp
  | _ =>
    simp only [Frame.run, popFrame, wp_bind, wp_modify, wp_interruptsSet, wp_getState, wp_finish,
      wp_pure]
    refine h.same ?_
    constructor <;> simp

theorem label_ok (h : Represents full s v) {l : Label} (ha : full → Allowed s l) {o : Outcome}
    (hr : l.run s = some (o, s')) : Represents full s' (seqStep s v l) := by
  unfold Label.run at hr
  split at hr
  · exact (runOp_ok h _ ha).of_run hr
  · split at hr
    · have h₁ : Represents full ((s.setInterrupts false).setFrames (.handlerDone :: s.frames)) v :=
        h.same (by constructor <;> simp)
      have hw := threadYield_ok h₁ threadAny
      simp only [if_true] at hw
      exact hw.of_run hr
    · simp at hr
  · rename_i f fs hf
    have := (frame_ok h f).of_run hr
    simp only [seqStep, hf]
    cases f <;> exact this
  · simp at hr

end OSLab.Threads
