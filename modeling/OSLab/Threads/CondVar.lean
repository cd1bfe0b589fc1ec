import OSLab.Threads.Mutex
import OSLab.Threads.LockQueue
import OSLab.Threads.Progress

/-!
# Condition variables do not miss signals

`watchCvs` keeps, beside a run, who holds each lock, which threads wait on each condition
variable in the order they started to, and for each thread the `cv_wait` it is in and how
its wait went (`Fate`): it sleeps, it was signalled, or it was refused the sleep.

`cv_no_missed_signal`: when `lock_release`, `cv_wait`, `cv_signal` and `cv_broadcast` are
called by holders of the lock only, these calls return, the wait queue of each condition variable
is the list of its waiters, a signal makes the longest waiting one ready, and when `cv_wait`
returns its caller was signalled, or refused its sleep as nobody else was ready, and is the only
holder.
-/

namespace OSLab.Threads

open Prog

variable {s t : Sched} {v : View} {full : Prop} {k : Label} {R : Rest} {i j l c q : ℕ}
  {o : ℕ ⊕ ℕ} {all : Bool} {ls : List Label} {enabled : Bool} {lock : Lock} {H : Holders}

/-- How a wait went. -/
inductive Fate
  | asleep
  | signalled
  | refused
  deriving DecidableEq, Repr

/-- A call of `cv_wait` that has not returned. -/
structure CvCall where
  cv : ℕ
  lock : ℕ
  fate : Fate
  deriving DecidableEq, Repr

def CvCall.signal (w : CvCall) : CvCall := { w with fate := .signalled }

structure CvWatch where
  holders : Holders
  waiters : ℕ → List ℕ
  calls : ℕ → Option CvCall

/-- The waiters of each condition variable, the longest waiting first: a `cv_wait` after
which another thread runs adds its caller, a signal takes the first, a broadcast takes all. -/
def waiters (s : Sched) (k : Label) (t : Sched) (Q : ℕ → List ℕ) : ℕ → List ℕ :=
  match k with
  | .call (.cvWait c _) =>
    if t.currentThreadId = s.currentThreadId then Q
    else Function.update Q c (Q c ++ [s.currentThreadId])
  | .call (.cvSignal c _) => Function.update Q c (Q c).tail
  | .call (.cvBroadcast c _) => Function.update Q c []
  | .call (.cvCreate c _) => Function.update Q c []
  | _ => Q

/-- The calls of `cv_wait`, given the waiters. -/
def cvCalls (s : Sched) (k : Label) (t : Sched) (Q : ℕ → List ℕ) (W : ℕ → Option CvCall) :
    ℕ → Option CvCall :=
  match k with
  | .call (.cvWait c l) => Function.update W s.currentThreadId
    (some ⟨c, l, if t.currentThreadId = s.currentThreadId then .refused else .asleep⟩)
  | .call (.cvSignal c _) => fun i => if i ∈ (Q c).take 1 then (W i).map CvCall.signal else W i
  | .call (.cvBroadcast c _) => fun i => if i ∈ Q c then (W i).map CvCall.signal else W i
  | .call (.create _) => fun i => if firstInvalid s = some i then none else W i
  | .resume => match s.frames with
    | .cvDone _ :: _ => Function.update W s.currentThreadId none
    | _ => W
  | _ => W

def CvWatch.start : CvWatch := ⟨fun _ => ∅, fun _ => [], fun _ => none⟩

/-- What an observer of the condition variables sees of a step. -/
def watchCvs (s : Sched) (k : Label) (t : Sched) (g : CvWatch) : CvWatch where
  holders := holders s k t g.holders
  waiters := waiters s k t g.waiters
  calls := cvCalls s k t g.waiters g.calls

/-- The lock is released, waited on and signalled by its holder. -/
def ByHolder (s : Sched) (H : Holders) : Label → Prop
  | .call (.lockRelease l) | .call (.cvWait _ l) | .call (.cvSignal _ l)
  | .call (.cvBroadcast _ l) => s.currentThreadId ∈ H l
  | _ => True

instance (s : Sched) (H : Holders) : (k : Label) → Decidable (ByHolder s H k)
  | .call (.lockRelease l) | .call (.cvWait _ l) | .call (.cvSignal _ l)
  | .call (.cvBroadcast _ l) => inferInstanceAs (Decidable (s.currentThreadId ∈ H l))
  | .preempt | .resume | .call .id | .call (.create _) | .call (.yield _) | .call .exit
  | .call (.kill _) | .call (.queueCreate _) | .call (.queueDestroy _) | .call (.sleep _)
  | .call (.wakeup _ _) | .call (.lockCreate _ _) | .call (.lockDestroy _)
  | .call (.lockAcquire _) | .call (.cvCreate _ _) | .call (.cvDestroy _)
  | .call (.setInterrupts _) => isTrue trivial

/-- A step of the runs in question. -/
def heldStep (p : Sched × CvWatch) (k : Label) (p' : Sched × CvWatch) : Prop :=
  (Foreign p.1 k ∧ ByHolder p.1 p.2.holders k) ∧ watch watchCvs p k p'

theorem Exclusive.busy (h : Exclusive s H) (hi : i ∈ H l) : ∃ lock, s.lockBusy l = some lock := by
  obtain ⟨⟨lock, hl, ha⟩, -⟩ := h l i hi
  exact ⟨lock, lockBusy_of_busy hl ha⟩

theorem byHolder_proper (h : Exclusive s H) (hb : ByHolder s H k) : Proper s H k := by
  unfold ByHolder at hb
  split at hb
  · exact fun i hi => (h _ _ hb).2 i hi
  · obtain ⟨lock, hl⟩ := h.busy hb
    exact ⟨by simp [hl], fun i hi => (h _ _ hb).2 i hi⟩
  · trivial
  · trivial
  · rename_i h1 h2 _ _
    unfold Proper
    split
    · exact (h1 _ rfl).elim
    · exact (h2 _ _ rfl).elim
    · trivial

/-! ### The queues are the waiters -/

/-- The wait queue of each condition variable holds its waiters in order. -/
def Queued (s : Sched) (v : View) (Q : ℕ → List ℕ) : Prop :=
  ∀ c q, s.cvs c = some q → v.waiting q = some (Q c)

theorem new_cv (he : Effect s k t.rest) (hc : t.cvs c = some q) (hold : s.cvs c ≠ some q) :
    k = .call (.cvCreate c q) := by
  obtain ⟨R, hR⟩ : ∃ R, R = t.rest := ⟨_, rfl⟩
  rw [← hR] at he
  have hcvs : t.cvs = R.cvs := by rw [hR]; rfl
  rw [hcvs] at hc
  have hset : ∀ {c' o}, R.cvs = Function.update s.cvs c' o → c = c' ∧ o = some q := by
    intro c' o hup
    rw [hup, Function.update_apply] at hc
    split at hc
    · exact ⟨‹_›, hc⟩
    · exact absurd hc hold
  cases he with
  | cvCreates hfree hq =>
    obtain ⟨rfl, h⟩ := hset rfl
    obtain rfl := Option.some.inj h
    rfl
  | cvDestroys hc' =>
    obtain ⟨-, h⟩ := hset rfl
    simp at h
  | @kills i hk =>
    have : (s.rest.reap i).cvs = s.cvs := by unfold Rest.reap; split <;> rfl
    exact absurd (this ▸ hc) hold
  | _ => exact absurd hc hold

/-- A wake-up takes the longest waiting or all. -/
theorem waiting_wake {ws : List ℕ} (hq : v.waiting q = some ws) :
    (v.wakeup q all).waiting q = some (if all then [] else ws.tail) := by
  rw [View.wakeup_some hq]
  simp only [Function.update_self, View.woken, hq]
  cases all
  · cases ws <;> simp
  · simp

theorem woken_eq {ws : List ℕ} (hq : v.waiting q = some ws) :
    v.woken q all = if all then ws else ws.take 1 := by
  simp [View.woken, hq]

/-- The step is an operation on the condition variable at `c`. -/
def Concerns (c : ℕ) : Label → Prop
  | .call (.cvWait c' _) | .call (.cvSignal c' _) | .call (.cvBroadcast c' _)
  | .call (.cvCreate c' _) => c' = c
  | _ => False

theorem waiters_other {Q : ℕ → List ℕ} (hk : ¬Concerns c k) : waiters s k t Q c = Q c := by
  unfold waiters
  split
  · split
    · rfl
    · exact Function.update_of_ne (Ne.symm hk) _ _
  · exact Function.update_of_ne (Ne.symm hk) _ _
  · exact Function.update_of_ne (Ne.symm hk) _ _
  · exact Function.update_of_ne (Ne.symm hk) _ _
  · rfl

/-- What `cv_wait` leaves: nobody else is ready and the caller stays, or another thread runs
and the caller sleeps behind the other waiters. -/
theorem cvWait_view (h : Represents full s v) (hown : Owned s v) (hl : s.lockBusy l = some lock)
    (hc : s.cvs c = some q) {ws : List ℕ} (hq : v.waiting q = some ws) :
    (v.wakeup lock.waitQ true).ready = [] ∧
        (v.wakeup lock.waitQ true).sleep q = v.wakeup lock.waitQ true ∧
        (v.wakeup lock.waitQ true).waiting q = some ws ∨
      ((v.wakeup lock.waitQ true).sleep q).running ≠ v.running ∧
        ((v.wakeup lock.waitQ true).sleep q).waiting q = some (ws ++ [v.running]) := by
  have hne : q ≠ lock.waitQ := by
    rintro rfl
    cases hown.unique _ _ _ (queueOf_cv hc) (queueOf_busy hl)
  have hwq : (v.wakeup lock.waitQ true).waiting q = some ws := by
    rw [View.waiting_wakeup hne, hq]
  have hrun : (v.wakeup lock.waitQ true).running = v.running := by
    unfold View.wakeup
    split <;> rfl
  have hap : (v.wakeup lock.waitQ true).Apart := h.apart.wakeup
  set v₁ := v.wakeup lock.waitQ true
  cases hr : v₁.ready with
  | nil => exact Or.inl ⟨rfl, View.sleep_nil hr, hwq⟩
  | cons x r =>
    have hx : x ≠ v₁.running := by
      have := (List.nodup_cons.1 hap.ready).1
      rw [hr] at this
      exact fun e => this (by simp [e])
    rw [View.sleep_cons hr hwq]
    refine Or.inr ⟨by rwa [← hrun], ?_⟩
    rw [← hrun]
    exact Function.update_self _ _ _

/-- A `cv_wait` that waits, by cases on its effect. -/
theorem cvWait_effect (hx : Exclusive s H) (hb : s.currentThreadId ∈ H l)
    (he : Effect s (.call (.cvWait c l)) R) :
    ∃ q lock, s.cvs c = some q ∧ s.lockBusy l = some lock ∧
      seqStep s v (.call (.cvWait c l)) = (v.wakeup lock.waitQ true).sleep q := by
  obtain ⟨lock, hl⟩ := hx.busy hb
  cases he with
  | idle hi =>
    have hi' : s.lockBusy l = none := hi
    rw [hl] at hi'
    simp at hi'
  | cvWaitStays hc hl' => exact ⟨_, lock, hc, hl, by simp [seqStep, seqOp, hc, hl]⟩
  | cvWaits hc hl' hp => exact ⟨_, lock, hc, hl, by simp [seqStep, seqOp, hc, hl]⟩

/-- A signal or a broadcast wakes the queue. -/
theorem cvOp_view (all : Bool) (hx : Exclusive s H) (hb : s.currentThreadId ∈ H l) (hc : s.cvs c = some q) :
    seqStep s v (.call (cvOp all c l)) = v.wakeup q all := by
  obtain ⟨lock, hl⟩ := hx.busy hb
  cases all <;> simp [cvOp, seqStep, seqOp, hc, hl]

theorem cvCreate_free (he : Effect s (.call (.cvCreate c q)) R) : s.cvs c = none := by
  cases he with
  | idle hi => exact hi.elim
  | cvCreates hc hq => exact hc

/-- **The queues stay the lists of the waiters.** -/
theorem queued_step {Q : ℕ → List ℕ} (h : Represents full s v)
    (h' : Represents False t (seqStep s v k)) (hown : Owned s v) (hx : Exclusive s H)
    (hQ : Queued s v Q) (he : Effect s k t.rest) (hf : Foreign s k) (hb : ByHolder s H k) :
    Queued t (seqStep s v k) (waiters s k t Q) := by
  intro c q hc
  by_cases hold : s.cvs c = some q
  · have hw := hQ c q hold
    have hqs : s.queueOf (.inr c) = some q := hold
    -- the calls on `c` itself; every other step leaves its queue alone
    by_cases hk : Concerns c k
    · unfold Concerns at hk
      split at hk
      · -- `cv_wait`
        rename_i l
        subst hk
        obtain ⟨q', lock, hc', hl, hseq⟩ := cvWait_effect (v := v) hx hb he
        obtain rfl := Option.some.inj (hold.symm.trans hc')
        have hcur := h'.running
        rw [hseq] at hcur ⊢
        -- the caller sleeps, unless no other thread is ready
        rcases cvWait_view h hown hl hold hw with ⟨hr, hstay, hq⟩ | ⟨hne, hq⟩
        · have hsame : t.currentThreadId = s.currentThreadId := by
            rw [hcur, hstay, h.running]
            unfold View.wakeup
            split <;> rfl
          simp only [waiters, hsame, if_true]
          rw [hstay, hq]
        · have hdiff : t.currentThreadId ≠ s.currentThreadId := by
            rw [hcur, h.running]
            exact hne
          simp only [waiters, hdiff, if_false, Function.update_self]
          rw [hq, h.running]
      · -- `cv_signal`
        rename_i d l
        subst hk
        have hseq : seqStep s v (.call (.cvSignal d l)) = v.wakeup q false :=
          cvOp_view false hx hb hold
        rw [hseq, waiting_wake hw]
        simp [waiters]
      · -- `cv_broadcast`
        rename_i d l
        subst hk
        have hseq : seqStep s v (.call (.cvBroadcast d l)) = v.wakeup q true :=
          cvOp_view true hx hb hold
        rw [hseq, waiting_wake hw]
        simp [waiters]
      · -- `cv_create` does not reuse a condition variable in use
        subst hk
        exact absurd (hold.symm.trans (cvCreate_free he)) (by simp)
      · exact hk.elim
    · rw [waiters_other hk]
      -- a queue of a lock is not that of `c`, and a call on another condition variable is not on it
      cases queue_step h hown he hf hqs hc with
      | same hsame => rw [hsame, hw]
      | @wakes c' l all lock hkk hc' hl hseq =>
        cases hown.unique _ _ _ hqs (queueOf_cv hc')
        refine absurd ?_ hk
        rw [hkk]
        cases all <;> rfl
      | releases hl hwq hq =>
        have hq' := queueOf_busy hl
        rw [hwq] at hq'
        cases hown.unique _ _ _ hqs hq'
      | waits hkk hc' hl hseq =>
        cases hown.unique _ _ _ hqs (queueOf_cv hc')
        refine absurd ?_ hk
        rw [hkk]
        rfl
      | blocks hkk hfr hl hwq hseq =>
        have hq' := queueOf_busy hl
        rw [hwq] at hq'
        cases hown.unique _ _ _ hqs hq'
  · -- a new condition variable has no waiters
    obtain rfl := new_cv he hc hold
    have hq : t.queueOf (.inr c) = some q := hc
    rw [(new_owner (v := v) he hq hold).2.1]
    simp [waiters]

/-! ### Where a thread is in `cv_wait` -/

/-- A frame that is not of `cv_wait`. -/
def Frame.Plain : Frame → Prop
  | .cvReacquire _ _ | .cvDone _ => False
  | _ => True

/-- The pending frames of thread `i` beside the call of `cv_wait` that the watcher has. -/
inductive CvShape (H : Holders) (i : ℕ) : List Frame → Option CvCall → Prop
  | outside {fs : List Frame} {w : Option CvCall} (h : ∀ f ∈ fs, f.Plain) : CvShape H i fs w
  | waits {fs : List Frame} {w : CvCall} {m e : Bool} (h : Lost m fs) :
      CvShape H i (fs ++ [.cvReacquire w.lock e]) (some w)
  | acquires {fs : List Frame} {w : CvCall} {m m' e : Bool} (h : Lost m fs)
      (hw : w.fate ≠ .asleep) : CvShape H i (fs ++ [.acquireLoop w.lock m', .cvDone e]) (some w)
  | returns {w : CvCall} {e : Bool} (hw : w.fate ≠ .asleep) (hi : i ∈ H w.lock) :
      CvShape H i [.cvDone e] (some w)

variable {fs gs : List Frame} {f : Frame} {m : Bool} {w w' : Option CvCall} {Q : ℕ → List ℕ}
  {W : ℕ → Option CvCall}

theorem Frame.Switches.plain (h : f.Switches m) : f.Plain := by
  cases h <;> trivial

theorem Lost.plain (h : Lost m fs) (hf : f ∈ fs) : f.Plain := by
  rcases h with rfl | ⟨g, hg, rfl⟩
  · simp at hf
  · rw [List.mem_singleton] at hf
    exact hf ▸ hg.plain

/-- A pending return comes first, if there is one. -/
theorem Lost.append_eq (h : Lost m gs) {tail : List Frame} (he : gs ++ tail = f :: fs) :
    gs = [] ∧ tail = f :: fs ∨ f.Switches m ∧ fs = tail := by
  rcases h with rfl | ⟨g, hg, rfl⟩
  · exact Or.inl ⟨rfl, he⟩
  · obtain ⟨rfl, rfl⟩ := List.cons.inj he
    exact Or.inr ⟨hg, rfl⟩

theorem CvShape.nil {H : Holders} : CvShape H i [] w := .outside (by simp)

theorem CvShape.lost {H : Holders} (h : Lost m fs) : CvShape H i fs w :=
  .outside fun _ hf => h.plain hf

/-- A signal does not move the thread, and it keeps what it holds. -/
theorem CvShape.mono {H' : Holders} (h : CvShape H i fs w)
    (hw : w' = w ∨ w' = w.map CvCall.signal) (hH : ∀ l, i ∈ H l → i ∈ H' l) :
    CvShape H' i fs w' := by
  cases h with
  | outside h => exact .outside h
  | @waits _ w _ _ h =>
    rcases hw with rfl | rfl
    · exact .waits h
    · exact CvShape.waits (w := w.signal) h
  | @acquires _ w _ _ _ h ha =>
    rcases hw with rfl | rfl
    · exact .acquires h ha
    · exact CvShape.acquires (w := w.signal) h (by simp [CvCall.signal])
  | @returns w _ ha hi =>
    rcases hw with rfl | rfl
    · exact .returns ha (hH _ hi)
    · exact CvShape.returns (w := w.signal) (by simp [CvCall.signal]) (hH _ hi)

/-- A thread that the step does not run keeps its locks. -/
theorem holders_other (hi : i ≠ s.currentThreadId) (hv : t.isValid i = true) (h : i ∈ H l) :
    i ∈ holders s k t H l := by
  have hup : ∀ {l' S}, (l = l' → i ∈ S) → i ∈ Function.update H l' S l := by
    intro l' S hS
    rw [Function.update_apply]
    split
    · exact hS ‹_›
    · exact h
  unfold holders
  split
  · exact hup fun e => Finset.mem_erase.2 ⟨hi, e ▸ h⟩
  · split
    · exact hup fun e => Finset.mem_insert_of_mem (e ▸ h)
    · exact hup fun e => Finset.mem_erase.2 ⟨hi, e ▸ h⟩
  · exact Finset.mem_filter.2 ⟨h, hv⟩
  · exact Finset.mem_filter.2 ⟨h, hv⟩
  · generalize s.frames = fs
    rcases fs with _ | ⟨_ | _ | _ | ⟨l', e⟩ | _ | _ | _, fs⟩
    case cons.acquireLoop =>
      dsimp only
      split
      · exact hup fun e => Finset.mem_insert_of_mem (e ▸ h)
      · exact h
    all_goals exact h
  · exact h

/-- The step signals thread `i`. -/
def Signals (Q : ℕ → List ℕ) (k : Label) (i : ℕ) : Prop :=
  ∃ all c l, k = .call (cvOp all c l) ∧ i ∈ if all then Q c else (Q c).take 1

/-- Nor does it begin or end a `cv_wait`; it may be signalled. -/
theorem cvCalls_other (hi : i ≠ s.currentThreadId) (hnew : ¬Creates s k i) :
    cvCalls s k t Q W i = W i ∨ Signals Q k i ∧ cvCalls s k t Q W i = (W i).map CvCall.signal := by
  unfold cvCalls
  split
  · exact Or.inl (Function.update_of_ne hi _ _)
  · rename_i c l
    split
    · exact Or.inr ⟨⟨false, c, l, rfl, ‹_›⟩, rfl⟩
    · exact Or.inl rfl
  · rename_i c l
    split
    · exact Or.inr ⟨⟨true, c, l, rfl, ‹_›⟩, rfl⟩
    · exact Or.inl rfl
  · rename_i stack
    exact Or.inl (if_neg fun h => hnew ⟨⟨stack, rfl⟩, h⟩)
  · generalize s.frames = fs
    rcases fs with _ | ⟨_ | _ | _ | _ | _ | _ | _, fs⟩
    case cons.cvDone => exact Or.inl (Function.update_of_ne hi _ _)
    all_goals exact Or.inl rfl
  · exact Or.inl rfl

/-- Only the end of `cv_wait` ends a call. -/
theorem cvCalls_resume (hf : s.frames = f :: fs) (hne : ∀ e, f ≠ .cvDone e) :
    cvCalls s .resume t Q W = W := by
  unfold cvCalls
  rw [hf]
  cases f with
  | cvDone e => exact absurd rfl (hne e)
  | _ => rfl

theorem Frame.Plain.not_done (h : f.Plain) (e : Bool) : f ≠ .cvDone e := by
  rintro rfl
  exact h

/-- The frame that ends is a return, a plain frame outside `cv_wait`, or its end. -/
theorem CvShape.finish (h : CvShape H i (f :: fs) w) (hfin : f.Final) :
    (∀ e, f ≠ .cvDone e) ∧ CvShape H i fs w ∨ fs = [] := by
  generalize hfs : f :: fs = gs at h
  cases h with
  | outside h =>
    subst hfs
    exact Or.inl ⟨(h f (by simp)).not_done, .outside fun g hg => h g (by simp [hg])⟩
  | waits hl =>
    rcases hl.append_eq hfs.symm with ⟨rfl, hg⟩ | ⟨hs, rfl⟩
    · obtain ⟨rfl, -⟩ := List.cons.inj hg
      exact hfin.elim
    · exact Or.inl ⟨hs.plain.not_done, CvShape.waits (m := true) (Or.inl rfl)⟩
  | acquires hl hw =>
    rcases hl.append_eq hfs.symm with ⟨rfl, hg⟩ | ⟨hs, rfl⟩
    · obtain ⟨rfl, -⟩ := List.cons.inj hg
      exact hfin.elim
    · exact Or.inl ⟨hs.plain.not_done, CvShape.acquires (m := true) (Or.inl rfl) hw⟩
  | returns hw hi => exact Or.inr (List.cons.inj hfs).2

/-- A thread that asks for a lock does so for itself or in a `cv_wait` whose wait is over. -/
theorem CvShape.asks {e : Bool} (h : CvShape H i (.acquireLoop l e :: fs) w) :
    (∀ g ∈ fs, g.Plain) ∨ ∃ w' e', w = some w' ∧ w'.lock = l ∧ w'.fate ≠ .asleep ∧
      fs = [.cvDone e'] := by
  generalize hfs : Frame.acquireLoop l e :: fs = gs at h
  cases h with
  | outside h =>
    subst hfs
    exact Or.inl fun g hg => h g (by simp [hg])
  | waits hl =>
    rcases hl.append_eq hfs.symm with ⟨-, hg⟩ | ⟨hs, -⟩
    · simp at hg
    · cases hs
  | @acquires _ w' m m' e' hl hw =>
    rcases hl.append_eq hfs.symm with ⟨-, hg⟩ | ⟨hs, -⟩
    · obtain ⟨hl', rfl⟩ := List.cons.inj hg
      injection hl' with hl' _
      exact Or.inr ⟨w', e', rfl, hl', hw, rfl⟩
    · cases hs
  | returns hw hi => simp at hfs

/-- A thread about to ask for its lock again is in a `cv_wait`. -/
theorem CvShape.wakes {e : Bool} (h : CvShape H i (.cvReacquire l e :: fs) w) :
    fs = [] ∧ ∃ w', w = some w' ∧ w'.lock = l := by
  generalize hfs : Frame.cvReacquire l e :: fs = gs at h
  cases h with
  | outside h =>
    subst hfs
    exact (h _ List.mem_cons_self).elim
  | @waits _ w' m e' hl =>
    rcases hl.append_eq hfs.symm with ⟨-, hg⟩ | ⟨hs, -⟩
    · obtain ⟨hl', rfl⟩ := List.cons.inj hg
      injection hl' with hl' _
      exact ⟨rfl, w', rfl, hl'⟩
    · cases hs
  | acquires hl hw =>
    rcases hl.append_eq hfs.symm with ⟨-, hg⟩ | ⟨hs, -⟩
    · simp at hg
    · cases hs
  | returns hw hi => simp at hfs

/-- A thread at the end of `cv_wait` holds the lock. -/
theorem CvShape.done {e : Bool} (h : CvShape H i (.cvDone e :: fs) w) :
    ∃ w', w = some w' ∧ w'.fate ≠ .asleep ∧ i ∈ H w'.lock := by
  generalize hfs : Frame.cvDone e :: fs = gs at h
  cases h with
  | outside h =>
    subst hfs
    exact (h _ List.mem_cons_self).elim
  | waits hl =>
    rcases hl.append_eq hfs.symm with ⟨-, hg⟩ | ⟨hs, -⟩
    · simp at hg
    · cases hs
  | acquires hl hw =>
    rcases hl.append_eq hfs.symm with ⟨-, hg⟩ | ⟨hs, -⟩
    · simp at hg
    · cases hs
  | @returns w' _ hw hi => exact ⟨w', rfl, hw, hi⟩

/-- **The running thread moves along `cv_wait`.** -/
theorem cvShape_own {C : Context} (h : CvShape H s.currentThreadId s.frames (W s.currentThreadId))
    (ha : Acts s k C) (hcall : ∀ op, k = .call op → s.frames = [])
    (hpre : k = .preempt → s.frames = [])
    (hwake : ∀ w, W s.currentThreadId = some w → w.fate ≠ .asleep) :
    CvShape (holders s k t H) s.currentThreadId C.frames
      (cvCalls s k t Q W s.currentThreadId) := by
  cases ha with
  | same hid hset => rw [hcall _ rfl]; exact .nil
  | id => rw [hcall _ rfl]; exact .nil
  | setInterrupts b => rw [hcall _ rfl]; exact .nil
  | switches hid hf => rw [hcall _ rfl]; exact .lost (Or.inr ⟨_, hf, rfl⟩)
  | lockAcquires l =>
    rw [hcall _ rfl]
    exact .outside (by simp [Frame.Plain])
  | @cvWaits c l fs hl =>
    rw [hcall _ rfl]
    simp only [cvCalls, Function.update_self]
    exact CvShape.waits (w := ⟨c, l, _⟩) hl
  | @preempts fs hl =>
    rw [hpre rfl]
    refine .outside fun f hf => ?_
    rcases List.mem_append.1 hf with hf | hf
    · exact hl.plain hf
    · obtain rfl := List.mem_singleton.1 hf
      trivial
  | @finishes f fs hf hfin =>
    rw [hf] at h
    -- a frame outside `cv_wait` ends, or the last one of a `cv_wait`
    rcases h.finish hfin with ⟨hne, hfs⟩ | rfl
    · rw [cvCalls_resume hf hne]
      have hH : holders s .resume t H = H := by
        cases f with
        | acquireLoop l e => exact hfin.elim
        | _ => simp only [holders, hf]
      rwa [hH]
    · exact .nil
  | @acquires l e fs lock hf hl hav =>
    rw [hf] at h
    rw [cvCalls_resume hf (by simp)]
    -- a `lock_acquire` of its own, or the one at the end of `cv_wait`
    rcases h.asks with hfs | ⟨w, e', hw, rfl, hfate, rfl⟩
    · exact .outside hfs
    · rw [hw]
      refine .returns hfate ?_
      simp [holders, hf, lockBusy_available hl hav]
  | @acquireStays l e m fs gs hf hl =>
    rw [hf] at h
    rw [cvCalls_resume hf (by simp)]
    rcases h.asks with hfs | ⟨w, e', hw, rfl, hfate, rfl⟩
    · refine .outside fun g hg => ?_
      rcases List.mem_append.1 hg with hg | hg
      · exact hl.plain hg
      · rcases List.mem_cons.1 hg with rfl | hg
        · trivial
        · exact hfs g hg
    · rw [hw]
      exact .acquires hl hfate
  | @reacquires l e fs hf =>
    rw [hf] at h
    rw [cvCalls_resume hf (by simp)]
    obtain ⟨rfl, w, hw, rfl⟩ := h.wakes
    rw [hw]
    -- the thread runs again, so it was woken or never slept
    exact CvShape.acquires (m := true) (Or.inl rfl) (hwake w hw)

/-! ### Who wakes up -/

/-- The thread runs or is ready. -/
def View.Awake (v : View) (i : ℕ) : Prop := i = v.running ∨ i ∈ v.ready

/-- From `v` to `v'` only the threads in `P` wake up, and only the running one lies down. -/
structure Stirs (v v' : View) (P : ℕ → Prop) : Prop where
  awake : ∀ j, v'.Awake j → v.Awake j ∨ P j
  waiting : ∀ q l j, v'.waiting q = some l → j ∈ l →
    j = v.running ∨ ∃ l', v.waiting q = some l' ∧ j ∈ l'

variable {v' : View} {P : ℕ → Prop} {u : ℕ}

namespace Stirs

theorem refl : Stirs v v P where
  awake _ h := Or.inl h
  waiting _ l _ h hj := Or.inr ⟨l, h, hj⟩

theorem of_waiting (hw : v'.waiting = v.waiting) (h : ∀ j, v'.Awake j → v.Awake j ∨ P j) :
    Stirs v v' P where
  awake := h
  waiting _ l _ hq hj := Or.inr ⟨l, hw ▸ hq, hj⟩

theorem dispatch : Stirs v v.dispatch P := by
  refine of_waiting View.waiting_dispatch fun j hj => Or.inl ?_
  cases hr : v.ready with
  | nil => rwa [View.dispatch_nil hr] at hj
  | cons x r =>
    rw [View.dispatch_cons hr] at hj
    simp only [View.Awake, hr, List.mem_cons] at hj ⊢
    exact Or.inr hj

theorem enqueue (hu : P u) : Stirs v (v.enqueue u) P := by
  refine of_waiting rfl fun j hj => ?_
  simp only [View.Awake, View.enqueue, List.mem_append, List.mem_singleton] at hj
  rcases hj with hj | hj | rfl
  · exact Or.inl (Or.inl hj)
  · exact Or.inl (Or.inr hj)
  · exact Or.inr hu

theorem remove : Stirs v (v.remove u) P :=
  of_waiting rfl fun _ hj => Or.inl (hj.imp_right List.mem_of_mem_erase)

theorem yieldAny : Stirs v v.yieldAny P := by
  refine of_waiting View.waiting_yieldAny fun j hj => Or.inl ?_
  cases hr : v.ready with
  | nil => rwa [View.yieldAny_nil hr] at hj
  | cons x r =>
    rw [View.yieldAny_cons hr] at hj
    simp only [View.Awake, List.mem_append, hr, List.mem_cons] at hj ⊢
    tauto

theorem yieldTo : Stirs v (v.yieldTo u) P := by
  refine of_waiting View.waiting_yieldTo fun j hj => Or.inl ?_
  by_cases hu : u ∈ v.ready
  · rw [View.yieldTo_mem hu] at hj
    simp only [View.Awake, List.mem_append, List.mem_singleton] at hj
    rcases hj with rfl | hj | rfl
    · exact Or.inr hu
    · exact Or.inr (List.mem_of_mem_erase hj)
    · exact Or.inl rfl
  · unfold View.yieldTo at hj
    rwa [if_neg hu] at hj

theorem setQueue {o : Option (List ℕ)} (ho : ∀ l, o = some l → l = []) :
    Stirs v (v.setQueue q o) P where
  awake _ h := Or.inl h
  waiting q' l j hq hj := by
    simp only [View.setQueue, Function.update_apply] at hq
    split at hq
    · rw [ho l hq] at hj
      simp at hj
    · exact Or.inr ⟨l, hq, hj⟩

theorem sleep : Stirs v (v.sleep q) P := by
  cases hr : v.ready with
  | nil => rw [View.sleep_nil hr]; exact refl
  | cons x r =>
    cases hq : v.waiting q with
    | none =>
      have : v.sleep q = v := by simp [View.sleep, hr, hq]
      rw [this]
      exact refl
    | some ws =>
      rw [View.sleep_cons hr hq]
      refine ⟨fun j hj => Or.inl ?_, fun q' l j hl hj => ?_⟩
      · simp only [View.Awake, hr, List.mem_cons] at hj ⊢
        exact Or.inr hj
      · simp only [Function.update_apply] at hl
        by_cases e : q' = q
        · rw [if_pos e] at hl
          obtain rfl := Option.some.inj hl
          rcases List.mem_append.1 hj with hj | hj
          · rw [e]
            exact Or.inr ⟨ws, hq, hj⟩
          · exact Or.inl (List.mem_singleton.1 hj)
        · rw [if_neg e] at hl
          exact Or.inr ⟨l, hl, hj⟩

theorem wakeup (hP : ∀ j ∈ v.woken q all, P j) : Stirs v (v.wakeup q all) P := by
  cases hq : v.waiting q with
  | none =>
    unfold View.wakeup
    rw [hq]
    exact refl
  | some ws =>
    rw [View.wakeup_some hq]
    refine ⟨fun j hj => ?_, fun q' l j hl hj => Or.inr ?_⟩
    · simp only [View.Awake, List.mem_append] at hj ⊢
      rcases hj with hj | hj | hj
      · exact Or.inl (Or.inl hj)
      · exact Or.inl (Or.inr hj)
      · exact Or.inr (hP j hj)
    · simp only [Function.update_apply] at hl
      by_cases e : q' = q
      · rw [if_pos e] at hl
        obtain rfl := Option.some.inj hl
        rw [e]
        exact ⟨ws, hq, List.mem_of_mem_drop hj⟩
      · rw [if_neg e] at hl
        exact ⟨l, hl, hj⟩

end Stirs

/-- The threads that a step wakes or creates. -/
inductive Woken (s : Sched) (v : View) : Label → ℕ → Prop
  | created {stack : Option ℕ} {j : ℕ} (h : firstInvalid s = some j) :
      Woken s v (.call (.create stack)) j
  | bare {q : ℕ} {all : Bool} {j : ℕ} (h : j ∈ v.woken q all) :
      Woken s v (.call (.wakeup (some q) all)) j
  | lock {k : Label} {l j : ℕ} {lock : Lock} (hl : s.lockBusy l = some lock)
      (h : j ∈ v.woken lock.waitQ true) : Woken s v k j
  | cv {all : Bool} {c l q j : ℕ} (hc : s.cvs c = some q) (h : j ∈ v.woken q all) :
      Woken s v (.call (cvOp all c l)) j

theorem running_wakeup : (v.wakeup q all).running = v.running := by
  unfold View.wakeup
  split <;> rfl

theorem Stirs.wakeup_sleep (h : Stirs v (v.wakeup q all) P) :
    Stirs v ((v.wakeup q all).sleep u) P := by
  have h' : Stirs (v.wakeup q all) ((v.wakeup q all).sleep u) fun _ => False := Stirs.sleep
  refine ⟨fun j hj => ?_, fun q' l j hl hj => ?_⟩
  · rcases h'.awake j hj with hj | hj
    · exact h.awake j hj
    · exact hj.elim
  · rcases h'.waiting q' l j hl hj with hj | ⟨l', hl', hj'⟩
    · exact Or.inl (hj.trans running_wakeup)
    · exact h.waiting q' l' j hl' hj'

/-- **What a step wakes.** -/
theorem seqStep_stirs : Stirs v (seqStep s v k) (Woken s v k) := by
  have hnew : ∀ l : List ℕ, some ([] : List ℕ) = some l → l = [] :=
    fun l h => (Option.some.inj h).symm
  -- `cv_signal` and `cv_broadcast`
  have hcv : ∀ all c l, Stirs v (seqOp s v (cvOp all c l)) (Woken s v (.call (cvOp all c l))) := by
    intro all c l
    cases hc : s.cvs c with
    | none =>
      rw [seqOp_cvOp_none (Or.inl hc)]
      exact .refl
    | some q => cases hl : s.lockBusy l with
      | none =>
        rw [seqOp_cvOp_none (Or.inr hl)]
        exact .refl
      | some lock =>
        rw [seqOp_cvOp hc hl]
        exact .wakeup fun j hj => .cv hc hj
  cases k with
  | preempt => exact .yieldAny
  | resume =>
    simp only [seqStep]
    split
    · split
      · exact .sleep
      · exact .refl
    · exact .refl
  | call op => cases op with
    | create stack => cases stack with
      | none => exact .refl
      | some a =>
        simp only [seqStep, seqOp]
        cases hi : firstInvalid s with
        | none => exact .refl
        | some i => exact .enqueue (.created hi)
    | yield tid =>
      simp only [seqStep, seqOp]
      split
      · exact .yieldAny
      · split
        · exact .refl
        · exact .yieldTo
    | exit => exact .dispatch
    | kill tid =>
      simp only [seqStep, seqOp]
      split
      · exact .refl
      · exact .remove
    | queueCreate q => exact .setQueue hnew
    | lockCreate l q => exact .setQueue hnew
    | cvCreate c q => exact .setQueue hnew
    | queueDestroy q => exact .setQueue (by simp)
    | cvDestroy c =>
      simp only [seqStep, seqOp]
      split
      · exact .setQueue (by simp)
      · exact .refl
    | lockDestroy l =>
      simp only [seqStep, seqOp]
      split
      · split
        · exact .setQueue (by simp)
        · exact .refl
      · exact .refl
    | sleep queue => cases queue with
      | none => exact .refl
      | some q => exact .sleep
    | wakeup queue all => cases queue with
      | none => exact .refl
      | some q => exact .wakeup fun j hj => .bare hj
    | lockRelease l =>
      simp only [seqStep, seqOp]
      cases hl : s.lockBusy l with
      | none => exact .refl
      | some lock => exact .wakeup fun j hj => .lock hl hj
    | cvWait c l =>
      simp only [seqStep, seqOp]
      cases hc : s.cvs c with
      | none => exact .refl
      | some q => cases hl : s.lockBusy l with
        | none => exact .refl
        | some lock => exact (Stirs.wakeup fun j hj => .lock hl hj).wakeup_sleep
    | cvSignal c l => exact hcv false c l
    | cvBroadcast c l => exact hcv true c l
    | id => exact .refl
    | lockAcquire l => exact .refl
    | setInterrupts b => exact .refl

/-- Thread `i` waits on condition variables and nowhere else. -/
structure Sleeps (s : Sched) (v : View) (i : ℕ) : Prop where
  awake : ¬v.Awake i
  waiting : ∀ q l, v.waiting q = some l → i ∈ l → ∃ c, s.cvs c = some q

/-- A condition variable keeps its queue until it is destroyed, and its queue with it. -/
theorem cv_kept (he : Effect s k t.rest) (hc : s.cvs c = some q) :
    t.cvs c = some q ∨ (seqStep s v k).waiting q = none := by
  obtain ⟨R, hR⟩ : ∃ R, R = t.rest := ⟨_, rfl⟩
  rw [← hR] at he
  have hcvs : t.cvs = R.cvs := by rw [hR]; rfl
  rw [hcvs]
  cases he with
  | @cvCreates c' q' hfree hq =>
    have hne : c ≠ c' := by
      rintro rfl
      exact absurd (hfree.symm.trans hc) (by simp)
    exact Or.inl ((Function.update_of_ne hne _ _).trans hc)
  | @cvDestroys c' q' hc' =>
    by_cases hcc : c = c'
    · subst hcc
      obtain rfl := Option.some.inj (hc.symm.trans hc')
      refine Or.inr ?_
      simp [seqStep, seqOp, hc, View.setQueue]
    · exact Or.inl ((Function.update_of_ne hcc _ _).trans hc)
  | kills hk => exact Or.inl (by unfold Rest.reap; split <;> exact hc)
  | _ => exact Or.inl hc

theorem mem_woken {j : ℕ} (h : j ∈ v.woken q all) : ∃ l, v.waiting q = some l ∧ j ∈ l := by
  unfold View.woken at h
  split at h
  · simp at h
  · rename_i l hl
    refine ⟨l, hl, ?_⟩
    split at h
    · exact h
    · exact List.mem_of_mem_take h

/-- A sleeper that is not woken sleeps on. -/
theorem Sleeps.step (hi : Sleeps s v i) (hw : ¬Woken s v k i) (he : Effect s k t.rest) :
    Sleeps t (seqStep s v k) i := by
  refine ⟨fun ha => ?_, fun q l hq hm => ?_⟩
  · rcases seqStep_stirs.awake i ha with h | h
    · exact hi.awake h
    · exact hw h
  · rcases seqStep_stirs.waiting q l i hq hm with h | ⟨l', hl', hm'⟩
    · exact absurd (Or.inl h) hi.awake
    · obtain ⟨c, hc⟩ := hi.waiting q l' hl' hm'
      rcases cv_kept (v := v) he hc with hc' | hgone
      · exact ⟨c, hc'⟩
      · rw [hgone] at hq
        simp at hq

/-- A call on which its thread sleeps has just begun, or is as it was. -/
theorem cvCalls_asleep {w : CvCall} (h : cvCalls s k t Q W i = some w) (hw : w.fate = .asleep) :
    (∃ c l, k = .call (.cvWait c l) ∧ i = s.currentThreadId ∧
      t.currentThreadId ≠ s.currentThreadId) ∨ W i = some w := by
  have hsignal : (W i).map CvCall.signal ≠ some w := by
    intro h
    obtain ⟨w₀, -, rfl⟩ := Option.map_eq_some_iff.1 h
    simp [CvCall.signal] at hw
  unfold cvCalls at h
  split at h
  · rename_i c l
    by_cases hi : i = s.currentThreadId
    · rw [hi, Function.update_self] at h
      obtain rfl := Option.some.inj h
      refine Or.inl ⟨c, l, rfl, hi, fun e => ?_⟩
      simp [e] at hw
    · rw [Function.update_of_ne hi] at h
      exact Or.inr h
  · split at h
    · exact absurd h hsignal
    · exact Or.inr h
  · split at h
    · exact absurd h hsignal
    · exact Or.inr h
  · split at h
    · simp at h
    · exact Or.inr h
  · generalize s.frames = fs at h
    rcases fs with _ | ⟨_ | _ | _ | _ | _ | _ | _, fs⟩
    case cons.cvDone =>
      by_cases hi : i = s.currentThreadId
      · simp [hi] at h
      · exact Or.inr ((Function.update_of_ne hi _ _).symm.trans h)
    all_goals exact Or.inr h
  · exact Or.inr h

/-- A step that wakes a thread in `cv_wait` signals it. -/
theorem woken_fate (hown : Owned s v) (hQ : Queued s v Q) (hf : Foreign s k)
    (hi : Sleeps s v i) (hk : Woken s v k i) {w : CvCall}
    (h : cvCalls s k t Q W i = some w) : w.fate ≠ .asleep := by
  cases hk with
  | created hnew => simp [cvCalls, hnew] at h
  | bare hm =>
    obtain ⟨l, hl, hm⟩ := mem_woken hm
    obtain ⟨c, hc⟩ := hi.waiting _ l hl hm
    exact absurd hc (hf (.inr c))
  | lock hl hm =>
    obtain ⟨ts, hts, hm⟩ := mem_woken hm
    obtain ⟨c, hc⟩ := hi.waiting _ ts hts hm
    cases hown.unique _ _ _ (queueOf_busy hl) (queueOf_cv hc)
  | @cv all c l q j hc hm =>
    rw [woken_eq (hQ c q hc)] at hm
    have hmap : (W i).map CvCall.signal = some w := by
      cases all
      · simp only [Bool.false_eq_true, if_false] at hm
        simpa only [cvCalls, cvOp, Bool.false_eq_true, if_false, hm, if_true] using h
      · simp only [if_true] at hm
        simpa only [cvCalls, cvOp, if_true, hm] using h
    obtain ⟨w₀, -, rfl⟩ := Option.map_eq_some_iff.1 hmap
    simp [CvCall.signal]

/-- The threads whose `cv_wait` is asleep sleep. -/
def Sleepers (s : Sched) (v : View) (W : ℕ → Option CvCall) : Prop :=
  ∀ i w, W i = some w → w.fate = .asleep → Sleeps s v i

/-- **Who sleeps in `cv_wait` is asleep until it is signalled.** -/
theorem sleepers_step (h : Represents full s v) (h' : Represents False t (seqStep s v k))
    (hown : Owned s v) (hx : Exclusive s H) (hQ : Queued s v Q) (hS : Sleepers s v W)
    (he : Effect s k t.rest) (hf : Foreign s k) (hb : ByHolder s H k) :
    Sleepers t (seqStep s v k) (cvCalls s k t Q W) := by
  intro i w hw hfate
  rcases cvCalls_asleep hw hfate with ⟨c, l, rfl, rfl, hne⟩ | hold
  · -- the running thread has gone to sleep: it is in one queue only
    obtain ⟨q, lock, hc, hl, hseq⟩ := cvWait_effect (v := v) hx hb he
    have hw := hQ c q hc
    rcases cvWait_view h hown hl hc hw with ⟨hr, hstay, -⟩ | ⟨-, hq⟩
    · refine absurd ?_ hne
      rw [h'.running, hseq, hstay, h.running, running_wakeup]
    · rw [← hseq, ← h.running] at hq
      have hmem : s.currentThreadId ∈ Q c ++ [s.currentThreadId] := by simp
      refine ⟨fun ha => ?_, fun q' l' hl' hm => ⟨c, ?_⟩⟩
      · obtain ⟨hrun, hready⟩ := h'.apart.awake q _ hq _ hmem
        rcases ha with ha | ha
        · exact hrun ha
        · exact hready ha
      · obtain rfl := h'.apart.queues q' q _ _ hl' hq _ hm hmem
        rcases cv_kept (v := v) he hc with hc' | hgone
        · exact hc'
        · rw [hgone] at hq
          simp at hq
  · have hi := hS i w hold hfate
    exact hi.step (fun hk => woken_fate hown hQ hf hi hk hw hfate) he

/-! ### The waiters are the calls that sleep -/

/-- Each waiter of a condition variable is asleep in a `cv_wait` on it. -/
def Marked (s : Sched) (Q : ℕ → List ℕ) (W : ℕ → Option CvCall) : Prop :=
  ∀ c q, s.cvs c = some q → ∀ i ∈ Q c, ∃ w, W i = some w ∧ w.cv = c ∧ w.fate = .asleep

theorem mem_waiters (h : i ∈ waiters s k t Q c) :
    (∃ l, k = .call (.cvWait c l)) ∧ t.currentThreadId ≠ s.currentThreadId ∧
        i = s.currentThreadId ∨ i ∈ Q c := by
  have hdrop : ∀ {c' S}, (∀ j ∈ S, j ∈ Q c') → i ∈ Function.update Q c' S c → i ∈ Q c := by
    intro c' S hS h
    rw [Function.update_apply] at h
    split at h
    · rename_i e
      exact e ▸ hS i h
    · exact h
  unfold waiters at h
  split at h
  · rename_i c' l
    split at h
    · exact Or.inr h
    · rename_i hne
      by_cases e : c = c'
      · subst e
        rw [Function.update_self] at h
        rcases List.mem_append.1 h with h | h
        · exact Or.inr h
        · exact Or.inl ⟨⟨l, rfl⟩, hne, List.mem_singleton.1 h⟩
      · rw [Function.update_of_ne e] at h
        exact Or.inr h
  · exact Or.inr (hdrop (fun j hj => List.mem_of_mem_tail hj) h)
  · exact Or.inr (hdrop (by simp) h)
  · exact Or.inr (hdrop (by simp) h)
  · exact Or.inr h

/-- A condition variable that is signalled is there. -/
theorem step_cvOp (hs : step s (.call (cvOp all c l)) t) : ∃ q, s.cvs c = some q := by
  obtain ⟨o, s', hr, -⟩ := hs
  have hw : wp True (cvWake all c l) (fun _ _ => ∃ q, s.cvs c = some q) s := by
    simp only [cvWake, wp_bind, wp_interruptsSet, wp_getState, Sched.setInterrupts_fields]
    cases hc : s.cvs c with
    | none => simp only [deref, wp_abort]
    | some q =>
      exact wp_of_run fun _ _ _ => wp_of_run fun _ _ _ => wp_of_run fun _ _ _ => ⟨q, rfl⟩
  have hrun : cvWake all c l s = some (o, s') := by
    unfold Label.run at hr
    cases hf : s.frames with
    | nil => cases all <;> simpa [hf, cvOp, runOp, cvSignal, cvBroadcast] using hr
    | cons f fs => simp [hf] at hr
  exact hw.of_run hrun

theorem signals_removed (hQ : (Q c).Nodup) (hi : i ∈ if all then Q c else (Q c).take 1) :
    i ∉ waiters s (.call (cvOp all c l)) t Q c := by
  cases all
  · simp only [Bool.false_eq_true, if_false] at hi
    simp only [waiters, cvOp, Bool.false_eq_true, if_false, Function.update_self]
    cases hq : Q c with
    | nil => simp
    | cons x ws =>
      rw [hq] at hi hQ
      obtain rfl : i = x := by simpa using hi
      exact (List.nodup_cons.1 hQ).1
  · simp [waiters, cvOp]

theorem Sleeps.not_running (h : Represents full s v) (hi : Sleeps s v i) :
    i ≠ s.currentThreadId := by
  rintro rfl
  exact hi.awake (Or.inl h.running)

/-- **The waiters go on sleeping in their calls.** -/
theorem marked_step (h : Represents full s v) (hQ : Queued s v Q) (hS : Sleepers s v W)
    (hM : Marked s Q W) (he : Effect s k t.rest) (hs : step s k t) :
    Marked t (waiters s k t Q) (cvCalls s k t Q W) := by
  intro c q hc i hi
  by_cases hold : s.cvs c = some q
  · rcases mem_waiters hi with ⟨⟨l, rfl⟩, hne, rfl⟩ | hiQ
    · exact ⟨⟨c, l, .asleep⟩, by simp [cvCalls, hne], rfl, rfl⟩
    · obtain ⟨w, hw, hwc, hfate⟩ := hM c q hold i hiQ
      have hvalid := (h.valid i (Represents.holds_asleep (hQ c q hold) hiQ)).2
      have hnew : ¬Creates s k i := fun hk => by
        rw [firstInvalid_invalid hk.2] at hvalid
        simp at hvalid
      rcases cvCalls_other ((hS i w hw hfate).not_running h) hnew with hsame | ⟨hsig, -⟩
      · exact ⟨w, hsame.trans hw, hwc, hfate⟩
      · -- a signal takes the thread off the queue of the variable it waits on
        obtain ⟨all, c', l, rfl, hmem⟩ := hsig
        obtain ⟨q', hc'⟩ := step_cvOp hs
        have hiQ' : i ∈ Q c' := by
          split at hmem
          · exact hmem
          · exact List.mem_of_mem_take hmem
        obtain ⟨w', hw', rfl, -⟩ := hM c' q' hc' i hiQ'
        obtain rfl := Option.some.inj (hw.symm.trans hw')
        subst hwc
        exact absurd hi (signals_removed (h.apart.waiting _ _ (hQ _ q hold)) hmem)
  · obtain rfl := new_cv he hc hold
    simp [waiters] at hi

/-! ### Runs -/

/-- What holds along the runs in question. -/
structure CvInv (s : Sched) (v : View) (g : CvWatch) : Prop where
  reps : Represents False s v
  memory : StacksOwned s.rest
  owned : Owned s v
  exclusive : Exclusive s g.holders
  queued : Queued s v g.waiters
  sleepers : Sleepers s v g.calls
  marked : Marked s g.waiters g.calls
  shape : ∀ i, s.isValid i = true → CvShape g.holders i (s.rest.control i).frames (g.calls i)

variable {g g' : CvWatch}

/-- **Every thread moves along `cv_wait`.** -/
theorem CvInv.shape_step (h : CvInv s v g) (he : Effect s k t.rest) (hs : step s k t)
    (hv : t.isValid i = true) :
    CvShape (holders s k t g.holders) i (t.rest.control i).frames
      (cvCalls s k t g.waiters g.calls i) := by
  by_cases hi : i = s.currentThreadId
  · subst hi
    have hsh := h.shape _ h.reps.valid_current
    rw [show s.rest.control s.currentThreadId = ⟨s.frames, s.interrupts⟩ from
      control_current (R := s.rest)] at hsh
    refine cvShape_own hsh (effect_own he hv) ?_ ?_ ?_
    · rintro op rfl
      exact step_call hs
    · rintro rfl
      exact (step_preempt hs).1
    · exact fun w hw hfate => (h.sleepers _ w hw hfate).not_running h.reps rfl
  · by_cases hnew : Creates s k i
    · rw [effect_created he hi hnew]
      exact .outside (by simp [Frame.Plain])
    · rw [effect_other he hi hnew]
      have hold : s.isValid i = true := (effect_valid he hv).resolve_right hnew
      refine (h.shape i hold).mono ?_ fun l hl => holders_other hi hv hl
      exact (cvCalls_other hi hnew).imp_right And.right

theorem CvInv.step (h : CvInv s v g) (hs : heldStep (s, g) k (t, g')) :
    CvInv t (seqStep s v k) g' := by
  obtain ⟨⟨hf, hb⟩, hstep, hg⟩ := hs
  dsimp only at hf hb hstep hg
  subst hg
  have he := step_effect h.reps hstep
  have hrep := represents_step h.reps False.elim hstep
  exact {
    reps := hrep
    memory := h.memory.step h.reps.valid_current he
    owned := owned_step h.reps h.owned he hf
    exclusive := exclusive_step h.exclusive he (byHolder_proper h.exclusive hb)
    queued := queued_step h.reps hrep h.owned h.exclusive h.queued he hf hb
    sleepers := sleepers_step h.reps hrep h.owned h.exclusive h.queued h.sleepers he hf hb
    marked := marked_step h.reps h.queued h.sleepers h.marked he hstep
    shape := fun i hi => h.shape_step he hstep hi }

theorem CvInv.init : CvInv (threadInit enabled) View.init CvWatch.start where
  reps := (rep_iff.1 (init_rep enabled)).weaken
  memory := (init_sound enabled).owned
  owned := owned_init
  exclusive l i hi := absurd hi (by simp [CvWatch.start])
  queued c q hc := by simp [threadInit] at hc
  sleepers i w hw := by simp [CvWatch.start] at hw
  marked c q hc := by simp [threadInit] at hc
  shape i _ := by
    refine .outside fun f hf => ?_
    have : ((threadInit enabled).rest.control i).frames = [] := by
      unfold Rest.control
      split <;> rfl
    rw [this] at hf
    simp at hf

theorem run_cvInv (hr : Run heldStep (threadInit enabled, CvWatch.start) ls (t, g)) :
    ∃ v, CvInv t v g := by
  apply run_inv (I := fun p : Sched × CvWatch => ∃ v, CvInv p.1 v p.2) _ hr
  · exact ⟨_, CvInv.init⟩
  · intro p k q h hs
    obtain ⟨v, hv⟩ := h
    exact ⟨_, hv.step hs⟩

theorem Represents.chain_of (h : Represents full s v) {ts : List ℕ} (hq : v.waiting q = some ts) :
    ∃ w, s.waitQueues q = some w ∧ Chain s.next w.head ts := by
  have ha := h.alloc q
  rw [hq] at ha
  obtain ⟨w, hw⟩ := Option.isSome_iff_exists.1 ha
  exact ⟨w, hw, (h.waiting q w _ hw hq).chain⟩

/-- A `cv_wait` leaves its caller asleep behind the other waiters, or nobody else is ready and
the call goes on. -/
theorem CvInv.waits (h : CvInv s v g) (hs : heldStep (s, g) (.call (.cvWait c l)) (t, g'))
    (hc : s.cvs c = some q) : ∃ w, t.waitQueues q = some w ∧
      (t.currentThreadId ≠ s.currentThreadId ∧
          Chain t.next w.head (g.waiters c ++ [s.currentThreadId]) ∨
        t.currentThreadId = s.currentThreadId ∧ t.readyQ.head = none ∧ t.frames ≠ [] ∧
          Chain t.next w.head (g.waiters c)) := by
  have h' := h.step hs
  obtain ⟨⟨hf, hb⟩, hstep, -⟩ := hs
  dsimp only at hf hb hstep
  have he := step_effect h.reps hstep
  obtain ⟨q', lock, hc', hl, hseq⟩ := cvWait_effect (v := v) h.exclusive hb he
  obtain rfl := Option.some.inj (hc.symm.trans hc')
  rcases cvWait_view h.reps h.owned hl hc (h.queued c q hc) with ⟨hr, hstay, hq⟩ | ⟨hne, hq⟩
  · rw [← hstay, ← hseq] at hq
    have hsame : t.currentThreadId = s.currentThreadId := by
      rw [h'.reps.running, hseq, hstay, h.reps.running, running_wakeup]
    obtain ⟨w, hw, hchain⟩ := h'.reps.chain_of hq
    refine ⟨w, hw, Or.inr ⟨hsame, h'.reps.head_nil ?_, ?_, hchain⟩⟩
    · rw [hseq, hstay, hr]
    · obtain ⟨R, hR⟩ : ∃ R, R = t.rest := ⟨_, rfl⟩
      have hcur : R.current = s.currentThreadId := hR ▸ hsame
      have hframes : t.frames = R.frames := by rw [hR]; rfl
      rw [← hR] at he
      rw [hframes]
      cases he with
      | idle hi =>
        have hi' : s.lockBusy l = none := hi
        rw [hl] at hi'
        simp at hi'
      | cvWaitStays hc' hl' => simp [Rest.push]
      | cvWaits hc' hl' hp => exact absurd hcur hp.1
  · rw [← hseq] at hne hq
    rw [← h'.reps.running, ← h.reps.running] at hne
    rw [← h.reps.running] at hq
    obtain ⟨w, hw, hchain⟩ := h'.reps.chain_of hq
    exact ⟨w, hw, Or.inl ⟨hne, hchain⟩⟩

/-- A signal makes the longest waiting thread ready, a broadcast all of them, and no other. -/
theorem CvInv.wakes (h : CvInv s v g) (hs : heldStep (s, g) (.call (cvOp all c l)) (t, g'))
    (hc : s.cvs c = some q) : ∃ w ts, t.waitQueues q = some w ∧
      Chain t.next w.head (if all then [] else (g.waiters c).tail) ∧
      Chain s.next s.readyQ.head ts ∧
      Chain t.next t.readyQ.head (ts ++ if all then g.waiters c else (g.waiters c).take 1) := by
  have h' := h.step hs
  obtain ⟨⟨hf, hb⟩, hstep, -⟩ := hs
  dsimp only at hf hb hstep
  have hb' : s.currentThreadId ∈ g.holders l := by cases all <;> exact hb
  have hw := h.queued c q hc
  have hseq := cvOp_view (v := v) all h.exclusive hb' hc
  have hq : (v.wakeup q all).waiting q = some (if all then [] else (g.waiters c).tail) :=
    waiting_wake hw
  rw [← hseq] at hq
  obtain ⟨w, hw', hchain⟩ := h'.reps.chain_of hq
  have hready := h'.reps.ready.chain
  rw [hseq, View.wakeup_some hw] at hready
  rw [woken_eq hw] at hready
  exact ⟨w, v.ready, hw', hchain, h.reps.ready.chain, hready⟩

/-- A `cv_wait` about to return. -/
theorem CvInv.returns (h : CvInv s v g) {e : Bool} (hf : s.frames = .cvDone e :: fs) :
    ∃ w, g.calls s.currentThreadId = some w ∧ (w.fate = .signalled ∨ w.fate = .refused) ∧
      g.holders w.lock = {s.currentThreadId} := by
  have hsh := h.shape _ h.reps.valid_current
  have hctl : (s.rest.control s.currentThreadId).frames = .cvDone e :: fs := by
    rw [← hf]
    exact congrArg Context.frames (control_current (R := s.rest))
  rw [hctl] at hsh
  obtain ⟨w, hw, hfate, hi⟩ := hsh.done
  refine ⟨w, hw, ?_, Finset.eq_singleton_iff_unique_mem.2 ⟨hi, (h.exclusive _ _ hi).2⟩⟩
  cases hw' : w.fate with
  | asleep => exact absurd hw' hfate
  | signalled => exact Or.inl rfl
  | refused => exact Or.inr rfl

/-- The holder of a lock can release it, and wait and signal with it. -/
theorem CvInv.live (h : CvInv s v g) (hi : i ∈ g.holders l) (hc : s.cvs c = some q) :
    s.HasCv c ∧ s.HasLock l := by
  have hqueue : ∀ {o q}, s.queueOf o = some q → s.HasQueue q := fun {_ q} ho =>
    (h.reps.alloc q).trans (h.owned.alloc _ q ho)
  obtain ⟨⟨lock, hl, -⟩, -⟩ := h.exclusive l i hi
  exact ⟨⟨q, hc, hqueue (queueOf_cv hc)⟩, lock, hl, hqueue (queueOf_lock hl)⟩

/-- A step that is possible is watched. -/
theorem CvInv.exists_step (h : CvInv s v g) (hf : Foreign s k) (hb : ByHolder s g.holders k)
    (hk : k.Possible s) : ∃ t g', heldStep (s, g) k (t, g') := by
  obtain ⟨t, ht⟩ := step_exists ⟨h.reps, h.memory⟩ hk
  exact ⟨t, watchCvs s k t g, ⟨hf, hb⟩, ht, rfl⟩

/-- **Condition variables do not miss signals.** In every run in which locks are released,
waited on and signalled by their holders:

* the queue of a condition variable is the list of the threads whose `cv_wait` on it sleeps,
  the longest waiting first;
* a `cv_wait` leaves its caller at the end of this queue if another thread runs, and if not
  nobody else was ready; it is never over at once;
* a signal moves the longest waiting thread to the ready queue, a broadcast all of them;
* a `cv_wait` that is about to return was signalled or refused its sleep, and its caller is
  the only holder of the lock;
* the holder of a lock can release it, wait, signal and broadcast, and a pending frame can be run
  as long as the lock it looks at is there. -/
theorem cv_no_missed_signal
    (hr : Run heldStep (threadInit enabled, CvWatch.start) ls (t, g)) :
    (∀ c q, t.cvs c = some q →
      (∃ w, t.waitQueues q = some w ∧ Chain t.next w.head (g.waiters c)) ∧
      ∀ i ∈ g.waiters c, ∃ w, g.calls i = some w ∧ w.cv = c ∧ w.fate = .asleep) ∧
    (∀ c l q u g', heldStep (t, g) (.call (.cvWait c l)) (u, g') → t.cvs c = some q →
      ∃ w, u.waitQueues q = some w ∧
        (u.currentThreadId ≠ t.currentThreadId ∧
            Chain u.next w.head (g.waiters c ++ [t.currentThreadId]) ∨
          u.currentThreadId = t.currentThreadId ∧ u.readyQ.head = none ∧ u.frames ≠ [] ∧
            Chain u.next w.head (g.waiters c))) ∧
    (∀ all c l q u g', heldStep (t, g) (.call (cvOp all c l)) (u, g') → t.cvs c = some q →
      ∃ w ts, u.waitQueues q = some w ∧
        Chain u.next w.head (if all then [] else (g.waiters c).tail) ∧
        Chain t.next t.readyQ.head ts ∧
        Chain u.next u.readyQ.head (ts ++ if all then g.waiters c else (g.waiters c).take 1)) ∧
    (∀ e fs, t.frames = .cvDone e :: fs →
      ∃ w, g.calls t.currentThreadId = some w ∧ (w.fate = .signalled ∨ w.fate = .refused) ∧
        g.holders w.lock = {t.currentThreadId}) ∧
    (∀ c l q, t.cvs c = some q → t.currentThreadId ∈ g.holders l → t.frames = [] →
      ∀ op ∈ [Op.lockRelease l, .cvWait c l, .cvSignal c l, .cvBroadcast c l],
        ∃ u g', heldStep (t, g) (.call op) (u, g')) ∧
    ∀ f fs, t.frames = f :: fs → f.Live t → ∃ u g', heldStep (t, g) .resume (u, g') := by
  obtain ⟨v, h⟩ := run_cvInv hr
  refine ⟨fun c q hc => ⟨h.reps.chain_of (h.queued c q hc), h.marked c q hc⟩,
    fun c l q u g' hs hc => h.waits hs hc, fun b c l q u g' hs hc => h.wakes hs hc,
    fun e fs hf => h.returns hf, fun c l q hc hi hf op hop => ?_,
    fun f fs hf hl => h.exists_step trivial trivial ⟨f, fs, hf, hl⟩⟩
  have hlive := h.live hi hc
  simp only [List.mem_cons, List.not_mem_nil, or_false] at hop
  rcases hop with rfl | rfl | rfl | rfl
  · exact h.exists_step trivial hi ⟨hf, hlive.2⟩
  · exact h.exists_step trivial hi ⟨hf, hlive⟩
  · exact h.exists_step trivial hi ⟨hf, hlive⟩
  · exact h.exists_step trivial hi ⟨hf, hlive⟩

/-- The next watched state, when the label fits and the lock is used by its holder. -/
def heldNext (p : Sched × CvWatch) (k : Label) : Option (Sched × CvWatch) :=
  if ByHolder p.1 p.2.holders k then watchNext watchCvs p k else none

theorem heldNext_any {good : Sched × CvWatch → Bool} (hall : ∀ k ∈ ls, ∀ s, Foreign s k)
    (h : (runAll heldNext (threadInit true, CvWatch.start) ls).any good = true) :
    ∃ t g, Run heldStep (threadInit true, CvWatch.start) ls (t, g) ∧ good (t, g) = true := by
  obtain ⟨⟨t, g⟩, hr, hg⟩ := runAll_any _ _ _ _ h
  refine ⟨t, g, (hr.guard fun k hk p => hall k hk p.1).mono fun p k q hs => ?_, hg⟩
  obtain ⟨hf, hs⟩ := hs
  unfold heldNext at hs
  split at hs
  · rename_i hb
    exact ⟨⟨hf, hb⟩, watch_next hs⟩
  · cases hs

/-- Threads 0 and 1 take the lock and wait, and thread 2 takes it. -/
def waitersRun : List Label :=
  [.call (.create (some 7)), .call (.create (some 8)), .call (.lockCreate 3 4),
    .call (.cvCreate 5 6), .call (.lockAcquire 3), .resume, .call (.cvWait 5 3), .resume,
    .call (.lockAcquire 3), .resume, .call (.cvWait 5 3), .resume, .call (.lockAcquire 3), .resume]

theorem waitersRun_returns : (runAll heldNext (threadInit true, CvWatch.start) waitersRun).any
    (fun q => decide (q.1.frames = [] ∧ q.1.currentThreadId = 2 ∧ q.2.holders 3 = {2} ∧
      q.1.cvs 5 = some 6 ∧ q.2.waiters 5 = [0, 1] ∧ q.1.readyQ.head = none)) = true := by
  decide +kernel

/-- Thread 2 broadcasts, releases the lock and yields; thread 0 has the lock again and its wait is
about to return. -/
def cvRun : List Label :=
  waitersRun ++ [.call (.cvBroadcast 5 3), .call (.lockRelease 3), .call (.yield threadAny),
    .resume, .resume, .resume]

theorem cvRun_returns : (runAll heldNext (threadInit true, CvWatch.start) cvRun).any
    (fun q => decide (q.1.frames = [.cvDone true] ∧ q.1.currentThreadId = 0 ∧
      q.2.calls 0 = some ⟨5, 3, .signalled⟩)) = true := by
  decide +kernel

theorem cv_no_missed_signal_sample :
    (∃ t g u g', Run heldStep (threadInit true, CvWatch.start) waitersRun (t, g) ∧
      g.waiters 5 = [0, 1] ∧ heldStep (t, g) (.call (.cvBroadcast 5 3)) (u, g') ∧
      (∃ w, u.waitQueues 6 = some w ∧ w.head = none) ∧ Chain u.next u.readyQ.head [0, 1]) ∧
    ∃ t g, Run heldStep (threadInit true, CvWatch.start) cvRun (t, g) ∧
      t.frames = [.cvDone true] ∧ g.calls 0 = some ⟨5, 3, .signalled⟩ ∧ g.holders 3 = {0} := by
  constructor
  · obtain ⟨t, g, hr, hgood⟩ := heldNext_any (by simp [waitersRun, Foreign]) waitersRun_returns
    obtain ⟨hf, hcur, hhold, hc, hwait, hready⟩ := of_decide_eq_true hgood
    obtain ⟨-, -, hwakes, -, hcalls, -⟩ := cv_no_missed_signal hr
    have hi : t.currentThreadId ∈ g.holders 3 := by
      rw [hcur]
      exact hhold ▸ Finset.mem_singleton_self 2
    obtain ⟨u, g', hs⟩ := hcalls 5 3 6 hc hi hf (.cvBroadcast 5 3) (by simp)
    obtain ⟨w, ts, hw, hempty, hts, hmoved⟩ := hwakes true 5 3 6 u g' hs hc
    rw [hready] at hts
    obtain rfl : ts = [] := hts.eq_nil_iff.1 rfl
    exact ⟨t, g, u, g', hr, hwait, hs, ⟨w, hw, hempty⟩, hwait ▸ hmoved⟩
  · obtain ⟨t, g, hr, hgood⟩ :=
      heldNext_any (by simp [cvRun, waitersRun, Foreign]) cvRun_returns
    obtain ⟨hf, hcur, hcall⟩ := of_decide_eq_true hgood
    obtain ⟨w, hw, -, hhold⟩ := (cv_no_missed_signal hr).2.2.2.1 true [] hf
    rw [hcur, hcall] at hw
    obtain rfl := Option.some.inj hw
    exact ⟨t, g, hr, hf, hcall, hcur ▸ hhold⟩

end OSLab.Threads
