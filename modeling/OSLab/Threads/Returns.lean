import OSLab.Threads.Control

/-!
# Operations return

A call aborts when it frees a stack that is not allocated or follows a null pointer.
`StacksOwned` holds in every state of every run, also of runs in which a stack `malloc` fails
or thread 0 is killed, so no deferred free aborts (`freePending_returns`).

`Away c` runs are those in which thread `c` does not run. They leave it in the call it is in
(`away_control`).
-/

namespace OSLab.Threads

open Prog

variable {s t u : Sched} {v : View} {full : Prop} {k : Label} {R : Rest} {i p c : ℕ}
  {ls : List Label} {enabled : Bool}

/-- The stacks of the valid threads and the one to be deleted are allocated, and differ. -/
structure StacksOwned (R : Rest) : Prop where
  nodup : R.allocated.Nodup
  stack : ∀ i a, R.isValid i = true → R.stackMemory i = some a →
    a ∈ R.allocated ∧ R.pending ≠ some a
  pending : ∀ a, R.pending = some a → a ∈ R.allocated
  distinct : ∀ i j a, R.isValid i = true → R.isValid j = true → R.stackMemory i = some a →
    R.stackMemory j = some a → i = j

namespace StacksOwned

theorem congr {R' : Rest} (h : StacksOwned R) (ha : R'.allocated = R.allocated)
    (hs : R'.stackMemory = R.stackMemory) (hp : R'.pending = R.pending)
    (hv : R'.isValid = R.isValid) : StacksOwned R' := by
  refine ⟨?_, ?_, ?_, ?_⟩ <;> simp only [ha, hs, hp, hv]
  · exact h.nodup
  · exact h.stack
  · exact h.pending
  · exact h.distinct

/-- The deferred free. -/
theorem freePending (h : StacksOwned R) : StacksOwned R.freePending := by
  cases hp : R.pending with
  | none =>
    refine h.congr ?_ rfl ?_ rfl
    · simp [Rest.freePending, Rest.free, hp]
    · simp [Rest.freePending, hp]
  | some b =>
    have hal : R.freePending.allocated = R.allocated.erase b := by
      simp [Rest.freePending, Rest.free, hp]
    refine ⟨?_, fun i a hv hs => ⟨?_, by simp [Rest.freePending]⟩, ?_, h.distinct⟩
    · rw [hal]
      exact h.nodup.erase b
    · obtain ⟨hm, hne⟩ := h.stack i a hv hs
      rw [hal, h.nodup.mem_erase_iff]
      refine ⟨?_, hm⟩
      rintro rfl
      exact hne hp
    · intro a ha
      simp [Rest.freePending] at ha

/-- The running thread ends. -/
theorem leave (h : StacksOwned R) (hv : R.isValid R.current = true) : StacksOwned (R.leave p) := by
  have hold : ∀ j, (R.leave p).isValid j = true → j ≠ R.current ∧ R.isValid j = true := by
    intro j hj
    have : Function.update R.isValid R.current false j = true := hj
    rw [Function.update_apply] at this
    split at this
    · simp at this
    · exact ⟨‹_›, this⟩
  refine ⟨h.nodup, fun i a hi hs => ?_, fun a ha => (h.stack _ a hv ha).1, fun i j a hi hj => ?_⟩
  · obtain ⟨hne, hi⟩ := hold i hi
    refine ⟨(h.stack i a hi hs).1, fun hp => hne ?_⟩
    exact h.distinct i _ a hi hv hs hp
  · exact h.distinct i j a (hold i hi).2 (hold j hj).2

/-- A thread is killed. -/
theorem reap (h : StacksOwned R) (hv : R.isValid i = true) : StacksOwned (R.reap i) := by
  have hold : ∀ j, Function.update R.isValid i false j = true → j ≠ i ∧ R.isValid j = true := by
    intro j hj
    rw [Function.update_apply] at hj
    split at hj
    · simp at hj
    · exact ⟨‹_›, hj⟩
  unfold Rest.reap
  split
  · refine ⟨h.nodup, fun j a hj => h.stack j a (hold j hj).2, h.pending, fun j l a hj hl => ?_⟩
    exact h.distinct j l a (hold j hj).2 (hold l hl).2
  have hstack : ∀ j, j ≠ i → Function.update R.stackMemory i none j = R.stackMemory j :=
    fun j hj => Function.update_of_ne hj _ _
  -- a stack in use is not the one that is freed
  have hkeep : ∀ a, a ∈ R.allocated → R.stackMemory i ≠ some a →
      a ∈ (R.free (R.stackMemory i)).allocated := by
    intro a ha hne
    unfold Rest.free
    cases hs : R.stackMemory i with
    | none => exact ha
    | some b =>
      refine h.nodup.mem_erase_iff.2 ⟨?_, ha⟩
      rintro rfl
      exact hne hs
  refine ⟨?_, fun j a hj hs => ?_, fun a ha => ?_, fun j l a hj hl hsj hsl => ?_⟩
  · unfold Rest.free
    cases R.stackMemory i with
    | none => exact h.nodup
    | some b => exact h.nodup.erase b
  · obtain ⟨hne, hj⟩ := hold j hj
    have hs' : R.stackMemory j = some a := (hstack j hne).symm.trans hs
    obtain ⟨hm, hp⟩ := h.stack j a hj hs'
    exact ⟨hkeep a hm fun hi => hne (h.distinct j i a hj hv hs' hi), hp⟩
  · exact hkeep a (h.pending a ha) fun hi => (h.stack i a hv hi).2 ha
  · obtain ⟨hne, hj⟩ := hold j hj
    obtain ⟨hne', hl⟩ := hold l hl
    exact h.distinct j l a hj hl ((hstack j hne).symm.trans hsj) ((hstack l hne').symm.trans hsl)

/-- A thread is created; `malloc` may have failed. -/
theorem create {stack : Option ℕ} (h : StacksOwned R)
    (hstack : ∀ a, stack = some a → a ∉ R.allocated) : StacksOwned (R.create i stack) := by
  have hmem : ∀ a, a ∈ (R.create i stack).allocated ↔ stack = some a ∨ a ∈ R.allocated := by
    intro a
    cases stack <;> simp [Rest.create, eq_comm]
  -- what a thread holds is the new stack, or what it held before
  have hold : ∀ j a, (R.create i stack).isValid j = true →
      (R.create i stack).stackMemory j = some a →
      j = i ∧ stack = some a ∨ j ≠ i ∧ R.isValid j = true ∧ R.stackMemory j = some a := by
    intro j a hj hs
    have hj' : Function.update R.isValid i true j = true := hj
    have hs' : Function.update R.stackMemory i stack j = some a := hs
    rw [Function.update_apply] at hj' hs'
    by_cases hji : j = i
    · rw [if_pos hji] at hs'
      exact Or.inl ⟨hji, hs'⟩
    · rw [if_neg hji] at hj' hs'
      exact Or.inr ⟨hji, hj', hs'⟩
  refine ⟨?_, fun j a hj hs => ?_, fun a ha => (hmem a).2 (Or.inr (h.pending a ha)),
    fun j l a hj hl hsj hsl => ?_⟩
  · cases stack with
    | none => exact h.nodup
    | some a => exact List.nodup_cons.2 ⟨hstack a rfl, h.nodup⟩
  · rcases hold j a hj hs with ⟨-, ha⟩ | ⟨-, hv, hs'⟩
    · exact ⟨(hmem a).2 (Or.inl ha), fun hp => hstack a ha (h.pending a hp)⟩
    · exact ⟨(hmem a).2 (Or.inr (h.stack j a hv hs').1), (h.stack j a hv hs').2⟩
  · rcases hold j a hj hsj with ⟨hji, ha⟩ | ⟨-, hv, hs⟩ <;>
      rcases hold l a hl hsl with ⟨hli, hb⟩ | ⟨-, hv', hs'⟩
    · exact hji.trans hli.symm
    · exact absurd (h.stack l a hv' hs').1 (hstack a ha)
    · exact absurd (h.stack j a hv hs).1 (hstack a hb)
    · exact h.distinct j l a hv hv' hs hs'

theorem step (h : StacksOwned s.rest) (hcur : s.isValid s.currentThreadId = true)
    (he : Effect s k R) : StacksOwned R := by
  have hfree := h.freePending
  cases he with
  | creates hi hstack => exact h.create hstack
  | yieldStays tid => exact hfree
  | yields hf hp => exact hfree.congr rfl rfl rfl rfl
  | exitStays => exact hfree
  | exits hp => exact hfree.leave hcur
  | kills hk => exact h.reap hk.2.2.1
  | preemptStays =>
    have : StacksOwned (s.rest.push .handlerDone) := h.congr rfl rfl rfl rfl
    exact this.freePending
  | preempts hf hp =>
    have : StacksOwned (s.rest.push .handlerDone) := h.congr rfl rfl rfl rfl
    exact this.freePending.congr rfl rfl rfl rfl
  | _ => exact h.congr rfl rfl rfl rfl

end StacksOwned

/-- What holds in every state of every run. -/
structure Sound (s : Sched) (v : View) : Prop where
  rep : Represents False s v
  owned : StacksOwned s.rest

theorem init_sound (enabled : Bool) : Sound (threadInit enabled) View.init where
  rep := (rep_iff.1 (init_rep enabled)).weaken
  owned := by
    refine ⟨List.nodup_nil, fun i a _ h => ?_, fun a h => ?_, fun i j a _ _ h => ?_⟩ <;>
      simp [threadInit, Sched.rest, Sched.stackMemory] at h

theorem Sound.step (h : Sound s v) (hs : step s k t) : Sound t (seqStep s v k) :=
  ⟨represents_step h.rep False.elim hs, h.owned.step h.rep.valid_current (step_effect h.rep hs)⟩

/-- **In every state of every run the pointers represent some sequences and the stacks in use
are allocated.** -/
theorem run_sound (hr : Run step (threadInit enabled) ls s) : ∃ v, Sound s v := by
  refine run_inv (I := fun s => ∃ v, Sound s v) ?_ hr ⟨_, init_sound enabled⟩
  intro s k t h hs
  obtain ⟨v, hv⟩ := h
  exact ⟨_, hv.step hs⟩

/-! ### Calls from user code -/

theorem call_run {op : Op} (hu : s.frames = []) : (Label.call op).run s = runOp op s := by
  unfold Label.run
  rw [hu]

/-- An operation that returns makes a step. -/
theorem step_of_returned {op : Op} {a : ℤ} (hu : s.frames = [])
    (hr : runOp op s = some (.returned a, t)) : step s (.call op) { t with ret := a } :=
  ⟨_, t, (call_run hu).trans hr, rfl⟩

/-- A state has one successor for each label. -/
theorem step_unique (h : step s k t) (h' : step s k u) : t = u := by
  obtain ⟨o, s', hr, rfl⟩ := h
  obtain ⟨o', s'', hr', rfl⟩ := h'
  obtain ⟨rfl, rfl⟩ := Prod.mk.inj (Option.some.inj (hr.symm.trans hr'))
  rfl

/-! ### The frees return -/

/-- After `free(a)`. -/
def Sched.free (s : Sched) (a : Option ℕ) : Sched :=
  s.setAllocated (a.elim s.allocated fun a => s.allocated.erase a)

/-- After the deferred free, which changes the stacks and nothing else. -/
def Sched.freed (s : Sched) : Sched := (s.free s.stackMemToBeDeleted).setPendingStack none

theorem freeStack_returns {a : Option ℕ} (ha : ∀ b, a = some b → b ∈ s.allocated) :
    wp False (freeStack a) (fun _ t => t = s.free a) s := by
  cases a with
  | none => exact (wp_pure _).2 rfl
  | some b =>
    simp only [freeStack, wp_bind, wp_getState, wp_require, wp_modify]
    exact ⟨fun _ => rfl, fun hn => hn (ha b rfl)⟩

theorem freePending_returns (h : StacksOwned s.rest) :
    wp False freePending (fun _ t => t = s.freed) s := by
  simp only [freePending, wp_bind, wp_getState, wp_modify]
  refine wp_mono (freeStack_returns h.pending) fun _ t ht => ?_
  rw [ht]
  rfl

/-- Taking a thread out of a queue that is not empty. -/
theorem readyUnlink_returns {x : ℕ} (pre : Option ℕ) (h : s.readyQ.head = some x) :
    wp False (readyUnlink pre p) (fun _ t => t.rest = s.rest) s := by
  cases pre with
  | none =>
    simp only [readyUnlink, readyPop, deref, h, wp_bind, wp_getState, wp_modify, wp_pure]
    exact Sched.rest_setReadyHead s _
  | some y =>
    simp only [readyUnlink, wp_modify]
    exact Sched.rest_setNext s _ _

/-! ### While a thread does not run -/

/-- A step of another thread than `c` that does not create a thread `c`. -/
def Away (c : ℕ) (s : Sched) (k : Label) (t : Sched) : Prop :=
  s.currentThreadId ≠ c ∧ step s k t ∧ ¬Creates s k c

theorem effect_index (he : Effect s k R) (hi : s.index i = i) : R.index i = i := by
  have hreap : ∀ j, (s.rest.reap j).index i = i := by
    intro j
    unfold Rest.reap
    split <;> exact hi
  cases he with
  | @creates stack j hj hstack =>
    have : Function.update s.index j j i = i := by
      rw [Function.update_apply]
      split
      · exact ‹i = j›.symm
      · exact hi
    exact this
  | kills h => exact hreap _
  | _ => exact hi

/-- **A thread that does not run stays where it is in its calls.** -/
theorem away_control (hr : Run (Away c) s ls u) (hv : Represents False s v) :
    u.rest.control c = s.rest.control c ∧ (∀ i, s.index i = i → u.index i = i) ∧
      ∃ w, Represents False u w := by
  induction hr with
  | nil => exact ⟨rfl, fun _ h => h, v, hv⟩
  | snoc _ hs ih =>
    obtain ⟨hc, hidx, w, hw⟩ := ih
    obtain ⟨hne, hstep, hnew⟩ := hs
    have he := step_effect hw hstep
    refine ⟨?_, fun i hi => effect_index he (hidx i hi), _, represents_step hw False.elim hstep⟩
    rw [← hc]
    exact effect_other he hne.symm hnew

/-- A thread that was not valid and is not created does not run. -/
theorem away_invalid (hr : Run (fun s k t => step s k t ∧ ¬Creates s k c) s ls u)
    (hv : Represents False s v) (hc : s.isValid c = false) :
    u.isValid c = false ∧ u.currentThreadId ≠ c := by
  have hinv : u.isValid c = false ∧ ∃ w, Represents False u w := by
    refine run_inv (I := fun s => s.isValid c = false ∧ ∃ w, Represents False s w) ?_ hr ⟨hc, v, hv⟩
    intro s k t h hs
    obtain ⟨hc, w, hw⟩ := h
    refine ⟨?_, _, represents_step hw False.elim hs.1⟩
    by_contra hx
    have hx : t.isValid c = true := by simpa using hx
    rcases effect_valid (step_effect hw hs.1) hx with hy | hy
    · rw [hc] at hy
      simp at hy
    · exact hs.2 hy
  obtain ⟨hx, w, hw⟩ := hinv
  refine ⟨hx, fun e => ?_⟩
  have := hw.valid_current
  rw [e, hx] at this
  simp at this

end OSLab.Threads
