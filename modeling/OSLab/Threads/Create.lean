import OSLab.Threads.Returns
import Mathlib.Data.Finset.Card
import Mathlib.Data.Fintype.EquivFin

/-!
# Failed creations

`CreateContract s stack` says what a `thread_create` leaves behind when it fails, when it may
return `THREAD_NOMORE`, and what a successful one returns.

* `canCreate_iff`: how many further creations can succeed is how many identifiers are free.
* `createContract_iff`: the contract holds unless the stack `malloc` fails while an identifier
  is free. That path leaves the entry valid, in no queue.
-/

namespace OSLab.Threads

open Prog

variable {s t u : Sched} {v : View} {full : Prop} {k : Label} {i n : ℕ} {ls ks : List Label}
  {enabled : Bool} {stack : Option ℕ}

/-- The identifiers that are not valid. -/
def Sched.unused (s : Sched) : Finset ℕ :=
  (Finset.range threadMaxThreads).filter fun i => s.isValid i = false

theorem firstInvalid_eq_none : firstInvalid s = none ↔ ∀ i < threadMaxThreads, s.isValid i = true := by
  unfold firstInvalid
  rw [List.find?_range_eq_none]
  simp

/-- A `thread_create` that succeeded. -/
def Creation (s : Sched) (k : Label) (t : Sched) : Prop :=
  (∃ stack, k = .call (.create stack)) ∧ step s k t ∧ 0 ≤ t.ret

/-- `n` calls of `thread_create`, one after another, can succeed. -/
def CanCreate (s : Sched) (n : ℕ) : Prop := ∃ ks t, ks.length = n ∧ Run Creation s ks t

/-- The call returned one of the two errors. -/
def Failed (t : Sched) : Prop := t.ret = threadNoMore ∨ t.ret = threadNoMemory

/-- The same threads are valid, the queues are the same, and as many creations can succeed. -/
structure NoTrace (s t : Sched) : Prop where
  valid : t.isValid = s.isValid
  queues : ∀ v, Represents False s v → Represents False t v
  creations : ∀ n, CanCreate t n ↔ CanCreate s n

/-- The contract of a `thread_create` for which `malloc` returns `stack`. -/
def CreateContract (s : Sched) (stack : Option ℕ) : Prop :=
  ∀ t, step s (.call (.create stack)) t →
    (Failed t → NoTrace s t) ∧
    (t.ret = threadNoMore → ∀ i < threadMaxThreads, s.isValid i = true) ∧
    (¬Failed t → ∃ i < threadMaxThreads, t.ret = i ∧ s.isValid i = false)

/-! ### What one call does -/

/-- Linking the new thread in follows no pointer that can be `NULL`. -/
theorem createEnqueue_returns : wp False (createEnqueue i) (fun _ _ => True) s := by
  simp only [createEnqueue, wp_bind, wp_getState]
  cases s.readyQ.tail <;>
    simp only [wp_bind, wp_modify, wp_getState, wp_ite, wp_pure, implies_true, and_self]

/-- **`thread_create` returns**, with the first free identifier if there is one and a stack. -/
theorem threadCreate_returns (hstack : ∀ a, stack = some a → a ∉ s.allocated) :
    wp False (threadCreate stack) (fun o t =>
      (firstInvalid s = none ∧ o = .returned threadNoMore ∧ t = s) ∨
      (∃ i, firstInvalid s = some i ∧ stack = none ∧ o = .returned threadNoMemory) ∨
      ∃ i a, firstInvalid s = some i ∧ stack = some a ∧ o = .returned i) s := by
  have hfirst : firstInvalid (s.setInterrupts false) = firstInvalid s := rfl
  simp only [threadCreate, wp_bind, wp_interruptsSet, wp_getState, hfirst]
  cases hi : firstInvalid s with
  | none => exact wp_finish.2 (Or.inl ⟨rfl, rfl, rfl⟩)
  | some i =>
    simp only [wp_bind, wp_modify]
    cases stack with
    | none => exact wp_finish.2 (Or.inr (Or.inl ⟨i, rfl, rfl, rfl⟩))
    | some a =>
      simp only [wp_bind, wp_require, wp_modify]
      refine ⟨fun _ => ?_, fun hn => hn (hstack a rfl)⟩
      refine wp_mono createEnqueue_returns ?_
      intro _ s' _
      exact wp_finish.2 (Or.inr (Or.inr ⟨i, a, rfl, rfl, rfl⟩))

/-- What a step that calls `thread_create` does. -/
theorem create_step (hs : step s (.call (.create stack)) t) :
    (firstInvalid s = none ∧ t = { s with ret := threadNoMore }) ∨
    (∃ i, firstInvalid s = some i ∧ stack = none ∧ t.ret = threadNoMemory ∧
      t.rest = s.rest.create i none) ∨
    (∃ i a, firstInvalid s = some i ∧ stack = some a ∧ t.ret = i ∧
      t.rest = s.rest.create i (some a)) := by
  have hu := step_call hs
  obtain ⟨o, s', hrun, rfl⟩ := hs
  rw [call_run hu, runOp] at hrun
  obtain ⟨-, hrest⟩ := (threadCreate_rest stack).of_run hrun
  by_cases hi : firstInvalid s = none
  · have hout : wp True (threadCreate stack)
        (fun o t => o = .returned threadNoMore ∧ t = s) s := by
      have hfirst : firstInvalid (s.setInterrupts false) = none := hi
      simp only [threadCreate, wp_bind, wp_interruptsSet, wp_getState, hfirst]
      exact wp_finish.2 ⟨rfl, rfl⟩
    obtain ⟨rfl, rfl⟩ := hout.of_run hrun
    exact Or.inl ⟨hi, rfl⟩
  rcases hrest with ⟨hn, -⟩ | ⟨i, hi', hstack, hrest⟩
  · exact absurd hn hi
  rcases (threadCreate_returns hstack).of_run hrun with
    ⟨hn, -, -⟩ | ⟨j, hj, rfl, rfl⟩ | ⟨j, a, hj, rfl, rfl⟩
  · exact absurd hn hi
  · exact Or.inr (Or.inl ⟨i, hi', rfl, rfl, hrest⟩)
  · obtain rfl : i = j := Option.some.inj (hi'.symm.trans hj)
    exact Or.inr (Or.inr ⟨i, a, hi', rfl, rfl, hrest⟩)

/-! ### How many creations can succeed -/

theorem mem_unused : i ∈ s.unused ↔ i < threadMaxThreads ∧ s.isValid i = false := by
  simp [Sched.unused]

/-- A creation takes the first free identifier. -/
theorem Creation.takes (hs : Creation s k t) : ∃ i, firstInvalid s = some i ∧
    t.ret = i ∧ t.isValid = Function.update s.isValid i true ∧ t.frames = s.frames := by
  obtain ⟨⟨stack, rfl⟩, hstep, hret⟩ := hs
  rcases create_step hstep with ⟨-, rfl⟩ | ⟨i, -, -, hm, -⟩ | ⟨i, a, hi, -, hret, hrest⟩
  · have : (0 : ℤ) ≤ threadNoMore := hret
    exact absurd this (by decide)
  · rw [hm] at hret
    exact absurd hret (by decide)
  · exact ⟨i, hi, hret, congrArg Rest.isValid hrest, congrArg Rest.frames hrest⟩

theorem unused_create (ht : t.isValid = Function.update s.isValid i true) : t.unused = s.unused.erase i := by
  ext j
  rw [Finset.mem_erase, mem_unused, mem_unused, ht, Function.update_apply]
  by_cases hj : j = i <;> simp [hj]

/-- A creation uses up one identifier. -/
theorem card_unused_create (hi : firstInvalid s = some i)
    (ht : t.isValid = Function.update s.isValid i true) : t.unused.card + 1 = s.unused.card := by
  rw [unused_create ht]
  apply Finset.card_erase_add_one
  exact mem_unused.2 (firstInvalid_some hi)

/-- While an identifier is free, a creation can succeed. -/
theorem exists_creation (hu : s.frames = []) (hi : firstInvalid s = some i) :
    ∃ a t, Creation s (.call (.create (some a))) t := by
  obtain ⟨a, ha⟩ := Infinite.exists_notMem_finset s.allocated.toFinset
  have hfresh : ∀ b, some a = some b → b ∉ s.allocated := by
    intro b hb hm
    obtain rfl : a = b := Option.some.inj hb
    exact ha (List.mem_toFinset.2 hm)
  obtain ⟨o, s', hrun, hout⟩ := (threadCreate_returns hfresh).returns
  rcases hout with ⟨hn, -, -⟩ | ⟨j, -, hn, -⟩ | ⟨j, b, -, -, rfl⟩
  · rw [hn] at hi
    simp at hi
  · simp at hn
  · refine ⟨a, _, ⟨_, rfl⟩, step_of_returned hu hrun, ?_⟩
    exact Int.natCast_nonneg j

/-- What holds after some creations. -/
theorem creations_ok (h : Sound s v) (hr : Run Creation s ks t) :
    (∃ w, Sound t w) ∧ t.frames = s.frames ∧ t.unused.card + ks.length = s.unused.card := by
  induction hr with
  | nil => exact ⟨⟨v, h⟩, rfl, Nat.add_zero _⟩
  | snoc _ hs ih =>
    obtain ⟨⟨w, hw⟩, hf, hc⟩ := ih
    obtain ⟨i, hi, -, hv, hf'⟩ := hs.takes
    refine ⟨⟨_, hw.step hs.2.1⟩, hf'.trans hf, ?_⟩
    have := card_unused_create hi hv
    rw [List.length_append, List.length_singleton]
    omega

/-- **As many creations can succeed as there are free identifiers.** -/
theorem canCreate_iff (h : Sound s v) (hu : s.frames = []) : CanCreate s n ↔ n ≤ s.unused.card := by
  constructor
  · rintro ⟨ks, t, rfl, hr⟩
    obtain ⟨-, -, hc⟩ := creations_ok h hr
    omega
  intro hn
  induction n with
  | zero => exact ⟨[], s, rfl, .nil s⟩
  | succ n ih =>
    obtain ⟨ks, t, rfl, hr⟩ := ih (by omega)
    obtain ⟨⟨w, hw⟩, hf, hc⟩ := creations_ok h hr
    have hpos : t.unused ≠ ∅ := by
      intro he
      rw [he, Finset.card_empty] at hc
      omega
    obtain ⟨i, hi⟩ : ∃ i, firstInvalid t = some i := by
      rw [← Option.ne_none_iff_exists']
      intro hnone
      apply hpos
      apply Finset.eq_empty_of_forall_notMem
      intro j hj
      obtain ⟨hlt, hv⟩ := mem_unused.1 hj
      rw [firstInvalid_eq_none.1 hnone j hlt] at hv
      simp at hv
    obtain ⟨a, u, hs⟩ := exists_creation (hf.trans hu) hi
    exact ⟨_, u, by simp, hr.snoc hs⟩

/-- **An identifier that is free can be created again**, once the lower ones are taken. -/
theorem recreated (h : Sound s v) (hu : s.frames = []) (hi : i ∈ s.unused) :
    ∃ ks t, Run Creation s ks t ∧ t.ret = i ∧ t.isValid i = true := by
  induction hn : s.unused.card generalizing s v with
  | zero =>
    rw [Finset.card_eq_zero.1 hn] at hi
    simp at hi
  | succ n ih =>
    obtain ⟨j, hj⟩ : ∃ j, firstInvalid s = some j := by
      rw [← Option.ne_none_iff_exists']
      intro hnone
      obtain ⟨hlt, hv⟩ := mem_unused.1 hi
      rw [firstInvalid_eq_none.1 hnone i hlt] at hv
      simp at hv
    obtain ⟨a, t, hs⟩ := exists_creation hu hj
    obtain ⟨j', hj', hret, hv, hf⟩ := hs.takes
    obtain rfl : j = j' := Option.some.inj (hj.symm.trans hj')
    have hone : Run Creation s [.call (.create (some a))] t := (Run.nil s).snoc hs
    by_cases hij : i = j
    · subst hij
      refine ⟨_, t, hone, hret, ?_⟩
      rw [hv, Function.update_self]
    · have hit : i ∈ t.unused := by
        rw [unused_create hv, Finset.mem_erase]
        exact ⟨hij, hi⟩
      have hcard := card_unused_create hj hv
      obtain ⟨ks, u, hr, hx⟩ := ih (h.step hs.2.1) (hf.trans hu) hit (by omega)
      exact ⟨_, u, hone.append hr, hx⟩

/-! ### Failures -/

namespace NoTrace

theorem refl (s : Sched) : NoTrace s s := ⟨rfl, fun _ h => h, fun _ => Iff.rfl⟩

theorem trans (h : NoTrace s t) (h' : NoTrace t u) : NoTrace s u where
  valid := h'.valid.trans h.valid
  queues v hv := h'.queues v (h.queues v hv)
  creations n := (h'.creations n).trans (h.creations n)

/-- A call that finds no free identifier. -/
theorem noMore (h : Sound s v) (hu : s.frames = []) :
    NoTrace s { s with ret := threadNoMore } where
  valid := rfl
  queues v hv := hv.setRet _
  creations n := by
    have ht : Sound { s with ret := threadNoMore } v := ⟨h.rep.setRet _, h.owned⟩
    rw [canCreate_iff h hu, canCreate_iff ht hu]
    rfl

end NoTrace

/-- A call whose stack `malloc` succeeds, or that finds no free identifier. -/
def Clean (s : Sched) (stack : Option ℕ) : Prop := stack = none → firstInvalid s = none

/-- **Which calls of `thread_create` meet the contract.** -/
theorem createContract_of_step (h : Sound s v) (hu : s.frames = []) :
    CreateContract s stack ↔ Clean s stack := by
  constructor
  · rintro hc rfl
    by_contra hne
    obtain ⟨i, hi⟩ := Option.ne_none_iff_exists'.1 hne
    have hnone : ∀ a, (none : Option ℕ) = some a → a ∉ s.allocated := by simp
    obtain ⟨o, s', hrun, hout⟩ := (threadCreate_returns hnone).returns
    rcases hout with ⟨hn, -, -⟩ | ⟨j, hj, -, rfl⟩ | ⟨j, a, -, hn, -⟩
    · exact hne hn
    · have hs : step s (.call (.create none)) { s' with ret := threadNoMemory } :=
        step_of_returned hu hrun
      -- the entry that was claimed stays valid
      have hv := ((hc _ hs).1 (Or.inr rfl)).valid
      rcases create_step hs with ⟨hn, -⟩ | ⟨j', hj', -, -, hrest⟩ | ⟨j', a, -, hn, -⟩
      · exact hne hn
      · have hv' := congrArg Rest.isValid hrest
        have hnew : Function.update s.isValid j' true j' = s.isValid j' :=
          congrFun (hv'.symm.trans hv) j'
        rw [Function.update_self, (firstInvalid_some hj').2] at hnew
        simp at hnew
      · simp at hn
    · simp at hn
  · intro hclean t hs
    rcases create_step hs with ⟨hn, rfl⟩ | ⟨i, hi, rfl, -, -⟩ | ⟨i, a, hi, rfl, hret, -⟩
    · refine ⟨fun _ => .noMore h hu, fun _ => firstInvalid_eq_none.1 hn, fun hf => ?_⟩
      exact absurd (Or.inl rfl) hf
    · rw [hclean rfl] at hi
      simp at hi
    · have hneg : threadNoMore < 0 ∧ threadNoMemory < 0 := by decide
      have hpos : (0 : ℤ) ≤ i := Int.natCast_nonneg i
      refine ⟨fun hf => ?_, fun hf => ?_, fun _ => ⟨i, (firstInvalid_some hi).1, hret, ?_⟩⟩
      · rcases hf with hf | hf <;> rw [hret] at hf <;> omega
      · rw [hret] at hf
        omega
      · exact (firstInvalid_some hi).2

/-- A failed `thread_create` that meets the condition. -/
def CleanFailure (s : Sched) (k : Label) (t : Sched) : Prop :=
  ∃ stack, k = .call (.create stack) ∧ Clean s stack ∧ step s k t ∧ Failed t

theorem cleanFailures_noTrace (h : Sound s v) (hr : Run CleanFailure s ks t) : NoTrace s t := by
  have hinv : NoTrace s t ∧ ∃ w, Sound t w := by
    refine run_inv (I := fun u => NoTrace s u ∧ ∃ w, Sound u w) ?_ hr ⟨.refl s, v, h⟩
    intro u k w hx hs
    obtain ⟨htrace, x, hx⟩ := hx
    obtain ⟨stack, rfl, hclean, hstep, hf⟩ := hs
    have hc := (createContract_of_step hx (step_call hstep)).2 hclean
    exact ⟨htrace.trans ((hc w hstep).1 hf), _, hx.step hstep⟩
  exact hinv.1

/-- **A failed `thread_create` leaves no trace, unless the stack `malloc` fails.** In every
state of every run, in user code, a call meets the contract exactly when its `malloc` succeeds
or no identifier is free, and so do any number of such failures, one after another. -/
theorem createContract_iff (hr : Run step (threadInit enabled) ls s) (hu : s.frames = []) :
    (∀ stack, CreateContract s stack ↔ (stack = none → firstInvalid s = none)) ∧
    ∀ ks t, Run CleanFailure s ks t → NoTrace s t := by
  obtain ⟨v, h⟩ := run_sound hr
  exact ⟨fun stack => createContract_of_step h hu, fun ks t hf => cleanFailures_noTrace h hf⟩

/-- Threads can be created until the table is full. -/
theorem exists_full : ∃ ks t, Run Creation (threadInit true) ks t ∧ t.frames = [] ∧
    firstInvalid t = none := by
  obtain ⟨ks, t, hlen, hr⟩ := (canCreate_iff (init_sound true) rfl).2 le_rfl
  obtain ⟨-, hf, hc⟩ := creations_ok (init_sound true) hr
  refine ⟨ks, t, hr, hf, firstInvalid_eq_none.2 fun i hi => ?_⟩
  have hnone : t.unused = ∅ := Finset.card_eq_zero.1 (by omega)
  by_contra hv
  have hmem : i ∈ t.unused := mem_unused.2 ⟨hi, by simpa using hv⟩
  rw [hnone] at hmem
  simp at hmem

/-- With a full table two creations fail, one after another, and leave no trace. -/
theorem createContract_full : ∃ ls t u, Run step (threadInit true) ls t ∧ firstInvalid t = none ∧
    CreateContract t none ∧
    Run CleanFailure t [.call (.create none), .call (.create none)] u ∧ u.ret = threadNoMore ∧
    NoTrace t u := by
  obtain ⟨ks, t, hks, hu, hfull⟩ := exists_full
  have hr : Run step (threadInit true) ks t := hks.mono fun _ _ _ h => h.2.1
  obtain ⟨hcontract, htrace⟩ := createContract_iff hr hu
  have hfail : ∀ s : Sched, s.frames = [] → firstInvalid s = none →
      CleanFailure s (.call (.create none)) { s with ret := threadNoMore } := by
    intro s hs hn
    have hreturns : wp False (threadCreate none) _ s := threadCreate_returns (by simp)
    obtain ⟨o, s', hrun, hout⟩ := hreturns.returns
    rcases hout with ⟨-, rfl, rfl⟩ | ⟨i, hi, -⟩ | ⟨i, a, -, ha, -⟩
    · exact ⟨none, rfl, fun _ => hn, step_of_returned hs hrun, Or.inl rfl⟩
    · rw [hn] at hi
      cases hi
    · cases ha
  have hrun := (Run.snoc (.nil t) (hfail t hu hfull)).snoc
    (hfail { t with ret := threadNoMore } hu hfull)
  exact ⟨ks, t, _, hr, hfull, (hcontract none).2 fun _ => hfull, hrun, rfl, htrace _ _ hrun⟩

theorem noMemory_claims : ((Label.call (.create none)).next (threadInit true)).any (fun t =>
    decide (t.ret = threadNoMemory ∧ t.isValid 1 = true)) = true := by decide +kernel

/-- The first `thread_create`, with a `malloc` that fails, leaves thread 1 valid. -/
theorem noMemory_leaves_thread : ¬∀ (enabled : Bool) (ls : List Label) (s : Sched),
    Run step (threadInit enabled) ls s → s.frames = [] → ∀ stack, CreateContract s stack := by
  intro h
  obtain ⟨t, ht, hx⟩ := (Option.any_eq_true _ _).1 noMemory_claims
  obtain ⟨hret, hv⟩ := of_decide_eq_true hx
  have hvalid := ((h true [] _ (.nil _) rfl none t (step_next ht)).1 (Or.inr hret)).valid
  rw [hvalid] at hv
  exact absurd hv (by decide)

end OSLab.Threads
