import OSLab.Threads.Control
import Mathlib.Data.Finset.Basic

/-!
# Stack accounting

`created` keeps, beside a run, the threads that `thread_create` made and that have not
ended. `Accounted` says that the allocated stacks are theirs and the one waiting for the
deferred free, each once.

* `accounted_iff`: a step whose stack `malloc` succeeds keeps `Accounted` exactly when it
  does not kill a created thread that has identifier 0 (`SparesZero`).
* `stack_accounting`: so it holds in every state of every run of such steps, and what the
  next step frees is allocated and nobody's stack any more.
-/

namespace OSLab.Threads

open Prog

variable {s t : Sched} {v : View} {full : Prop} {k : Label} {R : Rest} {i j p a : ℕ}
  {C : Finset ℕ} {ls : List Label} {enabled : Bool}

instance (s : Sched) (i : ℕ) : Decidable (s.Kills i) :=
  decidable_of_iff (i < threadMaxThreads ∧ i ≠ s.currentThreadId ∧ s.isValid i = true ∧
      (findThread s i (threadMaxThreads + 1) none s.readyQ.head).join.isSome = true) <| by
    refine and_congr_right fun _ => and_congr_right fun _ => and_congr_right fun _ => ?_
    simp only [Option.isSome_iff_exists, Option.join_eq_some_iff]

/-- The created threads after a step. -/
def created (s : Sched) (k : Label) (t : Sched) (C : Finset ℕ) : Finset ℕ :=
  match k with
  | .call (.create (some _)) => (firstInvalid s).elim C fun i => insert i C
  | .call .exit | .call (.kill _) => C.filter fun i => t.isValid i = true
  | _ => C

/-- The stack `malloc` of a `thread_create` succeeds. -/
def Mallocs : Label → Prop
  | .call (.create stack) => stack ≠ none
  | _ => True

/-- No thread that has a stack of its own is killed as thread 0. -/
def SparesZero (s : Sched) : Label → Prop
  | .call (.kill tid) => tid = 0 → s.Kills 0 → s.stackMemory 0 = none
  | _ => True

instance (s : Sched) : (k : Label) → Decidable (Mallocs k ∧ SparesZero s k)
  | .call (.create none) => isFalse fun h => h.1 rfl
  | .call (.kill tid) =>
    decidable_of_iff (tid = 0 → s.Kills 0 → s.stackMemory 0 = none)
      ⟨fun h => ⟨trivial, h⟩, fun h => h.2⟩
  | .call (.create (some _)) => isTrue ⟨by simp [Mallocs], trivial⟩
  | .preempt | .resume | .call .id | .call (.yield _) | .call .exit | .call (.queueCreate _)
  | .call (.queueDestroy _) | .call (.sleep _) | .call (.wakeup _ _) | .call (.lockCreate _ _)
  | .call (.lockDestroy _) | .call (.lockAcquire _) | .call (.lockRelease _)
  | .call (.cvCreate _ _) | .call (.cvDestroy _) | .call (.cvWait _ _) | .call (.cvSignal _ _)
  | .call (.cvBroadcast _ _) | .call (.setInterrupts _) => isTrue ⟨trivial, trivial⟩

/-- What a step passes to `free`. -/
def Frees (s : Sched) : Label → ℕ → Prop
  | .call (.yield _), a | .call .exit, a | .preempt, a => s.stackMemToBeDeleted = some a
  | .call (.kill tid), a => ∃ i : ℕ, tid = i ∧ i ≠ 0 ∧ s.Kills i ∧ s.stackMemory i = some a
  | _, _ => False

/-- The allocated stacks are those of the created threads and the one to be deleted, all
different. -/
structure Accounts (R : Rest) (C : Finset ℕ) : Prop where
  nodup : R.allocated.Nodup
  stack : ∀ i ∈ C, ∃ a, R.stackMemory i = some a ∧ a ∈ R.allocated ∧ R.pending ≠ some a
  pending : ∀ a, R.pending = some a → a ∈ R.allocated
  owner : ∀ a ∈ R.allocated, R.pending = some a ∨ ∃ i ∈ C, R.stackMemory i = some a
  distinct : ∀ i ∈ C, ∀ j ∈ C, R.stackMemory i = R.stackMemory j → i = j
  valid : ∀ i ∈ C, R.isValid i = true
  initial : ∀ i, R.isValid i = true → i ∉ C → i = 0 ∧ R.stackMemory 0 = none

namespace Accounts

theorem congr {R' : Rest} (h : Accounts R C) (ha : R'.allocated = R.allocated)
    (hs : R'.stackMemory = R.stackMemory) (hp : R'.pending = R.pending)
    (hv : R'.isValid = R.isValid) : Accounts R' C := by
  refine ⟨?_, ?_, ?_, ?_, ?_, ?_, ?_⟩ <;> simp only [ha, hs, hp, hv]
  · exact h.nodup
  · exact h.stack
  · exact h.pending
  · exact h.owner
  · exact h.distinct
  · exact h.valid
  · exact h.initial

/-- Nobody's stack waits to be deleted. -/
theorem pending_ne (h : Accounts R C) (hp : R.pending = some a) (hv : R.isValid i = true) :
    R.stackMemory i ≠ some a := by
  intro hs
  by_cases hi : i ∈ C
  · obtain ⟨b, hb, -, hne⟩ := h.stack i hi
    rw [hs] at hb
    exact hne (hb ▸ hp)
  · obtain ⟨rfl, h0⟩ := h.initial i hv hi
    rw [h0] at hs
    simp at hs

/-- The deferred free. -/
theorem freePending (h : Accounts R C) : Accounts R.freePending C := by
  cases hp : R.pending with
  | none =>
    refine h.congr ?_ rfl ?_ rfl
    · simp [Rest.freePending, Rest.free, hp]
    · simp [Rest.freePending, hp]
  | some b =>
    have hmem : ∀ a, a ∈ R.freePending.allocated ↔ a ≠ b ∧ a ∈ R.allocated := fun a => by
      simp only [Rest.freePending, Rest.free, hp, Option.elim_some]
      exact h.nodup.mem_erase_iff
    refine ⟨?_, fun i hi => ?_, fun a ha => ?_, fun a ha => ?_, h.distinct, h.valid, h.initial⟩
    · simp only [Rest.freePending, Rest.free, hp, Option.elim_some]
      exact h.nodup.erase b
    · obtain ⟨a, hs, hal, hne⟩ := h.stack i hi
      refine ⟨a, hs, (hmem a).2 ⟨?_, hal⟩, by simp [Rest.freePending]⟩
      rintro rfl
      exact hne hp
    · simp [Rest.freePending] at ha
    · obtain ⟨hne, hal⟩ := (hmem a).1 ha
      rcases h.owner a hal with hpa | how
      · rw [hp] at hpa
        exact absurd (Option.some.inj hpa).symm hne
      · exact Or.inr how

/-- A valid thread that is not thread 0 or has a stack was created. -/
theorem mem_of_stack (h : Accounts R C) (hv : R.isValid i = true)
    (hs : R.stackMemory i ≠ none ∨ i ≠ 0) : i ∈ C := by
  by_contra hi
  obtain ⟨rfl, h0⟩ := h.initial i hv hi
  rcases hs with hs | hs
  · exact hs h0
  · exact hs rfl

/-- The running thread ends: its stack waits to be deleted. -/
theorem leave {C' : Finset ℕ} (h : Accounts R C) (hp : R.pending = none)
    (hv : R.isValid R.current = true) (hC : ∀ i, i ∈ C' ↔ i ∈ C ∧ i ≠ R.current) :
    Accounts (R.leave p) C' := by
  have hcur : ∀ a, R.stackMemory R.current = some a → R.current ∈ C := fun a hs =>
    h.mem_of_stack hv (Or.inl (by simp [hs]))
  refine ⟨h.nodup, fun i hi => ?_, fun a ha => ?_, fun a ha => ?_, ?_, ?_, ?_⟩
  · obtain ⟨hiC, hne⟩ := (hC i).1 hi
    obtain ⟨a, hs, hal, -⟩ := h.stack i hiC
    refine ⟨a, hs, hal, fun hc => hne ?_⟩
    exact h.distinct i hiC _ (hcur a hc) (hs.trans hc.symm)
  · obtain ⟨b, hs, hal, -⟩ := h.stack _ (hcur a ha)
    obtain rfl : b = a := Option.some.inj (hs.symm.trans ha)
    exact hal
  · rcases h.owner a ha with hpa | ⟨i, hi, hs⟩
    · rw [hp] at hpa
      simp at hpa
    by_cases hic : i = R.current
    · rw [hic] at hs
      exact Or.inl hs
    · exact Or.inr ⟨i, (hC i).2 ⟨hi, hic⟩, hs⟩
  · intro i hi j hj
    exact h.distinct i ((hC i).1 hi).1 j ((hC j).1 hj).1
  · intro i hi
    obtain ⟨hiC, hne⟩ := (hC i).1 hi
    exact (Function.update_of_ne hne _ _).trans (h.valid i hiC)
  · intro i hvi hi
    have hne : i ≠ R.current := by
      rintro rfl
      simp [Rest.leave] at hvi
    have hvi' : R.isValid i = true := by
      rwa [← Function.update_of_ne hne false R.isValid]
    exact h.initial i hvi' fun hiC => hi ((hC i).2 ⟨hiC, hne⟩)

/-- A thread is created on a new stack. -/
theorem create (h : Accounts R C) (hv : R.isValid i = false) (ha : a ∉ R.allocated) :
    Accounts (R.create i (some a)) (insert i C) := by
  have hiC : i ∉ C := fun hi => by
    rw [h.valid i hi] at hv
    simp at hv
  have hold : ∀ j ∈ C, (R.create i (some a)).stackMemory j = R.stackMemory j := fun j hj =>
    Function.update_of_ne (ne_of_mem_of_not_mem hj hiC) _ _
  have hnew : (R.create i (some a)).stackMemory i = some a := Function.update_self _ _ _
  have hfresh : ∀ j ∈ C, R.stackMemory j ≠ some a := by
    intro j hj hs
    obtain ⟨b, hb, hal, -⟩ := h.stack j hj
    obtain rfl : b = a := Option.some.inj (hb.symm.trans hs)
    exact ha hal
  refine ⟨List.nodup_cons.2 ⟨ha, h.nodup⟩, fun j hj => ?_, fun b hb => ?_, fun b hb => ?_, ?_, ?_,
    ?_⟩
  · rcases Finset.mem_insert.1 hj with rfl | hj
    · exact ⟨a, hnew, by simp [Rest.create], fun hp => ha (h.pending a hp)⟩
    · obtain ⟨b, hb, hal, hne⟩ := h.stack j hj
      exact ⟨b, (hold j hj).trans hb, by simp [Rest.create, hal], hne⟩
  · simp only [Rest.create, Option.toList_some, List.singleton_append, List.mem_cons]
    exact Or.inr (h.pending b hb)
  · simp only [Rest.create, Option.toList_some, List.singleton_append, List.mem_cons] at hb
    rcases hb with rfl | hb
    · exact Or.inr ⟨i, Finset.mem_insert_self i C, hnew⟩
    · refine (h.owner b hb).imp_right ?_
      rintro ⟨j, hj, hs⟩
      exact ⟨j, Finset.mem_insert_of_mem hj, (hold j hj).trans hs⟩
  · intro j hj j' hj'
    rcases Finset.mem_insert.1 hj with e | hjC <;> rcases Finset.mem_insert.1 hj' with e' | hjC'
    · exact fun _ => e.trans e'.symm
    · rw [e, hnew, hold j' hjC']
      exact fun hs => absurd hs.symm (hfresh j' hjC')
    · rw [e', hnew, hold j hjC]
      exact fun hs => absurd hs (hfresh j hjC)
    · rw [hold j hjC, hold j' hjC']
      exact h.distinct j hjC j' hjC'
  · intro j hj
    rcases Finset.mem_insert.1 hj with rfl | hj
    · exact Function.update_self _ _ _
    · exact (Function.update_of_ne (ne_of_mem_of_not_mem hj hiC) _ _).trans (h.valid j hj)
  · intro j hvj hj
    simp only [Finset.mem_insert, not_or] at hj
    have hvj' : R.isValid j = true := (Function.update_of_ne hj.1 _ _).symm.trans hvj
    obtain ⟨h0, hs⟩ := h.initial j hvj' hj.2
    refine ⟨h0, (Function.update_of_ne ?_ _ _).trans hs⟩
    exact h0 ▸ hj.1

/-- A thread other than thread 0 is killed: its stack is freed. -/
theorem reap {C' : Finset ℕ} (h : Accounts R C) (hv : R.isValid i = true) (hi : i ≠ 0)
    (hC : ∀ j, j ∈ C' ↔ j ∈ C ∧ j ≠ i) : Accounts (R.reap i) C' := by
  have hiC : i ∈ C := h.mem_of_stack hv (Or.inr hi)
  obtain ⟨a, hs, hal, hne⟩ := h.stack i hiC
  have hR : R.reap i = { R with
      allocated := R.allocated.erase a
      isValid := Function.update R.isValid i false
      stackMemory := Function.update R.stackMemory i none } := by
    simp only [Rest.reap, if_neg hi, Rest.free, hs, Option.elim_some]
  rw [hR]
  have hold : ∀ j, j ≠ i → Function.update R.stackMemory i none j = R.stackMemory j := fun j hj =>
    Function.update_of_ne hj _ _
  have hother : ∀ j ∈ C', R.stackMemory j ≠ some a := fun j hj e =>
    ((hC j).1 hj).2 (h.distinct j ((hC j).1 hj).1 i hiC (e.trans hs.symm))
  refine ⟨h.nodup.erase a, fun j hj => ?_, fun b hb => ?_, fun b hb => ?_, ?_, ?_, ?_⟩
  · obtain ⟨hjC, hji⟩ := (hC j).1 hj
    obtain ⟨b, hb, hbal, hbne⟩ := h.stack j hjC
    refine ⟨b, (hold j hji).trans hb, h.nodup.mem_erase_iff.2 ⟨?_, hbal⟩, hbne⟩
    rintro rfl
    exact hother j hj hb
  · refine h.nodup.mem_erase_iff.2 ⟨?_, h.pending b hb⟩
    rintro rfl
    exact hne hb
  · obtain ⟨hba, hbal⟩ := h.nodup.mem_erase_iff.1 hb
    refine (h.owner b hbal).imp_right ?_
    rintro ⟨j, hjC, hsj⟩
    have hji : j ≠ i := by
      rintro rfl
      exact hba (Option.some.inj (hsj.symm.trans hs))
    exact ⟨j, (hC j).2 ⟨hjC, hji⟩, (hold j hji).trans hsj⟩
  · intro j hj j' hj'
    obtain ⟨hjC, hji⟩ := (hC j).1 hj
    obtain ⟨hjC', hji'⟩ := (hC j').1 hj'
    simp only [hold j hji, hold j' hji']
    exact h.distinct j hjC j' hjC'
  · intro j hj
    obtain ⟨hjC, hji⟩ := (hC j).1 hj
    exact (Function.update_of_ne hji _ _).trans (h.valid j hjC)
  · intro j hvj hj
    have hji : j ≠ i := by
      rintro rfl
      simp at hvj
    have hvj' : R.isValid j = true := (Function.update_of_ne hji _ _).symm.trans hvj
    obtain ⟨h0, hs0⟩ := h.initial j hvj' fun hjC => hj ((hC j).2 ⟨hjC, hji⟩)
    exact ⟨h0, (hold 0 (h0 ▸ hji)).trans hs0⟩

/-- The initial thread is killed. -/
theorem reapZero {C' : Finset ℕ} (h : Accounts R C) (hs : R.stackMemory 0 = none)
    (hC : ∀ j, j ∈ C' ↔ j ∈ C ∧ j ≠ 0) : Accounts (R.reap 0) C' := by
  have h0 : 0 ∉ C := fun h0 => by
    obtain ⟨a, ha, -⟩ := h.stack 0 h0
    rw [hs] at ha
    simp at ha
  obtain rfl : C' = C := by
    ext j
    rw [hC]
    exact and_iff_left_of_imp fun hj => ne_of_mem_of_not_mem hj h0
  have hR : R.reap 0 = { R with isValid := Function.update R.isValid 0 false } := if_pos rfl
  rw [hR]
  refine ⟨h.nodup, h.stack, h.pending, h.owner, h.distinct, fun j hj => ?_, fun j hvj hj => ?_⟩
  · exact (Function.update_of_ne (ne_of_mem_of_not_mem hj h0) _ _).trans (h.valid j hj)
  · have hj0 : j ≠ 0 := by
      rintro rfl
      simp at hvj
    exact h.initial j ((Function.update_of_ne hj0 _ _).symm.trans hvj) hj

/-- A created thread with identifier 0 is killed: its stack is lost. -/
theorem reapZero_lost {C' : Finset ℕ} (h : Accounts R C) (hv : R.isValid 0 = true)
    (hs : R.stackMemory 0 ≠ none) (hC : ∀ j, j ∈ C' → j ∈ C ∧ j ≠ 0) :
    ¬Accounts (R.reap 0) C' := by
  obtain ⟨a, ha, hal, hne⟩ := h.stack 0 (h.mem_of_stack hv (Or.inl hs))
  have hR : R.reap 0 = { R with isValid := Function.update R.isValid 0 false } := if_pos rfl
  rw [hR]
  intro h'
  rcases h'.owner a hal with hp | ⟨j, hj, hsj⟩
  · exact hne hp
  · obtain ⟨hjC, hj0⟩ := hC j hj
    exact hj0 (h.distinct j hjC 0 (h.mem_of_stack hv (Or.inl hs)) (hsj.trans ha.symm))

end Accounts

/-- The created threads left when thread `j` ends. -/
theorem mem_ended (h : Accounts s.rest C) (hv : t.isValid = Function.update s.isValid j false)
    (i : ℕ) : i ∈ C.filter (fun i => t.isValid i = true) ↔ i ∈ C ∧ i ≠ j := by
  rw [Finset.mem_filter, hv, Function.update_apply]
  refine and_congr_right fun hi => ?_
  have hvi : s.isValid i = true := h.valid i hi
  by_cases hij : i = j <;> simp [hij, hvi]

theorem ended_none (h : Accounts s.rest C) (hv : t.isValid = s.isValid) :
    C.filter (fun i => t.isValid i = true) = C := by
  refine Finset.filter_true_of_mem fun i hi => ?_
  rw [hv]
  exact h.valid i hi

/-- **A step that spares a created thread 0 keeps the accounts.** -/
theorem accounts_step (h : Accounts s.rest C) (hcur : s.isValid s.currentThreadId = true)
    (he : Effect s k t.rest) (hm : Mallocs k) (hp : SparesZero s k) :
    Accounts t.rest (created s k t C) := by
  obtain ⟨R, hR⟩ : ∃ R, R = t.rest := ⟨_, rfl⟩
  rw [← hR] at he ⊢
  have hvalid : t.isValid = R.isValid := by rw [hR]; rfl
  have hsame : R.allocated = s.allocated → R.stackMemory = s.stackMemory →
      R.pending = s.stackMemToBeDeleted → R.isValid = s.isValid → Accounts R C := h.congr
  have hfree := h.freePending
  cases he with
  | @idle op hi =>
    cases op with
    | create stack =>
      have hf : firstInvalid s = none := hi
      cases stack <;> simpa only [created, hf, Option.elim_none] using h
    | exit => exact hi.elim
    | kill tid =>
      simp only [created, ended_none h hvalid]
      exact h
    | _ => exact h
  | @creates stack i hi hstack =>
    cases stack with
    | none => exact absurd rfl hm
    | some a =>
      simp only [created, hi, Option.elim_some]
      exact h.create (firstInvalid_invalid hi) (hstack a rfl)
  | yieldStays tid => exact hfree
  | yields hf hr => exact hfree.congr rfl rfl rfl rfl
  | exitStays =>
    simp only [created, ended_none h hvalid]
    exact hfree
  | exits hr => exact hfree.leave rfl hcur (mem_ended h hvalid)
  | @kills i hk =>
    have hv : t.isValid = Function.update s.isValid i false := by
      rw [hvalid]
      unfold Rest.reap
      split <;> rfl
    by_cases hi : i = 0
    · subst hi
      exact h.reapZero (hp rfl hk) (mem_ended h hv)
    · exact h.reap hk.2.2.1 hi (mem_ended h hv)
  | preemptStays =>
    have : Accounts (s.rest.push .handlerDone) C := h.congr rfl rfl rfl rfl
    exact this.freePending
  | preempts hf hr =>
    have : Accounts (s.rest.push .handlerDone) C := h.congr rfl rfl rfl rfl
    exact this.freePending.congr rfl rfl rfl rfl
  | _ => exact hsame rfl rfl rfl rfl

/-- **The accounts are kept by the steps that spare a created thread 0 and by no others.** -/
theorem accounts_iff (h : Accounts s.rest C) (hcur : s.isValid s.currentThreadId = true)
    (he : Effect s k t.rest) (hm : Mallocs k) :
    Accounts t.rest (created s k t C) ↔ SparesZero s k := by
  refine ⟨fun ht => ?_, accounts_step h hcur he hm⟩
  obtain ⟨R, hR⟩ : ∃ R, R = t.rest := ⟨_, rfl⟩
  rw [← hR] at he ht
  have hvalid : t.isValid = R.isValid := by rw [hR]; rfl
  cases he with
  | @kills i hk =>
    have hv : t.isValid = Function.update s.isValid i false := by
      rw [hvalid]
      unfold Rest.reap
      split <;> rfl
    intro hi _
    obtain rfl : i = 0 := by exact_mod_cast hi
    by_contra hs
    exact h.reapZero_lost hk.2.2.1 hs (fun j hj => (mem_ended h hv j).1 hj) ht
  | @idle op hi =>
    cases op with
    | kill tid => exact fun h0 hk => absurd hk (hi 0 h0)
    | _ => trivial
  | _ => trivial

theorem accounts_init : Accounts (threadInit enabled).rest ∅ where
  nodup := List.nodup_nil
  stack := by simp
  pending a h := by simp [threadInit, Sched.rest] at h
  owner a h := by simp [threadInit, Sched.rest] at h
  distinct := by simp
  valid := by simp
  initial i hi _ := by
    refine ⟨?_, rfl⟩
    simpa [threadInit, Sched.rest, Sched.isValid] using hi

/-- What a step frees leaves the allocated stacks. -/
theorem frees_step (he : Effect s k R) (hf : Frees s k a) :
    R.allocated = s.allocated.erase a := by
  have hpend : s.stackMemToBeDeleted = some a →
      s.rest.freePending.allocated = s.allocated.erase a := fun h => by
    have : s.rest.pending = some a := h
    simp only [Rest.freePending, Rest.free, this, Option.elim_some]
    rfl
  cases he with
  | @idle op hi =>
    cases op with
    | kill tid =>
      obtain ⟨i, rfl, -, hk, -⟩ := hf
      exact absurd hk (hi i rfl)
    | yield tid => exact hi.elim
    | exit => exact hi.elim
    | _ => exact hf.elim
  | yieldStays tid => exact hpend hf
  | yields _ _ => exact hpend hf
  | exitStays => exact hpend hf
  | exits _ => exact hpend hf
  | @kills j hk =>
    obtain ⟨i, hij, hi, -, hs⟩ := hf
    obtain rfl : j = i := by exact_mod_cast hij
    have : s.rest.stackMemory j = some a := hs
    simp only [Rest.reap, if_neg hi, Rest.free, this, Option.elim_some]
    rfl
  | preemptStays => exact hpend hf
  | preempts _ _ => exact hpend hf
  | _ => exact hf.elim

/-- What a step frees is allocated and is not the stack the freeing thread runs on. -/
theorem Accounts.frees (h : Accounts s.rest C) (hcur : s.isValid s.currentThreadId = true)
    (hf : Frees s k a) : a ∈ s.allocated ∧ s.stackMemory s.currentThreadId ≠ some a := by
  have hpend : s.stackMemToBeDeleted = some a →
      a ∈ s.allocated ∧ s.stackMemory s.currentThreadId ≠ some a := fun hp =>
    ⟨h.pending a hp, h.pending_ne hp hcur⟩
  unfold Frees at hf
  split at hf
  · exact hpend hf
  · exact hpend hf
  · exact hpend hf
  · obtain ⟨i, -, hi, hk, hs⟩ := hf
    have hiC : i ∈ C := h.mem_of_stack hk.2.2.1 (Or.inr hi)
    obtain ⟨b, hb, hal, -⟩ := h.stack i hiC
    obtain rfl : b = a := Option.some.inj (hb.symm.trans hs)
    refine ⟨hal, fun hc => hk.2.1 ?_⟩
    have hcC : s.currentThreadId ∈ C :=
      h.mem_of_stack hcur (Or.inl fun hn => by
        have : s.stackMemory s.currentThreadId = none := hn
        rw [hc] at this
        simp at this)
    exact h.distinct i hiC _ hcC (hs.trans hc.symm)
  · exact hf.elim

theorem frees_proper (hf : Frees s k a) : Mallocs k ∧ SparesZero s k := by
  unfold Frees at hf
  split at hf
  · exact ⟨trivial, trivial⟩
  · exact ⟨trivial, trivial⟩
  · exact ⟨trivial, trivial⟩
  · obtain ⟨i, rfl, hi, -, -⟩ := hf
    refine ⟨trivial, fun h0 => absurd ?_ hi⟩
    exact_mod_cast h0
  · exact hf.elim

/-- After the step nobody's stack is one that it freed. -/
theorem Accounts.freed (h : Accounts s.rest C) (hcur : s.isValid s.currentThreadId = true)
    (he : Effect s k t.rest) (hf : Frees s k a) :
    a ∉ t.allocated ∧ ∀ i, t.isValid i = true → t.stackMemory i ≠ some a := by
  have hgone : a ∉ t.allocated := by
    have : t.allocated = s.allocated.erase a := frees_step he hf
    rw [this]
    exact h.nodup.not_mem_erase
  have ht := accounts_step h hcur he (frees_proper hf).1 (frees_proper hf).2
  refine ⟨hgone, fun i hv hs => hgone ?_⟩
  have hs' : t.rest.stackMemory i = some a := hs
  obtain ⟨b, hb, hal, -⟩ := ht.stack i (ht.mem_of_stack hv (Or.inl (by simp [hs'])))
  obtain rfl : b = a := Option.some.inj (hb.symm.trans hs')
  exact hal

/-- A step of a run whose stack `malloc`s succeed and that spares created threads 0. -/
def accountStep (p : Sched × Finset ℕ) (k : Label) (q : Sched × Finset ℕ) : Prop :=
  (Mallocs k ∧ SparesZero p.1 k) ∧ watch created p k q

/-- **Stack accounting.** In every run in which stack `malloc`s succeed and no created thread
is killed under identifier 0: the allocated stacks are those of the valid created threads and
the one to be deleted, all different; whatever the next step frees is allocated, is not the
running thread's, and is nobody's afterwards. -/
theorem stack_accounting (hr : Run accountStep (threadInit enabled, ∅) ls (t, C)) :
    (t.allocated.Nodup ∧
      (∀ a, a ∈ t.allocated ↔ (∃ i ∈ C, t.isValid i = true ∧ t.stackMemory i = some a) ∨
        t.stackMemToBeDeleted = some a) ∧
      (∀ i ∈ C, t.isValid i = true ∧ t.stackMemory i ≠ none ∧
        t.stackMemory i ≠ t.stackMemToBeDeleted) ∧
      ∀ i ∈ C, ∀ j ∈ C, t.stackMemory i = t.stackMemory j → i = j) ∧
    ∀ k a, Frees t k a → a ∈ t.allocated ∧ t.stackMemory t.currentThreadId ≠ some a ∧
      ∀ u, step t k u → a ∉ u.allocated ∧ ∀ i, u.isValid i = true → u.stackMemory i ≠ some a := by
  have hkept : ∀ p k q v, Accounts p.1.rest p.2 → Represents False p.1 v → accountStep p k q →
      step p.1 k q.1 ∧ Accounts q.1.rest q.2 := by
    intro p k q v hx hv hs
    obtain ⟨⟨hm, hp⟩, hstep, hC⟩ := hs
    refine ⟨hstep, ?_⟩
    rw [hC]
    exact accounts_step hx hv.valid_current (step_effect hv hstep) hm hp
  obtain ⟨h, v, hv⟩ := run_watched (I := fun p => Accounts p.1.rest p.2) hr accounts_init hkept
  have hcur := hv.valid_current
  refine ⟨⟨h.nodup, fun a => ⟨fun ha => ?_, ?_⟩, fun i hi => ?_, h.distinct⟩, fun k a hf => ?_⟩
  · rcases h.owner a ha with hp | ⟨i, hi, hs⟩
    · exact Or.inr hp
    · exact Or.inl ⟨i, hi, h.valid i hi, hs⟩
  · rintro (⟨i, hi, -, hs⟩ | hp)
    · obtain ⟨b, hb, hal, -⟩ := h.stack i hi
      obtain rfl : b = a := Option.some.inj (hb.symm.trans hs)
      exact hal
    · exact h.pending a hp
  · obtain ⟨b, hb, -, hne⟩ := h.stack i hi
    have hb' : t.stackMemory i = some b := hb
    refine ⟨h.valid i hi, by simp [hb'], ?_⟩
    rw [hb']
    exact fun e => hne e.symm
  · obtain ⟨hal, hne⟩ := h.frees hcur hf
    exact ⟨hal, hne, fun u hu => h.freed hcur (step_effect hv hu) hf⟩

/-- Thread 0 creates threads 1 and 2 and exits; thread 1 kills thread 2, creates a thread,
which gets identifier 0, and exits; the next yield frees its stack. -/
def stacksRun : List Label :=
  [.call (.create (some 7)), .call (.create (some 8)), .call .exit, .resume, .call (.kill 2),
    .call (.create (some 9)), .call .exit, .resume, .call (.yield threadAny)]

theorem stacksRun_accounts : (runAll (fun p k =>
      if Mallocs k ∧ SparesZero p.1 k then watchNext created p k else none)
    (threadInit true, ∅) stacksRun).any (fun q => q.1.allocated = [9]) = true := by
  decide +kernel

theorem stack_accounting_sample : ∃ t C, Run accountStep (threadInit true, ∅) stacksRun (t, C) ∧
    t.allocated = [9] ∧ ((∃ i ∈ C, t.isValid i = true ∧ t.stackMemory i = some 9) ∨
      t.stackMemToBeDeleted = some 9) := by
  obtain ⟨⟨t, C⟩, hr, h9⟩ := runAll_any _ _ _ _ stacksRun_accounts
  have hrun : Run accountStep (threadInit true, ∅) stacksRun (t, C) := by
    refine hr.mono fun p k q h => ?_
    split at h
    · rename_i hp
      exact ⟨hp, watch_next h⟩
    · simp at h
  have hal : t.allocated = [9] := of_decide_eq_true h9
  obtain ⟨⟨-, hexact, -⟩, -⟩ := stack_accounting hrun
  exact ⟨t, C, hrun, hal, (hexact 9).1 (by simp [hal])⟩

/-- The thread that thread 1 creates after the initial thread has exited gets identifier 0;
it runs, yields, and is killed. -/
def lostRun : List Label :=
  [.call (.create (some 7)), .call .exit, .resume, .call (.create (some 8)),
    .call (.yield threadAny), .resume, .call (.yield threadAny), .resume, .call (.kill 0)]

theorem lostRun_lost : (runAll (watchNext created) (threadInit true, ∅) lostRun).any (fun q =>
    decide (8 ∈ q.1.allocated ∧ (∀ i ∈ q.2, q.1.stackMemory i ≠ some 8) ∧
      q.1.stackMemToBeDeleted ≠ some 8)) = true := by decide +kernel

theorem lostRun_mallocs : ∀ k ∈ lostRun, Mallocs k := by
  simp [lostRun, Mallocs]

/-- The stack of a created thread that is killed under identifier 0 is never freed. -/
theorem stack_lost : ¬∀ (enabled : Bool) (ls : List Label) (t : Sched) (C : Finset ℕ),
    Run (watch created) (threadInit enabled, ∅) ls (t, C) → (∀ k ∈ ls, Mallocs k) →
    ∀ a, a ∈ t.allocated → (∃ i ∈ C, t.isValid i = true ∧ t.stackMemory i = some a) ∨
      t.stackMemToBeDeleted = some a := by
  intro h
  obtain ⟨⟨t, C⟩, hr, hl⟩ := watch_any _ _ _ lostRun_lost
  obtain ⟨hal, hno, hpe⟩ := of_decide_eq_true hl
  rcases h true lostRun t C hr lostRun_mallocs 8 hal with ⟨i, hi, -, hs⟩ | hp
  · exact hno i hi hs
  · exact hpe hp

end OSLab.Threads
