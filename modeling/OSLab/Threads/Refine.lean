import OSLab.Threads.Places
import Mathlib.Data.List.Perm.Subperm
import Mathlib.Data.List.Nodup

/-!
# The pointer queues refine the sequences

`Represents full s v` is `Rep s v` for runs in which a `malloc` may fail or a queue may be
freed under its sleepers; only with `full` has every valid thread a place (`rep_iff`).

From a state that represents a view, an operation leads to a state that represents what
the sequence operation makes of the view: `threadYield_ok`, `threadExit_ok`,
`threadKill_ok`, `threadCreate_ok` and `threadSleep_ok`, each proved once from what the
code does to the `next` fields and the head and tail pointers. Waking up, the locks and
the condition variables are in `Threads/Wake.lean`.
-/

namespace OSLab.Threads

open Prog

variable {s s' : Sched} {v v' : View} {t x y q : ℕ} {l r : List ℕ} {ok full : Prop}

theorem IsQueue.congr {next next' : ℕ → Option ℕ} {w : Queue} (h : IsQueue next w l)
    (hn : ∀ x ∈ l, next' x = next x) : IsQueue next' w l := ⟨h.chain.congr hn, h.tail⟩

/-- Two states with the same queues. -/
structure Same (s s' : Sched) : Prop where
  next : s'.next = s.next
  index : s'.index = s.index
  isValid : s'.isValid = s.isValid
  current : s'.currentThreadId = s.currentThreadId
  readyQ : s'.readyQ = s.readyQ
  waitQueues : s'.waitQueues = s.waitQueues

/-- The pointer structures of `s` represent `v`; with `full`, every valid thread has a place. -/
structure Represents (full : Prop) (s : Sched) (v : View) : Prop where
  running : s.currentThreadId = v.running
  ready : IsQueue s.next s.readyQ v.ready
  idle : v.ready = [] → s.readyQ.tail = none ∨ s.readyQ.tail = some v.running
  alloc : ∀ q, (s.waitQueues q).isSome = (v.waiting q).isSome
  waiting : ∀ q w l, s.waitQueues q = some w → v.waiting q = some l → IsQueue s.next w l
  apart : v.Apart
  index : ∀ t, v.Holds t → s.index t = t
  valid : ∀ t, v.Holds t → t < threadMaxThreads ∧ s.isValid t = true
  back : full → ∀ t, t < threadMaxThreads → s.isValid t = true → v.Holds t

theorem rep_iff : Rep s v ↔ Represents True s v := by
  constructor
  · intro h
    exact ⟨h.running, h.ready, h.idle, h.alloc, h.waiting, h.apart, h.index,
      fun t ht => (h.valid t).1 ht, fun _ t h1 h2 => (h.valid t).2 ⟨h1, h2⟩⟩
  · intro h
    exact ⟨h.running, h.ready, h.idle, h.alloc, h.waiting, h.apart, h.index,
      fun t => ⟨h.valid t, fun ht => h.back trivial t ht.1 ht.2⟩⟩

namespace Represents

theorem head (h : Represents full s v) : s.readyQ.head = v.ready.head? := h.ready.chain.head?_eq

theorem head_nil (h : Represents full s v) (hr : v.ready = []) : s.readyQ.head = none := by
  rw [h.head, hr]; rfl

theorem head_cons (h : Represents full s v) (hr : v.ready = x :: r) : s.readyQ.head = some x := by
  rw [h.head, hr]; rfl

/-- The end of a non-empty ready queue, as a pointer and as a member. -/
theorem last (h : Represents full s v) (hr : v.ready = x :: r) :
    ∃ y, s.readyQ.tail = some y ∧ v.ready.getLast? = some y ∧ y ∈ v.ready := by
  obtain ⟨y, hy⟩ : ∃ y, v.ready.getLast? = some y := by
    rw [hr, List.getLast?_cons]; exact ⟨_, rfl⟩
  exact ⟨y, by rw [h.ready.tail (by simp [hr]), hy], hy, List.mem_of_getLast? hy⟩

theorem running_notMem (h : Represents full s v) : v.running ∉ v.ready := (List.nodup_cons.1 h.apart.ready).1

theorem ready_nodup (h : Represents full s v) : v.ready.Nodup := (List.nodup_cons.1 h.apart.ready).2

theorem holds_ready (ht : t ∈ v.ready) : v.Holds t := Or.inr (Or.inl ht)

theorem holds_running : v.Holds v.running := Or.inl rfl

theorem holds_asleep (hq : v.waiting q = some l) (ht : t ∈ l) : v.Holds t :=
  Or.inr (Or.inr ⟨q, l, hq, ht⟩)

/-- Wait queues survive changes of `next` at threads that are not asleep. -/
theorem waiting_congr (h : Represents full s v) {next' : ℕ → Option ℕ}
    (hn : ∀ t, t ≠ v.running → t ∉ v.ready → v.Holds t → next' t = s.next t)
    (q : ℕ) (w : Queue) (l : List ℕ) (hw : s.waitQueues q = some w) (hl : v.waiting q = some l) :
    IsQueue next' w l :=
  (h.waiting q w l hw hl).congr fun t ht =>
    hn t (h.apart.awake q l hl t ht).1 (h.apart.awake q l hl t ht).2 (holds_asleep hl ht)

/-- The list a wait queue stands for. -/
theorem queue (h : Represents full s v) {w : Queue} (hw : s.waitQueues q = some w) :
    ∃ l, v.waiting q = some l ∧ IsQueue s.next w l := by
  have := h.alloc q
  rw [hw] at this
  obtain ⟨l, hl⟩ := Option.isSome_iff_exists.1 this.symm
  exact ⟨l, hl, h.waiting q w l hw hl⟩

/-- A step that moves threads between places without creating or ending one. -/
theorem move (h : Represents full s v) (hap : v'.Apart) (hh : ∀ t, v'.Holds t ↔ v.Holds t)
    (hi : s'.index = s.index) (hv : s'.isValid = s.isValid)
    (hrun : s'.currentThreadId = v'.running) (hready : IsQueue s'.next s'.readyQ v'.ready)
    (hidle : v'.ready = [] → s'.readyQ.tail = none ∨ s'.readyQ.tail = some v'.running)
    (halloc : ∀ q, (s'.waitQueues q).isSome = (v'.waiting q).isSome)
    (hwait : ∀ q w l, s'.waitQueues q = some w → v'.waiting q = some l → IsQueue s'.next w l) :
    Represents full s' v' where
  running := hrun
  ready := hready
  idle := hidle
  alloc := halloc
  waiting := hwait
  apart := hap
  index t ht := by rw [hi]; exact h.index t ((hh t).1 ht)
  valid t ht := by rw [hv]; exact h.valid t ((hh t).1 ht)
  back hf t h1 h2 := (hh t).2 (h.back hf t h1 (by rw [← hv]; exact h2))

theorem same (h : Represents full s v) (hs : Same s s') : Represents full s' v := by
  refine h.move h.apart (fun _ => Iff.rfl) hs.index hs.isValid ?_ ?_ ?_ ?_ ?_
  · rw [hs.current]; exact h.running
  · rw [hs.next, hs.readyQ]; exact h.ready
  · rw [hs.readyQ]; exact h.idle
  · rw [hs.waitQueues]; exact h.alloc
  · rw [hs.next, hs.waitQueues]; exact h.waiting

/-- The ready queue is no longer than the table. -/
theorem length_lt (h : Represents full s v) (hl : ∀ t ∈ l, v.Holds t) (hnd : l.Nodup) :
    l.length < threadMaxThreads + 1 := by
  have hsub : l ⊆ List.range threadMaxThreads := fun t ht =>
    List.mem_range.2 (h.valid t (hl t ht)).1
  have := (hnd.subperm hsub).length_le
  rw [List.length_range] at this
  omega

end Represents

/-! ### Steps that leave the queues alone -/

theorem same_setInterrupts (s : Sched) (b : Bool) : Same s (s.setInterrupts b) := by
  constructor <;> simp

theorem wp_interruptsSet {Q : Bool → Sched → Prop} {b : Bool} :
    wp ok (interruptsSet b) Q s ↔ Q s.interrupts (s.setInterrupts b) := by
  simp only [interruptsSet, wp_bind, wp_getState, wp_modify, wp_pure]

theorem wp_finish {Q : Outcome → Sched → Prop} {enable : Bool} {a : ℤ} :
    wp ok (finish enable a) Q s ↔ Q (.returned a) (s.setInterrupts enable) := by
  simp only [finish, wp_bind, wp_interruptsSet, wp_pure]

/-- `interrupts_set(enable); return a` represents what the state before it does. -/
theorem finish_ok (h : Represents full s v) (enable : Bool) (a : ℤ) :
    wp ok (finish enable a) (fun o s' => Represents full s' v ∧ o = .returned a) s :=
  wp_finish.2 ⟨h.same (same_setInterrupts s enable), rfl⟩

theorem freeStack_same (a : Option ℕ) : wp True (freeStack a) (fun _ s' => Same s s') s := by
  cases a with
  | none => exact (wp_pure _).2 ⟨rfl, rfl, rfl, rfl, rfl, rfl⟩
  | some a =>
    simp only [freeStack, wp_bind, wp_getState, wp_require, wp_modify]
    exact ⟨fun _ => ⟨rfl, rfl, rfl, rfl, rfl, rfl⟩, fun _ => trivial⟩

theorem freePending_same : wp True freePending (fun _ s' => Same s s') s := by
  simp only [freePending, wp_bind, wp_getState, wp_modify]
  refine wp_mono (freeStack_same _) ?_
  intro _ s' hs
  exact ⟨hs.next, hs.index, hs.isValid, hs.current, hs.readyQ, hs.waitQueues⟩

/-- `thread_yield` and `thread_exit` first block the signal and free a pending stack. -/
theorem prefix_ok (h : Represents full s v) {Q : Unit → Sched → Prop} (hQ : ∀ s', Represents full s' v → Q () s') :
    wp True freePending Q (s.setInterrupts false) := by
  refine wp_mono freePending_same ?_
  intro _ s' hs
  exact hQ s' ((h.same (same_setInterrupts s false)).same hs)

/-! ### `thread_yield` -/

theorem yieldAny_ok (h : Represents full s v) (enable : Bool) :
    wp ok (yieldAny enable) (fun _ s' => Represents full s' v.yieldAny) s := by
  cases hr : v.ready with
  | nil =>
    simp only [yieldAny, wp_bind, wp_getState, h.head_nil hr]
    rw [View.yieldAny_nil hr]
    exact wp_mono (finish_ok h _ _) fun _ _ h => h.1
  | cons x r =>
    have hh := h.head_cons hr
    obtain ⟨y, hy, hlast, hmem⟩ := h.last hr
    have hap := h.apart.yieldAny
    have hpl : ∀ t, v.yieldAny.Holds t ↔ v.Holds t := fun t => View.holds_yieldAny
    have hc := (h.ready.chain.update h.running_notMem none).snoc hlast h.ready_nodup
      h.running_notMem
    simp only [yieldAny, wp_bind, wp_getState, hh]
    rw [View.yieldAny_cons hr] at hap hpl ⊢
    rw [hr, hh] at hc
    simp only [readyAppend, readyPop, deref, setcontext, wp_bind, wp_getState, wp_modify, wp_pure,
      h.running, hy, hh, Sched.setNext_fields, Sched.saveContext_fields, Sched.setReadyTail_fields]
    refine h.move hap hpl (by simp) (by simp) ?_ ⟨?_, ?_⟩ ?_ ?_ ?_
    · simp [h.index x (Represents.holds_ready (by simp [hr]))]
    · simpa using hc.2
    · simp
    · simp
    · simpa using h.alloc
    · simp only [Sched.loadContext_fields, Sched.setCurrent_fields, Sched.setReadyHead_fields,
        Sched.setNext_fields, Sched.setReadyTail_fields, Sched.saveContext_fields]
      refine h.waiting_congr ?_
      intro t h1 h2 _
      have hty : t ≠ y := fun e => h2 (e ▸ hmem)
      simp [h1, hty]

/-- The search of a queue finds exactly its members, with their predecessors. -/
theorem findThread_chain (tid : ℤ) (pre : Option ℕ) {fuel : ℕ} {p : Option ℕ} (hc : Chain s.next p l)
    (hi : ∀ t ∈ l, s.index t = t) (hf : l.length < fuel) :
    (∃ (l₁ : List ℕ) (t : ℕ) (l₂ : List ℕ), l = l₁ ++ t :: l₂ ∧ (t : ℤ) = tid ∧
      findThread s tid fuel pre p = some (some (l₁.getLast?.or pre, t))) ∨
    ((∀ t ∈ l, (t : ℤ) ≠ tid) ∧ findThread s tid fuel pre p = some none) := by
  induction l generalizing p pre fuel with
  | nil =>
    obtain ⟨f, rfl⟩ : ∃ f, fuel = f + 1 := ⟨fuel - 1, by simp at hf; omega⟩
    obtain rfl : p = none := hc
    exact Or.inr ⟨by simp, rfl⟩
  | cons x r ih =>
    obtain ⟨f, rfl⟩ : ∃ f, fuel = f + 1 := ⟨fuel - 1, by simp at hf; omega⟩
    obtain rfl : p = some x := hc.1
    simp only [findThread, hi x (by simp)]
    by_cases hx : (x : ℤ) = tid
    · exact Or.inl ⟨[], x, r, rfl, hx, by simp [hx]⟩
    rw [if_neg hx]
    rcases ih (some x) hc.2 (fun t ht => hi t (by simp [ht])) (by simpa using hf) with
      ⟨l₁, t, l₂, rfl, ht, hfind⟩ | ⟨hne, hfind⟩
    · refine Or.inl ⟨x :: l₁, t, l₂, rfl, ht, ?_⟩
      rw [hfind]
      cases l₁ with
      | nil => simp
      | cons z l₁ =>
        rw [List.getLast?_cons_cons, List.getLast?_cons]; rfl
    · exact Or.inr ⟨by simpa [hx] using hne, hfind⟩

theorem yieldTo_ok (h : Represents full s v) (tid : ℤ) (enable : Bool) :
    wp True (yieldTo tid enable)
      (fun _ s' => Represents full s' (if tid < 0 then v else v.yieldTo tid.toNat)) s := by
  -- the exits at which the caller goes on
  have hstay : ∀ a, v.yieldTo tid.toNat = v →
      wp True (finish enable a)
        (fun _ s' => Represents full s' (if tid < 0 then v else v.yieldTo tid.toNat)) s := by
    intro a hv
    rw [hv, ite_self]
    exact wp_mono (finish_ok h _ _) fun _ _ h => h.1
  have hnot : tid.toNat ∉ v.ready → v.yieldTo tid.toNat = v := fun hn => if_neg hn
  have hmem : ∀ t ∈ v.ready, t < threadMaxThreads ∧ s.isValid t = true := fun t ht =>
    h.valid t (Represents.holds_ready ht)
  simp only [yieldTo, wp_bind, wp_getState, wp_ite, wp_require]
  refine ⟨?_, ?_⟩
  · rintro (hneg | hbig)
    · rw [if_pos hneg]; exact wp_mono (finish_ok h _ _) fun _ _ h => h.1
    · exact hstay _ (hnot fun hm => by have := (hmem _ hm).1; omega)
  intro hrange
  refine ⟨fun hlt => ⟨?_, ?_⟩, fun _ => trivial⟩
  · intro hinv
    exact hstay _ (hnot fun hm => by rw [(hmem _ hm).2] at hinv; simp at hinv)
  intro _
  -- the search over `readyQ` finds the thread at its place in the sequence, or not at all
  rcases findThread_chain tid none h.ready.chain
      (fun t ht => h.index t (Represents.holds_ready ht))
      (h.length_lt (fun t ht => Represents.holds_ready ht) h.ready_nodup) with
    ⟨l₁, t, l₂, hl, htid, hfind⟩ | ⟨hne, hfind⟩
  · refine wp_reads _ hfind ?_
    obtain rfl : tid = t := htid.symm
    obtain ⟨x, r, hr⟩ : ∃ x r, v.ready = x :: r := by cases l₁ <;> simp [hl]
    have hh := h.head_cons hr
    obtain ⟨y, hy, hlast, hym⟩ := h.last hr
    have htm : t ∈ v.ready := by simp [hl]
    have hap := h.apart.yieldTo (u := t)
    have hpl : ∀ u, (v.yieldTo t).Holds u ↔ v.Holds u := fun u => View.holds_yieldTo
    have hc := h.ready.chain.snoc hlast h.ready_nodup h.running_notMem
    have hnd : (v.ready ++ [v.running]).Nodup := by
      have := h.running_notMem; have := h.ready_nodup
      grind
    have hnt : t ∉ l₁ := by
      have := h.ready_nodup
      rw [hl, List.nodup_append] at this
      exact fun hm => this.2.2 t hm t (by simp) rfl
    have herase : v.ready.erase t = l₁ ++ l₂ := by
      rw [hl, List.erase_append_right _ hnt, List.erase_cons_head]
    simp only [Int.toNat_natCast] at *
    rw [if_neg (by omega), View.yieldTo_mem htm, herase]
    rw [View.yieldTo_mem htm, herase] at hap hpl
    -- the chains of the sleepers have none of the nodes that are written
    have hwait : ∀ (next' : ℕ → Option ℕ), (∀ u, u ∉ v.ready → next' u =
        Function.update (Function.update s.next y (some v.running)) v.running none u) →
        ∀ q w l, s.waitQueues q = some w → v.waiting q = some l → IsQueue next' w l := by
      intro next' hn
      refine h.waiting_congr ?_
      intro u h1 h2 _
      have huy : u ≠ y := fun e => h2 (e ▸ hym)
      rw [hn u h2]; simp [h1, huy]
    rw [hl, List.append_assoc, List.cons_append] at hc hnd
    rcases List.eq_nil_or_concat l₁ with rfl | ⟨l₀, p, rfl⟩
    · -- `want_tid` is the head
      simp only [readyAppend, readyUnlink, readyPop, deref, setcontext, wp_bind, wp_getState,
        wp_modify, wp_pure, h.running, hy, hh, Sched.setNext_fields, Sched.saveContext_fields,
        Sched.setReadyTail_fields, List.getLast?_nil, Option.or_none]
      have hxt : x = t := by rw [hl] at hr; exact (List.cons.inj hr).1.symm
      subst hxt
      refine h.move hap hpl (by simp) (by simp) (by simp) ⟨?_, ?_⟩ ?_ ?_ ?_
      · simpa using hc.2
      · simp
      · simp
      · simpa using h.alloc
      · simp only [Sched.loadContext_fields, Sched.setCurrent_fields, Sched.setReadyHead_fields,
          Sched.setNext_fields, Sched.setReadyTail_fields, Sched.saveContext_fields]
        exact hwait _ fun _ _ => rfl
    · -- `want_tid` follows `p`
      have hpm : p ∈ v.ready := by simp [hl]
      have hgl : ((l₀.concat p).getLast?.or none) = some p := by simp
      simp only [readyAppend, readyUnlink, deref, setcontext, wp_bind, wp_getState, wp_modify,
        wp_pure, h.running, hy, hgl, Sched.setNext_fields, Sched.saveContext_fields,
        Sched.setReadyTail_fields]
      simp only [List.concat_eq_append, List.append_assoc, List.cons_append, List.nil_append]
        at hc hnd ⊢
      refine h.move (by simpa using hap) (by simpa using hpl) (by simp) (by simp) (by simp)
        ⟨?_, ?_⟩ ?_ ?_ ?_
      · simpa using hc.unlink hnd
      · intro _
        rw [← List.cons_append, ← List.append_assoc, List.getLast?_concat]
        simp
      · simp
      · simpa using h.alloc
      · simp only [Sched.loadContext_fields, Sched.setCurrent_fields,
          Sched.setNext_fields, Sched.setReadyTail_fields, Sched.saveContext_fields]
        refine hwait _ fun u hu => ?_
        rw [Function.update_of_ne (ne_of_mem_of_not_mem hpm hu).symm]
  · refine wp_reads _ hfind ?_
    -- not in the ready queue: nothing happens
    have hnm : tid.toNat ∉ v.ready := fun hm => hne _ hm (by omega)
    by_cases hd : s.readyQ.head = none
    · simp only [hd, if_true]; exact hstay _ (hnot hnm)
    · simp only [hd, if_false]; exact hstay _ (hnot hnm)

theorem threadYield_ok (h : Represents full s v) (tid : ℤ) :
    wp True (threadYield tid) (fun _ s' => Represents full s' (if tid = threadAny then v.yieldAny
        else if tid < 0 then v else v.yieldTo tid.toNat)) s := by
  simp only [threadYield, wp_bind, wp_interruptsSet]
  refine prefix_ok h fun s₁ h₁ => ?_
  have hrun : s₁.currentThreadId = v.running := h₁.running
  simp only [wp_getState, wp_ite]
  refine ⟨?_, fun hne => ⟨?_, ?_⟩⟩
  · rintro hself
    refine wp_mono (finish_ok h₁ _ _) fun _ s' hr => ?_
    rcases hself with rfl | rfl
    · exact hr.1
    · have hn : s₁.currentThreadId ∉ v.ready := by rw [hrun]; exact h.running_notMem
      have h0 : ¬((s₁.currentThreadId : ℤ) < 0) := by omega
      have hany : ¬((s₁.currentThreadId : ℤ) = threadAny) := by unfold threadAny; omega
      rw [if_neg hany, if_neg h0, Int.toNat_natCast, View.yieldTo, if_neg hn]
      exact hr.1
  · intro hany
    rw [if_pos hany]
    exact yieldAny_ok h₁ _
  · intro hany
    rw [if_neg hany]
    exact yieldTo_ok h₁ _ _

/-! ### `thread_exit`, `thread_kill` and `thread_create` -/

theorem threadExit_ok (h : Represents full s v) :
    wp True threadExit (fun _ s' => Represents full s' v.dispatch) s := by
  simp only [threadExit, wp_bind, wp_interruptsSet]
  refine prefix_ok h fun s₁ h₁ => ?_
  cases hr : v.ready with
  | nil =>
    simp only [wp_getState, h₁.head_nil hr]
    rw [View.dispatch_nil hr]
    exact wp_mono (finish_ok h₁ _ _) fun _ _ h => h.1
  | cons x r =>
    have hh := h₁.head_cons hr
    obtain ⟨y, hy, hlast, hmem⟩ := h₁.last hr
    have hap := h.apart.dispatch
    have hpl := fun t => View.holds_dispatch (t := t) h.apart hr
    have hc := h₁.ready.chain
    rw [hr, hh] at hc
    rw [hr] at hlast
    have hx : s₁.index x = x := h₁.index x (Represents.holds_ready (by simp [hr]))
    rw [View.dispatch_cons hr] at hap hpl ⊢
    simp only [readyPop, deref, setcontext, wp_bind, wp_getState, wp_modify, wp_pure, hh,
      h₁.running, Sched.setValid_fields]
    refine ⟨?_, ⟨?_, ?_⟩, ?_, ?_, ?_, hap, ?_, ?_, ?_⟩
    · simpa using hx
    · simpa using hc.2
    · intro hne
      obtain ⟨z, r', rfl⟩ := List.exists_cons_of_ne_nil hne
      rw [List.getLast?_cons_cons] at hlast
      simpa using hy.trans hlast.symm
    · -- the tail is left at the thread that now runs
      rintro rfl
      obtain rfl : x = y := by simpa using hlast
      simp [hy]
    · simpa using h₁.alloc
    · simpa using h₁.waiting
    · intro t ht
      simpa using h₁.index t ((hpl t).1 ht).1
    · intro t ht
      obtain ⟨hold, hne⟩ := (hpl t).1 ht
      simpa [hne] using h₁.valid t hold
    · intro hf t hlt hv
      have hne : t ≠ v.running := fun e => by simp [e] at hv
      exact (hpl t).2 ⟨h₁.back hf t hlt (by simpa [hne] using hv), hne⟩

theorem reap_ok (h : Represents full (s.setValid t false) v) :
    wp True (reap t) (fun _ s' => Represents full s' v) s := by
  simp only [reap, wp_bind, wp_ite, wp_getState, wp_pure, wp_modify]
  refine ⟨fun _ => ?_, fun _ => h⟩
  refine wp_mono (freeStack_same _) fun _ s₂ hs => ?_
  refine (h.same hs).same ?_
  constructor <;> simp

/-- Clearing the valid flag of a thread that has left the ready queue. -/
theorem Represents.setValid (h : Represents full s v) (ht : t ∈ v.ready) (hi : s'.index = s.index)
    (hv : s'.isValid = s.isValid) (hc : s'.currentThreadId = v.running)
    (hq : IsQueue s'.next s'.readyQ (v.ready.erase t))
    (hidle : v.ready.erase t = [] →
      s'.readyQ.tail = none ∨ s'.readyQ.tail = some v.running)
    (hw : s'.waitQueues = s.waitQueues)
    (hwait : ∀ q w l, s.waitQueues q = some w → v.waiting q = some l → IsQueue s'.next w l) :
    Represents full (s'.setValid t false) (v.remove t) := by
  have hpl := fun u => View.holds_remove (t := u) h.apart ht
  refine ⟨?_, ?_, ?_, ?_, ?_, h.apart.remove, ?_, ?_, ?_⟩ <;> simp only [Sched.setValid_fields]
  · exact hc
  · exact hq
  · exact hidle
  · rw [hw]; exact h.alloc
  · rw [hw]; exact hwait
  · intro u hu
    simpa [hi] using h.index u ((hpl u).1 hu).1
  · intro u hu
    obtain ⟨hold, hne⟩ := (hpl u).1 hu
    simpa [hv, hne] using h.valid u hold
  · intro hf u hlt hvu
    have hne : u ≠ t := fun e => by simp [e] at hvu
    exact (hpl u).2 ⟨h.back hf u hlt (by simpa [hv, hne] using hvu), hne⟩

theorem threadKill_ok (h : Represents full s v) (tid : ℤ) :
    wp True (threadKill tid)
      (fun _ s' => Represents full s' (if tid < 0 then v else v.remove tid.toNat)) s := by
  -- the exits at which nobody is killed
  have hstay : ∀ {s' : Sched} (enable a), Represents full s' v → (tid < 0 ∨ tid.toNat ∉ v.ready) →
      wp True (finish enable a)
        (fun _ s' => Represents full s' (if tid < 0 then v else v.remove tid.toNat)) s' := by
    intro s' enable a h' hn
    have hv : (if tid < 0 then v else v.remove tid.toNat) = v := by
      split
      · rfl
      · rename_i hp
        rw [View.remove, List.erase_of_not_mem (hn.resolve_left hp)]
    rw [hv]
    exact wp_mono (finish_ok h' _ _) fun _ _ h => h.1
  have h₁ := h.same (same_setInterrupts s false)
  simp only [threadKill, wp_bind, wp_interruptsSet, wp_getState, wp_ite,
    Sched.setInterrupts_fields]
  refine ⟨?_, fun hok => ⟨?_, fun _ => ?_⟩⟩
  · -- the range check, the caller itself, and a thread that is not valid
    intro hbad
    refine hstay _ _ h₁ ?_
    by_cases hneg : tid < 0
    · exact Or.inl hneg
    refine Or.inr fun hm => ?_
    obtain ⟨h1, h2⟩ := h.valid _ (Represents.holds_ready hm)
    rcases hbad with hc | hc | hc
    · refine h.running_notMem ?_
      rw [← h.running]
      rwa [hc, Int.toNat_natCast] at hm
    · omega
    · rw [h2] at hc; simp at hc
  · -- nobody is ready
    intro hd
    refine hstay _ _ h₁ (Or.inr ?_)
    rw [h.ready.chain.eq_nil_iff.1 hd]; simp
  -- the search over `readyQ` finds the victim at its place in the sequence, or not at all
  rcases findThread_chain tid none h₁.ready.chain
      (fun t ht => h₁.index t (Represents.holds_ready ht))
      (h₁.length_lt (fun t ht => Represents.holds_ready ht) h₁.ready_nodup) with
    ⟨l₁, t, l₂, hl, htid, hfind⟩ | ⟨hne, hfind⟩
  · refine wp_reads _ hfind ?_
    obtain rfl : tid = t := htid.symm
    obtain ⟨x, r, hr⟩ : ∃ x r, v.ready = x :: r := by cases l₁ <;> simp [hl]
    have hh := h.head_cons hr
    obtain ⟨y, hy, hlast, hym⟩ := h.last hr
    have htm : t ∈ v.ready := by simp [hl]
    have hnd := h.ready_nodup
    have hc := h.ready.chain
    have hnt : t ∉ l₁ := by
      rw [hl] at hnd
      exact fun hm => (List.nodup_append.1 hnd).2.2 t hm t (by simp) rfl
    have herase : v.ready.erase t = l₁ ++ l₂ := by
      rw [hl, List.erase_append_right _ hnt, List.erase_cons_head]
    have hnext : s.next t = none ↔ l₂ = [] := (hl ▸ hc).next_mem.eq_nil_iff
    have hpos : ¬(t : ℤ) < 0 := by omega
    have hfin : ∀ s₂, Represents full s₂ (v.remove t) →
        wp True (finish s.interrupts t) (fun _ s' => Represents full s' (v.remove t)) s₂ := fun s₂ h₂ =>
      wp_mono (finish_ok h₂ _ _) fun _ _ h => h.1
    rw [if_neg hpos, Int.toNat_natCast]
    rcases List.eq_nil_or_concat l₁ with rfl | ⟨l₀, p, rfl⟩
    · -- the victim is the head
      have hxt : x = t := by rw [hl] at hr; exact (List.cons.inj hr).1.symm
      subst hxt
      rw [List.nil_append] at hl herase
      rw [hl, hh] at hc
      simp only [readyUnlink, readyPop, deref, wp_bind, wp_getState, wp_modify, wp_pure, wp_ite,
        hh, List.getLast?_nil, Option.or_none, Sched.setInterrupts_fields,
        Sched.setReadyHead_fields]
      refine ⟨fun hn => ?_, fun hn => ?_⟩ <;>
        refine wp_mono (reap_ok (h.setValid htm (by simp) (by simp) (by simpa using h.running)
          ?_ ?_ (by simp) (by simpa using h.waiting))) fun _ s₂ h₂ => hfin s₂ h₂
      · -- the only ready thread: the queue is empty
        obtain rfl := hnext.1 hn
        rw [herase]
        exact ⟨by simpa using hn, by simp⟩
      · simp
      · -- others follow, and the last of them stays the tail
        have hne : l₂ ≠ [] := fun e => hn (hnext.2 e)
        obtain ⟨z, r', rfl⟩ := List.exists_cons_of_ne_nil hne
        rw [hl, List.getLast?_cons_cons] at hlast
        rw [herase]
        exact ⟨by simpa using hc.2, fun _ => by simpa using hy.trans hlast.symm⟩
      · rw [herase]
        intro e; exact absurd (hnext.2 e) hn
    · -- the victim follows `p`
      have hpm : p ∈ v.ready := by simp [hl]
      have hpt : t ≠ p := fun e => hnt (by simp [e])
      have hgl : ((l₀.concat p).getLast?.or none) = some p := by simp
      have hwait : ∀ q w l, s.waitQueues q = some w → v.waiting q = some l →
          IsQueue (Function.update s.next p (s.next t)) w l := by
        refine h.waiting_congr fun u _ hu _ => ?_
        rw [Function.update_of_ne (ne_of_mem_of_not_mem hpm hu).symm]
      have hl' : v.ready = l₀ ++ p :: t :: l₂ := by simp [hl]
      rw [List.concat_eq_append, List.append_assoc] at herase
      have hu : Chain (Function.update s.next p (s.next t)) s.readyQ.head (l₀ ++ p :: l₂) :=
        Chain.unlink (hl' ▸ hc) (hl' ▸ hnd)
      simp only [readyUnlink, wp_bind, wp_getState, wp_modify, wp_ite, hgl,
        Sched.setInterrupts_fields, Sched.setNext_fields, Function.update_of_ne hpt]
      refine ⟨fun hn => ?_, fun hn => ?_⟩ <;>
        refine wp_mono (reap_ok (h.setValid htm (by simp) (by simp) (by simpa using h.running)
          ?_ ?_ (by simp) (by simpa using hwait))) fun _ s₂ h₂ => hfin s₂ h₂
      · -- the victim is the last, and `p` becomes the tail
        obtain rfl := hnext.1 hn
        rw [herase]
        exact ⟨by simpa using hu, by simp⟩
      · rw [herase]; simp
      · have hne : l₂ ≠ [] := fun e => hn (hnext.2 e)
        obtain ⟨z, r', rfl⟩ := List.exists_cons_of_ne_nil hne
        have hlast' : (l₀ ++ p :: z :: r').getLast? = v.ready.getLast? := by
          rw [hl', List.getLast?_append, List.getLast?_append]
          simp [List.getLast?_cons_cons]
        rw [herase]
        refine ⟨by simpa using hu, fun _ => ?_⟩
        simpa using hy.trans (hlast.symm.trans hlast'.symm)
      · rw [herase]; simp
  · refine wp_reads _ hfind ?_
    refine hstay _ _ h₁ (Or.inr fun hm => hne _ hm ?_)
    -- a valid thread that sleeps is not found
    have hrange : 0 ≤ tid ∧ tid < threadMaxThreads := by
      by_contra hx; exact hok (Or.inr (Or.inl hx))
    omega

theorem firstInvalid_some (h : firstInvalid s = some t) :
    t < threadMaxThreads ∧ s.isValid t = false := by
  unfold firstInvalid at h
  refine ⟨List.mem_range.1 (List.mem_of_find?_eq_some h), ?_⟩
  simpa using List.find?_some h

theorem createEnqueue_ok (h : Represents full s v) (ht : t < threadMaxThreads) (hv : s.isValid t = false)
    {s' : Sched} (hn : s'.next = Function.update s.next t none)
    (hval : s'.isValid = Function.update s.isValid t true)
    (hi : s'.index = Function.update s.index t t) (hc : s'.currentThreadId = s.currentThreadId)
    (hr : s'.readyQ = s.readyQ) (hw : s'.waitQueues = s.waitQueues) :
    wp True (createEnqueue t) (fun _ s' => Represents full s' (v.enqueue t)) s' := by
  have hnh : ¬v.Holds t := fun hh => by have := (h.valid t hh).2; rw [hv] at this; simp at this
  have hne : ∀ u, v.Holds u → u ≠ t := fun u hu e => hnh (e ▸ hu)
  have hnt : t ∉ v.ready := fun hm => hnh (Represents.holds_ready hm)
  -- what is left to show of the state after the append, in whichever way it is made
  have hfin : ∀ {s₂ : Sched}, s₂.isValid = s'.isValid → s₂.index = s'.index →
      s₂.currentThreadId = s'.currentThreadId → s₂.waitQueues = s'.waitQueues →
      s₂.readyQ.tail = some t → Chain s₂.next s₂.readyQ.head (v.ready ++ [t]) →
      (∀ u, u ≠ v.running → u ∉ v.ready → v.Holds u → s₂.next u = s.next u) →
      Represents full s₂ (v.enqueue t) := by
    intro s₂ e1 e2 e3 e4 e5 e6 e7
    refine ⟨?_, ⟨e6, by simp [e5, View.enqueue]⟩, by simp [View.enqueue], ?_, ?_,
      h.apart.enqueue hnh, ?_, ?_, ?_⟩
    · rw [e3, hc]; exact h.running
    · rw [e4, hw]; exact h.alloc
    · rw [e4, hw]; exact h.waiting_congr e7
    · intro u hu
      rw [e2, hi]
      rcases View.holds_enqueue.1 hu with hu | rfl
      · rw [Function.update_of_ne (hne u hu)]; exact h.index u hu
      · simp
    · intro u hu
      rw [e1, hval]
      rcases View.holds_enqueue.1 hu with hu | rfl
      · simpa [hne u hu] using h.valid u hu
      · simp [ht]
    · intro hf u hlt hvu
      rw [e1, hval] at hvu
      by_cases hut : u = t
      · exact View.holds_enqueue.2 (.inr hut)
      · exact View.holds_enqueue.2 (.inl (h.back hf u hlt (by simpa [hut] using hvu)))
  simp only [createEnqueue, wp_bind, wp_getState, hr]
  cases hready : v.ready with
  | nil =>
    -- an empty queue: the new thread is its head
    have hh := h.head_nil hready
    rcases h.idle hready with htl | htl
    · simp only [htl, wp_bind, wp_modify, wp_getState, wp_ite, hh, Sched.setReadyTail_fields, hr]
      refine ⟨fun _ => hfin (by simp) (by simp) (by simp) (by simp) (by simp) ?_ ?_,
        fun hn => absurd trivial hn⟩
      · simp [hready, hn]
      · intro u _ _ hu
        simp [hn, hne u hu]
    · -- the stale tail is the running thread, whose `next` nothing reads
      simp only [htl, wp_bind, wp_getState, wp_modify, wp_ite, hh, Sched.setReadyTail_fields,
        Sched.setNext_fields, hr, hn]
      have hrt := hne _ Represents.holds_running
      refine ⟨fun _ => hfin (by simp) (by simp) (by simp) (by simp) (by simp) ?_ ?_,
        fun hn => absurd trivial hn⟩
      · simp [hready, hn, hrt.symm]
      · intro u h1 _ hu
        simp [hn, h1, hne u hu]
  | cons x r =>
    -- the new thread follows the tail
    have hh := h.head_cons hready
    obtain ⟨y, hy, hlast, hmem⟩ := h.last hready
    have hyt : y ≠ t := fun e => hnt (e ▸ hmem)
    simp only [hy, wp_bind, wp_getState, wp_modify, wp_pure, wp_ite, hh,
      Sched.setReadyTail_fields, Sched.setNext_fields, hr, hn]
    refine ⟨fun hx => absurd hx (by simp), fun _ => ?_⟩
    refine hfin (by simp) (by simp) (by simp) (by simp) (by simp) ?_ ?_
    · have := h.ready.chain.snoc hlast h.ready_nodup hnt
      rw [Function.update_comm hyt] at this
      simpa [hn, hr] using this
    · intro u _ h2 hu
      have huy : u ≠ y := fun e => h2 (e ▸ hmem)
      simp [hn, huy, hne u hu]

theorem threadCreate_ok (h : Represents full s v) {a : ℕ} :
    wp True (threadCreate (some a))
      (fun _ s' => Represents full s' ((firstInvalid s).elim v v.enqueue)) s := by
  have h₁ := h.same (same_setInterrupts s false)
  have hfirst : firstInvalid (s.setInterrupts false) = firstInvalid s := by
    unfold firstInvalid; simp
  simp only [threadCreate, wp_bind, wp_interruptsSet, wp_getState, hfirst]
  cases hf : firstInvalid s with
  | none => exact wp_mono (finish_ok h₁ _ _) fun _ _ h => h.1
  | some t =>
    obtain ⟨ht, hv⟩ := firstInvalid_some hf
    simp only [wp_bind, wp_modify, wp_require]
    refine ⟨fun _ => ?_, fun _ => trivial⟩
    refine wp_mono (createEnqueue_ok h ht hv (by simp) (by simp) (by simp) (by simp) (by simp)
      (by simp)) fun _ s₂ h₂ => ?_
    exact wp_mono (finish_ok h₂ _ _) fun _ _ h => h.1

/-- A `thread_create` whose `malloc` fails leaves an entry that is valid and in no place. -/
theorem threadCreate_noMemory (h : Represents full s v) (hfull : ¬full) :
    wp True (threadCreate none) (fun _ s' => Represents full s' v) s := by
  have h₁ := h.same (same_setInterrupts s false)
  simp only [threadCreate, wp_bind, wp_interruptsSet, wp_getState]
  cases hf : firstInvalid (s.setInterrupts false) with
  | none => exact wp_mono (finish_ok h₁ _ _) fun _ _ h => h.1
  | some t =>
    obtain ⟨ht, hv⟩ := firstInvalid_some hf
    have hne : ∀ u, v.Holds u → u ≠ t := by
      rintro u hu rfl
      rw [(h₁.valid u hu).2] at hv
      cases hv
    simp only [wp_bind, wp_modify]
    refine wp_mono (finish_ok (s := (s.setInterrupts false).initThread t none) ⟨?_, ?_, ?_, ?_, ?_,
      h.apart, ?_, ?_, ?_⟩ _ _) fun _ _ h => h.1
    · simpa using h₁.running
    · have := h₁.ready.congr fun u hu =>
        Function.update_of_ne (hne u (Represents.holds_ready hu)) none (s.setInterrupts false).next
      simpa using this
    · simpa using h₁.idle
    · simpa using h₁.alloc
    · intro q w l hw hl
      simp only [Sched.initThread_fields] at hw ⊢
      exact (h₁.waiting q w l hw hl).congr fun u hu =>
        Function.update_of_ne (hne u (Represents.holds_asleep hl hu)) _ _
    · intro u hu
      simpa [hne u hu] using h₁.index u hu
    · intro u hu
      simpa [hne u hu] using h₁.valid u hu
    · exact fun hf => absurd hf hfull

/-! ### Wait queues -/

theorem Sched.not_hasQueue (hw : s.waitQueues q = none) : ¬s.HasQueue q := by
  unfold Sched.HasQueue
  simp [hw]

theorem sleepEnqueue_run {w : Queue} (hw : s.waitQueues q = some w) (hq : IsQueue s.next w l)
    (hnd : l.Nodup) (hx : x ∉ l) :
    wp ok (sleepEnqueue q x) (fun _ s' => ∃ w', IsQueue s'.next w' (l ++ [x]) ∧
      s'.waitQueues = Function.update s.waitQueues q (some w') ∧
      (∀ u, u ∉ l → u ≠ x → s'.next u = s.next u) ∧ s'.index = s.index ∧
      s'.isValid = s.isValid ∧ s'.currentThreadId = s.currentThreadId ∧ s'.readyQ = s.readyQ) s := by
  simp only [sleepEnqueue, wp_bind, wp_getState, hw, deref, wp_pure]
  cases l with
  | nil =>
    obtain ⟨hh, -⟩ := hq
    rw [chain_nil] at hh
    simp only [hh, wp_bind, wp_modify]
    refine ⟨⟨some x, some x⟩, ⟨?_, by simp⟩, by simp, ?_, by simp, by simp, by simp, by simp⟩
    · simp
    · intro u _ hux
      simp [hux]
  | cons z l =>
    obtain ⟨y, hlast⟩ : ∃ y, (z :: l).getLast? = some y := by
      rw [List.getLast?_cons]; exact ⟨_, rfl⟩
    have hh := hq.chain.1
    have ht := (hq.tail (by simp)).trans hlast
    simp only [hh, ht, wp_bind, wp_getState, wp_modify, wp_pure, Sched.setNext_fields]
    refine ⟨⟨w.head, some x⟩, ⟨?_, ?_⟩, by simp [hh], ?_, by simp, by simp, by simp, by simp⟩
    · simpa using hq.chain.snoc hlast hnd hx
    · intro _; rw [List.getLast?_concat]
    · intro u hu hux
      have huy : u ≠ y := fun e => hu (e ▸ List.mem_of_getLast? hlast)
      simp [hux, huy]

/-- **`thread_sleep` is the sequence operation.** It aborts only where no queue is allocated. -/
theorem threadSleep_ok (h : Represents full s v) (q : ℕ) (hok : s.HasQueue q ∨ ok) :
    wp ok (threadSleep (some q)) (fun _ s' => Represents full s' (v.sleep q)) s := by
  have h₁ := h.same (same_setInterrupts s false)
  simp only [threadSleep, wp_bind, wp_interruptsSet, wp_getState]
  cases hr : v.ready with
  | nil =>
    -- no other thread could run, so the caller does not sleep
    simp only [h₁.head_nil hr]
    rw [View.sleep_nil hr]
    exact wp_mono (finish_ok h₁ _ _) fun _ _ h => h.1
  | cons x r =>
    have hh := h.head_cons hr
    simp only [hh, wp_bind, wp_modify, Sched.setInterrupts_fields]
    cases hw : s.waitQueues q with
    | none =>
      simp only [sleepEnqueue, wp_bind, wp_getState, Sched.saveContext_fields,
        Sched.setInterrupts_fields, hw, deref, wp_abort]
      exact hok.resolve_left (Sched.not_hasQueue hw)
    | some w =>
      -- the caller is appended to `l`, the sleepers of the queue
      obtain ⟨l, hl, hq⟩ := h.queue hw
      obtain ⟨y, hy, hlast, hmem⟩ := h.last hr
      have hrun : v.running ∉ l := fun hm => (h.apart.awake q l hl _ hm).1 rfl
      have hap := h.apart.sleep hl
      have hpl := fun t => View.holds_sleep (t := t) hl
      rw [View.sleep_cons hr hl] at hap hpl ⊢
      rw [h.running]
      refine wp_mono (sleepEnqueue_run (l := l) (by simpa using hw) (by simpa using hq)
        (h.apart.waiting q l hl) hrun) fun _ s₂ hs => ?_
      obtain ⟨w', hq', hw', hn, hi, hv, hc, hrq⟩ := hs
      simp only [Sched.saveContext_fields, Sched.setInterrupts_fields] at hw' hn hi hv hc hrq
      have hh' : s₂.readyQ.head = some x := by rw [hrq]; exact h.head_cons hr
      -- the append writes no `next` of a ready thread
      have hready : ∀ u ∈ v.ready, s₂.next u = s.next u := fun u hu =>
        hn u (fun hm => (h.apart.awake q l hl u hm).2 hu)
          (ne_of_mem_of_not_mem hu h.running_notMem)
      have hchain := h.ready.chain.congr hready
      rw [hr, h.head_cons hr] at hchain
      simp only [readyPop, deref, setcontext, wp_bind, wp_getState, wp_modify, wp_pure, hh']
      refine h.move hap hpl (by simp [hi]) (by simp [hv]) ?_ ⟨?_, ?_⟩ ?_ ?_ ?_
      · simp [hi, h.index x (Represents.holds_ready (by simp [hr]))]
      · simpa using hchain.2
      · intro hne
        obtain ⟨z, r', rfl⟩ := List.exists_cons_of_ne_nil hne
        rw [hr, List.getLast?_cons_cons] at hlast
        simpa [hrq] using hy.trans hlast.symm
      · -- the tail is left at the thread that now runs
        rintro rfl
        obtain rfl : x = y := by simpa [hr] using hlast
        simp [hrq, hy]
      · intro q'
        have := h.alloc q'
        by_cases e : q' = q <;> simp [hw', e, this]
      · intro q' w₁ l₁ hq₁ hl₁
        simp only [Sched.loadContext_fields, Sched.setCurrent_fields, Sched.setReadyHead_fields,
          hw'] at hq₁ hl₁ ⊢
        -- only the chain of the queue the caller sleeps in changes
        by_cases e : q' = q
        · subst e
          rw [Function.update_self] at hq₁ hl₁
          rw [← Option.some.inj hq₁, ← Option.some.inj hl₁]
          exact hq'
        · rw [Function.update_of_ne e] at hq₁ hl₁
          refine (h.waiting q' w₁ l₁ hq₁ hl₁).congr fun u hu => ?_
          exact hn u (fun hm => e (h.apart.queues q' q l₁ l hl₁ hl u hu hm))
            (h.apart.awake q' l₁ hl₁ u hu).1

end OSLab.Threads
