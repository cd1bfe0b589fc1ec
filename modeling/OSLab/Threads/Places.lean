import OSLab.Threads.Sequence

/-!
# Every thread has one place

The sequence operations move threads between places: they keep `View.Apart`, and say
which threads hold a place afterwards. Nothing here is about pointers.
-/

namespace OSLab.Threads

namespace View

variable {v : View} {t u q x : ℕ} {l r : List ℕ} {all : Bool}

theorem holds_enqueue : (v.enqueue u).Holds t ↔ v.Holds t ∨ t = u := by
  simp only [Holds, enqueue, List.mem_append, List.mem_singleton]
  rw [or_assoc, or_assoc, or_assoc]
  refine or_congr_right (or_congr_right or_comm)

theorem Apart.enqueue (h : v.Apart) (hu : ¬v.Holds u) : (v.enqueue u).Apart := by
  simp only [Holds, not_or, not_exists, not_and] at hu
  refine ⟨?_, h.waiting, ?_, h.queues⟩
  · have := h.ready
    simp only [View.enqueue]
    grind
  · intro q l hq t ht
    have := h.awake q l hq t ht
    refine ⟨this.1, ?_⟩
    simp only [View.enqueue, List.mem_append, List.mem_singleton, not_or]
    refine ⟨this.2, ?_⟩
    rintro rfl
    exact hu.2.2 q l hq ht

theorem dispatch_nil (h : v.ready = []) : v.dispatch = v := by unfold dispatch; rw [h]

theorem dispatch_cons (h : v.ready = x :: r) :
    v.dispatch = { v with running := x, ready := r } := by unfold dispatch; rw [h]

theorem Apart.dispatch (h : v.Apart) : v.dispatch.Apart := by
  cases hr : v.ready with
  | nil => rw [dispatch_nil hr]; exact h
  | cons x r =>
    rw [dispatch_cons hr]
    have hn := h.ready
    rw [hr] at hn
    refine ⟨(List.nodup_cons.1 hn).2, h.waiting, ?_, h.queues⟩
    intro q l hq t ht
    have := (h.awake q l hq t ht).2
    rw [hr] at this
    simpa using this

theorem holds_dispatch (h : v.Apart) (hr : v.ready = x :: r) :
    v.dispatch.Holds t ↔ v.Holds t ∧ t ≠ v.running := by
  rw [dispatch_cons hr]
  have hn := List.nodup_cons.1 h.ready
  have ha := h.awake
  simp only [Holds, hr] at *
  grind

theorem yieldAny_nil (h : v.ready = []) : v.yieldAny = v := by simp [yieldAny, h]

theorem yieldAny_cons (h : v.ready = x :: r) :
    v.yieldAny = { v with running := x, ready := r ++ [v.running] } := by
  simp [yieldAny, h, View.enqueue, View.dispatch]

theorem holds_yieldAny : v.yieldAny.Holds t ↔ v.Holds t := by
  cases hr : v.ready with
  | nil => rw [yieldAny_nil hr]
  | cons x r => rw [yieldAny_cons hr]; simp [Holds, hr]; tauto

theorem Apart.yieldAny (h : v.Apart) : v.yieldAny.Apart := by
  cases hr : v.ready with
  | nil => rw [yieldAny_nil hr]; exact h
  | cons x r =>
    rw [yieldAny_cons hr]
    obtain ⟨h1, h2, h3, h4⟩ := h
    rw [hr] at h1 h3
    refine ⟨?_, h2, ?_, h4⟩ <;> grind

theorem yieldTo_mem (h : u ∈ v.ready) :
    v.yieldTo u = { v with running := u, ready := v.ready.erase u ++ [v.running] } := by
  unfold yieldTo; rw [if_pos h]

theorem holds_yieldTo : (v.yieldTo u).Holds t ↔ v.Holds t := by
  unfold yieldTo
  split
  · rename_i hu
    simp only [Holds, List.mem_append, List.mem_singleton]
    by_cases htu : t = u
    · subst htu; simp [hu]
    · rw [List.mem_erase_of_ne htu]; tauto
  · rfl

theorem Apart.yieldTo (h : v.Apart) : (v.yieldTo u).Apart := by
  unfold View.yieldTo
  split
  · rename_i hu
    obtain ⟨h1, h2, h3, h4⟩ := h
    have := List.Nodup.mem_erase_iff (a := u) (b := u) (List.nodup_cons.1 h1).2
    refine ⟨?_, h2, ?_, h4⟩ <;> grind
  · exact h

theorem Apart.remove (h : v.Apart) : (v.remove u).Apart := by
  obtain ⟨h1, h2, h3, h4⟩ := h
  refine ⟨?_, h2, ?_, h4⟩ <;> simp only [View.remove] <;> grind

theorem holds_remove (h : v.Apart) (hu : u ∈ v.ready) :
    (v.remove u).Holds t ↔ v.Holds t ∧ t ≠ u := by
  have hn := List.nodup_cons.1 h.ready
  have ha := h.awake
  have hm := List.Nodup.mem_erase_iff (a := t) (b := u) hn.2
  simp only [Holds, View.remove]
  grind

theorem sleep_nil (h : v.ready = []) : v.sleep q = v := by unfold sleep; rw [h]

theorem sleep_cons (h : v.ready = x :: r) (hq : v.waiting q = some l) :
    v.sleep q = { v with
      running := x, ready := r
      waiting := Function.update v.waiting q (some (l ++ [v.running])) } := by
  simp [sleep, h, hq, View.dispatch]

theorem Apart.sleep (h : v.Apart) (hq : v.waiting q = some l) : (v.sleep q).Apart := by
  cases hr : v.ready with
  | nil => rw [sleep_nil hr]; exact h
  | cons x r =>
    rw [sleep_cons hr hq]
    have hrun : ∀ q' l', v.waiting q' = some l' → v.running ∉ l' :=
      fun q' l' hq' hm => (h.awake q' l' hq' _ hm).1 rfl
    obtain ⟨h1, h2, h3, h4⟩ := h
    rw [hr] at h1 h3
    constructor
    case queues =>
      -- the new sleeper is in no other queue, as it was running
      intro q₁ q₂ l₁ l₂ hq₁ hq₂ t ht₁ ht₂
      simp only [Function.update_apply] at hq₁ hq₂
      by_cases e₁ : q₁ = q <;> by_cases e₂ : q₂ = q
      · rw [e₁, e₂]
      · rw [if_pos e₁] at hq₁; rw [if_neg e₂] at hq₂
        obtain rfl : l ++ [v.running] = l₁ := Option.some.inj hq₁
        rcases List.mem_append.1 ht₁ with ht₁ | ht₁
        · rw [e₁]; exact h4 _ _ _ _ hq hq₂ t ht₁ ht₂
        · rw [List.mem_singleton.1 ht₁] at ht₂; exact absurd ht₂ (hrun _ _ hq₂)
      · rw [if_neg e₁] at hq₁; rw [if_pos e₂] at hq₂
        obtain rfl : l ++ [v.running] = l₂ := Option.some.inj hq₂
        rcases List.mem_append.1 ht₂ with ht₂ | ht₂
        · rw [e₂]; exact h4 _ _ _ _ hq₁ hq t ht₁ ht₂
        · rw [List.mem_singleton.1 ht₂] at ht₁; exact absurd ht₁ (hrun _ _ hq₁)
      · rw [if_neg e₁] at hq₁; rw [if_neg e₂] at hq₂
        exact h4 _ _ _ _ hq₁ hq₂ t ht₁ ht₂
    all_goals simp only [Function.update_apply]; grind

theorem holds_sleep (hq : v.waiting q = some l) : (v.sleep q).Holds t ↔ v.Holds t := by
  cases hr : v.ready with
  | nil => rw [sleep_nil hr]
  | cons x r =>
    rw [sleep_cons hr hq]
    simp only [Holds, hr, Function.update_apply]
    constructor
    · rintro (rfl | h | ⟨q', l', hq', ht⟩)
      · simp
      · simp [h]
      · split at hq'
        · rw [← Option.some.inj hq', List.mem_append, List.mem_singleton] at ht
          rcases ht with ht | rfl
          · exact Or.inr (Or.inr ⟨q, l, hq, ht⟩)
          · exact Or.inl rfl
        · exact Or.inr (Or.inr ⟨q', l', hq', ht⟩)
    · rintro (rfl | h | ⟨q', l', hq', ht⟩)
      · exact Or.inr (Or.inr ⟨q, l ++ [v.running], by simp, by simp⟩)
      · rw [List.mem_cons] at h; exact h.imp_right Or.inl
      · by_cases e : q' = q
        · obtain rfl : l = l' := Option.some.inj (by rw [← hq, ← hq', e])
          exact Or.inr (Or.inr ⟨q, l ++ [v.running], by simp, by simp [ht]⟩)
        · exact Or.inr (Or.inr ⟨q', l', by simp [e, hq'], ht⟩)

theorem woken_append (all : Bool) (hq : v.waiting q = some l) :
    v.woken q all ++ l.drop (v.woken q all).length = l := by
  unfold woken
  rw [hq]
  cases all
  · cases l <;> simp
  · simp

theorem wakeup_some (hq : v.waiting q = some l) :
    v.wakeup q all = { v with
      ready := v.ready ++ v.woken q all
      waiting := Function.update v.waiting q (some (l.drop (v.woken q all).length)) } := by
  unfold wakeup; rw [hq]

theorem holds_wakeup : (v.wakeup q all).Holds t ↔ v.Holds t := by
  cases hq : v.waiting q with
  | none => unfold wakeup; rw [hq]
  | some l =>
    rw [wakeup_some hq]
    have hl := woken_append all hq
    have hmem : t ∈ l ↔ t ∈ v.woken q all ∨ t ∈ l.drop (v.woken q all).length := by
      rw [← List.mem_append, hl]
    simp only [Holds, Function.update_apply, List.mem_append]
    constructor
    · rintro (rfl | (h | h) | ⟨q', l', hq', ht⟩)
      · simp
      · simp [h]
      · exact Or.inr (Or.inr ⟨q, l, hq, hmem.2 (Or.inl h)⟩)
      · split at hq'
        · rw [← Option.some.inj hq'] at ht
          exact Or.inr (Or.inr ⟨q, l, hq, hmem.2 (Or.inr ht)⟩)
        · exact Or.inr (Or.inr ⟨q', l', hq', ht⟩)
    · rintro (rfl | h | ⟨q', l', hq', ht⟩)
      · simp
      · simp [h]
      · by_cases e : q' = q
        · obtain rfl : l = l' := Option.some.inj (by rw [← hq, ← hq', e])
          rcases hmem.1 ht with ht | ht
          · exact Or.inr (Or.inl (Or.inr ht))
          · exact Or.inr (Or.inr ⟨q, _, by simp, ht⟩)
        · exact Or.inr (Or.inr ⟨q', l', by simp [e, hq'], ht⟩)

theorem Apart.wakeup (h : v.Apart) : (v.wakeup q all).Apart := by
  cases hq : v.waiting q with
  | none => unfold View.wakeup; rw [hq]; exact h
  | some l =>
    rw [wakeup_some hq]
    have hl := woken_append all hq
    have hnd : (v.woken q all ++ l.drop (v.woken q all).length).Nodup := by
      rw [hl]; exact h.waiting q l hq
    have hsub : ∀ t, t ∈ v.woken q all ∨ t ∈ l.drop (v.woken q all).length → t ∈ l :=
      fun t ht => by rw [← hl]; exact List.mem_append.2 ht
    generalize v.woken q all = a at *
    generalize l.drop a.length = b at *
    obtain ⟨h1, h2, h3, h4⟩ := h
    rw [List.nodup_append] at hnd
    constructor
    case queues =>
      intro q₁ q₂ l₁ l₂ hq₁ hq₂ t ht₁ ht₂
      simp only [Function.update_apply] at hq₁ hq₂
      by_cases e₁ : q₁ = q <;> by_cases e₂ : q₂ = q
      · rw [e₁, e₂]
      · rw [if_pos e₁] at hq₁; rw [if_neg e₂] at hq₂
        rw [← Option.some.inj hq₁] at ht₁
        rw [e₁]; exact h4 _ _ _ _ hq hq₂ t (hsub t (Or.inr ht₁)) ht₂
      · rw [if_neg e₁] at hq₁; rw [if_pos e₂] at hq₂
        rw [← Option.some.inj hq₂] at ht₂
        rw [e₂]; exact h4 _ _ _ _ hq₁ hq t ht₁ (hsub t (Or.inr ht₂))
      · rw [if_neg e₁] at hq₁; rw [if_neg e₂] at hq₂
        exact h4 _ _ _ _ hq₁ hq₂ t ht₁ ht₂
    case ready =>
      have := fun t ht => h3 q l hq t (hsub t (Or.inl ht))
      grind
    case waiting => simp only [Function.update_apply]; grind
    case awake =>
      -- a thread still asleep was not woken, and no other queue shares a thread with `q`
      intro q' l' hq' t ht
      simp only [Function.update_apply] at hq'
      simp only [List.mem_append, not_or]
      by_cases e : q' = q
      · rw [if_pos e] at hq'
        rw [← Option.some.inj hq'] at ht
        obtain ⟨ha, hb⟩ := h3 q l hq t (hsub t (Or.inr ht))
        exact ⟨ha, hb, fun hta => hnd.2.2 t hta t ht rfl⟩
      · rw [if_neg e] at hq'
        obtain ⟨ha, hb⟩ := h3 q' l' hq' t ht
        exact ⟨ha, hb, fun hta => e (h4 _ _ _ _ hq' hq t ht (hsub t (Or.inl hta)))⟩

theorem Apart.setQueue {o : Option (List ℕ)} (h : v.Apart) (ho : ∀ l, o = some l → l = []) :
    (v.setQueue q o).Apart := by
  obtain ⟨h1, h2, h3, h4⟩ := h
  constructor <;> simp only [View.setQueue, Function.update_apply] <;> grind

theorem holds_of_setQueue {o : Option (List ℕ)} (ho : ∀ l, o = some l → l = [])
    (h : (v.setQueue q o).Holds t) : v.Holds t := by
  rcases h with h | h | ⟨q', l, hl, ht⟩
  · exact .inl h
  · exact .inr (.inl h)
  · simp only [View.setQueue, Function.update_apply] at hl
    split at hl
    · rw [ho l hl] at ht; simp at ht
    · exact .inr (.inr ⟨q', l, hl, ht⟩)

theorem holds_setQueue {o : Option (List ℕ)} (ho : ∀ l, o = some l → l = [])
    (hq : ∀ l, v.waiting q = some l → l = []) : (v.setQueue q o).Holds t ↔ v.Holds t := by
  simp only [Holds, View.setQueue, Function.update_apply]
  refine or_congr_right (or_congr_right ⟨?_, ?_⟩)
  · rintro ⟨q', l', hq', ht⟩
    split at hq'
    · rw [ho l' hq'] at ht; simp at ht
    · exact ⟨q', l', hq', ht⟩
  · rintro ⟨q', l', hq', ht⟩
    by_cases e : q' = q
    · subst e; rw [hq l' hq'] at ht; simp at ht
    · exact ⟨q', l', by simp [e, hq'], ht⟩

end View

end OSLab.Threads
