import OSLab.Webserver.Server

/-!
# The request buffer is a queue

`Server.contents` lists the ring from `out` to `in`. Storing a descriptor appends to it
and advancing `out` drops its head, as long as the test for a full ring is right:
`full_iff`. That test adds up to `2 * max_requests + 1`, so it needs
`max_requests < 2 ^ 30`; `full_used` is the half of it that always holds.

* `delivers_run`: below that bound every run delivers each descriptor once, in order.
* `overflow_run`: from it on, a full ring overflows and looks empty.
* `buffer_delivers`: so the hand-off is right exactly below the bound.
-/

namespace OSLab.Webserver

variable {nr mr : ℕ} {sv : Server} {s t : Sys nr} {l : Label nr} {ls : List (Label nr)}
  {buffer : ℤ → ℤ} {c : ℤ}

namespace Server

/-- The positions are in `[0, max_requests]`. -/
structure Placed (sv : Server) : Prop where
  in_nonneg : 0 ≤ sv.inPos
  in_le : sv.inPos ≤ sv.maxRequests
  out_nonneg : 0 ≤ sv.outPos
  out_le : sv.outPos ≤ sv.maxRequests

/-- The number of descriptors in the ring. -/
def used (sv : Server) : ℕ := Ring.used (sv.maxRequests + 1) sv.inPos.toNat sv.outPos.toNat

/-- The descriptors in the ring, from `out` to `in`. -/
def contents (sv : Server) : List ℤ :=
  Ring.contents (fun k => sv.buffer k) (sv.maxRequests + 1) sv.outPos.toNat sv.used

theorem contents_length : sv.contents.length = sv.used := Ring.contents_length

theorem used_le : sv.used ≤ sv.maxRequests := Nat.le_of_lt_succ (Ring.used_lt (Nat.succ_pos _))

theorem ringSize_eq (h : sv.maxRequests + 1 < 2 ^ 31) : sv.ringSize = sv.maxRequests + 1 :=
  toInt32_of_lt (by omega) (by omega)

/-- Some slot can be accessed only when `max_requests + 1` is an `int`. -/
theorem InBuffer.lt {i : ℤ} (h : sv.InBuffer i) (hm : sv.maxRequests < 2 ^ 31) :
    sv.maxRequests + 1 < 2 ^ 31 := by
  by_contra hge
  have hr : sv.ringSize = sv.maxRequests + 1 - 2 ^ 32 := toInt32_wrap (by omega) (by omega)
  obtain ⟨h0, h1⟩ := h
  omega

/-- The next position, as a natural number. -/
theorem next_eq {p : ℤ} (h : sv.maxRequests + 1 < 2 ^ 31) (h0 : 0 ≤ p) (h1 : p ≤ sv.maxRequests) :
    (toInt32 (p + 1)).tmod sv.ringSize = ((p.toNat + 1) % (sv.maxRequests + 1) : ℕ) := by
  rw [ringSize_eq h, toInt32_of_lt (by omega) (by omega), Int.tmod_eq_emod_of_nonneg (by omega)]
  push_cast
  rw [Int.toNat_of_nonneg h0]

namespace Placed

variable (h : sv.Placed)
include h

theorem in_lt : sv.inPos.toNat < sv.maxRequests + 1 := by have := h.in_nonneg; have := h.in_le; omega

theorem out_lt : sv.outPos.toNat < sv.maxRequests + 1 := by
  have := h.out_nonneg; have := h.out_le; omega

theorem empty_iff : sv.Empty ↔ sv.used = 0 := by
  unfold Empty used
  rw [Ring.used_eq_zero h.in_lt h.out_lt]
  have := h.in_nonneg
  have := h.out_nonneg
  omega

/-- The number of descriptors, in terms of the positions. -/
theorem used_cases : (sv.outPos ≤ sv.inPos ∧ (sv.used : ℤ) = sv.inPos - sv.outPos) ∨
    (sv.inPos < sv.outPos ∧ (sv.used : ℤ) = sv.inPos - sv.outPos + sv.maxRequests + 1) := by
  have hc := Ring.used_cases h.in_lt h.out_lt
  obtain ⟨h1, h2, h3, h4⟩ := h
  unfold used
  omega

/-- Below `2 ^ 30` the code's test is right. -/
theorem full_iff (hm : sv.maxRequests < 2 ^ 30) : sv.Full ↔ sv.used = sv.maxRequests := by
  have hc := h.used_cases
  have hle := sv.used_le
  obtain ⟨h1, h2, h3, h4⟩ := h
  unfold Full
  rw [ringSize_eq (by omega), toInt32_of_lt (by omega) (by omega),
    Int.tmod_eq_emod_of_nonneg (by omega)]
  rcases hc with ⟨ho, e⟩ | ⟨ho, e⟩
  · rw [show sv.inPos - sv.outPos + sv.maxRequests + 1 = sv.used + (sv.maxRequests + 1) by omega,
      Int.add_emod_right, Int.emod_eq_of_lt (by omega) (by omega)]
    exact Int.ofNat_inj
  · rw [← e, Int.emod_eq_of_lt (by omega) (by omega)]
    exact Int.ofNat_inj

/-- A ring the code takes to be full is full. -/
theorem full_used (hm : sv.maxRequests < 2 ^ 31) (hpos : 0 < sv.maxRequests) (hf : sv.Full) :
    sv.used = sv.maxRequests := by
  by_cases hsmall : sv.maxRequests < 2 ^ 30
  · exact (h.full_iff hsmall).1 hf
  have hc := h.used_cases
  have hle := sv.used_le
  obtain ⟨h1, h2, h3, h4⟩ := h
  unfold Full at hf
  -- past the largest `int` the sum is negative, and so is its remainder
  by_cases hov : sv.inPos - sv.outPos + sv.maxRequests + 1 < 2 ^ 31
  · rw [toInt32_of_lt (by omega) hov] at hf
    by_cases hmax : sv.maxRequests + 1 < 2 ^ 31
    · rw [ringSize_eq hmax, Int.tmod_eq_emod_of_nonneg (by omega)] at hf
      rcases hc with ⟨ho, e⟩ | ⟨ho, e⟩
      · rw [show sv.inPos - sv.outPos + sv.maxRequests + 1 =
          sv.used + (sv.maxRequests + 1) by omega, Int.add_emod_right,
          Int.emod_eq_of_lt (by omega) (by omega)] at hf
        exact Int.ofNat_inj.1 hf
      · rw [← e, Int.emod_eq_of_lt (by omega) (by omega)] at hf
        exact Int.ofNat_inj.1 hf
    · have hr : sv.ringSize = -2 ^ 31 := by
        have : sv.ringSize = sv.maxRequests + 1 - 2 ^ 32 := toInt32_wrap (by omega) (by omega)
        omega
      rw [hr, Int.tmod_neg, Int.tmod_eq_of_lt (by omega) (by omega)] at hf
      omega
  · rw [toInt32_wrap (by omega) (by omega)] at hf
    rw [← Int.neg_neg (_ - _), Int.neg_tmod] at hf
    have := Int.tmod_nonneg sv.ringSize
      (show 0 ≤ -(sv.inPos - sv.outPos + sv.maxRequests + 1 - 2 ^ 32) by omega)
    omega

theorem inBuffer_in (hm : sv.maxRequests + 1 < 2 ^ 31) : sv.InBuffer sv.inPos := by
  unfold InBuffer
  rw [ringSize_eq hm]
  exact ⟨h.in_nonneg, by have := h.in_le; omega⟩

/-- Storing keeps the positions in range. -/
theorem put (hm : sv.maxRequests + 1 < 2 ^ 31) (c : ℤ) : (sv.put c).Placed := by
  have := Nat.mod_lt (sv.inPos.toNat + 1) (show 0 < sv.maxRequests + 1 by omega)
  have e : (sv.put c).inPos = ((sv.inPos.toNat + 1) % (sv.maxRequests + 1) : ℕ) :=
    next_eq hm h.in_nonneg h.in_le
  refine ⟨by omega, ?_, h.out_nonneg, h.out_le⟩
  have em : (sv.put c).maxRequests = sv.maxRequests := rfl
  omega

/-- Taking keeps the positions in range. -/
theorem advance (hm : sv.maxRequests + 1 < 2 ^ 31) : sv.advance.Placed := by
  have := Nat.mod_lt (sv.outPos.toNat + 1) (show 0 < sv.maxRequests + 1 by omega)
  have e : sv.advance.outPos = ((sv.outPos.toNat + 1) % (sv.maxRequests + 1) : ℕ) :=
    next_eq hm h.out_nonneg h.out_le
  refine ⟨h.in_nonneg, h.in_le, by omega, ?_⟩
  have em : sv.advance.maxRequests = sv.maxRequests := rfl
  omega

theorem toNat_put (hm : sv.maxRequests + 1 < 2 ^ 31) (c : ℤ) :
    (sv.put c).inPos.toNat = (sv.inPos.toNat + 1) % (sv.maxRequests + 1) := by
  have : (sv.put c).inPos = _ := next_eq hm h.in_nonneg h.in_le
  rw [this, Int.toNat_natCast]

theorem toNat_advance (hm : sv.maxRequests + 1 < 2 ^ 31) :
    sv.advance.outPos.toNat = (sv.outPos.toNat + 1) % (sv.maxRequests + 1) := by
  have : sv.advance.outPos = _ := next_eq hm h.out_nonneg h.out_le
  rw [this, Int.toNat_natCast]

theorem used_put (hm : sv.maxRequests + 1 < 2 ^ 31) (hu : sv.used < sv.maxRequests) (c : ℤ) :
    (sv.put c).used = sv.used + 1 := by
  have e := Ring.used_push h.in_lt h.out_lt (show sv.used + 1 < sv.maxRequests + 1 by omega)
  unfold used
  rw [h.toNat_put hm]
  exact e

/-- Storing in a full ring makes it look empty. -/
theorem used_put_full (hm : sv.maxRequests + 1 < 2 ^ 31) (hu : sv.used = sv.maxRequests) (c : ℤ) :
    (sv.put c).used = 0 := by
  have e := Ring.used_push_full h.in_lt h.out_lt (show sv.used + 1 = sv.maxRequests + 1 by omega)
  unfold used
  rw [h.toNat_put hm, e]
  exact (Ring.used_eq_zero h.out_lt h.out_lt).2 rfl

theorem used_advance (hm : sv.maxRequests + 1 < 2 ^ 31) (hu : 0 < sv.used) :
    sv.advance.used + 1 = sv.used := by
  have e := Ring.used_pop h.in_lt h.out_lt hu
  unfold used
  rw [h.toNat_advance hm]
  exact e

/-- **Storing appends.** -/
theorem contents_put (hm : sv.maxRequests + 1 < 2 ^ 31) (hu : sv.used < sv.maxRequests) (c : ℤ) :
    (sv.put c).contents = sv.contents ++ [c] := by
  have hslot := Ring.slot_used h.in_lt h.out_lt
  have hb : (fun k : ℕ => (sv.put c).buffer k) = Function.update (fun k : ℕ => sv.buffer k)
      ((sv.outPos.toNat + sv.used) % (sv.maxRequests + 1)) c := by
    funext k
    have hin := h.in_nonneg
    unfold used
    rw [hslot]
    simp only [Server.put, Function.update_apply]
    refine if_congr ?_ rfl rfl
    omega
  have e := Ring.contents_push (fun k : ℕ => sv.buffer k) sv.outPos.toNat
    (show sv.used < sv.maxRequests + 1 by omega) c
  unfold contents
  rw [h.used_put hm hu, hb]
  exact e

/-- **Taking drops the head.** -/
theorem contents_advance (hm : sv.maxRequests + 1 < 2 ^ 31) (hu : 0 < sv.used) :
    sv.contents = sv.buffer sv.outPos :: sv.advance.contents := by
  have hout := h.out_lt
  have e := Ring.contents_pop (fun k : ℕ => sv.buffer k) (sv.maxRequests + 1)
    sv.outPos.toNat sv.advance.used
  rw [h.used_advance hm hu, Nat.mod_eq_of_lt hout, Int.toNat_of_nonneg h.out_nonneg] at e
  unfold contents
  rw [h.toNat_advance hm]
  exact e

end Placed

end Server

/-! ### Histories -/

/-- The descriptors stored so far and those taken by the workers, in order. -/
structure History where
  enqueued : List ℤ
  taken : List ℤ

/-- What a step adds to the history. -/
def record (s : Sys nr) (l : Label nr) (h : History) : History :=
  match l with
  | .producerTest _ => match s.producer with
    | .test connfd => if s.sv.Full then h else { h with enqueued := h.enqueued ++ [connfd] }
    | _ => h
  | .workerTest _ =>
    if s.sv.Empty then h else { h with taken := h.taken ++ [s.sv.buffer s.sv.outPos] }
  | _ => h

/-- A step, with the history it extends. -/
def tracedStep (p : Sys nr × History) (l : Label nr) (p' : Sys nr × History) : Prop :=
  step p.1 l p'.1 ∧ p'.2 = record p.1 l p.2

/-- The positions are in range, the ring holds at most `max_requests` descriptors, and what
was stored is what was taken followed by what is in the ring. -/
structure Delivers (sv : Server) (h : History) : Prop where
  placed : sv.Placed
  bounded : sv.contents.length ≤ sv.maxRequests
  order : h.enqueued = h.taken ++ sv.contents

/-- What the producer's critical section does: it waits for room, or it stores its
descriptor and, if the ring was empty, unblocks a blocked worker if there is one. -/
theorem requestBody_cases {w : Option (Fin nr)} (h : s.requestBody c w = some t) :
    (s.sv.Full ∧ t = { s.unlock with producer := .blocked c }) ∨
    (¬s.sv.Full ∧ s.sv.InBuffer s.sv.inPos ∧ t.sv = s.sv.put c ∧ t.producer = .stored ∧
      ((¬s.sv.Empty ∧ t.workers = s.workers) ∨
        (s.sv.Empty ∧ (∀ i, s.workers i ≠ .blocked) ∧ t.workers = s.workers) ∨
        (s.sv.Empty ∧ ∃ i, s.workers i = .blocked ∧
          t.workers = Function.update s.workers i .woken))) := by
  unfold Sys.requestBody at h
  by_cases hf : s.sv.Full
  · rw [if_pos hf] at h
    exact .inl ⟨hf, (Option.some.inj h).symm⟩
  rw [if_neg hf] at h
  by_cases hb : s.sv.InBuffer s.sv.inPos
  · rw [if_neg (not_not.2 hb)] at h
    refine .inr ⟨hf, hb, ?_⟩
    simp only [] at h
    by_cases he : s.sv.Empty
    · rw [if_pos he] at h
      cases w with
      | none =>
        obtain ⟨hw, ht⟩ := Option.ite_none_right_eq_some.1 h
        obtain rfl := Option.some.inj ht
        exact ⟨rfl, rfl, .inr (.inl ⟨he, hw, rfl⟩)⟩
      | some i =>
        obtain ⟨hw, ht⟩ := Option.ite_none_right_eq_some.1 h
        obtain rfl := Option.some.inj ht
        exact ⟨rfl, rfl, .inr (.inr ⟨he, i, hw, rfl⟩)⟩
    · rw [if_neg he] at h
      obtain rfl := Option.some.inj h
      exact ⟨rfl, rfl, .inl ⟨he, rfl⟩⟩
  · rw [if_pos hb] at h
    simp at h

theorem signalFull_fields (s : Sys nr) : s.signalFull.sv = s.sv ∧
    s.signalFull.workers = s.workers ∧ ∀ c, s.signalFull.producer ≠ .blocked c := by
  unfold Sys.signalFull
  split
  · exact ⟨rfl, rfl, by simp⟩
  · rename_i hp
    exact ⟨rfl, rfl, hp⟩

/-- What a worker's critical section does: it waits for a descriptor, or it takes the
oldest one and, if the ring was full, unblocks the producer. -/
theorem stubBody_cases {i : Fin nr} (h : s.stubBody i = some t) :
    (s.sv.Empty ∧ t = s.unlock.setWorker i .blocked) ∨
    (¬s.sv.Empty ∧ s.sv.InBuffer s.sv.outPos ∧ t.sv = s.sv.advance ∧
      t.workers = Function.update s.workers i (.taken (s.sv.buffer s.sv.outPos)) ∧
      ((¬s.sv.Full ∧ t.producer = s.producer) ∨
        (s.sv.Full ∧ ∀ c, t.producer ≠ .blocked c))) := by
  unfold Sys.stubBody at h
  by_cases he : s.sv.Empty
  · rw [if_pos he] at h
    exact .inl ⟨he, (Option.some.inj h).symm⟩
  rw [if_neg he] at h
  by_cases hb : s.sv.InBuffer s.sv.outPos
  · rw [if_neg (not_not.2 hb)] at h
    refine .inr ⟨he, hb, ?_⟩
    simp only [] at h
    by_cases hf : s.sv.Full
    · rw [if_pos hf] at h
      obtain rfl := Option.some.inj h
      obtain ⟨h1, h2, h3⟩ := signalFull_fields
        (({ s with sv := s.sv.advance } : Sys nr).setWorker i (.taken (s.sv.buffer s.sv.outPos)))
      exact ⟨h1, h2, .inr ⟨hf, h3⟩⟩
    · rw [if_neg hf] at h
      obtain rfl := Option.some.inj h
      exact ⟨rfl, rfl, .inl ⟨hf, rfl⟩⟩
  · rw [if_pos hb] at h
    simp at h

/-- What a step does to the ring, and to the history. -/
theorem step_sv (h : step s l t) :
    (t.sv = s.sv ∧ ∀ k, record s l k = k) ∨
    (∃ c, ¬s.sv.Full ∧ s.sv.InBuffer s.sv.inPos ∧ t.sv = s.sv.put c ∧
      ∀ k, record s l k = { k with enqueued := k.enqueued ++ [c] }) ∨
    (¬s.sv.Empty ∧ s.sv.InBuffer s.sv.outPos ∧ t.sv = s.sv.advance ∧
      ∀ k, record s l k = { k with taken := k.taken ++ [s.sv.buffer s.sv.outPos] }) := by
  unfold step at h
  cases l with
  | producerTest w =>
    simp only [Sys.run] at h
    split at h
    · rename_i c hp
      rcases requestBody_cases h with ⟨hf, rfl⟩ | ⟨hf, hb, ht, -⟩
      · exact .inl ⟨rfl, fun k => by simp [record, hp, hf]⟩
      · exact .inr (.inl ⟨c, hf, hb, ht, fun k => by simp [record, hp, hf]⟩)
    · simp at h
  | workerTest i =>
    simp only [Sys.run] at h
    split at h
    · rcases stubBody_cases h with ⟨he, rfl⟩ | ⟨he, hb, ht, -⟩
      · exact .inl ⟨rfl, fun k => by simp [record, he]⟩
      · exact .inr (.inr ⟨he, hb, ht, fun k => by simp [record, he]⟩)
    · simp at h
  | _ =>
    -- every other step leaves the ring alone
    refine .inl ⟨?_, fun k => rfl⟩
    simp only [Sys.run, Sys.lockAs, Sys.setWorker, Sys.unlock] at h
    split at h
    all_goals first
      | (cases h <;> rfl)
      | (obtain rfl := Option.some.inj (Option.ite_none_right_eq_some.1 h).2; rfl)

/-- No step changes `max_requests`. -/
theorem step_maxRequests (h : step s l t) : t.sv.maxRequests = s.sv.maxRequests := by
  rcases step_sv h with ⟨ht, -⟩ | ⟨c, -, -, ht, -⟩ | ⟨-, -, ht, -⟩ <;> rw [ht] <;> rfl

/-- The positions stay in range. -/
theorem Server.Placed.step (h : s.sv.Placed) (hm : s.sv.maxRequests < 2 ^ 31)
    (hs : step s l t) : t.sv.Placed := by
  rcases step_sv hs with ⟨ht, -⟩ | ⟨c, -, hb, ht, -⟩ | ⟨-, hb, ht, -⟩ <;> rw [ht]
  · exact h
  · exact h.put (hb.lt hm) c
  · exact h.advance (hb.lt hm)

/-- **One step delivers**, below `2 ^ 30` requests. -/
theorem Delivers.step {k : History} (h : Delivers s.sv k) (hm : s.sv.maxRequests < 2 ^ 30)
    (hs : step s l t) : Delivers t.sv (record s l k) := by
  refine ⟨h.placed.step (by omega) hs, by rw [Server.contents_length]; exact Server.used_le, ?_⟩
  obtain ⟨hp, -, ho⟩ := h
  rcases step_sv hs with ⟨ht, hk⟩ | ⟨c, hf, hb, ht, hk⟩ | ⟨he, hb, ht, hk⟩
  · rw [ht, hk, ho]
  · -- the ring is not full, so the descriptor goes to a free slot
    have hu : s.sv.used < s.sv.maxRequests :=
      lt_of_le_of_ne Server.used_le fun e => hf ((hp.full_iff hm).2 e)
    rw [ht, hk, hp.contents_put (by omega) hu, ← List.append_assoc, ho]
  · have hu : 0 < s.sv.used := Nat.pos_of_ne_zero fun e => he (hp.empty_iff.2 e)
    rw [ht, hk, ho, hp.contents_advance (by omega) hu]
    simp

theorem init_placed (nr mr : ℕ) (buffer : ℤ → ℤ) : (serverInit nr mr buffer).sv.Placed :=
  ⟨le_refl _, Int.natCast_nonneg _, le_refl _, Int.natCast_nonneg _⟩

theorem init_delivers (nr mr : ℕ) (buffer : ℤ → ℤ) :
    Delivers (serverInit nr mr buffer).sv ⟨[], []⟩ := by
  have hu : (serverInit nr mr buffer).sv.used = 0 := (init_placed nr mr buffer).empty_iff.1 rfl
  have hc : (serverInit nr mr buffer).sv.contents = [] := by
    rw [← List.length_eq_zero_iff, Server.contents_length, hu]
  exact ⟨init_placed nr mr buffer, by rw [hc]; simp, by rw [hc]; rfl⟩

/-- **Every descriptor is delivered once, in order**, if `max_requests` is below `2 ^ 30`. -/
theorem delivers_run {p : Sys nr × History} (hm : mr < 2 ^ 30)
    (hr : Run tracedStep (serverInit nr mr buffer, ⟨[], []⟩) ls p) : Delivers p.1.sv p.2 := by
  have h : Delivers p.1.sv p.2 ∧ p.1.sv.maxRequests = mr := by
    refine run_inv (I := fun p => Delivers p.1.sv p.2 ∧ p.1.sv.maxRequests = mr) ?_ hr
      ⟨init_delivers nr mr buffer, rfl⟩
    intro q l q' hq hs
    obtain ⟨hd, hmr⟩ := hq
    have hmr' := step_maxRequests hs.1
    rw [hs.2]
    exact ⟨hd.step (by omega) hs.1, by omega⟩
  exact h.1

/-! ### The overflow -/

/-- While no worker runs, the producer stores a descriptor. -/
theorem store_run {p : Sys nr × History} {k : History} (hr : Run tracedStep p ls (s, k))
    (hn : 1 ≤ nr) (ho : s.holder = none) (hp : s.producer = .outside)
    (hw : ∀ i, s.workers i = .start) (hf : ¬s.sv.Full) (hb : s.sv.InBuffer s.sv.inPos) :
    ∃ ls', Run tracedStep p ls' ({ s with sv := s.sv.put 0 },
      { k with enqueued := k.enqueued ++ [0] }) := by
  have h0 : nr ≠ 0 := by omega
  have h1 := hr.snoc (l := .request 0) (u := ({ s with producer := .start 0 }, k))
    ⟨by simp [step, Sys.run, hp, h0], rfl⟩
  have h2 := h1.snoc (l := .producerLock)
    (u := ({ s with producer := .test 0, holder := some .producer }, k))
    ⟨by simp [step, Sys.run, Sys.lockAs, ho], rfl⟩
  have h3 := h2.snoc (l := .producerTest none)
    (u := ({ s with producer := .stored, holder := some .producer, sv := s.sv.put 0 },
      { k with enqueued := k.enqueued ++ [0] }))
    ⟨by simp [step, Sys.run, Sys.requestBody, Sys.signalEmpty, hf, hb, hw], by simp [record, hf]⟩
  have h4 := h3.snoc (l := .producerUnlock)
    (u := ({ s with sv := s.sv.put 0 }, { k with enqueued := k.enqueued ++ [0] }))
    ⟨by simp [step, Sys.run, Sys.unlock, ho, hp], rfl⟩
  exact ⟨_, h4⟩

/-- With the workers not running, the producer fills the ring. -/
theorem fill_run (buffer : ℤ → ℤ) (hn : 1 ≤ nr) (hm : mr + 1 < 2 ^ 31) (n : ℕ) (hle : n ≤ mr) :
    ∃ ls s k, Run tracedStep (serverInit nr mr buffer, ⟨[], []⟩) ls (s, k) ∧
      s.holder = none ∧ s.producer = .outside ∧ (∀ i, s.workers i = .start) ∧
      s.sv.Placed ∧ s.sv.maxRequests = mr ∧ s.sv.used = n ∧ s.sv.outPos = 0 ∧
      k.taken = [] ∧ k.enqueued.length = n := by
  induction n with
  | zero =>
    have hp := init_placed nr mr buffer
    exact ⟨[], _, _, .nil _, rfl, rfl, fun _ => rfl, hp, rfl, hp.empty_iff.1 rfl, rfl, rfl, rfl⟩
  | succ n ih =>
    obtain ⟨ls, s, k, hr, ho, hp, hw, hpl, hmr, hu, hout, ht, hk⟩ := ih (by omega)
    have hf : ¬s.sv.Full := by
      intro hf
      have := hpl.full_used (by omega) (by omega) hf
      omega
    obtain ⟨ls', hr'⟩ := store_run hr hn ho hp hw hf (hpl.inBuffer_in (by omega))
    have hu' := hpl.used_put (by omega) (by omega) 0
    exact ⟨ls', _, _, hr', ho, hp, hw, hpl.put (by omega) 0, hmr, by rw [hu', hu], hout, ht,
      by simp [hk]⟩

/-- In a full ring that starts at slot 0 the sum of the test overflows from `2 ^ 30` on. -/
theorem not_full_of_overflow (hp : sv.Placed) (hm : sv.maxRequests + 1 < 2 ^ 31)
    (hbig : 2 ^ 30 ≤ sv.maxRequests) (hu : sv.used = sv.maxRequests) (ho : sv.outPos = 0) :
    ¬sv.Full := by
  intro hf
  have hin : sv.inPos = sv.maxRequests := by
    have := hp.used_cases
    have := hp.in_nonneg
    omega
  unfold Server.Full at hf
  rw [hin, ho, toInt32_wrap (by omega) (by omega), ← Int.neg_neg (_ - _), Int.neg_tmod] at hf
  have := Int.tmod_nonneg sv.ringSize
    (show 0 ≤ -((sv.maxRequests : ℤ) - 0 + sv.maxRequests + 1 - 2 ^ 32) by omega)
  omega

/-- **From `2 ^ 30` on a full ring overflows**, and what it held is lost. -/
theorem overflow_run (buffer : ℤ → ℤ) (hn : 1 ≤ nr) (hm : mr + 1 < 2 ^ 31) (hbig : 2 ^ 30 ≤ mr) :
    ∃ ls p, Run tracedStep (serverInit nr mr buffer, ⟨[], []⟩) ls p ∧ ¬Delivers p.1.sv p.2 := by
  obtain ⟨ls, s, k, hr, ho, hp, hw, hpl, hmr, hu, hout, ht, hk⟩ :=
    fill_run buffer hn hm mr (le_refl _)
  have hf := not_full_of_overflow hpl (by omega) (by omega) (by omega) hout
  obtain ⟨ls', hr'⟩ := store_run hr hn ho hp hw hf (hpl.inBuffer_in (by omega))
  refine ⟨ls', _, hr', fun h => ?_⟩
  -- the ring looks empty, and `mr + 1` descriptors were stored
  have hc : (s.sv.put 0).contents.length = 0 := by
    rw [Server.contents_length, hpl.used_put_full (by omega) (by omega)]
  have := congrArg List.length h.order
  simp only [List.length_append, List.length_singleton, ht, hc, List.length_nil] at this
  omega

/-- **The hand-off delivers each descriptor exactly once, in order, if and only if
`max_requests` is below `2 ^ 30`.** -/
theorem buffer_delivers (hn : 1 ≤ nr) (hm : mr + 1 < 2 ^ 31) :
    (∀ buffer ls p, Run tracedStep (serverInit nr mr buffer, ⟨[], []⟩) ls p →
      Delivers p.1.sv p.2) ↔ mr < 2 ^ 30 := by
  constructor
  · intro h
    by_contra hbig
    obtain ⟨ls, p, hr, hd⟩ := overflow_run (fun _ => 0) hn hm (by omega)
    exact hd (h _ ls p hr)
  · intro h buffer ls p hr
    exact delivers_run h hr

theorem buffer_delivers_eight : (1 ≤ 3 ∧ 8 + 1 < 2 ^ 31) ∧
    ((∀ buffer ls p, Run tracedStep (serverInit 3 8 buffer, ⟨[], []⟩) ls p →
      Delivers p.1.sv p.2) ↔ 8 < 2 ^ 30) :=
  ⟨by decide, buffer_delivers (by decide) (by decide)⟩

theorem buffer_overflows : ¬∀ buffer ls p,
    Run tracedStep (serverInit 1 (2 ^ 30) buffer, ⟨[], []⟩) ls p → Delivers p.1.sv p.2 := by
  intro h
  obtain ⟨ls, p, hr, hd⟩ := overflow_run (fun _ => 0) (le_refl 1)
    (show 2 ^ 30 + 1 < 2 ^ 31 by omega) (le_refl _)
  exact hd (h _ ls p hr)

end OSLab.Webserver
