import OSLab.Webserver.Lookup
import Mathlib.Data.List.Dedup

/-!
# The list is in order of last use

A hit moves its element to the end of the list and an insertion appends one, so after any
sequence of them the list is the elements used, each where it was used last (`useOrder_run`).
This rests on the elements having different file names: `upgrade_LRU_2` finds out by names
whether an element is first or last.
-/

namespace OSLab.Webserver

open Prog

variable {s s' t : Wc} {e f fuel : ℕ} {l us : List ℕ} {name : Name} {m : ℤ}

/-- Using an element once more puts it behind the others. -/
theorem dedup_concat {α : Type} [DecidableEq α] (us : List α) (e : α) :
    (us ++ [e]).dedup = us.dedup.erase e ++ [e] := by
  induction us with
  | nil => simp
  | cons a us ih =>
    by_cases ha : a ∈ us
    · rw [List.cons_append, List.dedup_cons_of_mem (List.mem_append_left _ ha), ih,
        List.dedup_cons_of_mem ha]
    · have hd : a ∉ us.dedup := fun h => ha (List.mem_dedup.1 h)
      rw [List.cons_append, List.dedup_cons_of_notMem ha]
      by_cases hae : a = e
      · subst hae
        rw [List.dedup_cons_of_mem (by simp), ih, List.erase_cons_head, List.erase_of_not_mem hd]
      · rw [List.dedup_cons_of_notMem (by simp [ha, hae]), ih,
          List.erase_cons_tail (by simpa using hae), List.cons_append]

/-- The list in order of use, with the elements the table holds. -/
structure Ordered (s : Wc) (l : List ℕ) : Prop extends Lru s l where
  stored : ∀ e, e ∈ l ↔ s.Stores e

/-- **A hit** of `cache_lookup` puts the element it returns at the end. -/
theorem cacheLookup_ordered (h : Ordered s l) (fuel : ℕ) (name : Name) :
    wp True (cacheLookup fuel name true)
      (fun r s' => Ordered s' (r.elim l fun e => l.erase e ++ [e])) s := by
  unfold cacheLookup
  rw [wp_bind]
  cases ho : s.findEntry name fuel (s.firstKey name) with
  | none => exact wp_of_none (by simp [reads, ho]) trivial
  | some r =>
    refine wp_reads r ho ?_
    cases r with
    | none => exact (wp_pure _).2 h
    | some e =>
      rw [wp_ite]
      refine ⟨fun _ => ?_, fun hn => absurd rfl hn⟩
      rw [wp_bind]
      have hst : s.Stores e := by
        obtain ⟨n, -, ⟨-, hnone⟩ | ⟨e', hk, -, he⟩⟩ :=
          findEntry_ends (m := 0) (fun i hi => by omega) ho
        · cases hnone
        · exact ⟨_, (Option.some.inj he) ▸ hk⟩
      have hel : e ∈ l := (h.stored e).2 hst
      refine wp_mono (upgradeLru2_hit h.toLru hel) fun _ s' h' => (wp_pure _).2 ⟨h'.2, fun x => ?_⟩
      have hperm := (List.perm_append_singleton e (l.erase e)).trans (List.perm_cons_erase hel).symm
      rw [h'.1.sameTable.stores, ← h.stored, Option.elim_some, hperm.mem_iff]

/-- Looking up without the flag changes nothing. -/
theorem cacheLookup_idle (fuel : ℕ) (name : Name) :
    wp True (cacheLookup fuel name false) (fun _ s' => s' = s) s := by
  unfold cacheLookup
  rw [wp_bind]
  cases ho : s.findEntry name fuel (s.firstKey name) with
  | none => exact wp_of_none (by simp [reads, ho]) trivial
  | some r =>
    refine wp_reads r ho ?_
    cases r with
    | none => exact (wp_pure _).2 rfl
    | some e => exact (wp_pure _).2 rfl

/-- **`cache_insert`** puts the new element at the end. -/
theorem cacheInsert_ordered {fd : FileData} (h : Ordered s l) (hfd : s.files f = some fd)
    (hname : ∀ x ∈ l, s.nameOf x ≠ some fd.fileName) :
    wp True (cacheInsert fuel f e)
      (fun r s' => (r.1 = none ∧ Ordered s' l) ∨
        (r.1 = some e ∧ Ordered s' (l.erase e ++ [e]))) s := by
  simp only [cacheInsert, wp_bind, wp_getState, hfd, wp_load_some, wp_ite]
  refine ⟨fun _ => (wp_pure _).2 (Or.inl ⟨rfl, h⟩), fun _ => ?_⟩
  refine wp_mono (makeRoom_idle fd.fileSize (Or.inl trivial)) fun _ s₁ h₁ => ?_
  obtain ⟨-, rfl⟩ := h₁
  simp only [wp_require, wp_modify]
  refine ⟨fun hfresh => ?_, fun _ => trivial⟩
  have hel : e ∉ l := by
    intro hm
    have hal := h.alive hm
    unfold Wc.Alive at hal
    rw [hfresh] at hal
    cases hal
  set s₂ := s₁.setElement e (some ⟨f, none, none⟩) with hs₂
  have hnew : s₂.elements e = some ⟨f, none, none⟩ := by simp [hs₂, Wc.setElement]
  have hl₂ : Lru s₂ l := h.toLru.setElement hfresh
  cases hk : s₂.findFree fuel (s₂.firstKey fd.fileName) with
  | none => exact wp_of_none (by simp [reads, hk]) trivial
  | some key =>
    refine wp_reads key hk ?_
    obtain ⟨-, hfree⟩ := findFree_ok hk
    -- the slot and the counter are not in the list
    set s₃ := (s₂.setSlot key (some e)).setRemaining
      (toInt32 (s₂.remainingCacheSize - fd.fileSize)) with hs₃
    have hl₃ : Lru s₃ l := ⟨⟨hl₂.front, hl₂.back⟩, hl₂.nodup, hl₂.file, hl₂.names⟩
    have hname₃ : ∀ x ∈ l, s₃.nameOf x ≠ some fd.fileName := by
      intro x hx hxn
      obtain ⟨d, hd⟩ := h.file x hx
      have hd₂ : s₂.fileOf x = some d := fileOf_setElement hfresh hd
      refine hname x hx ?_
      have hxn₂ : (s₂.fileOf x).map (·.fileName) = some fd.fileName := hxn
      rw [Wc.nameOf, hd, ← hd₂, hxn₂]
    refine wp_mono (upgradeLru2_insert hl₃ hnew (show s₃.files f = some fd from hfd) hname₃)
      fun _ s₄ h₄ => (wp_pure _).2 (Or.inr ⟨rfl, ?_⟩)
    rw [List.erase_of_not_mem hel]
    refine ⟨h₄.2, fun x => ?_⟩
    have hst₃ : s₃.Stores x ↔ s₂.Stores x ∨ x = e := stores_setSlot hfree x
    have hst₂ : s₂.Stores x ↔ s₁.Stores x := Iff.rfl
    rw [List.mem_append, List.mem_singleton, h.stored, h₄.1.sameTable.stores, hst₃, hst₂]

/-- A file that is not cached leaves the cache as it is. -/
theorem cacheInsert_none {fd : FileData} (hfd : s.files f = some fd) :
    wp True (cacheInsert fuel f e) (fun r s' => r.1 = none → s' = s) s := by
  simp only [cacheInsert, wp_bind, wp_getState, hfd, wp_load_some, wp_ite]
  refine ⟨fun _ => (wp_pure _).2 fun _ => rfl, fun _ => ?_⟩
  refine wp_of_run fun _ s₁ _ => ?_
  simp only [wp_require, wp_modify]
  refine ⟨fun _ => wp_of_run fun _ s₂ _ => wp_of_run fun _ s₃ _ => ?_, fun _ => trivial⟩
  rw [wp_pure]
  intro h
  cases h

/-! ### Runs -/

/-- The element a step used: the one `cache_lookup` hit, or the one `cache_insert` put in. -/
def used (l : CacheLab) : Option ℕ := l.2.1

/-- A step of the cache that inserts no file under the name of an element the table holds. -/
def distinctStep (s : Wc) (l : CacheLab) (t : Wc) : Prop :=
  cacheStep s l.1 l.2 t ∧ ∀ file data element, l.1 = .insert file data element →
    l.2.1 ≠ none → ∀ x, s.Stores x → s.nameOf x ≠ some data.fileName

theorem Ordered.step {lab : CacheLab} (h : Ordered s us.dedup) (hs : distinctStep s lab t) :
    Ordered t (us ++ (used lab).toList).dedup := by
  obtain ⟨op, r⟩ := lab
  obtain ⟨⟨fuel, hrun⟩, hnames⟩ := hs
  have hr : (us ++ (used (op, r)).toList).dedup =
      r.1.elim us.dedup fun e => us.dedup.erase e ++ [e] := by
    obtain ⟨o, ev⟩ := r
    cases o with
    | none => simp [used]
    | some e => simp [used, dedup_concat]
  rw [hr]
  cases op with
  | lookup name =>
    have hw : wp True ((CacheOp.lookup name).run fuel)
        (fun r t => Ordered t (r.1.elim us.dedup fun e => us.dedup.erase e ++ [e])) s := by
      simp only [CacheOp.run, wp_bind, wp_pure]
      exact cacheLookup_ordered h fuel name
    exact hw.of_run hrun
  | insert file data element =>
    have hw : wp True ((CacheOp.insert file data element).run fuel)
        (fun r t => (r.1 = none ∨ ∀ x, s.Stores x → s.nameOf x ≠ some data.fileName) →
          Ordered t (r.1.elim us.dedup fun e => us.dedup.erase e ++ [e])) s := by
      simp only [CacheOp.run, wp_bind, wp_getState, wp_require, wp_modify]
      refine ⟨fun hfresh => ?_, fun _ => trivial⟩
      have h₁ : Ordered (s.setFile file (some data)) us.dedup := ⟨h.toLru.setFile hfresh, h.stored⟩
      have hfd : (s.setFile file (some data)).files file = some data := by simp [Wc.setFile]
      refine wp_mono (cacheLookup_idle fuel data.fileName) fun check u hu => ?_
      subst hu
      cases check with
      | some x => exact (wp_pure _).2 fun _ => h₁
      | none =>
        have hkeep : ∀ x ∈ us.dedup, (s.setFile file (some data)).nameOf x = s.nameOf x := by
          intro x hx
          obtain ⟨d, hd⟩ := h.file x hx
          rw [Wc.nameOf, Wc.nameOf, hd, fileOf_setFile hfresh hd]
        by_cases hname : ∀ x ∈ us.dedup, s.nameOf x ≠ some data.fileName
        · have hname₁ : ∀ x ∈ us.dedup,
              (s.setFile file (some data)).nameOf x ≠ some data.fileName := fun x hx => by
            rw [hkeep x hx]
            exact hname x hx
          refine wp_mono (cacheInsert_ordered h₁ hfd hname₁) fun r t hr _ => ?_
          obtain ⟨hr, ho⟩ | ⟨hr, ho⟩ := hr <;> simpa [hr] using ho
        · -- the name is there already, so the step inserted nothing
          refine wp_mono (cacheInsert_none hfd) fun r t hnone hor => ?_
          have hr : r.1 = none := hor.resolve_right fun hall =>
            hname fun x hx => hall x ((h.stored x).1 hx)
          rw [hr, hnone hr]
          exact h₁
    exact hw.of_run hrun (Classical.or_iff_not_imp_left.2 fun hr => hnames file data element rfl hr)

theorem init_ordered (m : ℤ) : Ordered (cacheInit m) [] where
  front := rfl
  back := rfl
  nodup := List.nodup_nil
  file := by simp
  names := by simp
  stored e := by
    refine ⟨fun h => absurd h (List.not_mem_nil), ?_⟩
    rintro ⟨k, hk⟩
    cases hk

/-- **After any run** the list is the elements used, in the order of their last use. -/
theorem run_ordered {ls : List CacheLab} (hr : Run distinctStep (cacheInit m) ls s) :
    Ordered s (ls.filterMap used).dedup := by
  induction hr with
  | nil => exact init_ordered m
  | @snoc t u ls lab hr hstep ih =>
    have h := ih.step hstep
    rw [List.filterMap_append]
    cases hu : used lab with
    | none => simpa [List.filterMap, hu] using h
    | some e => simpa [List.filterMap, hu] using h

/-- **The list orders the elements by last use**: a hit moves its element to the end, an insertion
appends one, and after any run that starts with an empty list the elements of the table are in
the list in the order of their last use, the least recently used one at `LRU_element`. -/
theorem useOrder_run :
    (∀ s l e, Lru s l → e ∈ l → ∃ s', upgradeLru2 e false s = some ((), s') ∧ Relinked s s' ∧
      Lru s' (l.erase e ++ [e])) ∧
    (∀ s l e f fd, Lru s l → s.elements e = some ⟨f, none, none⟩ → s.files f = some fd →
      (∀ x ∈ l, s.nameOf x ≠ some fd.fileName) →
      ∃ s', upgradeLru2 e true s = some ((), s') ∧ Relinked s s' ∧ Lru s' (l ++ [e])) ∧
    ∀ m ls s, Run distinctStep (cacheInit m) ls s →
      Ordered s (ls.filterMap used).dedup ∧ s.lruElement = (ls.filterMap used).dedup.head? := by
  refine ⟨fun s l e h he => ?_, fun s l e f fd h hel hfd hname => ?_, fun m ls s hr => ?_⟩
  · obtain ⟨_, s', hrun, h'⟩ := (upgradeLru2_hit h he).returns
    exact ⟨s', hrun, h'⟩
  · obtain ⟨_, s', hrun, h'⟩ := (upgradeLru2_insert h hel hfd hname).returns
    exact ⟨s', hrun, h'⟩
  · have h := run_ordered hr
    exact ⟨h, h.front.head?_eq⟩

/-- The operation puts in no file under the name of one of the elements. -/
def CacheOp.New (s : Wc) (us : List ℕ) : CacheOp → Prop
  | .lookup _ => True
  | .insert _ data _ => ∀ x ∈ us, s.nameOf x ≠ some data.fileName

instance (s : Wc) (us : List ℕ) (op : CacheOp) : Decidable (op.New s us) :=
  match op with
  | .lookup _ => inferInstanceAs (Decidable True)
  | .insert _ data _ => inferInstanceAs (Decidable (∀ x ∈ us, s.nameOf x ≠ some data.fileName))

/-- Take a step with a new name, and add the element it uses to those used before. -/
def orderRun (p : Wc × List ℕ) (l : CacheLab) : Option (Wc × List ℕ) :=
  if l.1.New p.1 p.2 then (cacheRun 4 p.1 l).map fun t => (t, p.2 ++ (used l).toList) else none

theorem orderRun_run {p : Wc × List ℕ} {ls : List CacheLab}
    (hr : Run (fun p l p' => orderRun p l = some p') (cacheInit m, []) ls p) :
    Run distinctStep (cacheInit m) ls p.1 := by
  have hone : ∀ s p l p', (s = p.1 ∧ Ordered s p.2.dedup) → orderRun p l = some p' →
      ∃ t, distinctStep s l t ∧ t = p'.1 ∧ Ordered t p'.2.dedup := by
    rintro _ p l p' ⟨rfl, ho⟩ h
    unfold orderRun at h
    split_ifs at h with hnew
    obtain ⟨t, ht, rfl⟩ := Option.map_eq_some_iff.1 h
    have hstep : distinctStep p.1 l t := by
      refine ⟨(cacheRun_step ht).2, fun file data element hop _ x hx => ?_⟩
      rw [hop] at hnew
      exact hnew x (List.mem_dedup.1 ((ho.stored x).2 hx))
    exact ⟨t, hstep, rfl, ho.step hstep⟩
  -- the names are checked for the elements used, which are those of the table
  obtain ⟨s, hs, rfl, -⟩ := hr.simulate hone ⟨rfl, init_ordered m⟩
  exact hs

/-- Three files are put in; then the first of the list is hit, the second and the last. -/
def usedRun : List CacheLab :=
  [insertion aName 3 0, insertion bwName 3 1, insertion faName 3 2,
    hit aName 0, hit faName 2, hit faName 2]

/-- The name `./b`. -/
def bName : Name := [46, 47, 98]

/-- The list is then `./bw`, `./a`, `./fa`. From it a hit moves the first, the second or the last
element to the end, and a fourth file is appended. -/
theorem useOrder_run_sample : ∃ s, Run distinctStep (cacheInit 10) usedRun s ∧
    Ordered s [1, 0, 2] ∧ s.lruElement = some 1 ∧
    (∃ s', upgradeLru2 1 false s = some ((), s') ∧ Lru s' [0, 2, 1]) ∧
    (∃ s', upgradeLru2 0 false s = some ((), s') ∧ Lru s' [1, 2, 0]) ∧
    (∃ s', upgradeLru2 2 false s = some ((), s') ∧ Lru s' [1, 0, 2]) ∧
    ∃ t s', Lru t [1, 0, 2] ∧ t.nameOf 3 = some bName ∧
      upgradeLru2 3 true t = some ((), s') ∧ Lru s' [1, 0, 2, 3] := by
  obtain ⟨⟨s, us⟩, hr, hp⟩ := runAll_any orderRun (cacheInit 10, []) usedRun
    (fun p => decide (p.1.files 3 = none ∧ p.1.elements 3 = none) &&
      decide (∀ x ∈ ([1, 0, 2] : List ℕ), p.1.nameOf x ≠ some bName)) (by decide +kernel)
  simp only [Bool.and_eq_true, decide_eq_true_eq] at hp
  obtain ⟨⟨hfile, helement⟩, hnames⟩ := hp
  have hr := orderRun_run hr
  obtain ⟨hhit, hinsert, hrun⟩ := useOrder_run
  obtain ⟨ho, hhead⟩ : Ordered s [1, 0, 2] ∧ s.lruElement = some 1 := hrun 10 usedRun s hr
  have hl := ho.toLru
  obtain ⟨s₁, h₁, -, hl₁⟩ := hhit s _ 1 hl (by decide)
  obtain ⟨s₀, h₀, -, hl₀⟩ := hhit s _ 0 hl (by decide)
  obtain ⟨s₂, h₂, -, hl₂⟩ := hhit s _ 2 hl (by decide)
  -- the fourth file, with an element that is in no list
  set fd : FileData := ⟨bName, [1], 1⟩
  set t := (s.setFile 3 (some fd)).setElement 3 (some ⟨3, none, none⟩) with ht
  have hlt : Lru t [1, 0, 2] := (hl.setFile hfile).setElement helement
  have hname : ∀ x ∈ ([1, 0, 2] : List ℕ), t.nameOf x ≠ some bName := by
    intro x hx hxn
    obtain ⟨d, hd⟩ := hl.file x hx
    have hdt : t.fileOf x = some d := fileOf_setElement helement (fileOf_setFile hfile hd)
    refine hnames x hx ?_
    rw [Wc.nameOf, hd, ← hdt]
    exact hxn
  obtain ⟨u, hu, -, hlu⟩ := hinsert t _ 3 3 fd hlt (by simp [ht, Wc.setElement])
    (by simp [ht, Wc.setElement, Wc.setFile]) hname
  have hnew : t.nameOf 3 = some bName := by
    simp [ht, Wc.nameOf, Wc.fileOf, Wc.setElement, Wc.setFile, fd]
  exact ⟨s, hr, ho, hhead, ⟨s₁, h₁, hl₁⟩, ⟨s₀, h₀, hl₀⟩, ⟨s₂, h₂, hl₂⟩, t, u, hlt, hnew, hu, hlu⟩

end OSLab.Webserver
