import OSLab.Webserver.Capacity
import OSLab.Lib.Chain

/-!
# The list in order of use

`Lru s l`: the elements of `l` are linked both ways from `LRU_element` to `LRU_tail`, and
no two of them have the same file name. `upgrade_LRU_2` moves an element of the list to
its end (`upgradeLru2_hit`) and appends a new one (`upgradeLru2_insert`); it
dereferences no `NULL`.
-/

namespace OSLab.Webserver

open Prog

variable {s s' t : Wc} {e f n p : ℕ} {q : Option ℕ} {l l₁ l₂ : List ℕ} {name : Name} {ok : Prop}

/-- `e->file->file_name`. -/
def Wc.nameOf (s : Wc) (e : ℕ) : Option Name := (s.fileOf e).map (·.fileName)

/-- The state after `e->next = q`. -/
def Wc.withNext (s : Wc) (e : ℕ) (q : Option ℕ) : Wc :=
  s.setElement e ((s.elements e).map fun el => { el with next := q })

/-- The state after `e->pre = q`. -/
def Wc.withPre (s : Wc) (e : ℕ) (q : Option ℕ) : Wc :=
  s.setElement e ((s.elements e).map fun el => { el with pre := q })

/-- The element is allocated. -/
def Wc.Alive (s : Wc) (e : ℕ) : Prop := (s.elements e).isSome = true

theorem alive_of_fileOf {fd : FileData} (h : s.fileOf e = some fd) : s.Alive e := by
  unfold Wc.fileOf at h
  obtain ⟨el, hel, -⟩ := Option.bind_eq_some_iff.1 h
  unfold Wc.Alive
  rw [hel]
  rfl

theorem wp_storeNext {Q : Unit → Wc → Prop} (h : s.Alive e) :
    wp ok (storeNext e q) Q s ↔ Q () (s.withNext e q) := by
  obtain ⟨el, hel⟩ := Option.isSome_iff_exists.1 h
  simp only [storeNext, wp_bind, wp_getState, hel, wp_load_some, wp_modify, Wc.withNext,
    Option.map_some]

theorem wp_storePre {Q : Unit → Wc → Prop} (h : s.Alive e) :
    wp ok (storePre e q) Q s ↔ Q () (s.withPre e q) := by
  obtain ⟨el, hel⟩ := Option.isSome_iff_exists.1 h
  simp only [storePre, wp_bind, wp_getState, hel, wp_load_some, wp_modify, Wc.withPre,
    Option.map_some]

section Fields

@[simp] theorem alive_withNext : (s.withNext e q).Alive n ↔ s.Alive n := by
  by_cases h : n = e
  · subst h; simp [Wc.Alive, Wc.withNext, Wc.setElement]
  · simp [Wc.Alive, Wc.withNext, Wc.setElement, h]

@[simp] theorem alive_withPre : (s.withPre e q).Alive n ↔ s.Alive n := by
  by_cases h : n = e
  · subst h; simp [Wc.Alive, Wc.withPre, Wc.setElement]
  · simp [Wc.Alive, Wc.withPre, Wc.setElement, h]

theorem next_withNext (h : s.Alive e) : (s.withNext e q).next = Function.update s.next e q := by
  obtain ⟨el, hel⟩ := Option.isSome_iff_exists.1 h
  funext x
  by_cases hx : x = e
  · subst hx; simp [Wc.next, Wc.withNext, Wc.setElement, hel]
  · simp [Wc.next, Wc.withNext, Wc.setElement, hx]

@[simp] theorem pre_withNext : (s.withNext e q).pre = s.pre := by
  funext x
  by_cases hx : x = e
  · subst hx
    cases hel : s.elements x <;> simp [Wc.pre, Wc.withNext, Wc.setElement, hel]
  · simp [Wc.pre, Wc.withNext, Wc.setElement, hx]

theorem pre_withPre (h : s.Alive e) : (s.withPre e q).pre = Function.update s.pre e q := by
  obtain ⟨el, hel⟩ := Option.isSome_iff_exists.1 h
  funext x
  by_cases hx : x = e
  · subst hx; simp [Wc.pre, Wc.withPre, Wc.setElement, hel]
  · simp [Wc.pre, Wc.withPre, Wc.setElement, hx]

@[simp] theorem next_withPre : (s.withPre e q).next = s.next := by
  funext x
  by_cases hx : x = e
  · subst hx
    cases hel : s.elements x <;> simp [Wc.next, Wc.withPre, Wc.setElement, hel]
  · simp [Wc.next, Wc.withPre, Wc.setElement, hx]

theorem relinked_withNext (h : s.Alive e) : Relinked s (s.withNext e q) := by
  obtain ⟨el, hel⟩ := Option.isSome_iff_exists.1 h
  have : Relinked s (s.setElement e (some { el with next := q })) := relinked_setElement hel rfl
  simpa [Wc.withNext, hel] using this

theorem relinked_withPre (h : s.Alive e) : Relinked s (s.withPre e q) := by
  obtain ⟨el, hel⟩ := Option.isSome_iff_exists.1 h
  have : Relinked s (s.setElement e (some { el with pre := q })) := relinked_setElement hel rfl
  simpa [Wc.withPre, hel] using this

@[simp] theorem lru_withNext : (s.withNext e q).lruElement = s.lruElement ∧
    (s.withNext e q).lruTail = s.lruTail := ⟨rfl, rfl⟩

@[simp] theorem lru_withPre : (s.withPre e q).lruElement = s.lruElement ∧
    (s.withPre e q).lruTail = s.lruTail := ⟨rfl, rfl⟩

@[simp] theorem setLruElement_fields : (s.setLruElement q).next = s.next ∧
    (s.setLruElement q).pre = s.pre ∧ (s.setLruElement q).lruTail = s.lruTail ∧
    (s.setLruElement q).lruElement = q := ⟨rfl, rfl, rfl, rfl⟩

@[simp] theorem alive_setLruElement : (s.setLruElement q).Alive n ↔ s.Alive n := Iff.rfl

@[simp] theorem setLruTail_fields : (s.setLruTail q).next = s.next ∧
    (s.setLruTail q).pre = s.pre ∧ (s.setLruTail q).lruTail = q ∧
    (s.setLruTail q).lruElement = s.lruElement := ⟨rfl, rfl, rfl, rfl⟩

@[simp] theorem alive_setLruTail : (s.setLruTail q).Alive n ↔ s.Alive n := Iff.rfl

end Fields

theorem Relinked.alive (h : Relinked s s') : s'.Alive e ↔ s.Alive e := by
  have hf := h.file e
  unfold Wc.Alive
  cases h1 : s.elements e <;> cases h2 : s'.elements e <;> simp_all

theorem Relinked.nameOf (h : Relinked s s') (e : ℕ) : s'.nameOf e = s.nameOf e := by
  unfold Wc.nameOf
  rw [h.fileOf]

/-- The elements of `l` are linked both ways. -/
structure Linked (s : Wc) (l : List ℕ) : Prop where
  front : Chain s.next s.lruElement l
  back : Chain s.pre s.lruTail l.reverse

/-- The list in order of use. -/
structure Lru (s : Wc) (l : List ℕ) : Prop extends Linked s l where
  nodup : l.Nodup
  file : ∀ e ∈ l, ∃ fd, s.fileOf e = some fd
  names : ∀ e ∈ l, ∀ e' ∈ l, s.nameOf e = s.nameOf e' → e = e'

namespace Lru

theorem alive (h : Lru s l) (he : e ∈ l) : s.Alive e := by
  obtain ⟨fd, hfd⟩ := h.file e he
  exact alive_of_fileOf hfd

/-- The list depends on the links of its elements and on their files. -/
theorem of_files (h : Lru s l) (hl : Linked t l) (hf : ∀ x ∈ l, t.fileOf x = s.fileOf x) :
    Lru t l where
  toLinked := hl
  nodup := h.nodup
  file x hx := by
    rw [hf x hx]
    exact h.file x hx
  names x hx y hy hxy := by
    unfold Wc.nameOf at hxy
    rw [hf x hx, hf y hy] at hxy
    exact h.names x hx y hy hxy

/-- New file data leaves the list as it is. -/
theorem setFile {fd : FileData} (h : Lru s l) (hfresh : s.files n = none) :
    Lru (s.setFile n (some fd)) l := by
  have hl : Linked (s.setFile n (some fd)) l := ⟨h.front, h.back⟩
  apply h.of_files hl
  intro x hx
  obtain ⟨d, hd⟩ := h.file x hx
  rw [hd, fileOf_setFile hfresh hd]

/-- Reordering the links of the same elements. -/
theorem relink {l' : List ℕ} (h : Lru s l) (hr : Relinked s s') (hl : Linked s' l')
    (hp : l'.Perm l) : Lru s' l' where
  toLinked := hl
  nodup := hp.nodup_iff.2 h.nodup
  file e he := by
    rw [hr.fileOf]
    exact h.file e (hp.mem_iff.1 he)
  names e he e' he' hn := by
    rw [hr.nameOf, hr.nameOf] at hn
    exact h.names e (hp.mem_iff.1 he) e' (hp.mem_iff.1 he') hn

end Lru

/-- Appending to a list that is not empty. -/
theorem lruAppend_ok (hl : Linked s l) (hne : l ≠ []) (hal : ∀ x ∈ l, s.Alive x) (he : e ∉ l)
    (hea : s.Alive e) :
    wp ok (lruAppend e) (fun _ s' => Relinked s s' ∧ s'.lruElement = s.lruElement ∧
      s'.lruTail = some e ∧
      (∃ t, l.getLast? = some t ∧ s'.next = Function.update s.next t (some e)) ∧
      Chain s'.pre s'.lruTail (l ++ [e]).reverse) s := by
  obtain ⟨t, ht⟩ := Option.isSome_iff_exists.1 (List.getLast?_isSome.2 hne)
  have htl : t ∈ l := List.mem_of_getLast? ht
  have htail : s.lruTail = some t := by rw [hl.back.head?_eq, List.head?_reverse, ht]
  have hte : t ≠ e := fun h => he (h ▸ htl)
  simp only [lruAppend, wp_bind, wp_getState, htail, wp_load_some]
  rw [wp_storeNext (hal t htl), wp_storePre (by simpa using hea), wp_modify]
  have hnext : (s.withNext t (some e)).next = Function.update s.next t (some e) :=
    next_withNext (hal t htl)
  have hpre : ((s.withNext t (some e)).withPre e (some t)).pre =
      Function.update s.pre e (some t) := by
    rw [pre_withPre (by simpa using hea), pre_withNext]
  refine ⟨?_, rfl, by simp [hnext], ⟨t, ht, by simp [hnext]⟩, ?_⟩
  · exact ((relinked_withNext (hal t htl)).trans (relinked_withPre (by simpa using hea))).trans
      (relinked_setLruTail _ _)
  · simp only [setLruTail_fields, next_withPre, hnext, Function.update_self, hpre,
      List.reverse_append, List.reverse_singleton, List.singleton_append]
    refine ⟨rfl, ?_⟩
    rw [Function.update_self, ← htail]
    exact hl.back.update (by simpa using he) _

/-- Among the elements of the list, comparing names is comparing elements. -/
theorem Lru.name_iff {x : ℕ} {xd ed : FileData} (h : Lru s l) (hx : x ∈ l) (he : e ∈ l)
    (hxd : s.fileOf x = some xd) (hed : s.fileOf e = some ed) :
    xd.fileName = ed.fileName ↔ x = e := by
  constructor
  · intro hn
    exact h.names x hx e he (by simp [Wc.nameOf, hxd, hed, hn])
  · rintro rfl
    rw [Option.some.inj (hxd.symm.trans hed)]

/-- Unlinking at the head. -/
theorem lruUnlink_head (h : Lru s (e :: n :: l)) :
    wp ok (do lruUnlinkFront e; lruUnlinkBack e)
      (fun _ s' => Relinked s s' ∧ Linked s' (n :: l)) s := by
  obtain ⟨fd, hfd⟩ := h.file e (by simp)
  obtain ⟨t, ht⟩ : ∃ t, (n :: l).getLast? = some t := by rw [List.getLast?_cons]; exact ⟨_, rfl⟩
  have htl : t ∈ n :: l := List.mem_of_getLast? ht
  obtain ⟨td, htd⟩ := h.file t (by simp [List.mem_cons.1 htl])
  have htail : s.lruTail = some t := by
    rw [h.back.head?_eq, List.head?_reverse, List.getLast?_cons_cons, ht]
  have hne : n ≠ e := fun x => (List.nodup_cons.1 h.nodup).1 (by simp [x])
  have hte : t ≠ e := fun x => (List.nodup_cons.1 h.nodup).1 (x ▸ htl)
  have hnext : s.next e = some n := h.front.2.1
  have hback : Chain s.pre s.lruTail (l.reverse ++ n :: [e]) := by simpa using h.back
  have hlast : Chain s.pre s.lruTail ((l.reverse ++ [n]) ++ e :: []) := by simpa using hback
  have hpre : s.pre e = none := hlast.next_mem
  have hn : s.Alive n := h.alive (by simp)
  have hn' : (s.setLruElement (some n)).Alive n := hn
  simp only [lruUnlinkFront, wp_bind, wp_getState, h.front.1, hfd, wp_load_some, wp_ite, hnext,
    wp_modify]
  refine ⟨fun _ => ?_, fun hn => absurd trivial hn⟩
  rw [wp_storePre hn']
  -- from the back, the last element is another one
  set s₁ := (s.setLruElement (some n)).withPre n none with hs₁
  have hr₁ : Relinked s s₁ := (relinked_setLruElement s _).trans (relinked_withPre hn')
  have htd₁ : s₁.fileOf t = some td := by rw [hr₁.fileOf, htd]
  have hfd₁ : s₁.fileOf e = some fd := by rw [hr₁.fileOf, hfd]
  have htail₁ : s₁.lruTail = some t := htail
  have hnext₁ : s₁.next = s.next := by rw [hs₁, next_withPre]; rfl
  have hpre₁ : s₁.pre = Function.update s.pre n none := by rw [hs₁, pre_withPre hn']; rfl
  have hn₁ : s₁.Alive n := hr₁.alive.2 hn
  have hname : ¬td.fileName = fd.fileName := by
    rw [h.name_iff (by simp [List.mem_cons.1 htl]) (by simp) htd hfd]
    exact hte
  simp only [lruUnlinkBack, wp_bind, wp_getState, htail₁, htd₁, hfd₁, wp_load_some, wp_ite,
    hnext₁, hnext]
  refine ⟨fun hn => absurd hn hname, fun _ => ?_⟩
  rw [wp_storePre hn₁]
  refine ⟨hr₁.trans (relinked_withPre hn₁), ?_, ?_⟩
  · rw [next_withPre, hnext₁]
    exact ⟨rfl, h.front.2.2⟩
  · rw [pre_withPre hn₁, hpre₁, Function.update_of_ne hne.symm, hpre, Function.update_idem]
    show Chain _ s.lruTail _
    rw [List.reverse_cons]
    refine hback.truncate ?_
    have := (List.nodup_cons.1 (List.nodup_cons.1 h.nodup).2).1
    simpa using this

/-- Unlinking an element that has a predecessor. -/
theorem lruUnlink_inner (h : Lru s (l₁ ++ p :: e :: l₂)) :
    wp ok (do lruUnlinkFront e; lruUnlinkBack e)
      (fun _ s' => Relinked s s' ∧ Linked s' (l₁ ++ p :: l₂)) s := by
  have hmem : e ∈ l₁ ++ p :: e :: l₂ := by simp
  have hpm : p ∈ l₁ ++ p :: e :: l₂ := by simp
  obtain ⟨fd, hfd⟩ := h.file e hmem
  have hnd := h.nodup
  have hpe : p ≠ e := by
    intro x
    have := (List.nodup_append.1 hnd).2.1
    simp [x] at this
  -- the head is before `e`
  obtain ⟨a, ha, ham⟩ : ∃ a, (l₁ ++ p :: e :: l₂).head? = some a ∧ a ∈ l₁ ++ [p] := by
    cases l₁ with
    | nil => exact ⟨p, rfl, by simp⟩
    | cons b l => exact ⟨b, rfl, by simp⟩
  have hae : a ≠ e := by
    rintro rfl
    have hd : (l₁ ++ [p] ++ a :: l₂).Nodup := by simpa using hnd
    exact (List.nodup_append.1 hd).2.2 a ham a (by simp) rfl
  have ham' : a ∈ l₁ ++ p :: e :: l₂ := List.mem_of_mem_head? ha
  obtain ⟨ad, had⟩ := h.file a ham'
  have hhead : s.lruElement = some a := by rw [h.front.head?_eq, ha]
  have hback : Chain s.pre s.lruTail (l₂.reverse ++ e :: (p :: l₁.reverse)) := by
    simpa using h.back
  have hpre : s.pre e = some p := hback.next_mem.1
  have hp : s.Alive p := h.alive hpm
  have hname : ¬ad.fileName = fd.fileName := by
    rw [h.name_iff ham' hmem had hfd]
    exact hae
  simp only [lruUnlinkFront, wp_bind, wp_getState, hhead, had, hfd, wp_load_some, wp_ite, hpre]
  refine ⟨fun hn => absurd hn hname, fun _ => ?_⟩
  rw [wp_storeNext hp]
  set s₁ := s.withNext p (s.next e) with hs₁
  have hr₁ : Relinked s s₁ := relinked_withNext hp
  have hfd₁ : s₁.fileOf e = some fd := by rw [hr₁.fileOf, hfd]
  have hnext₁ : s₁.next = Function.update s.next p (s.next e) := next_withNext hp
  have hpre₁ : s₁.pre = s.pre := pre_withNext
  have htail₁ : s₁.lruTail = s.lruTail := rfl
  have hfront₁ : Chain s₁.next s₁.lruElement (l₁ ++ p :: l₂) := by
    rw [hnext₁]
    exact h.front.unlink hnd
  cases l₂ with
  | nil =>
    have htail : s.lruTail = some e := hback.1
    have hp₁ : s₁.Alive p := hr₁.alive.2 hp
    simp only [lruUnlinkBack, wp_bind, wp_getState, htail₁, htail, hfd₁, wp_load_some, wp_ite,
      hpre₁, hpre, wp_modify]
    refine ⟨fun _ => ?_, fun hn => absurd trivial hn⟩
    rw [wp_storeNext (show (s₁.setLruTail (some p)).Alive p from hp₁)]
    refine ⟨(hr₁.trans (relinked_setLruTail s₁ _)).trans (relinked_withNext hp₁), ?_, ?_⟩
    · rw [next_withNext (show (s₁.setLruTail (some p)).Alive p from hp₁)]
      refine Chain.truncate hfront₁ fun hm => ?_
      exact (List.nodup_append.1 hnd).2.2 p hm p (by simp) rfl
    · rw [pre_withNext]
      show Chain s₁.pre (some p) _
      rw [hpre₁]
      have := hback.next_mem
      rw [hpre] at this
      simpa using this
  | cons n l₃ =>
    obtain ⟨t, ht⟩ : ∃ t, (n :: l₃).getLast? = some t := by rw [List.getLast?_cons]; exact ⟨_, rfl⟩
    have htl : t ∈ n :: l₃ := List.mem_of_getLast? ht
    have htm : t ∈ l₁ ++ p :: e :: n :: l₃ := by
      have := List.mem_cons.1 htl
      simp [this]
    obtain ⟨td, htd⟩ := h.file t htm
    have htail : s.lruTail = some t := by
      rw [h.back.head?_eq, List.head?_reverse, List.getLast?_append, List.getLast?_cons_cons,
        List.getLast?_cons_cons, ht]
      rfl
    have hte : t ≠ e := by
      rintro rfl
      have := (List.nodup_append.1 hnd).2.1
      have := (List.nodup_cons.1 (List.nodup_cons.1 this).2).1
      exact this htl
    have hnext : s.next e = some n := by
      have : Chain s.next s.lruElement ((l₁ ++ [p]) ++ e :: n :: l₃) := by simpa using h.front
      exact this.next_mem.1
    have hn : s.Alive n := h.alive (by simp)
    have hn₁ : s₁.Alive n := hr₁.alive.2 hn
    have htd₁ : s₁.fileOf t = some td := by rw [hr₁.fileOf, htd]
    have hnext' : s₁.next e = some n := by
      rw [hnext₁, Function.update_of_ne hpe.symm, hnext]
    have hname : ¬td.fileName = fd.fileName := by
      rw [h.name_iff htm hmem htd hfd]
      exact hte
    simp only [lruUnlinkBack, wp_bind, wp_getState, htail₁, htail, htd₁, hfd₁, wp_load_some,
      wp_ite, hnext']
    refine ⟨fun hn => absurd hn hname, fun _ => ?_⟩
    rw [wp_storePre hn₁]
    refine ⟨hr₁.trans (relinked_withPre hn₁), ?_, ?_⟩
    · rw [next_withPre]
      exact hfront₁
    · rw [pre_withPre hn₁, hpre₁]
      show Chain _ s.lruTail _
      have hb : Chain s.pre s.lruTail (l₃.reverse ++ n :: e :: (p :: l₁.reverse)) := by
        simpa using hback
      have hndb : (l₃.reverse ++ n :: e :: (p :: l₁.reverse)).Nodup := by
        have := List.nodup_reverse.2 hnd
        simpa using this
      simpa using hb.unlink hndb

/-- Putting an element that was unlinked at the end. -/
theorem lruReappend_ok (hl : Linked s l) (hne : l ≠ []) (hal : ∀ x ∈ l, s.Alive x)
    (hnd : l.Nodup) (he : e ∉ l) (hea : s.Alive e) :
    wp ok (do lruAppend e; storeNext e none)
      (fun _ s' => Relinked s s' ∧ Linked s' (l ++ [e])) s := by
  rw [wp_bind]
  refine wp_mono (lruAppend_ok hl hne hal he hea) fun _ s₁ h₁ => ?_
  obtain ⟨hr, hhead, htail, ⟨t, ht, hnext⟩, hback⟩ := h₁
  have hea₁ : s₁.Alive e := hr.alive.2 hea
  rw [wp_storeNext hea₁]
  refine ⟨hr.trans (relinked_withNext hea₁), ?_, ?_⟩
  · rw [next_withNext hea₁, hnext]
    show Chain _ s₁.lruElement _
    rw [hhead]
    exact hl.front.snoc ht hnd he
  · rw [pre_withNext]
    exact hback

/-- The element after the head, as the head's own field. -/
theorem Lru.head_next {a : ℕ} {el : Element} (h : Lru s (a :: l)) (hel : s.elements a = some el) :
    el.next = l.head? := by
  have := Chain.head?_eq h.front.2
  simpa [Wc.next, hel] using this

/-- **A hit moves the element to the end.** -/
theorem upgradeLru2_hit (h : Lru s l) (he : e ∈ l) :
    wp ok (upgradeLru2 e false) (fun _ s' => Relinked s s' ∧ Lru s' (l.erase e ++ [e])) s := by
  have hperm : (l.erase e ++ [e]).Perm l :=
    (List.perm_append_singleton e _).trans (List.perm_cons_erase he).symm
  suffices hw : wp ok (upgradeLru2 e false)
      (fun _ s' => Relinked s s' ∧ Linked s' (l.erase e ++ [e])) s from
    wp_mono hw fun _ s' h' => ⟨h'.1, h.relink h'.1 h'.2 hperm⟩
  obtain ⟨a, l', rfl⟩ : ∃ a l', l = a :: l' := List.exists_cons_of_ne_nil (List.ne_nil_of_mem he)
  obtain ⟨hd, hhd⟩ := Option.isSome_iff_exists.1 (h.alive (List.mem_cons_self ..))
  obtain ⟨el, hel⟩ := Option.isSome_iff_exists.1 (h.alive he)
  have hnext := h.head_next hhd
  simp only [upgradeLru2, wp_bind, wp_getState, h.front.1, hhd, hel, wp_load_some, hnext]
  cases l' with
  | nil =>
    -- the only element of the list
    obtain rfl : e = a := by simpa using he
    obtain rfl := Option.some.inj (hhd.symm.trans hel)
    simp only [List.head?_nil, ne_eq, not_true_eq_false, if_false, wp_pure]
    refine ⟨Relinked.refl s, ?_⟩
    rw [List.erase_cons_head]
    exact h.toLinked
  | cons b r =>
    have hne : (a :: b :: r).erase e ≠ [] := by
      have := hperm.length_eq
      intro hx
      rw [hx] at this
      simp at this
    have hnd := hperm.nodup_iff.2 h.nodup
    have hunlink : wp ok (do lruUnlinkFront e; lruUnlinkBack e)
        (fun _ s' => Relinked s s' ∧ Linked s' ((a :: b :: r).erase e)) s := by
      by_cases hea : e = a
      · subst hea
        rw [List.erase_cons_head]
        exact lruUnlink_head h
      · -- not the head, so it has a predecessor
        have her : e ∈ b :: r := (List.mem_cons.1 he).resolve_left hea
        obtain ⟨l₁, l₂, hl⟩ := List.append_of_mem her
        rcases List.eq_nil_or_concat (a :: l₁) with hx | ⟨l₀, p, hp⟩
        · simp at hx
        have hsplit : a :: b :: r = l₀ ++ p :: e :: l₂ := by
          rw [hl, ← List.cons_append, hp]
          simp
        rw [hsplit] at h hnd ⊢
        have hnot : e ∉ l₀ ++ [p] := by
          have hd : (l₀ ++ [p] ++ e :: l₂).Nodup := by simpa using h.nodup
          exact fun hm => (List.nodup_append.1 hd).2.2 e hm e (by simp) rfl
        have herase : (l₀ ++ p :: e :: l₂).erase e = l₀ ++ p :: l₂ := by
          have := List.erase_append_right (e :: l₂) hnot
          simpa using this
        rw [herase]
        exact lruUnlink_inner h
    simp only [List.head?_cons, Bool.false_eq_true, if_false, wp_bind]
    rw [wp_bind] at hunlink
    refine wp_mono hunlink fun _ s₁ hs₁ => wp_mono hs₁ fun _ s₂ hs₂ => ?_
    obtain ⟨hr, hl⟩ := hs₂
    have happ := List.nodup_append.1 hnd
    have hre : wp ok (do lruAppend e; storeNext e none) _ s₂ := lruReappend_ok hl hne
      (fun x hx => hr.alive.2 (h.alive (List.mem_of_mem_erase hx))) happ.1
      (fun hm => happ.2.2 e hm e (by simp) rfl) (hr.alive.2 (h.alive he))
    rw [wp_bind] at hre
    exact wp_mono hre fun _ s₃ hs₃ => wp_mono hs₃ fun _ s₄ hs₄ => ⟨hr.trans hs₄.1, hs₄.2⟩

/-- **A new element goes to the end.** -/
theorem upgradeLru2_insert {fd : FileData} (h : Lru s l) (hel : s.elements e = some ⟨f, none, none⟩)
    (hfd : s.files f = some fd) (hname : ∀ x ∈ l, s.nameOf x ≠ some fd.fileName) :
    wp ok (upgradeLru2 e true) (fun _ s' => Relinked s s' ∧ Lru s' (l ++ [e])) s := by
  have hfile : s.fileOf e = some fd := by simp [Wc.fileOf, hel, hfd]
  have hen : s.nameOf e = some fd.fileName := by simp [Wc.nameOf, hfile]
  have hea : s.Alive e := alive_of_fileOf hfile
  have hel' : e ∉ l := fun hm => hname e hm hen
  have hnext : s.next e = none := by simp [Wc.next, hel]
  suffices hw : wp ok (upgradeLru2 e true)
      (fun _ s' => Relinked s s' ∧ Linked s' (l ++ [e])) s by
    refine wp_mono hw fun _ s' h' => ⟨h'.1, h'.2, ?_, ?_, ?_⟩
    · rw [List.nodup_append]
      refine ⟨h.nodup, by simp, fun x hx y hy hxy => ?_⟩
      rw [List.mem_singleton.1 hy] at hxy
      exact hel' (hxy ▸ hx)
    · intro x hx
      rw [h'.1.fileOf]
      rcases List.mem_append.1 hx with hx | hx
      · exact h.file x hx
      · rw [List.mem_singleton.1 hx]; exact ⟨fd, hfile⟩
    · intro x hx y hy hxy
      rw [h'.1.nameOf, h'.1.nameOf] at hxy
      rcases List.mem_append.1 hx with hx | hx <;> rcases List.mem_append.1 hy with hy | hy
      · exact h.names x hx y hy hxy
      · rw [List.mem_singleton.1 hy, hen] at hxy; exact absurd hxy (hname x hx)
      · rw [List.mem_singleton.1 hx, hen] at hxy; exact absurd hxy.symm (hname y hy)
      · rw [List.mem_singleton.1 hx, List.mem_singleton.1 hy]
  have happend : l ≠ [] → wp ok (lruAppend e)
      (fun _ s' => Relinked s s' ∧ Linked s' (l ++ [e])) s := by
    intro hne
    refine wp_mono (lruAppend_ok h.toLinked hne (fun _ => h.alive) hel' hea) fun _ s₁ h₁ => ?_
    obtain ⟨hr, hhead, -, ⟨t, ht, hnx⟩, hback⟩ := h₁
    have htl := List.mem_of_getLast? ht
    refine ⟨hr, ?_, hback⟩
    rw [hhead, hnx]
    exact h.front.append ⟨rfl, hnext⟩ ht h.nodup fun hm => hel' (List.mem_singleton.1 hm ▸ htl)
  cases l with
  | nil =>
    have hhead : s.lruElement = none := h.front
    simp only [upgradeLru2, wp_bind, wp_getState, hhead, wp_modify]
    rw [wp_storeNext (show (s.setLruElement (some e)).Alive e from hea),
      wp_storePre (by simpa using hea)]
    refine ⟨?_, ?_, ?_⟩
    · refine (relinked_setLruElement s _).trans ((relinked_withNext ?_).trans
        ((relinked_withPre ?_).trans (relinked_setLruTail _ _)))
      · exact hea
      · exact alive_withNext.2 hea
    · refine ⟨rfl, ?_⟩
      rw [(setLruTail_fields).1, next_withPre,
        next_withNext (show (s.setLruElement (some e)).Alive e from hea), Function.update_self]
      rfl
    · refine ⟨rfl, ?_⟩
      have hea' : ((s.setLruElement (some e)).withNext e none).Alive e := alive_withNext.2 hea
      rw [(setLruTail_fields).2.1, pre_withPre hea', Function.update_self]
      rfl
  | cons a r =>
    obtain ⟨hd, hhd⟩ := Option.isSome_iff_exists.1 (h.alive (List.mem_cons_self ..))
    have hnx := h.head_next hhd
    simp only [upgradeLru2, wp_bind, wp_getState, h.front.1, hhd, hel, wp_load_some, hnx]
    cases r with
    | nil =>
      -- the file data of the only element is another object, as its name is another
      have hne : hd.file ≠ f := by
        intro hf
        refine hname a (by simp) ?_
        simp [Wc.nameOf, Wc.fileOf, hhd, hf, hfd]
      simp only [List.head?_nil, ne_eq, hne, not_false_eq_true, if_true]
      exact happend (by simp)
    | cons b r =>
      simp only [List.head?_cons, if_true]
      exact happend (by simp)

end OSLab.Webserver
