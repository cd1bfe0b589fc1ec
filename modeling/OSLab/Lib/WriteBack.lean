import OSLab.Lib.Prog
import Mathlib.Algebra.Group.Int.Defs

/-!
# A write-back cache with reference counts

`WriteBack κ δ` is a backing store with the lines of it that are in memory. The first `get` of
a key loads its line, `store` changes the line in memory and makes it dirty, `sync` writes it
back, and the `put` that gives up the last reference drops it. A `put` finds the line clean.

`Account κ δ` is what the cache is for: the value last stored under each key, and how many
references to it are held. `Coherent c a` relates the two.

* `Coherent.set`: changing one line and the value behind it.
* `Step.coherent`: every operation keeps the cache coherent with the account.
* `run_coherent`: so does every run of a system whose steps are steps of a cache.
-/

namespace OSLab

/-- A line of the cache. -/
structure Line (δ : Type) where
  value : δ
  dirty : Bool
  refs : ℤ

structure WriteBack (κ δ : Type) where
  line : κ → Option (Line δ)
  back : κ → δ

/-- The values last stored and the references held. -/
structure Account (κ δ : Type) where
  stored : κ → δ
  refs : κ → ℤ

namespace WriteBack

inductive Op (κ δ : Type)
  | get (k : κ)
  | store (k : κ) (d : δ)
  | sync (k : κ)
  | put (k : κ)

variable {κ δ : Type} {c c' : WriteBack κ δ} {a : Account κ δ} {k : κ} {op : Op κ δ}

/-- The value of a key, in memory or behind the cache. -/
def value (c : WriteBack κ δ) (k : κ) : δ := (c.line k).elim (c.back k) (·.value)

/-- **The cache keeps the account.** -/
structure Coherent (c : WriteBack κ δ) (a : Account κ δ) : Prop where
  value : ∀ k, c.value k = a.stored k
  clean : ∀ k l, c.line k = some l → l.dirty = false → c.back k = l.value
  refs : ∀ k, (c.line k).elim 0 (·.refs) = a.refs k
  pos : ∀ k l, c.line k = some l → 0 < l.refs

/-- An empty cache. -/
theorem coherent_empty (h : ∀ k, c.line k = none) : Coherent c ⟨c.back, fun _ => 0⟩ := by
  refine ⟨?_, ?_, ?_, ?_⟩ <;> intro k
  · simp [WriteBack.value, h k]
  · simp [h k]
  · simp [h k]
  · simp [h k]

/-- What is in memory is in the account. -/
theorem Coherent.line {l : Line δ} (h : Coherent c a) (hl : c.line k = some l) :
    l.value = a.stored k ∧ l.refs = a.refs k := by
  have hv := h.value k
  have hr := h.refs k
  rw [WriteBack.value, hl] at hv
  rw [hl] at hr
  exact ⟨hv, hr⟩

variable [DecidableEq κ]

/-- Line `k` and the value behind it are replaced. -/
def set (c : WriteBack κ δ) (k : κ) (o : Option (Line δ)) (d : δ) : WriteBack κ δ where
  line := Function.update c.line k o
  back := Function.update c.back k d

/-- What the operations do. -/
inductive Step (c : WriteBack κ δ) : Op κ δ → WriteBack κ δ → Prop
  | hit {k : κ} {l : Line δ} (h : c.line k = some l) :
      Step c (.get k) (c.set k (some { l with refs := l.refs + 1 }) (c.back k))
  | load {k : κ} (h : c.line k = none) :
      Step c (.get k) (c.set k (some ⟨c.back k, false, 1⟩) (c.back k))
  | store {k : κ} {l : Line δ} {d : δ} (h : c.line k = some l) :
      Step c (.store k d) (c.set k (some { l with value := d, dirty := true }) (c.back k))
  | sync {k : κ} {l : Line δ} (h : c.line k = some l) :
      Step c (.sync k)
        (c.set k (some { l with dirty := false }) (if l.dirty then l.value else c.back k))
  | release {k : κ} {l : Line δ} (h : c.line k = some l) (hd : l.dirty = false)
      (hr : l.refs ≠ 1) :
      Step c (.put k) (c.set k (some { l with refs := l.refs - 1 }) (c.back k))
  | drop {k : κ} {l : Line δ} (h : c.line k = some l) (hd : l.dirty = false) (hr : l.refs = 1) :
      Step c (.put k) (c.set k none (c.back k))

/-- The account after an operation. -/
def Op.record (a : Account κ δ) : Op κ δ → Account κ δ
  | .get k => { a with refs := Function.update a.refs k (a.refs k + 1) }
  | .store k d => { a with stored := Function.update a.stored k d }
  | .sync _ => a
  | .put k => { a with refs := Function.update a.refs k (a.refs k - 1) }

/-- Changing one line and the value behind it changes the account of that key only. -/
theorem Coherent.set {o : Option (Line δ)} {b d : δ} {n : ℤ} (h : Coherent c a)
    (hvalue : o.elim b (·.value) = d) (hclean : ∀ l, o = some l → l.dirty = false → b = l.value)
    (hrefs : o.elim 0 (·.refs) = n) (hpos : ∀ l, o = some l → 0 < l.refs) :
    Coherent (c.set k o b)
      ⟨Function.update a.stored k d, Function.update a.refs k n⟩ := by
  refine ⟨?_, ?_, ?_, ?_⟩ <;> intro j <;> simp only [WriteBack.value, WriteBack.set] <;>
    by_cases hj : j = k
  · subst hj
    simpa using hvalue
  · simpa [hj, WriteBack.value] using h.value j
  · subst hj
    simpa using hclean
  · simpa [hj] using h.clean j
  · subst hj
    simpa using hrefs
  · simpa [hj] using h.refs j
  · subst hj
    simpa using hpos
  · simpa [hj] using h.pos j

theorem Coherent.setLine {l : Line δ} {b d : δ} {n : ℤ} (h : Coherent c a) (hvalue : l.value = d)
    (hclean : l.dirty = false → b = l.value) (hrefs : l.refs = n) (hpos : 0 < l.refs) :
    Coherent (c.set k (some l) b)
      ⟨Function.update a.stored k d, Function.update a.refs k n⟩ := by
  apply h.set
  · exact hvalue
  · intro l' hl'
    rw [← Option.some.inj hl']
    exact hclean
  · exact hrefs
  · intro l' hl'
    rw [← Option.some.inj hl']
    exact hpos

/-- **Every operation keeps the account.** -/
theorem Step.coherent (hs : Step c op c') (h : Coherent c a) : Coherent c' (op.record a) := by
  -- what an operation does not change can be written as an update
  have hstored : ∀ k, a.stored = Function.update a.stored k (a.stored k) := by simp
  have hrefs : ∀ k, a.refs = Function.update a.refs k (a.refs k) := by simp
  cases hs with
  | @hit k l hl =>
    obtain ⟨hv, hr⟩ := h.line hl
    have hpos := h.pos k l hl
    rw [Op.record, hstored k]
    apply h.setLine
    · exact hv
    · exact h.clean k l hl
    · simp only [hr]
    · simp only
      omega
  | @load k hl =>
    have hv := h.value k
    have hr := h.refs k
    rw [WriteBack.value, hl] at hv
    rw [hl] at hr
    rw [Op.record, hstored k]
    apply h.setLine
    · exact hv
    · intro _
      rfl
    · simp only [← hr, Option.elim_none, zero_add]
    · exact Int.one_pos
  | @store k l d hl =>
    rw [Op.record, hrefs k]
    apply h.setLine
    · rfl
    · intro hd
      simp at hd
    · exact (h.line hl).2
    · exact h.pos k l hl
  | @sync k l hl =>
    have ha : a = ⟨Function.update a.stored k (a.stored k),
        Function.update a.refs k (a.refs k)⟩ := by simp
    rw [Op.record, ha]
    apply h.setLine
    · exact (h.line hl).1
    · intro _
      cases hd : l.dirty with
      | true => rfl
      | false => exact h.clean k l hl hd
    · exact (h.line hl).2
    · exact h.pos k l hl
  | @release k l hl hd hne =>
    obtain ⟨hv, hr⟩ := h.line hl
    have hpos := h.pos k l hl
    rw [Op.record, hstored k]
    apply h.setLine
    · exact hv
    · exact h.clean k l hl
    · simp only [hr]
    · simp only
      omega
  | @drop k l hl hd hone =>
    obtain ⟨hv, hr⟩ := h.line hl
    rw [Op.record, hstored k]
    apply h.set
    · exact (h.clean k l hl hd).trans hv
    · simp
    · simp only [Option.elim_none]
      omega
    · simp

/-- **A system whose steps are steps of a cache** keeps the account of the operations it has
done, in every run. -/
theorem run_coherent {σ : Type} {step : σ → Op κ δ → σ → Prop} {I : σ → Prop}
    (cache : σ → WriteBack κ δ)
    (hstep : ∀ s op t, I s → step s op t → I t ∧ Step (cache s) op (cache t)) {s t : σ}
    {ops : List (Op κ δ)} (hr : Run step s ops t) (hI : I s) (h : Coherent (cache s) a) :
    I t ∧ Coherent (cache t) (ops.foldl Op.record a) := by
  induction hr with
  | nil => exact ⟨hI, h⟩
  | snoc _ hs ih =>
    obtain ⟨hI', h'⟩ := ih
    obtain ⟨hI'', hstep'⟩ := hstep _ _ _ hI' hs
    rw [List.foldl_append]
    exact ⟨hI'', hstep'.coherent h'⟩

end WriteBack

end OSLab
