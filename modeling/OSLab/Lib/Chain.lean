import Mathlib.Data.List.Nodup
import Mathlib.Logic.Function.Basic
import Mathlib.Tactic.Common

/-!
# Intrusive singly linked lists

Nodes carry one `next` field; `Chain next p l` says that following `next` from the
pointer `p` visits exactly the nodes of `l`, in order, and ends in `NULL`. Each
pointer operation on a chain is an update of `next` at one node; the lemmas say
which list the updated chain is.

* `Chain.congr`: a chain only reads `next` at its own nodes.
* `Chain.append`: linking the last node to another chain concatenates.
* `Chain.unlink`: bypassing a node that has a predecessor removes it.
* `Chain.unique`: a pointer has at most one chain.
-/

namespace OSLab

variable {ν : Type} {next next' : ν → Option ν} {p q : Option ν} {l l' : List ν} {n t x : ν}

/-- Following `next` from `p` visits `l` and ends. -/
def Chain (next : ν → Option ν) : Option ν → List ν → Prop
  | p, [] => p = none
  | p, n :: l => p = some n ∧ Chain next (next n) l

@[simp] theorem chain_nil : Chain next p [] ↔ p = none := Iff.rfl

@[simp] theorem chain_cons : Chain next p (n :: l) ↔ p = some n ∧ Chain next (next n) l := Iff.rfl

theorem Chain.congr (h : Chain next p l) (hn : ∀ x ∈ l, next' x = next x) : Chain next' p l := by
  induction l generalizing p with
  | nil => exact h
  | cons n l ih =>
    refine ⟨h.1, ?_⟩
    rw [hn n (by simp)]
    exact ih h.2 fun x hx => hn x (by simp [hx])

theorem Chain.head?_eq (h : Chain next p l) : p = l.head? := by
  cases l with
  | nil => exact h
  | cons n l => exact h.1

theorem Chain.eq_nil_iff (h : Chain next p l) : p = none ↔ l = [] := by
  rw [h.head?_eq, List.head?_eq_none_iff]

theorem Chain.unique (h : Chain next p l) (h' : Chain next p l') : l = l' := by
  induction l generalizing p l' with
  | nil => cases l' with
    | nil => rfl
    | cons n l' => exact absurd (h.symm.trans h'.1) (by simp)
  | cons n l ih => cases l' with
    | nil => exact absurd (h'.symm.trans h.1) (by simp)
    | cons m l' =>
      obtain rfl : n = m := Option.some.inj (h.1.symm.trans h'.1)
      rw [ih h.2 h'.2]

/-- The chain from the node after a prefix. -/
theorem Chain.drop {l₁ l₂ : List ν} (h : Chain next p (l₁ ++ l₂)) : ∃ q, Chain next q l₂ := by
  induction l₁ generalizing p with
  | nil => exact ⟨p, h⟩
  | cons n l ih => exact ih h.2

theorem Chain.next_mem {l₁ l₂ : List ν} (h : Chain next p (l₁ ++ x :: l₂)) :
    Chain next (next x) l₂ := by
  obtain ⟨q, hq⟩ := h.drop
  exact hq.2

variable [DecidableEq ν]

theorem Chain.update (h : Chain next p l) (hn : n ∉ l) (v : Option ν) :
    Chain (Function.update next n v) p l :=
  h.congr fun _ hx => Function.update_of_ne (ne_of_mem_of_not_mem hx hn) _ _

/-- Linking the last node of one chain to another chain. -/
theorem Chain.append (h : Chain next p l) (hq : Chain next q l') (hlast : l.getLast? = some t)
    (hnd : l.Nodup) (hdis : t ∉ l') : Chain (Function.update next t q) p (l ++ l') := by
  induction l generalizing p with
  | nil => simp at hlast
  | cons n l ih =>
    refine ⟨h.1, ?_⟩
    cases l with
    | nil =>
      obtain rfl : n = t := by simpa using hlast
      rw [Function.update_self]
      exact hq.update hdis _
    | cons m l =>
      rw [List.getLast?_cons_cons] at hlast
      have hne : n ≠ t := by
        intro e; subst e
        exact (List.nodup_cons.1 hnd).1 (List.mem_of_getLast? hlast)
      rw [Function.update_of_ne hne]
      exact ih h.2 hlast (List.nodup_cons.1 hnd).2

/-- Appending one node whose own `next` is then cleared. -/
theorem Chain.snoc (h : Chain next p l) (hlast : l.getLast? = some t) (hnd : l.Nodup)
    (hn : n ∉ l) :
    Chain (Function.update (Function.update next t (some n)) n none) p (l ++ [n]) := by
  have htn : t ≠ n := fun e => hn (e ▸ List.mem_of_getLast? hlast)
  rw [Function.update_comm htn]
  refine Chain.append (h.update hn _) ⟨rfl, ?_⟩ hlast hnd (by simpa using htn)
  simp

/-- Ending a chain at one of its nodes. -/
theorem Chain.truncate {l₁ l₂ : List ν} (h : Chain next p (l₁ ++ t :: l₂)) (ht : t ∉ l₁) :
    Chain (Function.update next t none) p (l₁ ++ [t]) := by
  induction l₁ generalizing p with
  | nil => exact ⟨h.1, by simp⟩
  | cons n l ih =>
    refine ⟨h.1, ?_⟩
    have hne : n ≠ t := fun e => ht (by simp [e])
    rw [Function.update_of_ne hne]
    exact ih h.2 fun hm => ht (by simp [hm])

/-- Bypassing the successor of a node. -/
theorem Chain.unlink {l₁ l₂ : List ν} (h : Chain next p (l₁ ++ t :: x :: l₂))
    (hnd : (l₁ ++ t :: x :: l₂).Nodup) :
    Chain (Function.update next t (next x)) p (l₁ ++ t :: l₂) := by
  induction l₁ generalizing p with
  | nil =>
    refine ⟨h.1, ?_⟩
    rw [Function.update_self]
    have ht : t ∉ l₂ := fun hm => (List.nodup_cons.1 hnd).1 (by simp [hm])
    exact Chain.update h.2.2 ht _
  | cons n l ih =>
    refine ⟨h.1, ?_⟩
    have hne : n ≠ t := fun e => (List.nodup_cons.1 hnd).1 (by simp [e])
    rw [Function.update_of_ne hne]
    exact ih h.2 (List.nodup_cons.1 hnd).2

end OSLab
