import Mathlib.Data.List.Basic

/-!
# Messages that say where they end

A head is a sequence of lines, each ended by a terminator that starts with a symbol no line
contains, and closed by an empty line. A head in front of anything can be read in one way
only (`head_append_inj`); so can a message whose head determines the length of its body
(`message_append_inj`), and two messages in a row are not one (`message_append_ne`).
-/

namespace OSLab.Framing

variable {α : Type} {stop : α} {tail x y : List α} {ls ls' : List (List α)}

/-- The lines, each followed by the terminator `stop :: tail`, and an empty line. -/
def head (stop : α) (tail : List α) : List (List α) → List α
  | [] => stop :: tail
  | l :: ls => l ++ stop :: tail ++ head stop tail ls

/-- The lines of a head: none is empty, and none contains the symbol that ends lines. -/
def Lines (stop : α) (ls : List (List α)) : Prop := ∀ l ∈ ls, l ≠ [] ∧ stop ∉ l

theorem append_stop_inj {l l' : List α} (h : stop ∉ l) (h' : stop ∉ l')
    (he : l ++ stop :: x = l' ++ stop :: y) : l = l' ∧ x = y := by
  induction l generalizing l' with
  | nil =>
    cases l' with
    | nil => exact ⟨rfl, (List.cons.inj he).2⟩
    | cons b l' => exact absurd (List.cons.inj he).1 fun hb => h' (by simp [hb])
  | cons a l ih =>
    cases l' with
    | nil => exact absurd (List.cons.inj he).1.symm fun ha => h (by simp [ha])
    | cons b l' =>
      obtain ⟨rfl, hrest⟩ := List.cons.inj he
      obtain ⟨rfl, hxy⟩ := ih (List.not_mem_of_not_mem_cons h) (List.not_mem_of_not_mem_cons h')
        hrest
      exact ⟨rfl, hxy⟩

/-- **A head is read in one way only.** -/
theorem head_append_inj (h : Lines stop ls) (h' : Lines stop ls')
    (he : head stop tail ls ++ x = head stop tail ls' ++ y) : ls = ls' ∧ x = y := by
  induction ls generalizing ls' with
  | nil =>
    cases ls' with
    | nil => exact ⟨rfl, List.append_cancel_left he⟩
    | cons l' ls' =>
      -- the empty line is no line of the other head
      obtain ⟨hne, hst⟩ := h' l' (by simp)
      obtain ⟨b, l', rfl⟩ := List.exists_cons_of_ne_nil hne
      exact absurd (List.cons.inj he).1 fun hb => hst (by simp [hb])
  | cons l ls ih =>
    obtain ⟨hne, hst⟩ := h l (by simp)
    cases ls' with
    | nil =>
      obtain ⟨b, l, rfl⟩ := List.exists_cons_of_ne_nil hne
      exact absurd (List.cons.inj he).1.symm fun hb => hst (by simp [hb])
    | cons l' ls' =>
      simp only [head, List.append_assoc, List.cons_append] at he
      obtain ⟨rfl, hrest⟩ := append_stop_inj hst (h' l' (by simp)).2 he
      obtain ⟨rfl, hxy⟩ := ih (fun k hk => h k (List.mem_cons_of_mem _ hk))
        (fun k hk => h' k (List.mem_cons_of_mem _ hk)) (List.append_cancel_left hrest)
      exact ⟨rfl, hxy⟩

section Body

variable {sized : List (List α) → ℕ → Prop} {body body' : List α}

/-- **A message is read in one way only**, when its head says how long its body is. -/
theorem message_append_inj (hone : ∀ ls n n', sized ls n → sized ls n' → n = n')
    (h : Lines stop ls) (h' : Lines stop ls') (hb : sized ls body.length)
    (hb' : sized ls' body'.length)
    (he : head stop tail ls ++ body ++ x = head stop tail ls' ++ body' ++ y) :
    ls = ls' ∧ body = body' ∧ x = y := by
  rw [List.append_assoc, List.append_assoc] at he
  obtain ⟨rfl, hbody⟩ := head_append_inj h h' he
  obtain ⟨rfl, rfl⟩ := List.append_inj hbody (hone ls _ _ hb hb')
  exact ⟨rfl, rfl, rfl⟩

/-- **Two messages in a row are not one.** -/
theorem message_append_ne (hone : ∀ ls n n', sized ls n → sized ls n' → n = n')
    (h : Lines stop ls) (h' : Lines stop ls') (hb : sized ls body.length)
    (hb' : sized ls' body'.length) (hx : x ≠ []) :
    head stop tail ls ++ body ++ x ≠ head stop tail ls' ++ body' := by
  intro he
  rw [← List.append_nil (head stop tail ls' ++ body')] at he
  exact hx (message_append_inj hone h h' hb hb' he).2.2

end Body

end OSLab.Framing
