import OSLab.Lib.Prog

/-!
# Rooted trees of labelled edges

`step p n c` is an edge from `p` to `c` with the label `n`, and `Run step a ns b` a path with the
labels `ns`. In a rooted tree every vertex is reached from the root by exactly one path.

* `RootedTree.no_cycle`: no path leads back to where it started.
* `RootedTree.label_unique`: one label leads into a vertex.
* `RootedTree.path_nil_iff`: the root is reached by the empty path, and no other vertex is.
* `RootedTree.addLeaf`, `RootedTree.removeLeaf`: a leaf is added or removed.
* `RootedTree.restrict`: the vertices of a kind, when what is above them is of the kind too.
-/

namespace OSLab

variable {α ν : Type} {step step' : α → ν → α → Prop} {V V' : α → Prop} {root a b c p q : α}
  {n m : ν} {ns ms : List ν}

/-- **A rooted tree** of the vertices that satisfy `V`. -/
structure RootedTree (step : α → ν → α → Prop) (V : α → Prop) (root : α) : Prop where
  vertex : V root
  path : ∀ b, V b → ∃! ns, Run step root ns b

/-- One edge is a path. -/
theorem Run.edge (h : step p n a) : Run step p [n] a := (Run.nil p).snoc h

/-- A path that starts with an edge. -/
theorem Run.cons (h : step p n a) (hr : Run step a ns b) : Run step p (n :: ns) b :=
  (Run.edge h).append hr

/-- Where the edges of a vertex have different labels, a path has one end. -/
theorem Run.end_unique (hf : ∀ p n a b, step p n a → step p n b → a = b) (hp : Run step a ns p)
    (hq : Run step a ns q) : p = q := by
  induction hp generalizing q with
  | nil => exact run_nil_iff.1 hq
  | snoc _ he ih =>
    obtain ⟨r, hr, he'⟩ := run_concat_iff.1 hq
    rw [ih hr] at he
    exact hf _ _ _ _ he he'

namespace RootedTree

variable (h : RootedTree step V root)

include h

theorem path_unique (hb : V b) (hn : Run step root ns b) (hm : Run step root ms b) : ns = ms :=
  (h.path b hb).unique hn hm

/-- **There is no cycle.** -/
theorem no_cycle (hp : V p) (hc : Run step p ms p) : ms = [] := by
  obtain ⟨ns, hn, -⟩ := h.path p hp
  have heq := h.path_unique hp (hn.append hc) hn
  exact List.append_right_eq_self.1 heq

theorem edge_ne (hp : V p) (he : step p n q) : p ≠ q := by
  intro heq
  rw [← heq] at he
  cases h.no_cycle hp (Run.edge he)

/-- Two edges do not lead there and back. -/
theorem edge_not_back (hp : V p) (he : step p n q) : ¬step q m p := by
  intro hb
  cases h.no_cycle hp (Run.cons he (Run.edge hb))

/-- **One label leads into a vertex** from a vertex. -/
theorem label_unique (hp : V p) (hb : V b) (hn : step p n b) (hm : step p m b) : n = m := by
  obtain ⟨ns, hr, -⟩ := h.path p hp
  have heq := h.path_unique hb (hr.snoc hn) (hr.snoc hm)
  exact List.singleton_inj.1 (List.append_cancel_left heq)

theorem path_nil_iff (hr : Run step root ns b) : ns = [] ↔ b = root := by
  constructor
  · intro hn
    rw [hn] at hr
    exact (run_nil_iff.1 hr).symm
  · intro hbr
    rw [hbr] at hr
    exact h.no_cycle h.vertex hr

/-- The root is below no vertex. -/
theorem edge_ne_root (hp : V p) (he : step p n b) : b ≠ root := by
  intro hb
  obtain ⟨ns, hr, -⟩ := h.path p hp
  have hnil := (h.path_nil_iff (hr.snoc he)).2 hb
  exact List.append_ne_nil_of_right_ne_nil _ (List.cons_ne_nil _ _) hnil

/-- **One edge leads into a vertex** when the edges of a vertex have different labels. -/
theorem edge_unique (hf : ∀ p n a b, step p n a → step p n b → a = b) (hp : V p) (hq : V q)
    (hb : V b) (hn : step p n b) (hm : step q m b) : p = q ∧ n = m := by
  obtain ⟨ns, hr, -⟩ := h.path p hp
  obtain ⟨ms, hr', -⟩ := h.path q hq
  obtain ⟨hns, hnm⟩ := List.append_inj' (h.path_unique hb (hr.snoc hn) (hr'.snoc hm)) rfl
  rw [hns] at hr
  exact ⟨Run.end_unique hf hr hr', List.singleton_inj.1 hnm⟩

/-- **A leaf is added** below `p`. -/
theorem addLeaf (hstep : ∀ q m b, step q m b → V q ∧ V b) (hp : V p) (hc : ¬V c)
    (hstep' : ∀ q m b, step' q m b ↔ step q m b ∨ q = p ∧ m = n ∧ b = c)
    (hV' : ∀ b, V' b ↔ V b ∨ b = c) : RootedTree step' V' root := by
  -- the paths to the other vertices are the old ones
  have hold : ∀ {ns b}, V b → (Run step' root ns b ↔ Run step root ns b) := by
    intro ns b hb
    constructor
    · intro hr
      induction hr with
      | nil => exact .nil _
      | snoc _ he ih =>
        rcases (hstep' _ _ _).1 he with he | ⟨-, -, hbc⟩
        · exact (ih (hstep _ _ _ he).1).snoc he
        · exact absurd hb (hbc ▸ hc)
    · exact Run.mono fun _ _ _ he => (hstep' _ _ _).2 (Or.inl he)
  refine ⟨(hV' _).2 (Or.inl h.vertex), fun b hb => ?_⟩
  rcases (hV' b).1 hb with hb | rfl
  · obtain ⟨ns, hr, huniq⟩ := h.path b hb
    exact ⟨ns, (hold hb).2 hr, fun ms hms => huniq ms ((hold hb).1 hms)⟩
  · obtain ⟨ns, hr, huniq⟩ := h.path p hp
    refine ⟨ns ++ [n], ((hold hp).2 hr).snoc ((hstep' _ _ _).2 (Or.inr ⟨rfl, rfl, rfl⟩)), ?_⟩
    intro ms hms
    cases hms with
    | nil => exact absurd h.vertex hc
    | snoc hr' he =>
      rcases (hstep' _ _ _).1 he with he | ⟨rfl, rfl, -⟩
      · exact absurd (hstep _ _ _ he).2 hc
      · rw [huniq _ ((hold hp).1 hr')]

/-- **A leaf is removed.** -/
theorem removeLeaf (hf : ∀ p n a b, step p n a → step p n b → a = b)
    (hstep : ∀ q m b, step q m b → V q ∧ V b) (he : step p n c) (hleaf : ∀ m b, ¬step c m b)
    (hstep' : ∀ q m b, step' q m b ↔ step q m b ∧ ¬(q = p ∧ m = n))
    (hV' : ∀ b, V' b ↔ V b ∧ b ≠ c) : RootedTree step' V' root := by
  have hold : ∀ {ns b}, b ≠ c → Run step root ns b → Run step' root ns b := by
    intro ns b hb hr
    induction hr with
    | nil => exact .nil _
    | snoc _ hq ih =>
      refine (ih fun hqc => hleaf _ _ (hqc ▸ hq)).snoc ((hstep' _ _ _).2 ⟨hq, fun hpn => hb ?_⟩)
      rw [hpn.1, hpn.2] at hq
      exact hf _ _ _ _ hq he
  have hroot := h.edge_ne_root (hstep _ _ _ he).1 he
  refine ⟨(hV' _).2 ⟨h.vertex, hroot.symm⟩, fun b hb => ?_⟩
  obtain ⟨hb, hbc⟩ := (hV' b).1 hb
  obtain ⟨ns, hr, huniq⟩ := h.path b hb
  refine ⟨ns, hold hbc hr, fun ms hms => huniq ms (hms.mono fun _ _ _ hq => ?_)⟩
  exact ((hstep' _ _ _).1 hq).1

/-- **The vertices of one kind** are a tree when the vertex above each is of the kind. -/
theorem restrict (hroot : V' root) (hV' : ∀ b, V' b → V b)
    (hup : ∀ q m b, step q m b → V' b → V' q)
    (hstep' : ∀ q m b, step' q m b ↔ step q m b ∧ V' b) : RootedTree step' V' root := by
  have hkeep : ∀ {ns b}, V' b → Run step root ns b → Run step' root ns b := by
    intro ns b hb hr
    induction hr with
    | nil => exact .nil _
    | snoc _ he ih => exact (ih (hup _ _ _ he hb)).snoc ((hstep' _ _ _).2 ⟨he, hb⟩)
  refine ⟨hroot, fun b hb => ?_⟩
  obtain ⟨ns, hr, huniq⟩ := h.path b (hV' b hb)
  exact ⟨ns, hkeep hb hr, fun ms hms =>
    huniq ms (hms.mono fun _ _ _ he => ((hstep' _ _ _).1 he).1)⟩

end RootedTree

end OSLab
