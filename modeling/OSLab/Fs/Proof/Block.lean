import OSLab.Fs.Block

/-!
# Bytes and words of a block

A block is determined by its bytes, and a table by its words: setting a word changes that
word and no other.
-/

namespace OSLab.Fs

variable {b b' : Block} {i k : ℕ} {v : ℤ}

@[simp] theorem Block.get_zero (i : ℕ) : Block.zero.get i = 0 := by
  unfold Block.get Block.zero; split <;> rfl

theorem Block.get_ofFn (f : ℕ → Byte) (h : i < blockSize) : (Block.ofFn f).get i = f i := by
  unfold Block.get Block.ofFn; rw [dif_pos h]

theorem Block.get_of_ge (b : Block) (h : blockSize ≤ i) : b.get i = 0 := by
  unfold Block.get; rw [dif_neg (not_lt.2 h)]

@[simp] theorem Block.word_zero (k : ℕ) : Block.zero.word k = 0 := by
  unfold Block.word
  exact leInt_eq_zero fun _ _ => Block.get_zero _

theorem Block.word_setWord (hk : k < 2048) (h1 : -2 ^ 31 ≤ v) (h2 : v < 2 ^ 31) :
    (b.setWord k v).word k = v := by
  unfold Block.word Block.setWord
  have hb : ∀ i < 4, (Block.ofFn fun i => if i / 4 = k then leByte v (i % 4) else b.get i).get
      (4 * k + i) = leByte v i := by
    intro i hi
    rw [Block.get_ofFn _ (by unfold blockSize; omega), if_pos (by omega)]
    congr 1
    omega
  rw [leInt_congr hb]
  exact leInt_leByte (by norm_num; omega) (by norm_num; omega)

theorem Block.word_setWord_of_ne {j : ℕ} (hj : j < 2048) (hne : j ≠ k) :
    (b.setWord k v).word j = b.word j := by
  unfold Block.word Block.setWord
  apply leInt_congr
  intro i hi
  rw [Block.get_ofFn _ (by unfold blockSize; omega), if_neg (by omega)]

end OSLab.Fs
