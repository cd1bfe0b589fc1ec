import Mathlib.Data.Nat.Notation
import Mathlib.Data.Int.Notation
import Mathlib.Tactic.Common
import Mathlib.Tactic.Ring

/-!
# Little-endian integers

Bytes are given by a function of their offset. `leNat n f` is the unsigned value of the
first `n` of them and `leInt n f` the signed one; `leByte x i` is byte `i` of `x`.

* `leNat_leByte`, `leInt_leByte`: reading back what was written.
* `leNat_eq_zero`: a number is zero exactly when all its bytes are.
-/

namespace OSLab

abbrev Byte : Type := BitVec 8

/-- The unsigned value of `n` bytes, the lowest first. -/
def leNat : ℕ → (ℕ → Byte) → ℕ
  | 0, _ => 0
  | n + 1, f => (f 0).toNat + 256 * leNat n fun i => f (i + 1)

/-- The signed value of `n` bytes. -/
def leInt (n : ℕ) (f : ℕ → Byte) : ℤ := (leNat n f : ℤ).bmod (256 ^ n)

/-- Byte `i` of `x`. -/
def leByte (x : ℤ) (i : ℕ) : Byte := BitVec.ofInt 8 (x / 256 ^ i)

theorem leNat_congr {n : ℕ} {f g : ℕ → Byte} (h : ∀ i < n, f i = g i) : leNat n f = leNat n g := by
  induction n generalizing f g with
  | zero => rfl
  | succ n ih =>
    unfold leNat
    rw [h 0 (by omega), ih fun i hi => h (i + 1) (by omega)]

theorem leInt_congr {n : ℕ} {f g : ℕ → Byte} (h : ∀ i < n, f i = g i) : leInt n f = leInt n g := by
  unfold leInt; rw [leNat_congr h]

theorem leNat_lt (n : ℕ) (f : ℕ → Byte) : leNat n f < 256 ^ n := by
  induction n generalizing f with
  | zero => simp [leNat]
  | succ n ih =>
    have h0 : (f 0).toNat < 256 := (f 0).isLt
    have := ih fun i => f (i + 1)
    unfold leNat
    rw [pow_succ]
    omega

theorem leNat_eq_zero {n : ℕ} {f : ℕ → Byte} : leNat n f = 0 ↔ ∀ i < n, f i = 0 := by
  induction n generalizing f with
  | zero => simp [leNat]
  | succ n ih =>
    have hz : (f 0).toNat = 0 ↔ f 0 = 0 := by
      constructor
      · intro h; exact BitVec.eq_of_toNat_eq h
      · intro h; rw [h]; rfl
    unfold leNat
    rw [Nat.add_eq_zero_iff, Nat.mul_eq_zero, hz, ih]
    constructor
    · rintro ⟨h0, h | h⟩ i hi
      · omega
      · cases i with
        | zero => exact h0
        | succ i => exact h i (by omega)
    · intro h
      exact ⟨h 0 (by omega), Or.inr fun i hi => h (i + 1) (by omega)⟩

theorem leByte_succ (x : ℤ) (i : ℕ) : leByte x (i + 1) = leByte (x / 256) i := by
  unfold leByte
  rw [pow_succ', ← Int.ediv_ediv_of_nonneg (by norm_num)]

theorem leByte_zero_toNat (x : ℤ) : ((leByte x 0).toNat : ℤ) = x % 256 := by
  unfold leByte
  rw [BitVec.toNat_ofInt]
  simp only [pow_zero, Int.ediv_one]
  omega

/-- **Reading back, unsigned.** -/
theorem leNat_leByte (n : ℕ) (x : ℤ) : (leNat n (leByte x) : ℤ) = x % 256 ^ n := by
  induction n generalizing x with
  | zero => simp [leNat]
  | succ n ih =>
    have htail : leNat n (fun i => leByte x (i + 1)) = leNat n (leByte (x / 256)) :=
      leNat_congr fun i _ => leByte_succ x i
    unfold leNat
    rw [htail, Nat.cast_add, Nat.cast_mul, ih, leByte_zero_toNat, pow_succ']
    have hq : x / 256 % 256 ^ n = x / 256 - 256 ^ n * (x / 256 / 256 ^ n) := Int.emod_def _ _
    have hr : x % (256 * 256 ^ n) = x - 256 * 256 ^ n * (x / (256 * 256 ^ n)) := Int.emod_def _ _
    have hd : x / 256 / 256 ^ n = x / (256 * 256 ^ n) := Int.ediv_ediv_of_nonneg (by norm_num)
    have h0 : x % 256 = x - 256 * (x / 256) := Int.emod_def _ _
    rw [hq, hr, hd, h0]
    push_cast
    ring

/-- **Reading back, signed.** -/
theorem leInt_leByte {n : ℕ} {x : ℤ} (h1 : -(256 ^ n / 2) ≤ x) (h2 : x < (256 ^ n + 1) / 2) :
    leInt n (leByte x) = x := by
  unfold leInt
  rw [leNat_leByte]
  have hc : ((256 : ℤ) ^ n) = ((256 ^ n : ℕ) : ℤ) := by push_cast; rfl
  rw [hc, Int.emod_bmod]
  exact Int.bmod_eq_of_le (by rw [← hc]; exact h1) (by rw [← hc]; exact h2)

/-- What is read fits. -/
theorem leInt_bounds (n : ℕ) (f : ℕ → Byte) :
    -(256 ^ n / 2) ≤ leInt n f ∧ leInt n f < (256 ^ n + 1) / 2 := by
  have hpos : 0 < 256 ^ n := Nat.pow_pos (by decide)
  have h1 := Int.le_bmod (x := leNat n f) hpos
  have h2 := Int.bmod_lt (x := leNat n f) hpos
  push_cast at h1 h2
  exact ⟨h1, h2⟩

theorem leNat_leByte_of_lt {n x : ℕ} (h : x < 256 ^ n) : leNat n (leByte x) = x := by
  have h1 := leNat_leByte n x
  have h2 : (x : ℤ) % 256 ^ n = x := Int.emod_eq_of_lt (by omega) (by exact_mod_cast h)
  omega

/-- The bytes of a value that was read from bytes, up to a multiple of `256 ^ n`. -/
theorem leByte_of_emod {n : ℕ} {f : ℕ → Byte} {y : ℤ} (h : y % 256 ^ n = leNat n f) {i : ℕ}
    (hi : i < n) : leByte y i = f i := by
  induction n generalizing f y i with
  | zero => omega
  | succ n ih =>
    unfold leNat at h
    push_cast at h
    have hdiv : y % 256 ^ (n + 1) = y - 256 * (256 ^ n * (y / 256 ^ (n + 1))) := by
      rw [Int.emod_def, pow_succ']
      ring
    have hf := (f 0).isLt
    cases i with
    | zero =>
      unfold leByte
      rw [pow_zero, Int.ediv_one]
      apply BitVec.eq_of_toNat_eq
      rw [BitVec.toNat_ofInt]
      omega
    | succ i =>
      rw [leByte_succ]
      refine ih (f := fun k => f (k + 1)) ?_ (by omega)
      have hq : y / 256 / 256 ^ n = y / 256 ^ (n + 1) := by
        rw [Int.ediv_ediv_of_nonneg (by norm_num), pow_succ']
      rw [Int.emod_def, hq]
      omega

/-- **Writing back what was read.** -/
theorem leByte_leInt {n : ℕ} (f : ℕ → Byte) {i : ℕ} (hi : i < n) : leByte (leInt n f) i = f i := by
  refine leByte_of_emod ?_ hi
  have hlt : (leNat n f : ℤ) < 256 ^ n := by exact_mod_cast leNat_lt n f
  have hc : ((256 : ℤ) ^ n) = ((256 ^ n : ℕ) : ℤ) := by push_cast; rfl
  unfold leInt
  rw [hc, Int.bmod_emod, ← hc]
  exact Int.emod_eq_of_lt (by omega) hlt

theorem leInt_eq_zero {n : ℕ} {f : ℕ → Byte} (h : ∀ i < n, f i = 0) : leInt n f = 0 := by
  unfold leInt; rw [leNat_eq_zero.2 h]; simp

end OSLab
