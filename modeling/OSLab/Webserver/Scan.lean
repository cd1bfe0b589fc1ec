import OSLab.Webserver.Client
import OSLab.Webserver.Response

/-!
# Scanning what was printed

`sscanf` reads back the numbers that `sprintf` wrote.

* `scanNumber_decimal`: a number in decimal is scanned with its value, up to the first byte that is
  no digit.
* `scanHeader_length`, `scanHeader_csum`, `scanHeader_other`: what the client takes from a line of
  the headers.
-/

namespace OSLab.Webserver

variable {rest : List UInt8}

/-! ### Numbers -/

theorem isDigit_eq {d : Char} (h : d.isDigit = true) : isDigit d.toNat.toUInt8 = true := by
  obtain ⟨heq, h0⟩ := digit_byte h
  simp only [Char.isDigit, Bool.and_eq_true, decide_eq_true_eq, UInt32.le_iff_toNat_le] at h
  have h1 : d.toNat ≤ 57 := h.2
  unfold isDigit
  rw [decide_eq_true_eq, UInt8.le_iff_toNat_le, UInt8.le_iff_toNat_le, heq]
  exact ⟨h0, h1⟩

theorem isDigit_decimal {n : ℕ} {c : UInt8} (h : c ∈ decimal n) : isDigit c = true := by
  obtain ⟨d, hd, rfl⟩ := List.mem_map.1 h
  exact isDigit_eq (digit_of_mem hd)

theorem decimal_ne_nil (n : ℕ) : decimal n ≠ [] := by
  unfold decimal
  rw [ne_eq, List.map_eq_nil_iff]
  exact Nat.toDigits_ne_nil

/-- The digits of a number have its value. -/
theorem digitsValue_decimal (n : ℕ) : digitsValue (decimal n) = n := by
  have hfold : ∀ (ds : List Char) (k : ℕ), (∀ d ∈ ds, d.isDigit = true) →
      (ds.map fun c => c.toNat.toUInt8).foldl (fun n c => n * 10 + (c.toNat - 48)) k =
        Nat.ofDigitChars 10 ds k := by
    intro ds
    induction ds with
    | nil => intro k _; rfl
    | cons d ds ih =>
      intro k h
      have hd := (digit_byte (h d List.mem_cons_self)).1
      rw [List.map_cons, List.foldl_cons, ih _ fun e he => h e (List.mem_cons_of_mem _ he), hd]
      rw [Nat.ofDigitChars_cons, Nat.mul_comm]
      rfl
  unfold digitsValue decimal
  rw [hfold _ _ fun d hd => digit_of_mem hd]
  exact Nat.ofDigitChars_ten_toDigits

theorem not_space_of_isDigit {c : UInt8} (h : isDigit c = true) :
    isSpace c = false ∧ c ≠ 45 ∧ c ≠ 43 := by
  simp only [isDigit, decide_eq_true_eq, UInt8.le_iff_toNat_le] at h
  have h48 : (48 : UInt8).toNat = 48 := rfl
  have h57 : (57 : UInt8).toNat = 57 := rfl
  refine ⟨?_, fun hc => ?_, fun hc => ?_⟩
  · simp only [isSpace, decide_eq_false_iff_not, UInt8.le_iff_toNat_le, ← UInt8.toNat_inj]
    have h32 : (32 : UInt8).toNat = 32 := rfl
    have h9 : (9 : UInt8).toNat = 9 := rfl
    have h13 : (13 : UInt8).toNat = 13 := rfl
    omega
  · rw [hc] at h
    exact absurd h (by decide)
  · rw [hc] at h
    exact absurd h (by decide)

/-- A string that starts with something that is no digit, or is empty. -/
def NoDigit (s : List UInt8) : Prop := ∀ c ∈ s.head?, isDigit c = false

theorem noDigit_cons {c : UInt8} (h : isDigit c = false) : NoDigit (c :: rest) := by
  intro d hd
  obtain rfl := Option.some.inj hd
  exact h

theorem takeWhile_noDigit {ds : List UInt8} (hd : ∀ c ∈ ds, isDigit c = true) (h : NoDigit rest) :
    (ds ++ rest).takeWhile isDigit = ds ∧ (ds ++ rest).dropWhile isDigit = rest := by
  rw [List.takeWhile_append_of_pos hd, List.dropWhile_append_of_pos hd]
  cases rest with
  | nil => exact ⟨List.append_nil ds, rfl⟩
  | cons c rest =>
    have hc : isDigit c = false := h c rfl
    rw [List.takeWhile_cons, List.dropWhile_cons, hc]
    exact ⟨List.append_nil ds, rfl⟩

/-- **A number that is printed is scanned**, behind white space. -/
theorem scanNumber_decimal {w : List UInt8} (hw : ∀ c ∈ w, isSpace c = true) (n : ℕ)
    (h : NoDigit rest) : scanNumber (w ++ decimal n ++ rest) = some ((n : ℤ), rest) := by
  obtain ⟨c, ds, hc⟩ := List.exists_cons_of_ne_nil (decimal_ne_nil n)
  obtain ⟨hspace, hminus, hplus⟩ := not_space_of_isDigit (c := c)
    (isDigit_decimal (by rw [hc]; exact List.mem_cons_self))
  have hdrop : (w ++ decimal n ++ rest).dropWhile isSpace = decimal n ++ rest := by
    rw [List.append_assoc, List.dropWhile_append_of_pos hw, hc, List.cons_append,
      List.dropWhile_cons, hspace]
    rfl
  have hsign : scanSign (decimal n ++ rest) = (false, decimal n ++ rest) := by
    rw [hc, List.cons_append]
    unfold scanSign
    split
    · rename_i heq
      exact absurd (List.cons.inj heq).1 hminus
    · rename_i heq
      exact absurd (List.cons.inj heq).1 hplus
    · rfl
  obtain ⟨htake, hdropd⟩ := takeWhile_noDigit (fun d hd => isDigit_decimal (n := n) hd) h
  unfold scanNumber
  simp only [hdrop, hsign, htake, hdropd, if_neg (decimal_ne_nil n), digitsValue_decimal]
  rfl

/-! ### Lines with a number -/

/-- What a line of the headers does to `length` and `csum`. -/
def scanHeader (v : ℤ × ℕ) (line : List UInt8) : Option (ℤ × ℕ) := do
  let length ← scanTag scanD (text "Content-Length:") line v.1
  let csum ← scanTag scanU (text "Content-Csum:") line v.2
  return (length, csum)

theorem scanTag_other {α : Type} {scan : List UInt8 → Option (Option (α × List UInt8))}
    {tag buf : List UInt8} (h : ¬tag <+: buf) (var : α) : scanTag scan tag buf var = some var :=
  if_neg h

/-- Strings that differ early on. -/
theorem prefix_differs {tag p x : List UInt8} (k : ℕ) (ht : k ≤ tag.length) (hp : k ≤ p.length)
    (h : tag.take k ≠ p.take k) : ¬tag <+: p ++ x := by
  intro ⟨y, hy⟩
  have htake := congrArg (List.take k) hy
  rw [List.take_append_of_le_length hp, List.take_append_of_le_length ht] at htake
  exact h htake

theorem scanTag_found {α : Type} {scan : List UInt8 → Option (Option (α × List UInt8))}
    {tag s : List UInt8} {x : α} (h : scan s = some (some (x, rest))) (var : α) :
    scanTag scan tag (tag ++ s) var = some x := by
  unfold scanTag
  rw [if_pos (List.prefix_append tag s), List.drop_left, h]
  rfl

/-- The line with the length. -/
theorem scanHeader_length {n : ℕ} (hn : n < 2 ^ 31) (v : ℤ × ℕ) :
    scanHeader v (Response.lengthLine n ++ [13, 10]) = some ((n : ℤ), v.2) := by
  have hline : Response.lengthLine n ++ [13, 10] =
      text "Content-Length:" ++ (text " " ++ decimal n ++ [13, 10]) := by
    have htext : text "Content-Length: " = text "Content-Length:" ++ text " " := by decide
    unfold Response.lengthLine
    rw [htext]
    simp only [List.append_assoc]
  have hscan : scanD (text " " ++ decimal n ++ [13, 10]) = some (some ((n : ℤ), [13, 10])) := by
    unfold scanD
    rw [scanNumber_decimal (List.all_eq_true.1 (by decide)) n (noDigit_cons (by decide))]
    exact if_pos ⟨by omega, by exact_mod_cast hn⟩
  have hother : ¬text "Content-Csum:" <+: text "Content-Length:" ++
      (text " " ++ decimal n ++ [13, 10]) := prefix_differs 9 (by decide) (by decide) (by decide)
  unfold scanHeader
  rw [hline, scanTag_found hscan, scanTag_other hother]
  rfl

/-- The line with the checksum. -/
theorem scanHeader_csum {c : ℕ} (hc : c < 2 ^ 32) (v : ℤ × ℕ) :
    scanHeader v (Response.csumLine c ++ [13, 10]) = some (v.1, c) := by
  have hline : Response.csumLine c ++ [13, 10] =
      text "Content-Csum:" ++ (text " " ++ decimal c ++ [13, 10]) := by
    have htext : text "Content-Csum: " = text "Content-Csum:" ++ text " " := by decide
    unfold Response.csumLine
    rw [htext]
    simp only [List.append_assoc]
  have hscan : scanU (text " " ++ decimal c ++ [13, 10]) = some (some (c, [13, 10])) := by
    have hmod : ((c : ℤ) % 2 ^ 32).toNat = c := by omega
    unfold scanU
    rw [scanNumber_decimal (List.all_eq_true.1 (by decide)) c (noDigit_cons (by decide))]
    simp only
    rw [if_pos ⟨by omega, by exact_mod_cast hc⟩, hmod]
  have hother : ¬text "Content-Length:" <+: text "Content-Csum:" ++
      (text " " ++ decimal c ++ [13, 10]) := prefix_differs 9 (by decide) (by decide) (by decide)
  unfold scanHeader
  rw [hline, scanTag_other hother, scanTag_found hscan]
  rfl

/-- A line that the client does not look for. -/
def Unlooked (l : List UInt8) : Prop :=
  ¬text "Content-Length:" <+: l ∧ ¬text "Content-Csum:" <+: l

theorem scanHeader_other {l : List UInt8} (h : Unlooked l) (v : ℤ × ℕ) :
    scanHeader v l = some v := by
  unfold scanHeader
  rw [scanTag_other h.1, scanTag_other h.2]
  rfl

end OSLab.Webserver
