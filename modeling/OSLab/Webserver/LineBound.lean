import OSLab.Webserver.Headers

/-!
# Where a line is stored (`webserver/common.c`)

`rio_readlineb` stores a line of at most `maxlen` bytes and a NUL behind it. The loop ends at a
newline, at the end of file, after `maxlen` bytes, or when `read` fails; the end of file in front
of the first byte returns at once.

* `readb_next`: a call of `rio_readb` takes the next byte, whatever `read` does behind it.
* `readlineb_end`: what the call stores and returns, for every connection.
* `readlineb_within_iff`: it stays within `maxlen` bytes and ends what it returns with a NUL if and
  only if the line is shorter than `maxlen` and there is one.
-/

namespace OSLab.Webserver

namespace Rio

/-- The bytes that `read` delivers up to the first end of file or failure. -/
def arriving : List Read → List UInt8
  | [] => []
  | .eintr :: fd => arriving fd
  | .fails :: _ => []
  | .bytes chunk _ :: fd => if chunk = [] then [] else chunk ++ arriving fd

/-- Behind these bytes `read` fails. -/
def breaks : List Read → Bool
  | [] => false
  | .eintr :: fd => breaks fd
  | .fails :: _ => true
  | .bytes chunk _ :: fd => if chunk = [] then false else breaks fd

/-- The call stored at most `maxlen` bytes, and unless it failed these are the bytes it returned
and a NUL. -/
structure Line.Within (maxlen : ℕ) (l : Line) : Prop where
  bound : l.stored.length ≤ maxlen
  ended : 0 ≤ l.ret → (l.bytes.length : ℤ) = l.ret ∧ l.stored = l.bytes ++ [0]

variable {rp rp' : Rio} {fd fd' : List Read} {maxlen m : ℕ} {line stored s : List UInt8} {br : Bool}

/-! ### One byte -/

theorem readb_held (h : refill fd rp = (none, rp', fd')) (hpos : 0 < rp'.cnt) :
    ∃ c rest rp'', rp'.held = c :: rest ∧ rp.readb fd 1 = (1, [c], rp'', fd') ∧
      rp''.held = rest := by
  have hle : min 1 rp'.cnt.toNat ≤ rp'.cnt.toNat := min_le_right _ _
  have hone : ((min 1 rp'.cnt.toNat : ℕ) : ℤ) = 1 := by omega
  have hsplit := held_advance hle
  have hlen : ((rp'.buf.drop rp'.bufptr).take (min 1 rp'.cnt.toNat)).length = 1 := by
    have := rp'.inBuf
    rw [List.length_take, List.length_drop, rp'.size]
    omega
  obtain ⟨c, hc⟩ := List.length_eq_one_iff.1 hlen
  refine ⟨c, (rp'.advance _ hle).held, rp'.advance _ hle, ?_, ?_, rfl⟩
  · rw [← hsplit, hc]
    rfl
  · rw [readb, h]
    simp only [hc]
    rw [hone]

/-- **The next byte**, or what `read` returns when there is none. -/
theorem readb_next (rp : Rio) (fd : List Read) :
    (∃ c rest rp' fd', rp.held ++ arriving fd = c :: rest ∧ rp.readb fd 1 = (1, [c], rp', fd') ∧
      rp'.held ++ arriving fd' = rest ∧ breaks fd' = breaks fd) ∨
    (rp.held ++ arriving fd = [] ∧
      ∃ rp' fd', rp.readb fd 1 = (if breaks fd then -1 else 0, [], rp', fd')) := by
  by_cases hpos : 0 < rp.cnt
  · have hrefill : refill fd rp = (none, rp, fd) := by
      cases fd <;> exact if_pos hpos
    obtain ⟨c, rest, rp', hheld, hread, hrest⟩ := readb_held hrefill hpos
    exact Or.inl ⟨c, rest ++ arriving fd, rp', fd, by rw [hheld]; rfl, hread, by rw [hrest], rfl⟩
  -- the buffer is empty: the next calls of `read` decide
  rw [held_nil (not_lt.1 hpos), List.nil_append]
  induction fd generalizing rp with
  | nil =>
    refine Or.inr ⟨rfl, rp.setCnt 0 le_rfl, [], ?_⟩
    rw [readb, refill, if_neg hpos]
    rfl
  | cons r fd ih =>
    cases r with
    | eintr =>
      have hneg : ¬0 < (rp.setCnt (-1) (by decide)).cnt := by simp [setCnt]
      have hread : rp.readb (.eintr :: fd) 1 = (rp.setCnt (-1) (by decide)).readb fd 1 := by
        rw [readb, refill, if_neg hpos]
        rfl
      rw [hread]
      exact ih _ hneg
    | fails =>
      refine Or.inr ⟨rfl, rp.setCnt (-1) (by decide), fd, ?_⟩
      rw [readb, refill, if_neg hpos]
      rfl
    | bytes chunk fits =>
      by_cases hnil : chunk = []
      · have hzero : chunk.length = 0 := List.length_eq_zero_iff.2 hnil
        refine Or.inr ⟨if_pos hnil, rp.setCnt 0 le_rfl, fd, ?_⟩
        rw [readb, refill, if_neg hpos]
        simp only [if_true, breaks, hnil]
        rfl
      · have hzero : chunk.length ≠ 0 := fun h0 => hnil (List.length_eq_zero_iff.1 h0)
        have hcnt : 0 < (rp.fill chunk fits).cnt := by
          simp only [fill]
          omega
        have hrefill : refill (.bytes chunk fits :: fd) rp = (none, rp.fill chunk fits, fd) := by
          rw [refill, if_neg hpos]
          simp only [hzero, if_false]
          cases fd <;> exact if_pos hcnt
        obtain ⟨c, rest, rp', hheld, hread, hrest⟩ := readb_held hrefill hcnt
        rw [held_fill] at hheld
        refine Or.inl ⟨c, rest ++ arriving fd, rp', fd, ?_, hread, by rw [hrest], ?_⟩
        · rw [arriving, if_neg hnil, hheld]
          rfl
        · rw [breaks, if_neg hnil]

/-! ### One line -/

/-- What the loop stores and returns when `line` is the rest of the line, at most `m` bytes: a line
that is neither ended nor full is cut off by the end of file or by a failure. -/
def lineEnd (m : ℕ) (line : List UInt8) (br : Bool) (stored : List UInt8) : Line :=
  if line.getLast? = some 10 ∨ line.length = m then
    ⟨(stored ++ line).length, stored ++ line ++ [0]⟩
  else if br then ⟨-1, stored ++ line⟩
  else lineRead (stored ++ line)

/-- A byte that does not end the line goes in front of the rest. -/
theorem lineEnd_cons {c : UInt8} (hc : c ≠ 10) :
    lineEnd (m + 1) (c :: line) br stored = lineEnd m line br (stored ++ [c]) := by
  have hlast : (c :: line).getLast? = some 10 ↔ line.getLast? = some 10 := by
    cases line with
    | nil => simpa using hc
    | cons d line => rw [List.getLast?_cons_cons]
  unfold lineEnd
  simp only [hlast, List.length_cons, Nat.add_right_cancel_iff, List.append_assoc,
    List.singleton_append, List.length_append]

theorem lineLoop_end (left : ℕ) (stored : List UInt8) (rp : Rio) (fd : List Read)
    (hint : stored.length < 2 ^ 31) :
    (stored.length + (lineOf left (rp.held ++ arriving fd)).1.length < 2 ^ 31 ∧
      ∃ rp' fd', lineLoop left stored rp fd = some
        (lineEnd left (lineOf left (rp.held ++ arriving fd)).1 (breaks fd) stored, rp', fd')) ∨
      (2 ^ 31 ≤ stored.length + (lineOf left (rp.held ++ arriving fd)).1.length ∧
        lineLoop left stored rp fd = none) := by
  induction left generalizing stored rp fd with
  | zero =>
    -- the length limit
    refine Or.inl ⟨hint, rp, fd, ?_⟩
    simp [lineLoop, lineOf, lineEnd]
  | succ left ih =>
    rw [lineLoop]
    rcases readb_next rp fd with ⟨c, rest, rp', fd', hs, he, hs', hb⟩ | ⟨hs, rp', fd', he⟩
    · rw [hs, he]
      simp only [if_true]
      by_cases hmax : stored.length + 1 = 2 ^ 31
      · rw [if_pos hmax]
        refine Or.inr ⟨?_, rfl⟩
        have hne : (lineOf (left + 1) (c :: rest)).1 ≠ [] := by
          intro h0
          cases lineOf_eq_nil (Nat.succ_pos left) h0
        have := List.length_pos_iff.2 hne
        omega
      rw [if_neg hmax]
      by_cases hc : c = 10
      · -- the newline
        subst hc
        have hline : lineOf (left + 1) (10 :: rest) = ([10], rest) := by
          rw [lineOf, if_pos rfl]
        rw [if_pos rfl, hline]
        refine Or.inl ⟨?_, rp', fd', ?_⟩
        · rw [List.length_singleton]
          omega
        · simp [lineEnd]
      · have hline : lineOf (left + 1) (c :: rest) =
            (c :: (lineOf left rest).1, (lineOf left rest).2) := by
          rw [lineOf, if_neg hc]
        have hlen : (stored ++ [c]).length = stored.length + 1 := by simp
        have hrest := ih (stored ++ [c]) rp' fd' (by omega)
        rw [hs', hb, hlen] at hrest
        rw [if_neg (by simpa using hc), hline, lineEnd_cons hc, List.length_cons, Nat.add_comm _ 1,
          ← Nat.add_assoc]
        exact hrest
    · rw [hs, he]
      have hline : lineOf (left + 1) [] = ([], []) := rfl
      rw [hline]
      refine Or.inl ⟨hint, rp', fd', ?_⟩
      cases hb : breaks fd with
      | true =>
        -- `read` fails
        simp [lineEnd]
      | false =>
        -- the end of file
        by_cases hnil : stored = []
        · simp [hnil, lineEnd, lineRead]
        · simp [hnil, lineEnd, lineRead]

/-- **What a call stores and returns**, for every connection. -/
theorem readlineb_end (rp : Rio) (fd : List Read) (maxlen : ℕ) :
    ((lineOf maxlen (rp.held ++ arriving fd)).1.length < 2 ^ 31 ∧
      ∃ rp' fd', rp.readlineb fd maxlen = some
        (lineEnd maxlen (lineOf maxlen (rp.held ++ arriving fd)).1 (breaks fd) [], rp', fd')) ∨
      (2 ^ 31 ≤ (lineOf maxlen (rp.held ++ arriving fd)).1.length ∧
        rp.readlineb fd maxlen = none) := by
  have h := lineLoop_end maxlen [] rp fd (by decide)
  rw [List.length_nil, Nat.zero_add] at h
  exact h

theorem within_nul (hle : line.length < maxlen) :
    (⟨line.length, line ++ [0]⟩ : Line).Within maxlen where
  bound := by
    rw [List.length_append, List.length_singleton]
    exact hle
  ended _ := by simp [Line.bytes]

theorem lineEnd_within_iff (hmax : 1 ≤ maxlen) (hle : line.length ≤ maxlen) :
    (lineEnd maxlen line br []).Within maxlen ↔
      line.length < maxlen ∧ (line ≠ [] ∨ br = true) := by
  unfold lineEnd
  rw [List.nil_append]
  by_cases hfull : line.getLast? = some 10 ∨ line.length = maxlen
  · rw [if_pos hfull]
    have hne : line ≠ [] := by
      rintro rfl
      rcases hfull with hlast | hlen
      · cases hlast
      · rw [List.length_nil] at hlen
        omega
    constructor
    · intro h
      have hbound := h.bound
      rw [List.length_append, List.length_singleton] at hbound
      exact ⟨hbound, Or.inl hne⟩
    · intro ⟨hlt, _⟩
      exact within_nul hlt
  · rw [if_neg hfull]
    have hlt : line.length < maxlen := by
      have := mt Or.inr hfull
      omega
    cases br with
    | true =>
      rw [if_pos rfl]
      refine ⟨fun _ => ⟨hlt, Or.inr rfl⟩, fun _ => ⟨hle, ?_⟩⟩
      intro hneg
      have hneg : (0 : ℤ) ≤ -1 := hneg
      omega
    | false =>
      rw [if_neg (by decide)]
      unfold lineRead
      by_cases hnil : line = []
      · -- the end of file at once: no NUL
        rw [if_pos hnil]
        constructor
        · intro h
          have := (h.ended le_rfl).2
          simp at this
        · intro ⟨_, h⟩
          rcases h with h | h
          · exact absurd hnil h
          · cases h
      · rw [if_neg hnil]
        exact ⟨fun _ => ⟨hlt, Or.inl hnil⟩, fun _ => within_nul hlt⟩

/-- **When a line stays within its array.** `rio_readlineb` stores at most `maxlen` bytes and ends
what it returns with a NUL if and only if the line is shorter than `maxlen`, its length is an
`int`, and the connection is not at its end. -/
theorem readlineb_within_iff (rp : Rio) (fd : List Read) (hmax : 1 ≤ maxlen) :
    (∃ l rp' fd', rp.readlineb fd maxlen = some (l, rp', fd') ∧ l.Within maxlen) ↔
      (lineOf maxlen (rp.held ++ arriving fd)).1.length < maxlen ∧
      (lineOf maxlen (rp.held ++ arriving fd)).1.length < 2 ^ 31 ∧
      (rp.held ++ arriving fd ≠ [] ∨ breaks fd = true) := by
  have hle := lineOf_length_le maxlen (rp.held ++ arriving fd)
  have hnil : (lineOf maxlen (rp.held ++ arriving fd)).1 ≠ [] ↔ rp.held ++ arriving fd ≠ [] := by
    constructor
    · intro h h0
      rw [h0] at h
      cases maxlen <;> exact h rfl
    · intro h h0
      exact h (lineOf_eq_nil hmax h0)
  rcases readlineb_end rp fd maxlen with ⟨hint, rp', fd', he⟩ | ⟨hint, he⟩
  · rw [he]
    constructor
    · rintro ⟨l, rp₁, fd₁, heq, hw⟩
      cases heq
      obtain ⟨hlt, hend⟩ := (lineEnd_within_iff hmax hle).1 hw
      rw [hnil] at hend
      exact ⟨hlt, hint, hend⟩
    · intro ⟨hlt, _, hend⟩
      rw [← hnil] at hend
      exact ⟨_, rp', fd', rfl, (lineEnd_within_iff hmax hle).2 ⟨hlt, hend⟩⟩
  · rw [he]
    constructor
    · rintro ⟨l, rp₁, fd₁, heq, -⟩
      cases heq
    · intro ⟨_, hlt, _⟩
      omega

/-- A short line at the beginning of a connection. -/
theorem readlineb_within_short : ∃ l rp' fd',
    (init zeros zeros_length).readlineb [.bytes (text "ab\n") (by decide)] 4 =
      some (l, rp', fd') ∧ l.Within 4 := by
  have hs : (init zeros zeros_length).held ++ arriving [.bytes (text "ab\n") (by decide)] =
      text "ab\n" := by
    rw [held_nil le_rfl]
    rfl
  rw [readlineb_within_iff _ _ (by decide), hs]
  decide

theorem lineOf_replicate {c : UInt8} (hc : c ≠ 10) (m : ℕ) :
    lineOf m (List.replicate m c) = (List.replicate m c, []) := by
  induction m with
  | zero => rfl
  | succ m ih => rw [List.replicate_succ, lineOf, if_neg hc, ih]

/-- A request line that fills the array: the NUL is stored behind it. At the end of file nothing is
stored. -/
theorem line_past_end :
    (∃ fits l rp' fd', (init zeros zeros_length).readlineb
        [.bytes (List.replicate maxLine 97) fits] maxLine = some (l, rp', fd') ∧
      l.stored.length = maxLine + 1 ∧ ¬l.Within maxLine) ∧
    ∃ rp' fd', (init zeros zeros_length).readlineb [] maxLine = some (⟨0, []⟩, rp', fd') ∧
      ¬(⟨0, []⟩ : Line).Within maxLine := by
  have hfits : (List.replicate maxLine (97 : UInt8)).length ≤ rioBufSize := by
    rw [List.length_replicate]
    decide
  have hheld : (init zeros zeros_length).held = [] := held_nil le_rfl
  constructor
  · refine ⟨hfits, ?_⟩
    have hne : List.replicate maxLine (97 : UInt8) ≠ [] := by
      rw [ne_eq, List.replicate_eq_nil_iff]
      decide
    have hs : (init zeros zeros_length).held ++
        arriving [.bytes (List.replicate maxLine 97) hfits] = List.replicate maxLine 97 := by
      rw [hheld, arriving, if_neg hne, arriving, List.append_nil, List.nil_append]
    have h := readlineb_end (init zeros zeros_length)
      [.bytes (List.replicate maxLine 97) hfits] maxLine
    rw [hs, lineOf_replicate (by decide), List.length_replicate] at h
    rcases h with ⟨-, rp', fd', he⟩ | ⟨hlong, -⟩
    · have hlen : (lineEnd maxLine (List.replicate maxLine 97)
          (breaks [.bytes (List.replicate maxLine 97) hfits]) []).stored.length = maxLine + 1 := by
        unfold lineEnd
        rw [if_pos (Or.inr List.length_replicate)]
        simp
      refine ⟨_, rp', fd', he, hlen, ?_⟩
      intro hw
      have hbound := hw.bound
      simp only [hlen] at hbound
      omega
    · exact absurd hlong (by decide)
  · have h := readlineb_end (init zeros zeros_length) [] maxLine
    rw [hheld] at h
    rcases h with ⟨-, rp', fd', he⟩ | ⟨hlong, -⟩
    · refine ⟨rp', fd', he, ?_⟩
      intro hw
      have := (hw.ended le_rfl).2
      simp at this
    · exact absurd hlong (by decide)

end Rio

end OSLab.Webserver
